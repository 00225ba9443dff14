import LuaUnpack.Proofs.Dispatch.EqualityChain
import LuaUnpack.Proofs.Dispatch.Splitting
import LuaUnpack.Proofs.Script.Straightening

/-!
# Counted loops over a state

A loop that counts through the states of a dispatch runs the code of one state after the other,
and it is replaced by such code. Its bounds are not looked at, apart from that they have to be
numbers: the states are those that are found for the dispatch, in ascending order, and a
dispatch that cannot be solved is an error. A minus sign before a bound keeps the loop as it is.

So the code is that of a run of the loop if the states that are found are those between the
bounds, as they are for a search among these (`Dispatch.Cascade.Searches`).
-/

namespace LuaUnpack.Script

open LuaUnpack.Lua LuaUnpack.Dispatch

namespace Flow

/-! ## The code of a dispatch -/

mutual

/-- What is selected from a block stands in it. -/
theorem mem_of_mem_selectBlock {name : String} {state : Int} {s : Stmt} : (body : List Stmt) →
    s ∈ selectBlock name state body → .stmt s ∈ Node.ofStmts (fun _ => true) body
  | [], h => absurd h List.not_mem_nil
  | [stmt], h => List.mem_append_left _ (mem_of_mem_selectOnly stmt h)
  | _ :: _ :: _, h => mem_ofStmts h

theorem mem_of_mem_selectOnly {name : String} {state : Int} {s : Stmt} : (stmt : Stmt) →
    s ∈ selectOnly name state stmt → .stmt s ∈ Node.ofStmt (fun _ => true) stmt
  | .ifThen condition body otherwise, h => by
    rw [selectOnly] at h
    split at h
    · exact List.mem_cons_of_mem _ (mem_of_mem_selectElse (.elseIf condition body otherwise) h)
    · obtain rfl := List.mem_singleton.1 h
      exact List.mem_cons_self
  | .localVars .., h | .localFunction .., h | .functionDecl .., h | .assign .., h | .call .., h
  | .block .., h | .whileLoop .., h | .repeatLoop .., h | .numericFor .., h | .genericFor .., h
  | .ret .., h | .exit, h | .goto .., h | .label .., h => by
    obtain rfl := List.mem_singleton.1 h
    exact mem_ofStmt _

theorem mem_of_mem_selectElse {name : String} {state : Int} {s : Stmt} : (otherwise : Else) →
    s ∈ selectElse name state otherwise → .stmt s ∈ Node.ofElse (fun _ => true) otherwise
  | .done, h => absurd h List.not_mem_nil
  | .block body, h => mem_of_mem_selectBlock body h
  | .elseIf condition body otherwise, h => by
    rw [selectElse] at h
    split at h
    · exact List.mem_append_left _ (List.mem_append_right _ (mem_of_mem_selectBlock body h))
    · exact List.mem_append_right _ (mem_of_mem_selectElse otherwise h)

end

/-- What a dispatch selects stands in it. -/
theorem mem_of_mem_select {name : String} {state : Int} {s stmt : Stmt}
    (h : s ∈ select name state stmt) : .stmt s ∈ Node.ofStmt (fun _ => true) stmt := by
  cases stmt with
  | ifThen condition body otherwise =>
    exact List.mem_cons_of_mem _ (mem_of_mem_selectElse (.elseIf condition body otherwise) h)
  | _ =>
    obtain rfl := List.mem_singleton.1 h
    exact mem_ofStmt _

end Flow

/-- The code that a dispatch selects for states, one after the other. -/
def selectAll (name : String) (tree : Stmt) (states : List Int) : Block :=
  states.flatMap fun state => select name state tree

/-- Whether an `if` compares a state with integers, and its code neither leaves a block nor
    repeats one. -/
structure IsDispatch (name : String) (tree : Stmt) : Prop where
  isIf : ∃ condition body otherwise, tree = .ifThen condition body otherwise
  isStateTest : ∀ condition ∈ conditionsOf name tree, IsStateTest name condition
  isStraight : ∀ s, .stmt s ∈ Node.ofStmt (fun _ => true) tree → Flow.isStraight s = true

namespace IsDispatch

variable {name : String} {tree : Stmt} {dict : Dict Int Block} (htree : IsDispatch name tree)
include htree

theorem endsBlock_of_mem_selectAll {states : List Int} :
    ∀ s ∈ selectAll name tree states, Flow.endsBlock s = false := by
  intro s hs
  obtain ⟨state, -, hs⟩ := List.mem_flatMap.1 hs
  exact Flow.endsBlock_of_isStraight (htree.isStraight s (Flow.mem_of_mem_select hs))

/-- The code of a solved dispatch is what the dispatch selects for the states that are found. -/
theorem solves (h : solve name tree = .ok dict) :
    dict.Ascending ∧ dict.flatMap (·.2) = selectAll name tree (dict.map (·.1)) := by
  obtain ⟨cascade, hread, hdict⟩ := solve_eq_ok h
  have hsolves := solves_of_solveLeaves cascade.pairwise_apart_leaves hdict
  refine ⟨hsolves.ascending, ?_⟩
  rw [selectAll, List.flatMap_map]
  refine List.flatMap_congr fun ⟨state, body⟩ hmem => ?_
  obtain ⟨leaf, hleaf, hstate, rfl⟩ := (hsolves.mem_iff state body).1 hmem
  -- The state of a leaf passes the tests on the way, which are the conditions of the dispatch.
  rw [← Cascade.follow_of_ofStmt hread htree.isStateTest]
  exact (Cascade.follow_of_mem_leaves hleaf (Leaf.passes_of_state? hstate)).symm

theorem exists_cascade : ∃ cascade, Cascade.ofStmt name tree = .ok cascade ∧
    ∀ test ∈ cascade.tests, test.constant < Test.maxState := by
  obtain ⟨condition, body, otherwise, rfl⟩ := htree.isIf
  obtain ⟨cascade, hread, htests⟩ := Cascade.reads_ofStmt htree.isStateTest
  refine ⟨cascade, hread, fun test htest => ?_⟩
  obtain ⟨c, hc, htest⟩ := htests test htest
  obtain ⟨op, x, z, rfl, hvalue, hz⟩ := htree.isStateTest c hc
  rw [Cascade.testOf, Decimal.Binary64.toInt_toInt64 hvalue hz] at htest
  cases htest
  have hmax : Test.maxState = 2 ^ 63 - 1 := rfl
  have hhigh := (abs_lt.1 hz).2
  -- The largest word is no literal.
  by_contra hlast
  have hlast : Test.maxState ≤ z := not_lt.1 hlast
  have hdvd := Decimal.Binary64.four_dvd_of_value? hvalue (by omega)
  omega

/-- The states of a search are words, since the constants are. -/
theorem le_maxState {cascade : Cascade} {a b : Int} (hread : Cascade.ofStmt name tree = .ok cascade)
    (h : cascade.Searches a b) : b ≤ Test.maxState := by
  obtain ⟨cascade', hread', hwords⟩ := htree.exists_cascade
  obtain rfl := Except.ok.inj (hread'.symm.trans hread)
  obtain ⟨test, yes, no, rfl⟩ := Cascade.eq_branch_of_ofStmt hread
  obtain ⟨last, hlast, hb⟩ := h.exists_constant h.lt_of_branch
  have := hwords last hlast
  omega

end IsDispatch

/-! ## Loops -/

/-- Whether an expression is a number, with or without a minus sign. -/
inductive IsBound : Expr → Prop
  | number (x : Float) : IsBound (.number x)
  | minus (x : Float) : IsBound (.unary .negate (.number x))

namespace Flow

variable {name : String} {start limit : Expr} {tree : Stmt}

theorem not_mem_of_isBound {e : Expr} (h : IsBound e) (s : Stmt) :
    .stmt s ∉ Node.ofExpr (fun _ => true) e := by
  cases h <;> simp [Node.ofExpr, Node.above]

theorem isSingleShot_of_isDispatch (h : IsDispatch name tree) : isSingleShot [tree] = false := by
  obtain ⟨condition, body, otherwise, rfl⟩ := h.isIf
  have hbody (s : Stmt) (hs : s ∈ body) : isTerminator s = false := by
    have hstraight := h.isStraight s (List.mem_cons_of_mem _
      (List.mem_append_left _ (List.mem_append_right _ (mem_ofStmts hs))))
    cases s <;> first | rfl | cases hstraight
  -- The body of the loop is a single `if`, so that only its first block can end the loop.
  have hlast : body.getLast?.any isTerminator = false := by
    rcases hlast : body.getLast? with _ | s
    · rfl
    · exact hbody s (List.mem_of_getLast? hlast)
  rw [isSingleShot, hlast]
  rfl

/-- A loop over a dispatch is kept by the walk. -/
theorem run_onStmts_loop (hstart : IsBound start) (hlimit : IsBound limit)
    (htree : IsDispatch name tree) :
    (mapper.onStmts [.numericFor name start limit none [tree]]).run 0 =
      .ok ([.numericFor name start limit none [tree]], 0) := by
  -- Nothing below the loop is a state machine, so the parts of the loop are kept.
  have hinner := ((straightens_onExpr start).bind fun s => (straightens_onExpr limit).bind fun l =>
    (straightens_body [tree]).map (Stmt.numericFor name s l none)).keeps fun s hs => by
      rcases List.mem_append.1 hs with hs | hs
      · exact absurd hs (not_mem_of_isBound hstart s)
      rcases List.mem_append.1 hs with hs | hs
      · exact absurd hs (not_mem_of_isBound hlimit s)
      · exact htree.isStraight s (List.append_nil (Node.ofStmt _ tree) ▸ hs)
  have hstraighten : straighten (.numericFor name start limit none [tree]) =
      .numericFor name start limit none [tree] := by
    rw [straighten, choiceBlock?, isSingleShot_of_isDispatch htree, if_neg Bool.false_ne_true]
    rfl
  have hstmt : (mapper.onStmt (.numericFor name start limit none [tree])).run 0 =
      .ok (.numericFor name start limit none [tree], 0) := by
    rw [Mapper.onStmt]
    change (_ >>= fun s => pure (straighten s) : Solving Stmt).run 0 = _
    rw [StateT.run_bind, hinner]
    exact congrArg (fun s => Except.ok (s, 0)) hstraighten
  rw [Mapper.onStmts, StateT.run_bind, hstmt]
  rfl

theorem stateMachine?_loop (x y : Float) (h : IsDispatch name tree) :
    stateMachine? (.numericFor name (.number x) (.number y) none [tree]) = some (name, tree) := by
  obtain ⟨condition, body, otherwise, rfl⟩ := h.isIf
  rfl

theorem stateMachine?_minus (hstart : IsBound start) (hlimit : IsBound limit)
    (h : ∃ x, start = .unary .negate (.number x) ∨ limit = .unary .negate (.number x)) :
    stateMachine? (.numericFor name start limit none [tree]) = none := by
  obtain ⟨x, rfl | rfl⟩ := h
  · rfl
  · cases hstart <;> rfl

end Flow

section

variable {name : String} {start limit : Expr} {tree : Stmt} {after after' : Block} {m : Nat}
  (htree : IsDispatch name tree) (hafter : straightenFlow after = .ok (after', m))
include htree hafter

/-- A loop between two numbers is replaced by the code of the states that are found. -/
theorem straightenFlow_loop (x y : Float) :
    straightenFlow (.numericFor name (.number x) (.number y) none [tree] :: after) =
      (solve name tree).map fun dict =>
        (selectAll name tree (dict.map (·.1)) ++ after', 1 + m) := by
  have hkept := Flow.run_onStmts_loop (.number x) (.number y) htree
  -- What is left to do at the loop is to solve its dispatch.
  have hunfold : (Flow.unfold (.numericFor name (.number x) (.number y) none [tree])).run 0 =
      (solve name tree).map fun dict => (selectAll name tree (dict.map (·.1)), 1) := by
    rw [Flow.run_unfold (Flow.stateMachine?_loop x y htree)]
    rcases hsolve : solve name tree with e | dict
    · rfl
    · exact congrArg (fun code => Except.ok (code, 1)) (htree.solves hsolve).2
  rw [straightenFlow_cons hkept _ hafter, hunfold]
  · cases solve name tree <;> rfl
  · intro p hp
    rw [hunfold] at hp
    cases hsolve : solve name tree with
    | error e =>
      rw [hsolve] at hp
      cases hp
    | ok dict =>
      rw [hsolve] at hp
      cases hp
      exact htree.endsBlock_of_mem_selectAll

/-- A loop with a minus sign before a bound is kept. -/
theorem straightenFlow_loop_minus (hstart : IsBound start) (hlimit : IsBound limit)
    (h : ∃ x, start = .unary .negate (.number x) ∨ limit = .unary .negate (.number x)) :
    straightenFlow (.numericFor name start limit none [tree] :: after) =
      .ok (.numericFor name start limit none [tree] :: after', m) := by
  have hunfold : (Flow.unfold (.numericFor name start limit none [tree])).run 0 =
      .ok ([.numericFor name start limit none [tree]], 0) := by
    rw [Flow.unfold_of_none (Flow.stateMachine?_minus hstart hlimit h)]
    rfl
  rw [straightenFlow_cons (Flow.run_onStmts_loop hstart hlimit htree) _ hafter, hunfold]
  · exact congrArg (fun count => Except.ok (_, count)) (Nat.zero_add m)
  · intro p hp
    rw [hunfold] at hp
    cases hp
    exact List.forall_mem_singleton.2 rfl

end

/-- In every block of a script, with `k` loops solved before it, a loop that counts from one
    number to another over a dispatch is replaced by the code that the dispatch selects for the
    states that are found for it, in ascending order. Comparisons with integers from -1 on can
    be solved. In a search among `a, ..., b` the states are `a, ..., b`, unless a leaf stands
    right at the far side of a test for equality with `a`. A minus sign before a bound keeps the
    loop. -/
theorem onBlock_countedLoop {name : String} {start limit : Expr} {tree : Stmt}
    {block before before' after after' : Block} {n m : Nat} (htree : IsDispatch name tree)
    (hstart : IsBound start) (hlimit : IsBound limit)
    (hblock : block = before ++ .numericFor name start limit none [tree] :: after)
    (hbefore : straightenFlow before = .ok (before', n))
    (hends : ∀ s ∈ before', Flow.endsBlock s = false)
    (hafter : straightenFlow after = .ok (after', m)) (k : Nat) :
    ((∃ x y, start = .number x ∧ limit = .number y) →
      (Flow.mapper.onBlock block).run k = ((solve name tree).map fun dict =>
          (before' ++ (selectAll name tree (dict.map (·.1)) ++ after'), k + (n + (1 + m)))) ∧
        (∀ dict, solve name tree = .ok dict → dict.Ascending) ∧
        ∃ cascade, Cascade.ofStmt name tree = .ok cascade ∧
          ((∀ test ∈ cascade.tests, test.op.isComparison = true ∧ -1 ≤ test.constant) →
            ∃ dict, solve name tree = .ok dict) ∧
          ∀ a b, cascade.Searches a b → 0 ≤ a →
            (a = 0 ∨ ∀ leaf ∈ cascade.leaves, leaf.candidates ≠ (a - 1, a + 1)) →
            (Flow.mapper.onBlock block).run k =
              .ok (before' ++ (selectAll name tree (Leaf.statesIn (a, b)) ++ after'),
                k + (n + (1 + m)))) ∧
      ((∃ x, start = .unary .negate (.number x) ∨ limit = .unary .negate (.number x)) →
        (Flow.mapper.onBlock block).run k =
          .ok (before' ++ .numericFor name start limit none [tree] :: after', k + (n + m))) := by
  subst hblock
  -- What stands before the loop does not depend on it, and adds to the count.
  have hrun : (Flow.mapper.onBlock
      (before ++ .numericFor name start limit none [tree] :: after)).run k =
        (straightenFlow (.numericFor name start limit none [tree] :: after)).map fun p =>
          (before' ++ p.1, k + (n + p.2)) := by
    refine ((Flow.straightens_body _).counts k).trans ?_
    change (straightenFlow (before ++ .numericFor name start limit none [tree] :: after)).map _ = _
    rw [straightenFlow_append hbefore hends]
    cases straightenFlow (.numericFor name start limit none [tree] :: after) <;> rfl
  constructor
  · rintro ⟨x, y, rfl, rfl⟩
    rw [hrun, straightenFlow_loop htree hafter]
    obtain ⟨cascade, hread, hwords⟩ := htree.exists_cascade
    refine ⟨by cases solve name tree <;> rfl, fun dict hdict => (htree.solves hdict).1, cascade,
      hread, fun htests => ?_, fun a b hsearches ha hfirst => ?_⟩
    · rw [solve, hread]
      exact Cascade.exists_solve fun test htest =>
        ⟨(htests test htest).1, (htests test htest).2, Int.le_of_lt (hwords test htest)⟩
    · have hstates : ((Leaf.statesIn (a, b)).map fun s => (s, cascade.follow s)).map (·.1) =
          Leaf.statesIn (a, b) := by
        rw [List.map_map]
        exact List.map_id _
      rw [solve_eq_of_searches hread hsearches ha (htree.le_maxState hread hsearches) hfirst]
      exact congrArg (fun states => Except.ok
        (before' ++ (selectAll name tree states ++ after'), k + (n + (1 + m)))) hstates
  · intro hminus
    rw [hrun, straightenFlow_loop_minus htree hafter hstart hlimit hminus]
    rfl

/-- The chain for the states 1, 2 and 3. -/
def chainTree : Cascade := .equalityChain [(1, marker "a"), (2, marker "b")] (marker "c")

theorem isDispatch_chain : IsDispatch "s" (shortChain 1 2 "a" "b" "c") where
  isIf := ⟨_, _, _, rfl⟩
  isStateTest := by
    have hconditions : conditionsOf "s" (shortChain 1 2 "a" "b" "c") =
        [comparison .eq 1, comparison .eq 2] := rfl
    rw [hconditions, List.forall_mem_cons, List.forall_mem_singleton]
    exact ⟨⟨_, 1, 1, rfl, value?_one, by norm_num⟩, ⟨_, 2, 2, rfl, value?_two, by norm_num⟩⟩
  isStraight := by
    simp [shortChain, comparison, marker, Node.ofStmt, Node.ofStmts, Node.ofElse, Node.ofExpr,
      Node.ofExprs, Node.above, Flow.isStraight]

theorem searches_chainTree : chainTree.Searches 1 3 := by
  have hsplits (c : Int) : Test.Splits ⟨.eq, c⟩ true c c 3 := by
    intro s hlow hhigh
    simp only [Test.holds, beq_iff_eq]
    omega
  exact .branch true (hsplits 1) (.leaf _ 1) (.branch true (hsplits 2) (.leaf _ 2) (.leaf _ 3))

theorem selectAll_chain (states : List Int) :
    selectAll "s" (shortChain 1 2 "a" "b" "c") states = states.flatMap chainTree.follow := by
  refine List.flatMap_congr fun state _ => ?_
  exact (Cascade.follow_of_ofStmt rfl isDispatch_chain.isStateTest state).symm

theorem onBlock_countedLoop_chain :
    IsDispatch "s" (shortChain 1 2 "a" "b" "c") ∧ chainTree.Searches 1 3 ∧
      (∀ leaf ∈ chainTree.leaves, leaf.candidates ≠ (0, 2)) ∧
      (Flow.mapper.onBlock (marker "x" ++
          .numericFor "s" (.number 1) (.number 3) none [shortChain 1 2 "a" "b" "c"] ::
            marker "y")).run 0 =
        .ok (marker "x" ++ (marker "a" ++ marker "b" ++ marker "c" ++ marker "y"), 1) := by
  have hfirst : ∀ leaf ∈ chainTree.leaves, leaf.candidates ≠ (0, 2) := by decide
  have hmarker (text : String) : straightenFlow (marker text) = .ok (marker text, 0) := rfl
  obtain ⟨-, -, cascade, hread, -, hsearches⟩ :=
    (onBlock_countedLoop isDispatch_chain (.number 1) (.number 3) rfl (hmarker "x")
      (List.forall_mem_singleton.2 rfl) (hmarker "y") 0).1 ⟨1, 3, rfl, rfl⟩
  obtain rfl : chainTree = cascade := Except.ok.inj hread
  refine ⟨isDispatch_chain, searches_chainTree, hfirst, ?_⟩
  rw [hsearches 1 3 searches_chainTree (by decide) (.inr hfirst), selectAll_chain]
  rfl

/-- The loop runs for 1 and 2, but the code of 3 is put in its place as well. -/
theorem straightenFlow_shortLoop_exceeds :
    IsDispatch "s" (shortChain 1 2 "a" "b" "c") ∧
      straightenFlow
          [.numericFor "s" (.number 1) (.number 2) none [shortChain 1 2 "a" "b" "c"]] =
        .ok (marker "a" ++ marker "b" ++ marker "c", 1) ∧
      selectAll "s" (shortChain 1 2 "a" "b" "c") (Leaf.statesIn (1, 2)) =
        marker "a" ++ marker "b" ∧
      marker "a" ++ marker "b" ++ marker "c" ≠ marker "a" ++ marker "b" :=
  ⟨isDispatch_chain, rfl, selectAll_chain _, nofun⟩

end LuaUnpack.Script
