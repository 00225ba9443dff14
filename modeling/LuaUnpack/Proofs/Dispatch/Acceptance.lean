import LuaUnpack.Proofs.Dispatch.Splitting

/-!
# Which dispatches can be solved

A condition comes into a cascade by one of three routes (`Route`): it is the first condition
of the dispatch, an `elseif`, or the first condition of an `if` that is all of a block. Only on
the last route is the state looked for on its left; an `if` on something else is code there.
On the other two the left side is taken to be the state, whatever it is.

A cascade is read just if every condition on these routes has a number on its right
(`exists_ofStmt_iff`), and it is solved just if every operator is a comparison and
every leaf has a candidate (`Cascade.exists_solve_iff`).
-/

namespace LuaUnpack.Dispatch

open LuaUnpack.Lua

/-! ## Routes -/

/-- How a condition comes into a cascade. -/
inductive Route where
  | root
  | chained
  | nested
deriving DecidableEq

mutual

/-- The conditions of a block that come into a cascade, with their routes. -/
def routesOfBlock (name : String) : List Stmt → List (Route × Expr)
  | [stmt] => routesOfOnly name stmt
  | _ => []

/-- The conditions of a statement that is all there is. -/
def routesOfOnly (name : String) : Stmt → List (Route × Expr)
  | .ifThen condition body otherwise =>
    if Cascade.testsState name condition then
      (.nested, condition) :: routesOfBlock name body ++ routesOfElse name otherwise
    else
      []
  | _ => []

/-- The conditions of what follows the first block of an `if`. -/
def routesOfElse (name : String) : Else → List (Route × Expr)
  | .done => []
  | .block body => routesOfBlock name body
  | .elseIf condition body otherwise =>
    (.chained, condition) :: routesOfBlock name body ++ routesOfElse name otherwise

end

/-- The conditions of a dispatch statement that come into its cascade, with their routes. -/
def routesOf (name : String) : Stmt → List (Route × Expr)
  | .ifThen condition body otherwise =>
    (.root, condition) :: routesOfBlock name body ++ routesOfElse name otherwise
  | _ => []

/-! ## Reading -/

namespace Cascade

/-- Whether a cascade is read from conditions with their routes: it has the tests of the
    conditions in their order, and cannot be read where one of these makes no test. -/
structure Unfolds (name : String) (read : Except Error Cascade) (routes : List (Route × Expr)) :
    Prop where
  map_tests : read.map tests = (routes.map Prod.snd).mapM testOf
  /-- A nested condition has the state on its left. -/
  nested : ∀ condition, (.nested, condition) ∈ routes → testsState name condition = true

theorem unfolds_leaf (name : String) (body : Block) : Unfolds name (.ok (.leaf body)) [] :=
  ⟨rfl, fun _ h => absurd h List.not_mem_nil⟩

theorem Unfolds.branch {name : String} {readYes readNo : Except Error Cascade}
    {routesYes routesNo : List (Route × Expr)} {route : Route} {condition : Expr}
    (hyes : Unfolds name readYes routesYes) (hno : Unfolds name readNo routesNo)
    (hcondition : route = .nested → testsState name condition = true) :
    Unfolds name (do
      let test ← testOf condition
      let yes ← readYes
      return Cascade.branch test yes (← readNo))
      ((route, condition) :: routesYes ++ routesNo) where
  map_tests := by
    rw [List.cons_append, List.map_cons, List.map_append, List.mapM_cons, List.mapM_append,
      ← hyes.map_tests, ← hno.map_tests]
    -- Reading stops at the first error, and so does the list of what is tested.
    cases testOf condition with
    | error e => rfl
    | ok test =>
      cases readYes with
      | error e => rfl
      | ok yes => cases readNo <;> rfl
  nested c hc := by
    rw [List.cons_append, List.mem_cons, List.mem_append] at hc
    rcases hc with hc | hc | hc
    · obtain ⟨hroute, rfl⟩ := Prod.mk.inj hc
      exact hcondition hroute.symm
    · exact hyes.nested c hc
    · exact hno.nested c hc

mutual

theorem unfolds_ofBlock {name : String} : (body : List Stmt) →
    Unfolds name (ofBlock name body) (routesOfBlock name body)
  | [] => unfolds_leaf name []
  | [stmt] => unfolds_ofOnly stmt
  | _ :: _ :: _ => unfolds_leaf name _

theorem unfolds_ofOnly {name : String} : (stmt : Stmt) →
    Unfolds name (ofOnly name stmt) (routesOfOnly name stmt)
  | .ifThen condition body otherwise => by
    rw [ofOnly, routesOfOnly]
    split
    · rename_i htests
      exact (unfolds_ofBlock body).branch (unfolds_ofElse otherwise) fun _ => htests
    · exact unfolds_leaf name _
  | .localVars .. | .localFunction .. | .functionDecl .. | .assign .. | .call .. | .block ..
  | .whileLoop .. | .repeatLoop .. | .numericFor .. | .genericFor .. | .ret .. | .exit
  | .goto .. | .label .. => unfolds_leaf name _

theorem unfolds_ofElse {name : String} : (otherwise : Else) →
    Unfolds name (ofElse name otherwise) (routesOfElse name otherwise)
  | .done => unfolds_leaf name []
  | .block body => unfolds_ofBlock body
  | .elseIf _ body otherwise => (unfolds_ofBlock body).branch (unfolds_ofElse otherwise) nofun

end

theorem unfolds_ofStmt (name : String) (condition : Expr) (body : Block) (otherwise : Else) :
    Unfolds name (ofStmt name (.ifThen condition body otherwise))
      (routesOf name (.ifThen condition body otherwise)) :=
  (unfolds_ofBlock body).branch (unfolds_ofElse otherwise) nofun

theorem exists_of_testsState {name : String} {condition : Expr}
    (h : testsState name condition = true) :
    ∃ op right, condition = .binary op (.name name) right := by
  unfold testsState at h
  split at h
  · rename_i op left right
    cases left with
    | name n => exact ⟨op, right, by rw [of_decide_eq_true h]⟩
    | _ => cases h
  · cases h

theorem testOf_eq_ok_iff {condition : Expr} {test : Test} :
    testOf condition = .ok test ↔ ∃ left x, condition = .binary test.op left (.number x) ∧
      (Decimal.Binary64.toInt64 x).toInt = test.constant := by
  constructor
  · intro h
    unfold testOf at h
    split at h
    · cases h
      exact ⟨_, _, rfl, rfl⟩
    · cases h
  · rintro ⟨left, x, rfl, hconstant⟩
    rw [testOf, hconstant]

end Cascade

/-- Whether a condition compares something with a number. -/
def IsNumberTest (condition : Expr) : Prop :=
  ∃ op left x, condition = .binary op left (.number x) ∧ op.isComparison = true

/-- A dispatch is read as a cascade of comparisons just if all its conditions compare something
    with a number. -/
theorem exists_ofStmt_iff {name : String} (condition : Expr) (body : Block) (otherwise : Else) :
    (∃ cascade, Cascade.ofStmt name (.ifThen condition body otherwise) = .ok cascade ∧
        ∀ test ∈ cascade.tests, test.op.isComparison = true) ↔
      ∀ p ∈ routesOf name (.ifThen condition body otherwise), IsNumberTest p.2 := by
  have hread := (Cascade.unfolds_ofStmt name condition body otherwise).map_tests
  -- Only the tests matter, and they are known of a cascade that is read (`Unfolds`).
  have htests : (∃ cascade, Cascade.ofStmt name (.ifThen condition body otherwise) = .ok cascade ∧
      ∀ test ∈ cascade.tests, test.op.isComparison = true) ↔
        ∃ tests, (Cascade.ofStmt name (.ifThen condition body otherwise)).map Cascade.tests =
          .ok tests ∧ ∀ test ∈ tests, test.op.isComparison = true := by
    cases Cascade.ofStmt name (.ifThen condition body otherwise) with
    | error e => exact iff_of_false (by simp) (by simp [Except.map])
    | ok cascade => simp [Except.map]
  rw [htests, hread, exists_mapM_forall_iff, List.forall_mem_map]
  refine forall₂_congr fun p _ => ?_
  simp only [Cascade.testOf_eq_ok_iff]
  constructor
  · rintro ⟨test, ⟨left, x, hcondition, -⟩, hop⟩
    exact ⟨test.op, left, x, hcondition, hop⟩
  · rintro ⟨op, left, x, hcondition, hop⟩
    exact ⟨⟨op, _⟩, ⟨left, x, hcondition, rfl⟩, hop⟩

/-! ## Solving -/

/-- Leaves are solved just if a search for a state goes through at each of them. -/
theorem exists_solveLeaves_iff {leaves : List Leaf} :
    (∃ dict, solveLeaves leaves = .ok dict) ↔
      ∀ leaf ∈ leaves, ∃ state, leaf.state? = .ok state := by
  refine ⟨?_, exists_solveLeaves⟩
  rintro ⟨dict, hdict⟩
  simp only [solveLeaves, bind_eq_ok_iff] at hdict
  obtain ⟨found, hfound, -⟩ := hdict
  intro leaf hleaf
  obtain ⟨pair, hpair⟩ := (exists_mapM_eq_ok_iff leaves).1 ⟨found, hfound⟩ leaf hleaf
  simp only [bind_eq_ok_iff] at hpair
  obtain ⟨state, hstate, -⟩ := hpair
  exact ⟨state, hstate⟩

namespace Cascade

/-- A search for the state of a leaf goes through just if the leaf has a candidate. -/
theorem exists_state?_iff {cascade : Cascade} {leaf : Leaf} (hleaf : leaf ∈ cascade.leaves) :
    (∃ state, leaf.state? = .ok state) ↔ leaf.candidates.1 ≤ leaf.candidates.2 := by
  obtain ⟨test, -, side, path, body, rfl⟩ := exists_range_of_mem_leaves hleaf
  rw [Leaf.state?, Leaf.firstAdmitted_root]
  split
  · rename_i hempty
    exact iff_of_false (by rintro ⟨_, h⟩; cases h) (not_le.2 hempty)
  · rename_i hsome
    exact iff_of_true ⟨_, rfl⟩ (not_lt.1 hsome)

/-- A cascade is solved just if all its tests are comparisons and every leaf has a candidate. -/
theorem exists_solve_iff {cascade : Cascade} :
    (∃ dict, cascade.solve = .ok dict) ↔
      (∀ test ∈ cascade.tests, test.op.isComparison = true) ∧
        ∀ leaf ∈ cascade.leaves, leaf.candidates.1 ≤ leaf.candidates.2 := by
  have hleaves : (∃ dict, solveLeaves cascade.leaves = .ok dict) ↔
      ∀ leaf ∈ cascade.leaves, leaf.candidates.1 ≤ leaf.candidates.2 :=
    exists_solveLeaves_iff.trans (forall₂_congr fun _ hleaf => exists_state?_iff hleaf)
  rw [← hleaves, ← forM_check_eq_ok_iff]
  simp only [solve, bind_eq_ok_iff]
  constructor
  · rintro ⟨dict, _, hcheck, hdict⟩
    exact ⟨hcheck, dict, hdict⟩
  · rintro ⟨hcheck, dict, hdict⟩
    exact ⟨dict, (), hcheck, hdict⟩

end Cascade

/-- A dispatch is solved just if it is an `if`, all its conditions compare something with a
    number, and every leaf of its cascade has a candidate. What a condition compares is looked at
    only where it is nested; there it is the state. -/
theorem exists_solve_iff_isNumberTest (name : String) (stmt : Stmt) :
    ((∃ dict, solve name stmt = .ok dict) ↔
      (∃ condition body otherwise, stmt = .ifThen condition body otherwise) ∧
        (∀ p ∈ routesOf name stmt, IsNumberTest p.2) ∧
        ∀ cascade, Cascade.ofStmt name stmt = .ok cascade →
          ∀ leaf ∈ cascade.leaves, leaf.candidates.1 ≤ leaf.candidates.2) ∧
      ∀ condition, (Route.nested, condition) ∈ routesOf name stmt →
        ∃ op right, condition = .binary op (.name name) right := by
  refine ⟨?_, fun condition hcondition => ?_⟩
  · cases stmt with
    | ifThen condition body otherwise =>
      constructor
      · rintro ⟨dict, hdict⟩
        simp only [solve, bind_eq_ok_iff] at hdict
        obtain ⟨cascade, hread, hdict⟩ := hdict
        obtain ⟨htests, hleaves⟩ := Cascade.exists_solve_iff.1 ⟨dict, hdict⟩
        refine ⟨⟨_, _, _, rfl⟩, (exists_ofStmt_iff ..).1 ⟨cascade, hread, htests⟩, ?_⟩
        rintro _ hread'
        obtain rfl := Except.ok.inj (hread.symm.trans hread')
        exact hleaves
      · rintro ⟨-, hconditions, hleaves⟩
        obtain ⟨cascade, hread, htests⟩ := (exists_ofStmt_iff ..).2 hconditions
        obtain ⟨dict, hdict⟩ := Cascade.exists_solve_iff.2 ⟨htests, hleaves cascade hread⟩
        exact ⟨dict, by rw [solve, hread]; exact hdict⟩
    | _ => exact iff_of_false (by rintro ⟨_, h⟩; cases h) (by rintro ⟨⟨_, _, _, h⟩, -⟩; cases h)
  · cases stmt with
    | ifThen first body otherwise =>
      have hstate := (Cascade.unfolds_ofStmt name first body otherwise).nested condition hcondition
      exact Cascade.exists_of_testsState hstate
    | _ => cases hcondition

/-- An `if` on two variables, none of which is `s`. -/
def foreignIf : Stmt :=
  .ifThen (.binary .eq (.name "t") (.number 1)) (marker "a")
    (.elseIf (.binary .eq (.name "u") (.number 2)) (marker "b") (.block (marker "c")))

/-- A dispatch on `s` is found in it nevertheless. -/
theorem solve_foreignIf :
    routesOf "s" foreignIf =
        [(.root, .binary .eq (.name "t") (.number 1)),
          (.chained, .binary .eq (.name "u") (.number 2))] ∧
      (∀ p ∈ routesOf "s" foreignIf, Cascade.testsState "s" p.2 = false) ∧
      solve "s" foreignIf = .ok [(1, marker "a"), (2, marker "b"), (3, marker "c")] := by
  have hroutes : routesOf "s" foreignIf =
      [(.root, .binary .eq (.name "t") (.number 1)),
        (.chained, .binary .eq (.name "u") (.number 2))] := rfl
  refine ⟨hroutes, ?_, rfl⟩
  rw [hroutes, List.forall_mem_cons, List.forall_mem_singleton]
  exact ⟨rfl, rfl⟩

end LuaUnpack.Dispatch
