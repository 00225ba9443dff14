import LuaUnpack.Proofs.Decimal.Value
import LuaUnpack.Proofs.Dispatch.Soundness

/-!
# Dispatches with one leaf for each state

A cascade can be spelled as an `if` in several ways: what follows a test can be an
`elseif` or an `if` of its own in an `else`, and an empty leaf can be left out
(`Cascade.AsIf`). Literals are compared by their exact values, whatever their size.

If each leaf is reached by exactly one of the states `0, ..., n - 1` (`Cascade.OneEach`),
then some test parts any two neighbouring states, so that one of the two is a literal.
Large floats have gaps, and so `n` is small enough for every state to be a word, and the
statement is solved as the cascade it spells (`solve_of_asIf`). Whichever way the states are
found, one for each leaf, all of them get the code they are led to (`solveLeaves_branch_eq`).
-/

namespace LuaUnpack.Dispatch

open LuaUnpack.Lua LuaUnpack.Decimal

/-! ## The two sides of a test -/

theorem Path.passes_iff {path : Path} {state : Int} :
    path.passes state ↔ ∀ step ∈ path.steps, step.1.holds state = step.2 := by
  simp only [passes, List.all_eq_true, beq_iff_eq]

/-- A test that holds for one state and not for another has its constant between the two. -/
theorem Test.constant_between {test : Test} {i j : Int} (hi : test.holds i = true)
    (hj : test.holds j = false) : min i j ≤ test.constant ∧ test.constant ≤ max i j := by
  obtain ⟨op, c⟩ := test
  cases op <;> simp [holds] at hi hj ⊢ <;> omega

theorem mem_map_range_iff {n : Nat} {state : Int} :
    state ∈ (List.range n).map (fun k : Nat => (k : Int)) ↔ 0 ≤ state ∧ state < n := by
  rw [List.mem_map]
  constructor
  · rintro ⟨k, hk, rfl⟩
    exact ⟨Int.natCast_nonneg k, Int.ofNat_lt.2 (List.mem_range.1 hk)⟩
  · rintro ⟨h0, hlt⟩
    exact ⟨state.toNat, List.mem_range.2 (by omega), Int.toNat_of_nonneg h0⟩

namespace Cascade

variable {cascade yes no : Cascade} {above : List (Test × Bool)} {leaf : Leaf} {test t : Test}
  {outcome : Bool} {state : Int}

/-- Induction on cascades, with one hypothesis for the two sides of a test. -/
@[elab_as_elim]
theorem side_induction {P : Cascade → Prop} (hleaf : ∀ body, P (.leaf body))
    (hbranch : ∀ test yes no, (∀ outcome, P (cond outcome yes no)) → P (branch test yes no))
    (cascade : Cascade) : P cascade := by
  induction cascade with
  | leaf body => exact hleaf body
  | branch test yes no ihyes ihno => exact hbranch test yes no (Bool.forall_bool.2 ⟨ihno, ihyes⟩)

/-- The leaves of a cascade that is reached by a path. -/
def leavesFrom (above : List (Test × Bool)) : Cascade → List Leaf
  | .leaf _ => []
  | .branch test yes no => leavesBelow above test true yes ++ leavesBelow above test false no

theorem leaves_eq_leavesFrom (cascade : Cascade) : cascade.leaves = leavesFrom [] cascade := by
  cases cascade <;> rfl

theorem mem_leavesFrom_branch :
    leaf ∈ leavesFrom above (branch test yes no) ↔
      ∃ outcome, leaf ∈ leavesBelow above test outcome (cond outcome yes no) := by
  rw [leavesFrom, List.mem_append, Bool.exists_bool, or_comm]
  rfl

theorem mem_tests_branch :
    t ∈ (branch test yes no).tests ↔ t = test ∨ ∃ outcome, t ∈ (cond outcome yes no).tests := by
  rw [tests, List.cons_append, List.mem_cons, List.mem_append, Bool.exists_bool,
    or_comm (a := t ∈ yes.tests)]
  rfl

/-- A state that comes down to a part of a cascade reaches one of its leaves. -/
theorem exists_mem_leavesBelow (cascade : Cascade)
    (h : Path.passes ⟨(test, outcome) :: above, .root⟩ state) :
    ∃ leaf ∈ leavesBelow above test outcome cascade, leaf.path.passes state := by
  induction cascade using side_induction generalizing above test outcome with
  | hleaf body => exact ⟨_, List.mem_singleton_self _, h⟩
  | hbranch next yes no ih =>
    obtain ⟨leaf, hleaf, hstate⟩ := ih (next.holds state) ((Path.passes_cons ..).2 ⟨rfl, h⟩)
    exact ⟨leaf, mem_leavesFrom_branch.2 ⟨_, hleaf⟩, hstate⟩

theorem exists_mem_leaves_branch (test : Test) (yes no : Cascade) (state : Int) :
    ∃ leaf ∈ (branch test yes no).leaves, leaf.path.passes state := by
  have hpath : Path.passes ⟨[(test, test.holds state)], .root⟩ state :=
    (Path.passes_cons ..).2 ⟨rfl, rfl⟩
  obtain ⟨leaf, hleaf, hstate⟩ :=
    exists_mem_leavesBelow (cond (test.holds state) yes no) hpath
  exact ⟨leaf, mem_leavesFrom_branch.2 ⟨_, hleaf⟩, hstate⟩

/-- The path to a leaf takes the steps down to the part of the cascade it is in. -/
theorem mem_steps_of_mem_leavesBelow (hleaf : leaf ∈ leavesBelow above test outcome cascade) :
    ∀ step ∈ (test, outcome) :: above, step ∈ leaf.path.steps := by
  induction cascade using side_induction generalizing above test outcome with
  | hleaf body =>
    obtain rfl := List.mem_singleton.1 hleaf
    exact fun step hstep => hstep
  | hbranch next yes no ih =>
    obtain ⟨side, hleaf⟩ := mem_leavesFrom_branch.1 hleaf
    exact fun step hstep => ih side hleaf step (List.mem_cons_of_mem _ hstep)

/-- All other tests on the path to a leaf are in that part of the cascade. -/
theorem mem_tests_of_mem_leavesBelow {step : Test × Bool}
    (hleaf : leaf ∈ leavesBelow above test outcome cascade) (hstep : step ∈ leaf.path.steps) :
    step ∈ (test, outcome) :: above ∨ step.1 ∈ cascade.tests := by
  induction cascade using side_induction generalizing above test outcome with
  | hleaf body =>
    obtain rfl := List.mem_singleton.1 hleaf
    exact .inl hstep
  | hbranch next yes no ih =>
    obtain ⟨side, hleaf⟩ := mem_leavesFrom_branch.1 hleaf
    rw [mem_tests_branch]
    rcases ih side hleaf with hmem | hmem
    · rcases List.mem_cons.1 hmem with rfl | hmem
      · exact .inr (.inl rfl)
      · exact .inl hmem
    · exact .inr (.inr ⟨side, hmem⟩)

theorem mem_tests_of_mem_leaves {step : Test × Bool} (hleaf : leaf ∈ cascade.leaves)
    (hstep : step ∈ leaf.path.steps) : step.1 ∈ cascade.tests := by
  rw [leaves_eq_leavesFrom] at hleaf
  cases cascade with
  | leaf body => cases hleaf
  | branch test yes no =>
    obtain ⟨side, hleaf⟩ := mem_leavesFrom_branch.1 hleaf
    rw [mem_tests_branch]
    rcases mem_tests_of_mem_leavesBelow hleaf hstep with hmem | hmem
    · exact .inl (congrArg Prod.fst (List.mem_singleton.1 hmem))
    · exact .inr ⟨side, hmem⟩

theorem leavesBelow_ne_nil (above : List (Test × Bool)) (test : Test) (outcome : Bool)
    (cascade : Cascade) : ∃ leaf, leaf ∈ leavesBelow above test outcome cascade := by
  induction cascade using side_induction generalizing above test outcome with
  | hleaf body => exact ⟨_, List.mem_singleton_self _⟩
  | hbranch next yes no ih =>
    obtain ⟨leaf, hleaf⟩ := ih true ((test, outcome) :: above) next true
    exact ⟨leaf, mem_leavesFrom_branch.2 ⟨true, hleaf⟩⟩

/-- There are leaves on both sides of every test. -/
theorem exists_mem_leavesFrom_of_mem_tests (htest : t ∈ cascade.tests) (outcome : Bool) :
    ∃ leaf ∈ leavesFrom above cascade, (t, outcome) ∈ leaf.path.steps := by
  induction cascade using side_induction generalizing above with
  | hleaf body => cases htest
  | hbranch test yes no ih =>
    rcases mem_tests_branch.1 htest with rfl | ⟨side, htest⟩
    · obtain ⟨leaf, hleaf⟩ := leavesBelow_ne_nil above t outcome (cond outcome yes no)
      exact ⟨leaf, mem_leavesFrom_branch.2 ⟨outcome, hleaf⟩,
        mem_steps_of_mem_leavesBelow hleaf _ List.mem_cons_self⟩
    · obtain ⟨leaf, hleaf, hstep⟩ := @ih side ((test, side) :: above) htest
      refine ⟨leaf, mem_leavesFrom_branch.2 ⟨side, ?_⟩, hstep⟩
      -- The part on this side has a test, so that it is a branch.
      generalize cond side yes no = part at htest hleaf ⊢
      cases part with
      | leaf body => cases htest
      | branch next yes no => exact hleaf

/-! ## One leaf for each state -/

/-- If every leaf is found one of some states, and no other of them is led there, then these
    states are found with the code they are led to. -/
theorem solveLeaves_branch_eq {states : List Int} (hstates : states.Pairwise (· < ·))
    (hfound : ∀ leaf ∈ (branch test yes no).leaves, ∃ state ∈ states,
      leaf.state? = .ok (some state) ∧ ∀ s ∈ states, leaf.path.passes s → s = state) :
    solveLeaves (branch test yes no).leaves =
      .ok (states.map fun s => (s, (branch test yes no).follow s)) := by
  have hsolved : ∀ leaf ∈ (branch test yes no).leaves, ∃ state, leaf.state? = .ok state := by
    intro leaf hleaf
    obtain ⟨state, -, hstate, -⟩ := hfound leaf hleaf
    exact ⟨_, hstate⟩
  obtain ⟨dict, hdict⟩ := exists_solveLeaves hsolved
  have hsolves := solves_of_solveLeaves (pairwise_apart_leaves _) hdict
  have hascending : Dict.Ascending (states.map fun s => (s, (branch test yes no).follow s)) := by
    rw [Dict.Ascending, List.map_map, List.pairwise_map]
    exact hstates
  rw [hdict, hsolves.ascending.ext hascending]
  rintro ⟨state, body⟩
  rw [hsolves.mem_iff, List.mem_map]
  constructor
  · rintro ⟨leaf, hleaf, hstate, rfl⟩
    obtain ⟨state', hmem, hstate', -⟩ := hfound leaf hleaf
    obtain rfl : state' = state := Option.some.inj (Except.ok.inj (hstate'.symm.trans hstate))
    exact ⟨state', hmem, by rw [follow_of_mem_leaves hleaf (Leaf.passes_of_state? hstate)]⟩
  · rintro ⟨s, hs, hpair⟩
    obtain ⟨rfl, rfl⟩ := Prod.mk.inj hpair
    -- The state that is found for the leaf of `s` can only be `s`.
    obtain ⟨leaf, hleaf, hpasses⟩ := exists_mem_leaves_branch test yes no s
    obtain ⟨state, -, hstate, honly⟩ := hfound leaf hleaf
    obtain rfl := honly s hs hpasses
    exact ⟨leaf, hleaf, hstate, (follow_of_mem_leaves hleaf hpasses).symm⟩

/-- Whether each leaf is reached by exactly one of the states `0, ..., n - 1`. -/
def OneEach (cascade : Cascade) (n : Nat) : Prop :=
  ∀ leaf ∈ cascade.leaves, ∃! state : Int, (0 ≤ state ∧ state < n) ∧ leaf.path.passes state

section

variable {n : Nat} (hone : cascade.OneEach n)
include hone

/-- Constants are states. -/
theorem OneEach.constant_mem (htest : test ∈ cascade.tests) :
    0 ≤ test.constant ∧ test.constant < n := by
  have hside (outcome : Bool) :
      ∃ state : Int, (0 ≤ state ∧ state < n) ∧ test.holds state = outcome := by
    obtain ⟨leaf, hleaf, hstep⟩ := exists_mem_leavesFrom_of_mem_tests htest outcome
    rw [← leaves_eq_leavesFrom] at hleaf
    obtain ⟨state, ⟨hstate, hpasses⟩, -⟩ := hone leaf hleaf
    exact ⟨state, hstate, Path.passes_iff.1 hpasses _ hstep⟩
  obtain ⟨i, hi, hholds⟩ := hside true
  obtain ⟨j, hj, hnot⟩ := hside false
  have hbetween := Test.constant_between hholds hnot
  omega

/-- Some test parts each state from the next. -/
theorem OneEach.exists_constant (hbranch : cascade.leaves ≠ []) {k : Int} (hk : 0 ≤ k)
    (hk' : k + 1 < n) :
    ∃ test ∈ cascade.tests, test.constant = k ∨ test.constant = k + 1 := by
  cases cascade with
  | leaf body => exact absurd rfl hbranch
  | branch root yes no =>
    obtain ⟨leaf, hleaf, hpasses⟩ := exists_mem_leaves_branch root yes no k
    -- The leaf of a state is not that of the next, so that the two part above it.
    have hnext : ¬leaf.path.passes (k + 1) := by
      intro hnext
      have := (hone leaf hleaf).unique ⟨⟨hk, by omega⟩, hpasses⟩ ⟨⟨by omega, hk'⟩, hnext⟩
      omega
    rw [Path.passes_iff] at hpasses
    simp only [Path.passes_iff, not_forall] at hnext
    obtain ⟨⟨test, outcome⟩, hstep, hparts⟩ := hnext
    have hhere : test.holds k = outcome := hpasses _ hstep
    refine ⟨test, mem_tests_of_mem_leaves hleaf hstep, ?_⟩
    cases outcome with
    | true =>
      have hbetween := Test.constant_between hhere (Bool.eq_false_iff.2 hparts)
      omega
    | false =>
      have hbetween := Test.constant_between (by simpa using hparts) hhere
      omega

end

/-! ## Spellings -/

/-- Whether an integer can be written as a literal. -/
def IsLiteral (z : Int) : Prop := ∃ x : Float, (Binary64.ofFloat x).value? = some (z : ℚ)

/-- Whether a condition compares a variable with the constant of a test. -/
def AsCondition (name : String) (test : Test) (condition : Expr) : Prop :=
  ∃ x : Float, condition = .binary test.op (.name name) (.number x) ∧
    (Binary64.ofFloat x).value? = some (test.constant : ℚ)

mutual

/-- Whether a block spells a cascade. A block that is not just an `if` on the state is a
    leaf. -/
inductive AsBlock (name : String) : Cascade → List Stmt → Prop
  | code {body : List Stmt}
      (h : ∀ condition yes otherwise, body = [.ifThen condition yes otherwise] →
        testsState name condition = false) :
      AsBlock name (.leaf body) body
  | only {cascade : Cascade} {stmt : Stmt} (h : AsIf name cascade stmt) :
      AsBlock name cascade [stmt]

/-- Whether an `if` spells a cascade. -/
inductive AsIf (name : String) : Cascade → Stmt → Prop
  | ifThen {test : Test} {condition : Expr} {yes no : Cascade} {body : List Stmt}
      {otherwise : Else} (hcondition : AsCondition name test condition)
      (hyes : AsBlock name yes body) (hno : AsElse name no otherwise) :
      AsIf name (.branch test yes no) (.ifThen condition body otherwise)

/-- Whether what follows the first block of an `if` spells a cascade. -/
inductive AsElse (name : String) : Cascade → Else → Prop
  | done : AsElse name (.leaf []) .done
  | block {cascade : Cascade} {body : List Stmt} (h : AsBlock name cascade body) :
      AsElse name cascade (.block body)
  | elseIf {test : Test} {condition : Expr} {yes no : Cascade} {body : List Stmt}
      {otherwise : Else} (hcondition : AsCondition name test condition)
      (hyes : AsBlock name yes body) (hno : AsElse name no otherwise) :
      AsElse name (.branch test yes no) (.elseIf condition body otherwise)

end

/-- Whether a cascade is what is read, as far as its constants are words. -/
structure IsRead (read : Except Error Cascade) (cascade : Cascade) : Prop where
  literal : ∀ test ∈ cascade.tests, IsLiteral test.constant
  eq_ok : (∀ test ∈ cascade.tests, |test.constant| < 2 ^ 63) → read = .ok cascade

theorem isRead_leaf (body : Block) : IsRead (.ok (.leaf body)) (.leaf body) :=
  ⟨fun _ htest => absurd htest List.not_mem_nil, fun _ => rfl⟩

theorem isRead_branch {name : String} {condition : Expr} {readYes readNo : Except Error Cascade}
    (hcondition : AsCondition name test condition) (hyes : IsRead readYes yes)
    (hno : IsRead readNo no) :
    IsRead (do
      let test ← testOf condition
      let yes ← readYes
      return .branch test yes (← readNo)) (.branch test yes no) := by
  obtain ⟨x, rfl, hx⟩ := hcondition
  constructor
  · intro t ht
    rw [tests, List.cons_append, List.mem_cons, List.mem_append] at ht
    rcases ht with rfl | ht | ht
    · exact ⟨x, hx⟩
    · exact hyes.literal t ht
    · exact hno.literal t ht
  · -- A literal that is a word is read exactly, so the tests are the ones that were spelled.
    intro hwords
    rw [tests, List.cons_append, List.forall_mem_cons, List.forall_mem_append] at hwords
    obtain ⟨htest, hwordsYes, hwordsNo⟩ := hwords
    rw [testOf, Binary64.toInt_toInt64 hx htest, hyes.eq_ok hwordsYes, hno.eq_ok hwordsNo]
    rfl

theorem testsState_of_asCondition {name : String} {condition : Expr}
    (h : AsCondition name test condition) : testsState name condition = true := by
  obtain ⟨x, rfl, -⟩ := h
  exact beq_self_eq_true name

theorem ofOnly_of_testsState {name : String} {condition : Expr} (body : List Stmt)
    (otherwise : Else) (h : testsState name condition = true) :
    ofOnly name (.ifThen condition body otherwise) =
      ofStmt name (.ifThen condition body otherwise) := by
  rw [ofOnly, if_pos h, ofStmt]

theorem ofBlock_of_code {name : String} {body : List Stmt}
    (h : ∀ condition yes otherwise, body = [.ifThen condition yes otherwise] →
      testsState name condition = false) : ofBlock name body = .ok (.leaf body) := by
  match body with
  | [] => rfl
  | _ :: _ :: _ => rfl
  | [stmt] =>
    cases stmt with
    | ifThen condition yes otherwise =>
      rw [ofBlock, ofOnly, h condition yes otherwise rfl, if_neg Bool.false_ne_true]
    | _ => rfl

mutual

/-- A block is read as the cascade it spells. -/
theorem isRead_ofBlock {name : String} {cascade : Cascade} {body : List Stmt} :
    AsBlock name cascade body → IsRead (ofBlock name body) cascade
  | .code h => by
    rw [ofBlock_of_code h]
    exact isRead_leaf body
  | .only (.ifThen hcondition hyes hno) => by
    rw [ofBlock, ofOnly_of_testsState _ _ (testsState_of_asCondition hcondition)]
    exact isRead_branch hcondition (isRead_ofBlock hyes) (isRead_ofElse hno)

theorem isRead_ofElse {name : String} {cascade : Cascade} {otherwise : Else} :
    AsElse name cascade otherwise → IsRead (ofElse name otherwise) cascade
  | .done => isRead_leaf []
  | .block h => isRead_ofBlock h
  | .elseIf hcondition hyes hno =>
    isRead_branch hcondition (isRead_ofBlock hyes) (isRead_ofElse hno)

end

/-- An `if` is read as the cascade it spells. -/
theorem isRead_ofStmt {name : String} {stmt : Stmt} (h : AsIf name cascade stmt) :
    IsRead (ofStmt name stmt) cascade := by
  obtain ⟨hcondition, hyes, hno⟩ := h
  exact isRead_branch hcondition (isRead_ofBlock hyes) (isRead_ofElse hno)

/-- Two neighbours among large integers that are both no literals bound the number of
    states that can be told apart. -/
theorem OneEach.le_of_literal {n : Nat} (hone : cascade.OneEach n) (hbranch : cascade.leaves ≠ [])
    (hliteral : ∀ test ∈ cascade.tests, IsLiteral test.constant) : n ≤ 2 ^ 54 + 2 := by
  by_contra hn
  obtain ⟨test, htest, hconstant⟩ :=
    hone.exists_constant hbranch (k := 2 ^ 54 + 1) (by omega) (by omega)
  obtain ⟨x, hx⟩ := hliteral test htest
  have hdvd := Binary64.four_dvd_of_value? hx (by omega)
  omega

end Cascade

theorem Cascade.forM_check_eq_ok_iff {tests : List Test} :
    tests.forM Test.check = .ok () ↔ ∀ test ∈ tests, test.op.isComparison = true := by
  induction tests with
  | nil => exact ⟨fun _ _ htest => absurd htest List.not_mem_nil, fun _ => rfl⟩
  | cons test tests ih =>
    rw [List.forall_mem_cons, ← ih]
    change (do test.check; tests.forM Test.check) = Except.ok () ↔ _
    by_cases htest : test.op.isComparison = true
    · have hcheck : test.check = .ok () := if_pos htest
      rw [hcheck, and_iff_right htest]
      rfl
    · have hcheck : test.check = .error _ := if_neg htest
      rw [hcheck]
      exact iff_of_false nofun fun h => htest h.1

/-- A cascade of comparisons is solved leaf by leaf. -/
theorem Cascade.solve_of_comparisons {cascade : Cascade}
    (h : ∀ test ∈ cascade.tests, test.op.isComparison = true) :
    cascade.solve = solveLeaves cascade.leaves := by
  rw [solve, forM_check_eq_ok_iff.2 h]
  rfl

/-- An `if` that tells the states `0, ..., n - 1` apart is solved as the cascade it spells,
    and these states are words. -/
theorem solve_of_asIf {name : String} {stmt : Stmt} {cascade : Cascade} {n : Nat}
    (hstmt : cascade.AsIf name stmt) (hone : cascade.OneEach n) :
    solve name stmt = cascade.solve ∧ (n : Int) ≤ Test.maxState := by
  have hread := Cascade.isRead_ofStmt hstmt
  have hbranch : cascade.leaves ≠ [] := by
    obtain ⟨test, yes, no, rfl⟩ : ∃ test yes no, cascade = .branch test yes no := by
      cases hstmt
      exact ⟨_, _, _, rfl⟩
    obtain ⟨leaf, hleaf, -⟩ := Cascade.exists_mem_leaves_branch test yes no 0
    exact List.ne_nil_of_mem hleaf
  have hn := hone.le_of_literal hbranch hread.literal
  constructor
  · -- The constant of each test lies among the states, so it is a word.
    rw [solve, hread.eq_ok]
    · rfl
    · intro test htest
      have hconstant := hone.constant_mem htest
      rw [abs_lt]
      omega
  · have hmax : Test.maxState = 2 ^ 63 - 1 := rfl
    omega

/-! ## Small literals -/

theorem value?_zero : (Binary64.ofFloat 0).value? = some ((0 : Int) : ℚ) := by
  have hbits : Binary64.ofFloat 0 = .finite false 0 (-1074) := rfl
  rw [hbits, Binary64.value?]
  norm_num

theorem value?_one : (Binary64.ofFloat 1).value? = some ((1 : Int) : ℚ) := by
  have hbits : Binary64.ofFloat 1 = .finite false (2 ^ 52) (-52) := rfl
  rw [hbits, Binary64.value?]
  norm_num

theorem value?_two : (Binary64.ofFloat 2).value? = some ((2 : Int) : ℚ) := by
  have hbits : Binary64.ofFloat 2 = .finite false (2 ^ 52) (-51) := rfl
  rw [hbits, Binary64.value?]
  norm_num

theorem asBlock_marker {name : String} (text : String) :
    Cascade.AsBlock name (.leaf (marker text)) (marker text) :=
  .code fun _ _ _ h => by cases h

end LuaUnpack.Dispatch
