import LuaUnpack.Proofs.Decimal.Value
import LuaUnpack.Proofs.Dispatch.Leaves
import Mathlib.Tactic.NormNum

/-!
# Solved dispatches are sound

A dispatch statement selects a block for a state, by comparing the state with the exact
values of the literals in its conditions (`select`). Its cascade has words in place of
these literals; where the literals are integers that fit, the cascade leads to the same
block (`follow_of_ofStmt`), and it can always be read (`reads_ofStmt`).

The bodies of a solved dispatch are the blocks that it selects for their states, and
each part of the dispatch for which a state was found has an entry (`solve_sound`).
-/

namespace LuaUnpack.Dispatch

open LuaUnpack.Lua LuaUnpack.Decimal

/-! ## Conditions -/

/-- The comparison of a state with a number. -/
def compares (op : BinaryOp) (state : Int) (value : ℚ) : Bool :=
  match op with
  | .eq => (state : ℚ) = value
  | .ne => (state : ℚ) ≠ value
  | .lt => (state : ℚ) < value
  | .gt => value < state
  | .le => (state : ℚ) ≤ value
  | .ge => value ≤ state
  | _ => false

/-- Whether a condition compares a variable with a number and holds for a value of the
    variable. -/
def conditionHolds (name : String) (state : Int) : Expr → Bool
  | .binary op (.name left) (.number x) =>
    left == name && (Binary64.ofFloat x).value?.any (compares op state)
  | _ => false

/-- Whether a condition compares a variable with an integer of less than 64 bits. -/
def IsStateTest (name : String) (condition : Expr) : Prop :=
  ∃ (op : BinaryOp) (x : Float) (z : Int), condition = .binary op (.name name) (.number x) ∧
    (Binary64.ofFloat x).value? = some (z : ℚ) ∧ |z| < 2 ^ 63

theorem compares_intCast (op : BinaryOp) (state z : Int) :
    compares op state z = Test.holds ⟨op, z⟩ state := by
  cases op <;> simp [compares, Test.holds, bne, beq_eq_decide]

/-- The test of a condition holds for the states for which the condition holds. -/
theorem holds_of_testOf {name : String} {condition : Expr} {test : Test}
    (hcondition : IsStateTest name condition) (htest : Cascade.testOf condition = .ok test)
    (state : Int) : test.holds state = conditionHolds name state condition := by
  obtain ⟨op, x, z, rfl, hvalue, hz⟩ := hcondition
  rw [Cascade.testOf, Binary64.toInt_toInt64 hvalue hz] at htest
  cases htest
  rw [conditionHolds, beq_self_eq_true, Bool.true_and, hvalue, Option.any_some, compares_intCast]

/-! ## Selection -/

mutual

/-- The block that is selected for a state: the whole block, unless it is a single `if`
    on the state. -/
def selectBlock (name : String) (state : Int) : List Stmt → Block
  | [stmt] => selectOnly name state stmt
  | body => body

/-- The block that is selected if a statement is all there is. -/
def selectOnly (name : String) (state : Int) : Stmt → Block
  | .ifThen condition body otherwise =>
    if Cascade.testsState name condition then
      if conditionHolds name state condition then selectBlock name state body
      else selectElse name state otherwise
    else
      [.ifThen condition body otherwise]
  | stmt => [stmt]

/-- The block that is selected if the first condition of an `if` does not hold. -/
def selectElse (name : String) (state : Int) : Else → Block
  | .done => []
  | .block body => selectBlock name state body
  | .elseIf condition body otherwise =>
    if conditionHolds name state condition then selectBlock name state body
    else selectElse name state otherwise

end

/-- The block that a dispatch statement selects for a state. -/
def select (name : String) (state : Int) : Stmt → Block
  | .ifThen condition body otherwise =>
    if conditionHolds name state condition then selectBlock name state body
    else selectElse name state otherwise
  | stmt => [stmt]

mutual

/-- The conditions that matter to what a block selects. -/
def conditionsOfBlock (name : String) : List Stmt → List Expr
  | [stmt] => conditionsOfOnly name stmt
  | _ => []

/-- The conditions of a statement that is all there is. -/
def conditionsOfOnly (name : String) : Stmt → List Expr
  | .ifThen condition body otherwise =>
    if Cascade.testsState name condition then
      condition :: conditionsOfBlock name body ++ conditionsOfElse name otherwise
    else
      []
  | _ => []

/-- The conditions of what follows the first block of an `if`. -/
def conditionsOfElse (name : String) : Else → List Expr
  | .done => []
  | .block body => conditionsOfBlock name body
  | .elseIf condition body otherwise =>
    condition :: conditionsOfBlock name body ++ conditionsOfElse name otherwise

end

/-- The conditions that matter to what a dispatch statement selects. -/
def conditionsOf (name : String) : Stmt → List Expr
  | .ifThen condition body otherwise =>
    condition :: conditionsOfBlock name body ++ conditionsOfElse name otherwise
  | _ => []

/-! ## Cascades -/

namespace Cascade

/-- The parts of a branch that is put together. -/
theorem branch_eq_ok {test : Except Error Test} {yes no : Except Error Cascade} {cascade : Cascade}
    (h : (do
      let test ← test
      let yes ← yes
      return .branch test yes (← no)) = Except.ok cascade) :
    ∃ t y n, test = .ok t ∧ yes = .ok y ∧ no = .ok n ∧ cascade = .branch t y n := by
  simp only [bind_eq_ok_iff, pure_eq_ok_iff] at h
  obtain ⟨t, ht, y, hy, n, hn, rfl⟩ := h
  exact ⟨t, y, n, ht, hy, hn, rfl⟩

/-- A branch leads to what its condition selects. -/
theorem follow_branch {name : String} {condition : Expr} {test : Test} {yes no : Cascade}
    {state : Int} {selected other : Block} (hcondition : IsStateTest name condition)
    (htest : testOf condition = .ok test) (hyes : yes.follow state = selected)
    (hno : no.follow state = other) :
    (branch test yes no).follow state =
      if conditionHolds name state condition then selected else other := by
  rw [follow, holds_of_testOf hcondition htest, hyes, hno]

mutual

/-- The cascade of a block leads to what the block selects. -/
theorem follow_of_ofBlock {name : String} (state : Int) : (body : List Stmt) →
    {cascade : Cascade} → ofBlock name body = .ok cascade →
    (∀ condition ∈ conditionsOfBlock name body, IsStateTest name condition) →
    cascade.follow state = selectBlock name state body
  | [], _, h, _ => by
    cases h
    rfl
  | [stmt], _, h, hconditions => follow_of_ofOnly state stmt h hconditions
  | _ :: _ :: _, _, h, _ => by
    cases h
    rfl

theorem follow_of_ofOnly {name : String} (state : Int) : (stmt : Stmt) →
    {cascade : Cascade} → ofOnly name stmt = .ok cascade →
    (∀ condition ∈ conditionsOfOnly name stmt, IsStateTest name condition) →
    cascade.follow state = selectOnly name state stmt
  | .ifThen condition body otherwise, cascade, h, hconditions => by
    rw [ofOnly] at h
    rw [conditionsOfOnly] at hconditions
    rw [selectOnly]
    split at h
    · rename_i htests
      rw [if_pos htests, List.cons_append, List.forall_mem_cons, List.forall_mem_append]
        at hconditions
      obtain ⟨hcondition, hbody, hotherwise⟩ := hconditions
      obtain ⟨test, yes, no, htest, hyes, hno, rfl⟩ := branch_eq_ok h
      rw [if_pos htests]
      exact follow_branch hcondition htest (follow_of_ofBlock state body hyes hbody)
        (follow_of_ofElse state otherwise hno hotherwise)
    · -- An `if` on something else is code, not a test.
      rename_i htests
      cases h
      rw [if_neg htests, follow]
  | .localVars .., _, h, _ | .localFunction .., _, h, _ | .functionDecl .., _, h, _
  | .assign .., _, h, _ | .call .., _, h, _ | .block .., _, h, _ | .whileLoop .., _, h, _
  | .repeatLoop .., _, h, _ | .numericFor .., _, h, _ | .genericFor .., _, h, _
  | .ret .., _, h, _ | .exit, _, h, _ | .goto .., _, h, _ | .label .., _, h, _ => by
    cases h
    rfl

theorem follow_of_ofElse {name : String} (state : Int) : (otherwise : Else) →
    {cascade : Cascade} → ofElse name otherwise = .ok cascade →
    (∀ condition ∈ conditionsOfElse name otherwise, IsStateTest name condition) →
    cascade.follow state = selectElse name state otherwise
  | .done, _, h, _ => by
    cases h
    rfl
  | .block body, _, h, hconditions => follow_of_ofBlock state body h hconditions
  | .elseIf condition body otherwise, cascade, h, hconditions => by
    rw [ofElse] at h
    rw [conditionsOfElse, List.cons_append, List.forall_mem_cons, List.forall_mem_append]
      at hconditions
    obtain ⟨hcondition, hbody, hotherwise⟩ := hconditions
    obtain ⟨test, yes, no, htest, hyes, hno, rfl⟩ := branch_eq_ok h
    rw [selectElse]
    exact follow_branch hcondition htest (follow_of_ofBlock state body hyes hbody)
      (follow_of_ofElse state otherwise hno hotherwise)

end

/-- The cascade of a dispatch statement leads to what the statement selects. -/
theorem follow_of_ofStmt {name : String} {stmt : Stmt} {cascade : Cascade}
    (h : ofStmt name stmt = .ok cascade)
    (hconditions : ∀ condition ∈ conditionsOf name stmt, IsStateTest name condition)
    (state : Int) : cascade.follow state = select name state stmt := by
  cases stmt with
  | ifThen condition body otherwise =>
    rw [conditionsOf, List.cons_append, List.forall_mem_cons, List.forall_mem_append]
      at hconditions
    obtain ⟨hcondition, hbody, hotherwise⟩ := hconditions
    obtain ⟨test, yes, no, htest, hyes, hno, rfl⟩ := branch_eq_ok h
    exact follow_branch hcondition htest (follow_of_ofBlock state body hyes hbody)
      (follow_of_ofElse state otherwise hno hotherwise)
  | _ => cases h

theorem eq_branch_of_ofStmt {name : String} {stmt : Stmt} {cascade : Cascade}
    (h : ofStmt name stmt = .ok cascade) : ∃ test yes no, cascade = .branch test yes no := by
  cases stmt with
  | ifThen condition body otherwise =>
    obtain ⟨test, yes, no, -, -, -, rfl⟩ := branch_eq_ok h
    exact ⟨test, yes, no, rfl⟩
  | _ => cases h

/-- Whether a cascade is read, with the tests of some conditions. -/
def Reads (read : Except Error Cascade) (conditions : List Expr) : Prop :=
  ∃ cascade, read = .ok cascade ∧
    ∀ test ∈ cascade.tests, ∃ condition ∈ conditions, testOf condition = .ok test

theorem reads_leaf (body : Block) (conditions : List Expr) :
    Reads (.ok (.leaf body)) conditions :=
  ⟨_, rfl, fun _ htest => absurd htest List.not_mem_nil⟩

theorem reads_branch {name : String} {condition : Expr} {readYes readNo : Except Error Cascade}
    {conditionsYes conditionsNo : List Expr} (hcondition : IsStateTest name condition)
    (hyes : Reads readYes conditionsYes) (hno : Reads readNo conditionsNo) :
    Reads (do
      let test ← testOf condition
      let yes ← readYes
      return .branch test yes (← readNo)) (condition :: conditionsYes ++ conditionsNo) := by
  obtain ⟨op, x, -, rfl, -⟩ := hcondition
  obtain ⟨yes, rfl, hyes⟩ := hyes
  obtain ⟨no, rfl, hno⟩ := hno
  refine ⟨_, rfl, fun test htest => ?_⟩
  rw [tests, List.cons_append, List.mem_cons, List.mem_append] at htest
  rcases htest with rfl | htest | htest
  · exact ⟨_, List.mem_cons_self, rfl⟩
  · obtain ⟨condition, hmem, htest⟩ := hyes test htest
    exact ⟨condition, List.mem_cons_of_mem _ (List.mem_append_left _ hmem), htest⟩
  · obtain ⟨condition, hmem, htest⟩ := hno test htest
    exact ⟨condition, List.mem_cons_of_mem _ (List.mem_append_right _ hmem), htest⟩

mutual

/-- A block on whose conditions depends what it selects is read with these conditions. -/
theorem reads_ofBlock {name : String} : (body : List Stmt) →
    (∀ condition ∈ conditionsOfBlock name body, IsStateTest name condition) →
    Reads (ofBlock name body) (conditionsOfBlock name body)
  | [], _ => reads_leaf [] _
  | [stmt], h => reads_ofOnly stmt h
  | _ :: _ :: _, _ => reads_leaf _ _

theorem reads_ofOnly {name : String} : (stmt : Stmt) →
    (∀ condition ∈ conditionsOfOnly name stmt, IsStateTest name condition) →
    Reads (ofOnly name stmt) (conditionsOfOnly name stmt)
  | .ifThen condition body otherwise, h => by
    rw [ofOnly]
    rw [conditionsOfOnly] at h ⊢
    -- Only an `if` on the state is read on; any other statement is a leaf.
    split at h
    · rename_i htests
      rw [List.cons_append, List.forall_mem_cons, List.forall_mem_append] at h
      rw [if_pos htests, if_pos htests]
      exact reads_branch h.1 (reads_ofBlock body h.2.1) (reads_ofElse otherwise h.2.2)
    · rename_i htests
      rw [if_neg htests]
      exact reads_leaf _ _
  | .localVars .., _ | .localFunction .., _ | .functionDecl .., _ | .assign .., _ | .call .., _
  | .block .., _ | .whileLoop .., _ | .repeatLoop .., _ | .numericFor .., _ | .genericFor .., _
  | .ret .., _ | .exit, _ | .goto .., _ | .label .., _ => reads_leaf _ _

theorem reads_ofElse {name : String} : (otherwise : Else) →
    (∀ condition ∈ conditionsOfElse name otherwise, IsStateTest name condition) →
    Reads (ofElse name otherwise) (conditionsOfElse name otherwise)
  | .done, _ => reads_leaf [] _
  | .block body, h => reads_ofBlock body h
  | .elseIf condition body otherwise, h => by
    rw [conditionsOfElse, List.cons_append, List.forall_mem_cons, List.forall_mem_append] at h
    exact reads_branch h.1 (reads_ofBlock body h.2.1) (reads_ofElse otherwise h.2.2)

end

/-- An `if` whose conditions compare the state with integers is read with these conditions. -/
theorem reads_ofStmt {name : String} {condition : Expr} {body : Block} {otherwise : Else}
    (h : ∀ c ∈ conditionsOf name (.ifThen condition body otherwise), IsStateTest name c) :
    Reads (ofStmt name (.ifThen condition body otherwise))
      (conditionsOf name (.ifThen condition body otherwise)) := by
  rw [conditionsOf, List.cons_append, List.forall_mem_cons, List.forall_mem_append] at h
  exact reads_branch h.1 (reads_ofBlock body h.2.1) (reads_ofElse otherwise h.2.2)

end Cascade

/-! ## Solved dispatches -/

theorem solve_eq_ok {name : String} {stmt : Stmt} {dict : Dict Int Block}
    (h : solve name stmt = .ok dict) :
    ∃ cascade, Cascade.ofStmt name stmt = .ok cascade ∧ solveLeaves cascade.leaves = .ok dict := by
  simp only [solve, Cascade.solve, bind_eq_ok_iff] at h
  obtain ⟨cascade, hcascade, _, _, hleaves⟩ := h
  exact ⟨cascade, hcascade, hleaves⟩

/-- If all conditions of a dispatch compare its variable with integers, the bodies of the
    solved dispatch are the blocks it selects for their states. Different leaves of its
    cascade have different states, and the entries are those of the leaves with a state. -/
theorem solve_sound {name : String} {stmt : Stmt} {dict : Dict Int Block}
    (hconditions : ∀ condition ∈ conditionsOf name stmt, IsStateTest name condition)
    (h : solve name stmt = .ok dict) :
    (∀ state body, (state, body) ∈ dict → select name state stmt = body) ∧
      ∃ cascade, Cascade.ofStmt name stmt = .ok cascade ∧
        cascade.leaves.Pairwise (fun l l' =>
          ∀ state, l.state? = .ok (some state) → l'.state? ≠ .ok (some state)) ∧
        Solves cascade.leaves dict := by
  obtain ⟨cascade, hcascade, hleaves⟩ := solve_eq_ok h
  have hapart := cascade.pairwise_apart_leaves
  have hsolves := solves_of_solveLeaves hapart hleaves
  refine ⟨fun state body hmem => ?_, cascade, hcascade, hapart.imp ?_, hsolves⟩
  · -- A state passes the path of the leaf it was found for, so following it ends there.
    obtain ⟨leaf, hleaf, hstate, rfl⟩ := (hsolves.mem_iff state body).1 hmem
    rw [← Cascade.follow_of_ofStmt hcascade hconditions]
    exact Cascade.follow_of_mem_leaves hleaf (Leaf.passes_of_state? hstate)
  · intro l l' hll state hl hl'
    exact hll state (Leaf.passes_of_state? hl) (Leaf.passes_of_state? hl')

/-- A call that tells the parts of a dispatch apart. -/
def marker (name : String) : Block := [.call (.call (.name name) [])]

/-- The comparison of `s` with a number. -/
def comparison (op : BinaryOp) (x : Float) : Expr := .binary op (.name "s") (.number x)

/-- A search for one of four states. -/
def searchTree : Stmt :=
  .ifThen (comparison .lt 2)
    [.ifThen (comparison .lt 1) (marker "a") (.block (marker "b"))]
    (.elseIf (comparison .gt 2) (marker "d") (.block (marker "c")))

theorem isStateTest_searchTree :
    ∀ condition ∈ conditionsOf "s" searchTree, IsStateTest "s" condition := by
  have hone : (Binary64.ofFloat 1).value? = some ((1 : Int) : ℚ) := by
    have hbits : Binary64.ofFloat 1 = .finite false (2 ^ 52) (-52) := rfl
    rw [hbits, Binary64.value?]
    norm_num
  have htwo : (Binary64.ofFloat 2).value? = some ((2 : Int) : ℚ) := by
    have hbits : Binary64.ofFloat 2 = .finite false (2 ^ 52) (-51) := rfl
    rw [hbits, Binary64.value?]
    norm_num
  have hconditions : conditionsOf "s" searchTree =
      [comparison .lt 2, comparison .lt 1, comparison .gt 2] := rfl
  rw [hconditions, List.forall_mem_cons, List.forall_mem_cons, List.forall_mem_singleton]
  exact ⟨⟨_, 2, 2, rfl, htwo, by norm_num⟩, ⟨_, 1, 1, rfl, hone, by norm_num⟩,
    ⟨_, 2, 2, rfl, htwo, by norm_num⟩⟩

theorem solve_searchTree_sound :
    ∃ dict, solve "s" searchTree = .ok dict ∧
      dict = [(0, marker "a"), (1, marker "b"), (2, marker "c"), (3, marker "d")] ∧
      ∀ state body, (state, body) ∈ dict → select "s" state searchTree = body :=
  ⟨_, rfl, rfl, (solve_sound isStateTest_searchTree rfl).1⟩

end LuaUnpack.Dispatch
