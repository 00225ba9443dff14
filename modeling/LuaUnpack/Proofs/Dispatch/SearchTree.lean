import LuaUnpack.Proofs.Dispatch.Spelling

/-!
# Search trees are solved completely

A search tree compares the state with constants by order until one state is left; the
last test can also be one for equality (`Cascade.IsSearch`). The states that come down to
a part of it lie between two bounds (`Convex`). If a test by order leaves one state on one
side and some on the other, that state stands right at the constant, and it is the only
candidate of the leaf (`state?_of_isOrder`). If a test for equality leaves one state on
either side, the two are neighbours (`state?_of_isEquality`).

A search tree in which each leaf is reached by exactly one of the states `0, ..., n - 1` is
therefore solved to just these states, each with the code it is led to
(`solve_eq_of_isSearch`).
-/

namespace LuaUnpack.Dispatch

open LuaUnpack.Lua

/-! ## Tests by order -/

namespace Test

/-- Whether a test compares by order. -/
def isOrder (test : Test) : Bool := test.op matches .lt | .le | .gt | .ge

/-- Whether a test is one for equality or for its contrary. -/
def isEquality (test : Test) : Bool := test.op matches .eq | .ne

/-- The state next to the constant, or the constant itself, that is on a side of a test by
    order. -/
def edge (test : Test) (outcome : Bool) : Int :=
  match test.op, outcome with
  | .lt, true | .ge, false => test.constant - 1
  | .gt, true | .le, false => test.constant + 1
  | _, _ => test.constant

variable {test : Test} {outcome : Bool} {i j : Int}

/-- The edge of a side lies between the states on that side and those on the other. -/
theorem edge_between (horder : test.isOrder) (hi : test.holds i = outcome)
    (hj : test.holds j = !outcome) :
    test.holds (test.edge outcome) = outcome ∧
      min i j ≤ test.edge outcome ∧ test.edge outcome ≤ max i j := by
  obtain ⟨op, c⟩ := test
  cases op <;> simp only [isOrder, Bool.false_eq_true] at horder <;> cases outcome <;>
    simp [holds, edge] at hi hj ⊢ <;> omega

theorem range_of_isOrder (horder : test.isOrder) (hlow : 0 ≤ test.edge outcome)
    (hhigh : test.edge outcome ≤ maxState) :
    test.range outcome = (test.edge outcome, test.edge outcome) := by
  obtain ⟨op, c⟩ := test
  cases op <;> simp only [isOrder, Bool.false_eq_true] at horder <;> cases outcome <;>
    simp [range, edge] at hlow hhigh ⊢ <;> omega

/-- With two states on one side of a test by order, all between them are on that side. -/
theorem holds_between {k : Int} (horder : test.isOrder) (hij : i ≤ j) (hjk : j ≤ k)
    (hi : test.holds i = outcome) (hk : test.holds k = outcome) : test.holds j = outcome := by
  obtain ⟨op, c⟩ := test
  cases op <;> simp only [isOrder, Bool.false_eq_true] at horder <;> cases outcome <;>
    simp [holds] at hi hk ⊢ <;> omega

end Test

/-- Whether the states that pass some tests lie between two bounds. -/
def Convex (steps : List (Test × Bool)) : Prop :=
  ∀ i j k : Int, i ≤ j → j ≤ k → Path.passes ⟨steps, .root⟩ i → Path.passes ⟨steps, .root⟩ k →
    Path.passes ⟨steps, .root⟩ j

theorem convex_nil : Convex [] := fun _ _ _ _ _ _ _ => rfl

theorem Convex.cons {test : Test} {outcome : Bool} {above : List (Test × Bool)}
    (h : Convex above) (horder : test.isOrder) : Convex ((test, outcome) :: above) := by
  intro i j k hij hjk hi hk
  obtain ⟨hi, hiabove⟩ := (Path.passes_cons ..).1 hi
  obtain ⟨hk, hkabove⟩ := (Path.passes_cons ..).1 hk
  exact (Path.passes_cons ..).2
    ⟨Test.holds_between horder hij hjk hi hk, h i j k hij hjk hiabove hkabove⟩

/-! ## Leaves with one state -/

/-- Whether a state is the only one of `0, ..., n - 1` that passes some tests. -/
def IsOnly (n : Nat) (steps : List (Test × Bool)) (state : Int) : Prop :=
  ((0 ≤ state ∧ state < n) ∧ Path.passes ⟨steps, .root⟩ state) ∧
    ∀ other : Int, (0 ≤ other ∧ other < n) ∧ Path.passes ⟨steps, .root⟩ other → other = state

section

variable {n : Nat} {above : List (Test × Bool)} {test : Test} {outcome : Bool} {k k' : Int}
  {body : Block} (hn : (n : Int) ≤ Test.maxState) (hconvex : Convex above)
  (hk : IsOnly n ((test, outcome) :: above) k) (hk' : 0 ≤ k' ∧ k' < n)
  (hpasses' : Path.passes ⟨(test, !outcome) :: above, .root⟩ k')
include hn hconvex hk hk' hpasses'

/-- The only state on a side of a test by order is the candidate for what is there. -/
theorem state?_of_isOrder (horder : test.isOrder) :
    Leaf.state? ⟨test.range outcome, ⟨(test, outcome) :: above, .root⟩, body⟩ = .ok (some k) := by
  obtain ⟨⟨hrange, hpasses⟩, honly⟩ := hk
  obtain ⟨hside, habove⟩ := (Path.passes_cons ..).1 hpasses
  obtain ⟨hside', habove'⟩ := (Path.passes_cons ..).1 hpasses'
  obtain ⟨hedge, hlow, hhigh⟩ := Test.edge_between horder hside hside'
  -- The edge is on this side, and no other state is.
  have habove_edge : Path.passes ⟨above, .root⟩ (test.edge outcome) := by
    rcases Int.le_total k k' with hle | hle
    · exact hconvex k _ k' (by omega) (by omega) habove habove'
    · exact hconvex k' _ k (by omega) (by omega) habove' habove
  have hedge_mem : 0 ≤ test.edge outcome ∧ test.edge outcome < n := by omega
  have hedge_eq : test.edge outcome = k :=
    honly _ ⟨hedge_mem, (Path.passes_cons ..).2 ⟨hedge, habove_edge⟩⟩
  have hrange : test.range outcome = (k, k) := by
    rw [Test.range_of_isOrder horder (by omega) (by omega), hedge_eq]
  exact Leaf.state?_eq_some_of_single hrange hpasses

/-- The only state that differs from a constant is next to it, and the first candidate for
    what is there. -/
theorem state?_of_neighbours {c : Int} (hc : k' = c) (hside : ∀ j, test.holds j = outcome ↔ j ≠ c)
    (hrange : test.range outcome = (max (c - 1) 0, min (c + 1) Test.maxState)) :
    Leaf.state? ⟨test.range outcome, ⟨(test, outcome) :: above, .root⟩, body⟩ = .ok (some k) := by
  obtain ⟨⟨hmem, hpasses⟩, honly⟩ := hk
  obtain ⟨hholds, habove⟩ := (Path.passes_cons ..).1 hpasses
  obtain ⟨-, habove'⟩ := (Path.passes_cons ..).1 hpasses'
  have hne : k ≠ c := (hside k).1 hholds
  -- Whatever else passes the tests above is the constant.
  have hother : ∀ j : Int, 0 ≤ j ∧ j < n → Path.passes ⟨above, .root⟩ j → j = k ∨ j = c := by
    intro j hj hjabove
    by_cases hjc : j = c
    · exact .inr hjc
    · exact .inl (honly j ⟨hj, (Path.passes_cons ..).2 ⟨(hside j).2 hjc, hjabove⟩⟩)
  have hnext : k = c - 1 ∨ k = c + 1 := by
    rcases lt_or_gt_of_ne hne with hlt | hlt
    · rcases hother (c - 1) (by omega)
        (hconvex k _ k' (by omega) (by omega) habove habove') with h | h <;> omega
    · rcases hother (c + 1) (by omega)
        (hconvex k' _ k (by omega) (by omega) habove' habove) with h | h <;> omega
  rw [hrange]
  refine Leaf.state?_eq_some (by omega) (by omega) hpasses fun j hlow hlt hj => ?_
  obtain ⟨hjholds, hjabove⟩ := (Path.passes_cons ..).1 hj
  have hjc := (hside j).1 hjholds
  rcases hother j (by omega) hjabove with h | h <;> omega

/-- The only state on a side of a test for equality, with a state on the other side, is
    found for what is there. -/
theorem state?_of_isEquality (hequality : test.isEquality) :
    Leaf.state? ⟨test.range outcome, ⟨(test, outcome) :: above, .root⟩, body⟩ = .ok (some k) := by
  obtain ⟨⟨hmem, hpasses⟩, -⟩ := id hk
  have hholds := ((Path.passes_cons ..).1 hpasses).1
  have hholds' := ((Path.passes_cons ..).1 hpasses').1
  obtain ⟨op, c⟩ := test
  -- On one side stands the constant, on the other all that differs from it.
  cases op <;> simp only [Test.isEquality, Bool.false_eq_true] at hequality
  · cases outcome with
    | true =>
      obtain rfl : k = c := by simpa [Test.holds] using hholds
      exact Leaf.state?_eq_some_of_single rfl hpasses
    | false =>
      exact state?_of_neighbours hn hconvex hk hk' hpasses' (c := c)
        (by simpa [Test.holds] using hholds') (fun j => by simp [Test.holds]) rfl
  · cases outcome with
    | true =>
      exact state?_of_neighbours hn hconvex hk hk' hpasses' (c := c)
        (by simpa [Test.holds] using hholds') (fun j => by simp [Test.holds]) rfl
    | false =>
      obtain rfl : k = c := by simpa [Test.holds] using hholds
      exact Leaf.state?_eq_some_of_single rfl hpasses

end

/-! ## Search trees -/

namespace Cascade

/-- Whether a cascade is a leaf. -/
def isLeaf : Cascade → Bool
  | leaf _ => true
  | branch .. => false

/-- Whether the tests of a cascade compare by order, apart from tests for equality right
    above two leaves. -/
def IsSearch : Cascade → Prop
  | leaf _ => True
  | branch test yes no =>
    test.isOrder ∧ yes.IsSearch ∧ no.IsSearch ∨ test.isEquality ∧ yes.isLeaf ∧ no.isLeaf

instance decidableIsSearch : (cascade : Cascade) → Decidable cascade.IsSearch
  | leaf _ => .isTrue trivial
  | branch test yes no =>
    have := decidableIsSearch yes
    have := decidableIsSearch no
    inferInstanceAs (Decidable (test.isOrder ∧ yes.IsSearch ∧ no.IsSearch ∨
      test.isEquality ∧ yes.isLeaf ∧ no.isLeaf))

variable {cascade yes no : Cascade} {test : Test} {n : Nat}

/-- Either a test compares by order and both sides are search trees, or it is one for
    equality and both sides are leaves. -/
theorem isSearch_branch_iff :
    (branch test yes no).IsSearch ↔
      test.isOrder ∧ (∀ outcome, (cond outcome yes no).IsSearch) ∨
        test.isEquality ∧ ∀ outcome, (cond outcome yes no).isLeaf := by
  rw [IsSearch, Bool.forall_bool, Bool.forall_bool, cond_true, cond_false,
    and_comm (a := no.IsSearch), and_comm (a := no.isLeaf = true)]

theorem isComparison_of_isSearch (h : cascade.IsSearch) :
    ∀ test ∈ cascade.tests, test.op.isComparison = true := by
  induction cascade using side_induction with
  | hleaf body => exact fun _ htest => absurd htest List.not_mem_nil
  | hbranch root yes no ih =>
    intro test htest
    rcases isSearch_branch_iff.1 h with ⟨horder, hsearch⟩ | ⟨hequality, hleaf⟩
    · rcases mem_tests_branch.1 htest with rfl | ⟨side, htest⟩
      · obtain ⟨op, c⟩ := test
        cases op <;> first | rfl | cases horder
      · exact ih side (hsearch side) test htest
    · rcases mem_tests_branch.1 htest with rfl | ⟨side, htest⟩
      · obtain ⟨op, c⟩ := test
        cases op <;> first | rfl | cases hequality
      · -- There are no tests in a leaf.
        have hside := hleaf side
        generalize cond side yes no = part at htest hside
        cases part with
        | leaf body => cases htest
        | branch => cases hside

/-- In a search tree with one state for each leaf, every leaf is found its state. -/
theorem exists_state?_of_isSearch {above : List (Test × Bool)}
    (hn : (n : Int) ≤ Test.maxState) (hconvex : Convex above) (hsearch : cascade.IsSearch)
    (hone : ∀ leaf ∈ leavesFrom above cascade, ∃ state, IsOnly n leaf.path.steps state) :
    ∀ leaf ∈ leavesFrom above cascade, ∃ state : Int,
      (0 ≤ state ∧ state < n) ∧ leaf.state? = .ok (some state) := by
  induction cascade using side_induction generalizing above with
  | hleaf body => exact fun _ hleaf => absurd hleaf List.not_mem_nil
  | hbranch test yes no ih =>
    rw [isSearch_branch_iff] at hsearch
    intro leaf hleaf
    obtain ⟨outcome, hleaf⟩ := mem_leavesFrom_branch.1 hleaf
    -- Some state goes to the other side.
    obtain ⟨leaf', hleaf'⟩ := leavesBelow_ne_nil above test (!outcome) (cond (!outcome) yes no)
    obtain ⟨k', ⟨hk', hpasses'⟩, -⟩ := hone leaf' (mem_leavesFrom_branch.2 ⟨_, hleaf'⟩)
    have hother := (follow_of_mem_leavesBelow hleaf' hpasses').1
    have hhere : ∀ l ∈ leavesBelow above test outcome (cond outcome yes no),
        ∃ state, IsOnly n l.path.steps state := fun l hl =>
      hone l (mem_leavesFrom_branch.2 ⟨outcome, hl⟩)
    have ih := @ih outcome ((test, outcome) :: above)
    have hpart : test.isOrder ∧ (cond outcome yes no).IsSearch ∨
        test.isEquality ∧ (cond outcome yes no).isLeaf :=
      hsearch.imp (fun h => ⟨h.1, h.2 outcome⟩) fun h => ⟨h.1, h.2 outcome⟩
    clear hsearch
    generalize cond outcome yes no = part at hleaf hhere ih hpart
    cases part with
    | leaf body =>
      obtain ⟨k, hk⟩ := hhere leaf hleaf
      obtain rfl := List.mem_singleton.1 hleaf
      refine ⟨k, hk.1.1, ?_⟩
      rcases hpart with ⟨horder, -⟩ | ⟨hequality, -⟩
      · exact state?_of_isOrder hn hconvex hk hk' hother horder
      · exact state?_of_isEquality hn hconvex hk hk' hother hequality
    | branch next yes' no' =>
      rcases hpart with ⟨horder, hsearch⟩ | ⟨-, hleaf⟩
      · exact ih (hconvex.cons horder) hsearch hhere leaf hleaf
      · cases hleaf

/-- If every leaf is found a state, and each is reached by one state, then all states are
    found with the code they are led to. -/
theorem OneEach.solveLeaves_eq (hone : (branch test yes no).OneEach n)
    (hfound : ∀ leaf ∈ (branch test yes no).leaves, ∃ state : Int,
      (0 ≤ state ∧ state < n) ∧ leaf.state? = .ok (some state)) :
    solveLeaves (branch test yes no).leaves =
      .ok ((List.range n).map fun k : Nat => ((k : Int), (branch test yes no).follow k)) := by
  have hstates : ((List.range n).map fun k : Nat => (k : Int)).Pairwise (· < ·) :=
    List.pairwise_map.2 (List.pairwise_lt_range.imp Int.ofNat_lt.2)
  rw [solveLeaves_branch_eq hstates, List.map_map]
  · rfl
  · intro leaf hleaf
    obtain ⟨state, hstate, hfound⟩ := hfound leaf hleaf
    refine ⟨state, mem_map_range_iff.2 hstate, hfound, fun s hs hpasses => ?_⟩
    exact (hone leaf hleaf).unique ⟨mem_map_range_iff.1 hs, hpasses⟩
      ⟨hstate, Leaf.passes_of_state? hfound⟩

end Cascade

/-- A search tree in which each leaf is reached by exactly one of the states
    `0, ..., n - 1` is solved to these states, each with the code it is led to. -/
theorem solve_eq_of_isSearch {name : String} {stmt : Stmt} {cascade : Cascade} {n : Nat}
    (hstmt : cascade.AsIf name stmt) (hsearch : cascade.IsSearch) (hone : cascade.OneEach n) :
    solve name stmt = .ok ((List.range n).map fun k : Nat => ((k : Int), cascade.follow k)) := by
  obtain ⟨hsolve, hn⟩ := solve_of_asIf hstmt hone
  rw [hsolve, Cascade.solve_of_comparisons (Cascade.isComparison_of_isSearch hsearch)]
  cases hstmt with
  | ifThen hcondition hyes hno =>
    refine hone.solveLeaves_eq ?_
    rw [Cascade.leaves_eq_leavesFrom]
    refine Cascade.exists_state?_of_isSearch hn convex_nil hsearch fun leaf hleaf => ?_
    rw [← Cascade.leaves_eq_leavesFrom] at hleaf
    exact hone leaf hleaf

/-- A search for one of four states whose last tests are for equality. -/
def mixedTree : Cascade :=
  .branch ⟨.lt, 2⟩
    (.branch ⟨.eq, 1⟩ (.leaf (marker "b")) (.leaf (marker "a")))
    (.branch ⟨.ne, 2⟩ (.leaf (marker "d")) (.leaf (marker "c")))

/-- The search as an `if`. -/
def mixedSearch : Stmt :=
  .ifThen (comparison .lt 2)
    [.ifThen (comparison .eq 1) (marker "b") (.block (marker "a"))]
    (.elseIf (comparison .ne 2) (marker "d") (.block (marker "c")))

theorem asIf_mixedSearch : mixedTree.AsIf "s" mixedSearch :=
  .ifThen ⟨2, rfl, value?_two⟩
    (.only (.ifThen ⟨1, rfl, value?_one⟩ (asBlock_marker "b") (.block (asBlock_marker "a"))))
    (.elseIf ⟨2, rfl, value?_two⟩ (asBlock_marker "d") (.block (asBlock_marker "c")))

theorem oneEach_mixedTree : mixedTree.OneEach 4 := by
  have honly (steps : List (Test × Bool)) (k : Int) (hk : 0 ≤ k ∧ k < 4)
      (hpasses : ∀ j : Int, 0 ≤ j ∧ j < 4 → (Path.passes ⟨steps, .root⟩ j ↔ j = k)) :
      ∃! state : Int, (0 ≤ state ∧ state < (4 : Nat)) ∧ Path.passes ⟨steps, .root⟩ state :=
    ⟨k, ⟨hk, (hpasses k hk).2 rfl⟩, fun j hj => (hpasses j hj.1).1 hj.2⟩
  intro leaf hleaf
  simp [mixedTree, Cascade.leaves, Cascade.leavesBelow] at hleaf
  rcases hleaf with rfl | rfl | rfl | rfl
  · exact honly _ 1 (by decide) fun j hj => by simp [Path.passes, Test.holds]; omega
  · exact honly _ 0 (by decide) fun j hj => by simp [Path.passes, Test.holds]; omega
  · exact honly _ 3 (by decide) fun j hj => by simp [Path.passes, Test.holds]; omega
  · exact honly _ 2 (by decide) fun j hj => by simp [Path.passes, Test.holds]; omega

theorem solve_mixedSearch :
    mixedTree.AsIf "s" mixedSearch ∧ mixedTree.IsSearch ∧ mixedTree.OneEach 4 ∧
      solve "s" mixedSearch =
        .ok [(0, marker "a"), (1, marker "b"), (2, marker "c"), (3, marker "d")] :=
  ⟨asIf_mixedSearch, by decide, oneEach_mixedTree,
    solve_eq_of_isSearch asIf_mixedSearch (by decide) oneEach_mixedTree⟩

end LuaUnpack.Dispatch
