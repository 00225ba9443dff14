import LuaUnpack.Proofs.Dispatch.Spelling

/-!
# Searches among neighbouring states

A dispatch searches among the states `a, ..., b` if each of its tests splits the states that
come down to it, again neighbours, in two, until one state is left at each leaf
(`Cascade.Searches`). Tests by order can split anywhere, tests for equality at either end.

One neighbour of a state that is left is on the other side of the last test. So the state is
the first candidate for its leaf that passes the tests, and the dispatch is solved to the states
`a, ..., b` with the code they are led to (`solve_eq_of_searches`). There is one exception: a
test for equality with `a` has `a - 1` as its first candidate for what differs from `a`, and
`a - 1` can be led there as well.
-/

namespace LuaUnpack.Dispatch

open LuaUnpack.Lua

/-! ## Candidates -/

namespace Test

variable {test : Test} {outcome : Bool}

/-- A state with a neighbour on the other side of a test is a candidate. A candidate before it
    on the same side is parted from it by the constant of a test for equality. -/
theorem mem_range_of_neighbour {k k' : Int} (hk : test.holds k = outcome)
    (hk' : test.holds k' = !outcome) (hnext : k' = k - 1 ∨ k' = k + 1) (hlow : 0 ≤ k)
    (hhigh : k ≤ maxState) :
    ((test.range outcome).1 ≤ k ∧ k ≤ (test.range outcome).2) ∧
      ∀ j, (test.range outcome).1 ≤ j → j < k → test.holds j = outcome →
        0 ≤ j ∧ k' = j + 1 ∧ test.range outcome = (j, j + 2) := by
  obtain ⟨op, c⟩ := test
  -- Only what differs from a constant has candidates on both sides of it.
  cases op <;> cases outcome <;> simp only [holds, range, Bool.not_true, Bool.not_false,
    Bool.false_eq_true, decide_eq_true_eq, decide_eq_false_iff_not, beq_iff_eq, bne_iff_ne,
    beq_eq_false_iff_ne, bne_eq_false_iff_eq] at hk hk' ⊢ <;>
    refine ⟨by omega, fun j hfirst hlt hj => ?_⟩ <;> rw [Prod.mk.injEq] <;> omega

/-- Whether a test has an outcome for the states from `low` up to `mid`, and the contrary outcome
    for those after `mid` up to `high`. -/
def Splits (test : Test) (outcome : Bool) (low mid high : Int) : Prop :=
  ∀ s, low ≤ s → s ≤ high → (test.holds s = outcome ↔ s ≤ mid)

theorem Splits.holds_eq_not_iff {low mid high s : Int} (h : test.Splits outcome low mid high)
    (hlow : low ≤ s) (hhigh : s ≤ high) : test.holds s = (!outcome) ↔ mid < s := by
  rw [Bool.eq_not, Ne, h s hlow hhigh, not_le]

/-- An operator that does not compare has one outcome only. -/
theorem isComparison_of_holds {state : Int} (h : test.holds state = true) :
    test.op.isComparison = true := by
  obtain ⟨op, c⟩ := test
  cases op <;> first | rfl | cases h

end Test

/-! ## Searches -/

/-- Whether the states of `a, ..., b` that pass some tests are those from `low` to `high`. -/
structure Narrows (a b : Int) (steps : List (Test × Bool)) (low high : Int) : Prop where
  low_le : a ≤ low
  le_high : high ≤ b
  passes_iff : ∀ s, a ≤ s → s ≤ b → (Path.passes ⟨steps, .root⟩ s ↔ low ≤ s ∧ s ≤ high)

theorem Narrows.passes {a b low high s : Int} {steps : List (Test × Bool)}
    (h : Narrows a b steps low high) (hlow : low ≤ s) (hhigh : s ≤ high) :
    Path.passes ⟨steps, .root⟩ s :=
  (h.passes_iff s (h.low_le.trans hlow) (hhigh.trans h.le_high)).2 ⟨hlow, hhigh⟩

theorem narrows_nil (a b : Int) : Narrows a b [] a b :=
  ⟨Int.le_refl a, Int.le_refl b, fun _ hlow hhigh => iff_of_true rfl ⟨hlow, hhigh⟩⟩

namespace Cascade

/-- Whether each test of a cascade splits the states that come down to it, and one of the
    states from `low` to `high` is left at each leaf. -/
inductive Searches : Cascade → Int → Int → Prop
  | leaf (body : Block) (state : Int) : Searches (.leaf body) state state
  | branch {test : Test} {yes no : Cascade} {low mid high : Int} (outcome : Bool)
      (hsplits : test.Splits outcome low mid high)
      (hbelow : Searches (cond outcome yes no) low mid)
      (habove : Searches (cond (!outcome) yes no) (mid + 1) high) :
      Searches (.branch test yes no) low high

variable {cascade yes no : Cascade} {test : Test} {steps : List (Test × Bool)}
  {a b low high : Int}

theorem Searches.le (h : cascade.Searches low high) : low ≤ high := by
  induction h with
  | leaf body state => exact Int.le_refl state
  | branch outcome hsplits hbelow habove ihbelow ihabove => omega

theorem Searches.lt_of_branch (h : (Cascade.branch test yes no).Searches low high) :
    low < high := by
  cases h with
  | branch outcome hsplits hbelow habove =>
    have := hbelow.le
    have := habove.le
    omega

/-- On either side of a test the search goes on among the states on that side, and a neighbour
    of these is on the other side. -/
theorem Searches.side (h : (Cascade.branch test yes no).Searches low high)
    (hsteps : Narrows a b steps low high) (outcome : Bool) :
    ∃ low' high', (cond outcome yes no).Searches low' high' ∧
      Narrows a b ((test, outcome) :: steps) low' high' ∧
      (a < low' ∧ test.holds (low' - 1) = !outcome ∨ test.holds (high' + 1) = !outcome) := by
  obtain ⟨hlow, hhigh, hpasses⟩ := hsteps
  cases h with
  | @branch _ _ _ _ mid _ first hsplits hbelow habove =>
    have hmid := hbelow.le
    have hmid' := habove.le
    -- The states up to `mid` have the first outcome, those after it the other.
    rcases Bool.eq_or_eq_not outcome first with rfl | rfl
    · refine ⟨low, mid, hbelow, ⟨hlow, by omega, fun s hs hs' => ?_⟩,
        .inr ((hsplits.holds_eq_not_iff (by omega) (by omega)).2 (by omega))⟩
      rw [Path.passes_cons, hpasses s hs hs']
      constructor
      · rintro ⟨hholds, hin⟩
        exact ⟨hin.1, (hsplits s hin.1 hin.2).1 hholds⟩
      · intro hin
        exact ⟨(hsplits s hin.1 (by omega)).2 hin.2, by omega⟩
    · refine ⟨mid + 1, high, habove, ⟨by omega, hhigh, fun s hs hs' => ?_⟩, .inl ⟨by omega, ?_⟩⟩
      · rw [Path.passes_cons, hpasses s hs hs']
        constructor
        · rintro ⟨hholds, hin⟩
          exact ⟨(hsplits.holds_eq_not_iff hin.1 hin.2).1 hholds, hin.2⟩
        · intro hin
          exact ⟨(hsplits.holds_eq_not_iff (by omega) hin.2).2 hin.1, by omega⟩
      · rw [Bool.not_not]
        exact (hsplits _ (by omega) (by omega)).2 (by omega)

theorem Searches.isComparison (h : cascade.Searches low high) :
    ∀ test ∈ cascade.tests, test.op.isComparison = true := by
  induction cascade using side_induction generalizing low high with
  | hleaf body => exact fun _ htest => absurd htest List.not_mem_nil
  | hbranch root yes no ih =>
    intro test htest
    rcases mem_tests_branch.1 htest with rfl | ⟨side, htest⟩
    · obtain ⟨low', high', hside, hnarrows, -⟩ := h.side (narrows_nil low high) true
      have hpasses := hnarrows.passes (Int.le_refl low') hside.le
      exact Test.isComparison_of_holds ((Path.passes_cons ..).1 hpasses).1
    · obtain ⟨low', high', hside, -⟩ := h.side (narrows_nil low high) side
      exact ih side hside test htest

/-- The last of several states is a constant or next to one. -/
theorem Searches.exists_constant (h : cascade.Searches low high) (hlt : low < high) :
    ∃ test ∈ cascade.tests, high ≤ test.constant + 1 := by
  induction h with
  | leaf body state => omega
  | @branch test yes no low mid high outcome hsplits hbelow habove _ ihabove =>
    have hle := hbelow.le
    -- The last state is told from the one before it here or in the part above `mid`.
    rcases Int.lt_or_eq_of_le habove.le with hlt | rfl
    · obtain ⟨last, hlast, hhigh⟩ := ihabove hlt
      exact ⟨last, mem_tests_branch.2 (.inr ⟨_, hlast⟩), hhigh⟩
    · have hmid := (hsplits mid hle (by omega)).2 (Int.le_refl mid)
      have hnext := (hsplits.holds_eq_not_iff (by omega) (Int.le_refl _)).2 (Int.lt_succ mid)
      refine ⟨test, mem_tests_branch.2 (.inl rfl), ?_⟩
      cases outcome with
      | true =>
        have := Test.constant_between hmid hnext
        omega
      | false =>
        have := Test.constant_between hnext hmid
        omega

/-- The state that is left at a leaf is found for it. -/
theorem state?_of_narrows {outcome : Bool} {k : Int} {body : Block} (ha : 0 ≤ a)
    (hb : b ≤ Test.maxState) (hsteps : Narrows a b ((test, outcome) :: steps) k k)
    (hneighbour : a < k ∧ test.holds (k - 1) = !outcome ∨ test.holds (k + 1) = !outcome)
    (hfirst : a = 0 ∨ test.range outcome ≠ (a - 1, a + 1)) :
    Leaf.state? ⟨test.range outcome, ⟨(test, outcome) :: steps, .root⟩, body⟩ = .ok (some k) := by
  have hpasses := hsteps.passes (Int.le_refl k) (Int.le_refl k)
  obtain ⟨hlow, hhigh, hpasses_iff⟩ := hsteps
  obtain ⟨k', hk', hnext⟩ : ∃ k', test.holds k' = (!outcome) ∧
      (a ≤ k' ∧ k' = k - 1 ∨ k' = k + 1) := by
    rcases hneighbour with ⟨hlt, h⟩ | h
    · exact ⟨_, h, .inl ⟨by omega, rfl⟩⟩
    · exact ⟨_, h, .inr rfl⟩
  obtain ⟨hmem, hbefore⟩ := Test.mem_range_of_neighbour ((Path.passes_cons ..).1 hpasses).1 hk'
    (by omega) (by omega) (by omega)
  refine Leaf.state?_eq_some hmem.1 hmem.2 hpasses fun j hj hlt hjpasses => ?_
  obtain ⟨hnonneg, hnext', hrange⟩ := hbefore j hj hlt ((Path.passes_cons ..).1 hjpasses).1
  -- A candidate before `k` that is led here can only be `a - 1`.
  have hja : j < a := not_le.1 fun hle => by
    have := (hpasses_iff j hle (by omega)).1 hjpasses
    omega
  rcases hfirst with rfl | hfirst
  · omega
  · refine hfirst (hrange.trans (Prod.ext ?_ ?_)) <;> dsimp only <;> omega

/-- In a search among `a, ..., b`, every leaf is found the state that is left there. -/
theorem Searches.exists_state? (h : cascade.Searches low high)
    (hsteps : Narrows a b steps low high) (ha : 0 ≤ a) (hb : b ≤ Test.maxState)
    (hfirst : a = 0 ∨ ∀ leaf ∈ leavesFrom steps cascade, leaf.candidates ≠ (a - 1, a + 1)) :
    ∀ leaf ∈ leavesFrom steps cascade, ∃ k, (a ≤ k ∧ k ≤ b) ∧ leaf.state? = .ok (some k) ∧
      ∀ s, a ≤ s → s ≤ b → leaf.path.passes s → s = k := by
  induction cascade using side_induction generalizing steps low high with
  | hleaf body => exact fun _ hleaf => absurd hleaf List.not_mem_nil
  | hbranch test yes no ih =>
    intro leaf hleaf
    obtain ⟨outcome, hleaf⟩ := mem_leavesFrom_branch.1 hleaf
    obtain ⟨low', high', hside, hsteps', hneighbour⟩ := h.side hsteps outcome
    have hfirst : a = 0 ∨ ∀ leaf ∈ leavesBelow steps test outcome (cond outcome yes no),
        leaf.candidates ≠ (a - 1, a + 1) :=
      hfirst.imp_right fun hne l hl => hne l (mem_leavesFrom_branch.2 ⟨outcome, hl⟩)
    have ih := ih outcome hside hsteps'
    clear h
    -- The part on this side is where one state is left, or the search goes on there.
    generalize cond outcome yes no = part at hleaf hside hfirst ih
    cases part with
    | leaf body =>
      obtain rfl := List.mem_singleton.1 hleaf
      cases hside
      refine ⟨_, ⟨hsteps'.low_le, hsteps'.le_high⟩, state?_of_narrows ha hb hsteps' hneighbour
        (hfirst.imp_right fun hne => hne _ (List.mem_singleton_self _)), fun s hs hs' hpasses => ?_⟩
      have := (hsteps'.passes_iff s hs hs').1 hpasses
      omega
    | branch next yes' no' => exact ih hfirst leaf hleaf

end Cascade

theorem Leaf.pairwise_statesIn (low high : Int) : (statesIn (low, high)).Pairwise (· < ·) := by
  rw [statesIn, List.pairwise_map]
  refine List.pairwise_lt_range.imp fun hlt => ?_
  omega

/-- A search among `a, ..., b` is solved to these states, each with the code it is led to,
    unless a leaf stands right at the far side of a test for equality with `a`. -/
theorem solve_eq_of_searches {name : String} {stmt : Stmt} {cascade : Cascade} {a b : Int}
    (hread : Cascade.ofStmt name stmt = .ok cascade) (h : cascade.Searches a b) (ha : 0 ≤ a)
    (hb : b ≤ Test.maxState)
    (hfirst : a = 0 ∨ ∀ leaf ∈ cascade.leaves, leaf.candidates ≠ (a - 1, a + 1)) :
    solve name stmt = .ok ((Leaf.statesIn (a, b)).map fun s => (s, cascade.follow s)) := by
  have hsolve : solve name stmt = cascade.solve := by
    rw [solve, hread]
    rfl
  obtain ⟨test, yes, no, rfl⟩ := Cascade.eq_branch_of_ofStmt hread
  rw [hsolve, Cascade.solve_of_comparisons h.isComparison]
  rw [Cascade.leaves_eq_leavesFrom] at hfirst
  -- Each leaf has one state of the range, and it is the only one of the range that passes.
  refine Cascade.solveLeaves_branch_eq (Leaf.pairwise_statesIn a b) fun leaf hleaf => ?_
  obtain ⟨k, hk, hstate, honly⟩ := h.exists_state? (narrows_nil a b) ha hb hfirst leaf hleaf
  refine ⟨k, Leaf.mem_statesIn.2 hk, hstate, fun s hs hpasses => ?_⟩
  obtain ⟨hlow, hhigh⟩ := Leaf.mem_statesIn.1 hs
  exact honly s hlow hhigh hpasses

/-! ## Dispatches that can be solved -/

namespace Cascade

theorem exists_range_of_mem_leavesBelow {cascade : Cascade} {steps : List (Test × Bool)}
    {test : Test} {outcome : Bool} {leaf : Leaf}
    (hleaf : leaf ∈ leavesBelow steps test outcome cascade) :
    ∃ last ∈ test :: cascade.tests, ∃ side path body,
      leaf = ⟨last.range side, ⟨path, .root⟩, body⟩ := by
  induction cascade using side_induction generalizing steps test outcome with
  | hleaf body => exact ⟨test, List.mem_cons_self, outcome, _, body, List.mem_singleton.1 hleaf⟩
  | hbranch next yes no ih =>
    obtain ⟨side, hleaf⟩ := mem_leavesFrom_branch.1 hleaf
    obtain ⟨last, hlast, hshape⟩ := ih side hleaf
    have hmem := mem_tests_branch.2 ((List.mem_cons.1 hlast).imp_right (Exists.intro side))
    exact ⟨last, List.mem_cons_of_mem _ hmem, hshape⟩

/-- The candidates for a leaf are those of a test. -/
theorem exists_range_of_mem_leaves {cascade : Cascade} {leaf : Leaf}
    (hleaf : leaf ∈ cascade.leaves) :
    ∃ last ∈ cascade.tests, ∃ side path body, leaf = ⟨last.range side, ⟨path, .root⟩, body⟩ := by
  rw [leaves_eq_leavesFrom] at hleaf
  cases cascade with
  | leaf body => cases hleaf
  | branch test yes no =>
    obtain ⟨side, hleaf⟩ := mem_leavesFrom_branch.1 hleaf
    obtain ⟨last, hlast, hshape⟩ := exists_range_of_mem_leavesBelow hleaf
    exact ⟨last, mem_tests_branch.2 ((List.mem_cons.1 hlast).imp_right (Exists.intro side)), hshape⟩

/-- Comparisons with words from -1 on can be solved. -/
theorem exists_solve {cascade : Cascade}
    (h : ∀ test ∈ cascade.tests,
      test.op.isComparison = true ∧ -1 ≤ test.constant ∧ test.constant ≤ Test.maxState) :
    ∃ dict, cascade.solve = .ok dict := by
  rw [solve_of_comparisons fun test htest => (h test htest).1]
  refine exists_solveLeaves fun leaf hleaf => ?_
  obtain ⟨test, htest, side, path, body, rfl⟩ := exists_range_of_mem_leaves hleaf
  obtain ⟨-, hlow, hhigh⟩ := h test htest
  have hrange : (test.range side).1 ≤ (test.range side).2 := by
    have hmax : (0 : Int) ≤ Test.maxState := by decide
    unfold Test.range
    split <;> dsimp only <;> omega
  rw [Leaf.state?, if_neg (not_lt.2 hrange), Leaf.firstAdmitted_root]
  exact ⟨_, rfl⟩

end Cascade

end LuaUnpack.Dispatch
