import LuaUnpack.Proofs.Dispatch.Spelling

/-!
# Chains of equalities

A dispatch can test its state for equality with one state after another, with what is left
for the last one (`Cascade.equalityChain`). The candidates for the last one are the
neighbours of the state that was tested last. If the last two states are neighbours, the
chain is solved to all its states; otherwise the last one is not found: its code is
dropped, or is put at a state that the chain does not have (`lastState`).
-/

namespace LuaUnpack.Dispatch

open LuaUnpack.Lua

namespace Cascade

/-- The cascade that tests for equality with one state after another. -/
def equalityChain : List (Int × Block) → Block → Cascade
  | [], last => leaf last
  | (state, body) :: rest, last => branch ⟨.eq, state⟩ (leaf body) (equalityChain rest last)

/-- The path after tests for equality that all failed, the last one first. -/
def unequal (seen : List Int) : List (Test × Bool) := seen.map fun state => (⟨.eq, state⟩, false)

theorem passes_unequal_iff {seen : List Int} {state : Int} :
    Path.passes ⟨unequal seen, .root⟩ state ↔ state ∉ seen := by
  rw [Path.passes_iff, unequal, List.forall_mem_map]
  simp only [Test.holds, beq_eq_false_iff_ne]
  exact ⟨fun h hmem => h state hmem rfl, fun h k hk heq => h (heq ▸ hk)⟩

/-- The leaf for a state that is tested after others. -/
def testedLeaf (seen : List Int) (pair : Int × Block) : Leaf :=
  ⟨Test.range ⟨.eq, pair.1⟩ true, ⟨(⟨.eq, pair.1⟩, true) :: unequal seen, .root⟩, pair.2⟩

/-- The leaves for states that are tested after others. -/
def testedLeaves (seen : List Int) : List (Int × Block) → List Leaf
  | [] => []
  | pair :: rest => testedLeaf seen pair :: testedLeaves (pair.1 :: seen) rest

/-- The leaf for what is left. -/
def lastLeaf (seen : List Int) (c : Int) (last : Block) : Leaf :=
  ⟨Test.range ⟨.eq, c⟩ false, ⟨unequal (c :: seen), .root⟩, last⟩

theorem leavesFrom_equalityChain (seen : List Int) (tested : List (Int × Block)) (c : Int × Block)
    (last : Block) :
    leavesFrom (unequal seen) (equalityChain (tested ++ [c]) last) =
      testedLeaves seen (tested ++ [c]) ++
        [lastLeaf ((tested.map (·.1)).reverse ++ seen) c.1 last] := by
  induction tested generalizing seen with
  | nil => rfl
  | cons pair tested ih =>
    have hrest :
        leavesBelow (unequal seen) ⟨.eq, pair.1⟩ false (equalityChain (tested ++ [c]) last) =
          leavesFrom (unequal (pair.1 :: seen)) (equalityChain (tested ++ [c]) last) := by
      cases tested <;> rfl
    rw [List.cons_append, equalityChain, leavesFrom, hrest, ih]
    simp [testedLeaves, testedLeaf, leavesBelow]

theorem mem_testedLeaves_iff {seen : List Int} {tested : List (Int × Block)} {leaf : Leaf} :
    leaf ∈ testedLeaves seen tested ↔ ∃ before pair after, tested = before ++ pair :: after ∧
      leaf = testedLeaf ((before.map (·.1)).reverse ++ seen) pair := by
  -- The states that were tested before grow with each step, so `seen` is generalized.
  induction tested generalizing seen with
  | nil => simp [testedLeaves]
  | cons first rest ih =>
    rw [testedLeaves, List.mem_cons, ih]
    constructor
    · rintro (rfl | ⟨before, pair, after, rfl, rfl⟩)
      · exact ⟨[], first, rest, rfl, rfl⟩
      · exact ⟨first :: before, pair, after, rfl, by simp⟩
    · rintro ⟨before, pair, after, htested, rfl⟩
      cases before with
      | nil =>
        cases htested
        exact .inl rfl
      | cons first' before =>
        cases htested
        exact .inr ⟨before, pair, after, rfl, by simp⟩

section

variable {seen : List Int} {pair : Int × Block}

theorem passes_testedLeaf_iff (hnew : pair.1 ∉ seen) {state : Int} :
    (testedLeaf seen pair).path.passes state ↔ state = pair.1 := by
  rw [testedLeaf, Path.passes_cons, passes_unequal_iff]
  simp only [Test.holds, beq_iff_eq]
  exact ⟨And.left, fun h => ⟨h, h ▸ hnew⟩⟩

theorem state?_testedLeaf (hnew : pair.1 ∉ seen) :
    (testedLeaf seen pair).state? = .ok (some pair.1) :=
  Leaf.state?_eq_some_of_single rfl ((passes_testedLeaf_iff hnew).2 rfl)

end

/-- The leaf of a chain for what is left is reached by all states but those tested. -/
theorem passes_lastLeaf_iff {seen : List Int} {c state : Int} {last : Block} :
    (lastLeaf seen c last).path.passes state ↔ state ≠ c ∧ state ∉ seen := by
  rw [lastLeaf, passes_unequal_iff, List.mem_cons, not_or]

end Cascade

/-! ## The last state -/

/-- The state that is found for what is left in a chain over `0, ..., n - 1`, if `c` was
    tested last and the state `last` is left. -/
def lastState (n : Nat) (c last : Int) : Option Int :=
  if last = c - 1 ∨ last = c + 1 then some last else if c + 1 = n then some n else none

section

variable {n : Nat} {seen : List Int} {c last : Int} {body : Block}
  (hstates : ∀ state : Int, 0 ≤ state ∧ state < n ↔ state = last ∨ state = c ∨ state ∈ seen)
  (hc : last ≠ c) (hseen : last ∉ seen)
include hstates hc hseen

/-- Of the states `0, ..., n - 1`, only the last one is left, but so are all above them. -/
theorem passes_lastLeaf_iff_of_nonneg {state : Int} (hnonneg : 0 ≤ state) :
    (Cascade.lastLeaf seen c body).path.passes state ↔ state = last ∨ n ≤ state := by
  rw [Cascade.passes_lastLeaf_iff]
  constructor
  · rintro ⟨hne, hnot⟩
    by_cases hlt : state < n
    · exact .inl (((hstates state).1 ⟨hnonneg, hlt⟩).resolve_right (not_or.2 ⟨hne, hnot⟩))
    · exact .inr (Int.not_lt.1 hlt)
  · rintro (rfl | hle)
    · exact ⟨hc, hseen⟩
    · have hnot : ¬(state = last ∨ state = c ∨ state ∈ seen) := fun h => by
        have := (hstates state).2 h
        omega
      exact not_or.1 (not_or.1 hnot).2

/-- The last state is found if it is a neighbour of the one tested last. If it is not,
    either no candidate is left, or the one above all states is taken. -/
theorem state?_lastLeaf (hn : (n : Int) ≤ Test.maxState) :
    (Cascade.lastLeaf seen c body).state? = .ok (lastState n c last) := by
  have hlast := (hstates last).2 (.inl rfl)
  have hcmem := (hstates c).2 (.inr (.inl rfl))
  -- Of the candidates, only the last state and those above all states pass the tests.
  have hpasses (j : Int) (hj : max (c - 1) 0 ≤ j) :
      (Cascade.lastLeaf seen c body).path.passes j ↔ j = last ∨ n ≤ j :=
    passes_lastLeaf_iff_of_nonneg hstates hc hseen (by omega)
  have hrange : Test.range ⟨.eq, c⟩ false = (max (c - 1) 0, c + 1) := by
    simp only [Test.range, Prod.mk.injEq, true_and]
    omega
  rw [Cascade.lastLeaf, hrange, lastState]
  split
  · rename_i hnext
    refine Leaf.state?_eq_some (by omega) (by omega) ((hpasses last (by omega)).2 (.inl rfl)) ?_
    intro j hlow hlt hj
    have := (hpasses j hlow).1 hj
    omega
  · rename_i hnext
    split
    · rename_i hend
      refine Leaf.state?_eq_some (by omega) (by omega) ((hpasses n (by omega)).2 (.inr le_rfl)) ?_
      intro j hlow hlt hj
      have := (hpasses j hlow).1 hj
      omega
    · refine Leaf.state?_eq_none (by omega) fun j hlow hhigh hj => ?_
      have := (hpasses j hlow).1 hj
      omega

end

/-! ## Solving a chain -/

namespace Cascade

theorem leaves_equalityChain (tested : List (Int × Block)) (c : Int × Block) (last : Block) :
    (equalityChain (tested ++ [c]) last).leaves =
      testedLeaves [] (tested ++ [c]) ++ [lastLeaf (tested.map (·.1)).reverse c.1 last] := by
  rw [leaves_eq_leavesFrom, ← List.append_nil (tested.map (·.1)).reverse]
  exact leavesFrom_equalityChain [] tested c last

/-- In a list of states without repetitions, none comes before itself. -/
theorem not_mem_before {before after : List (Int × Block)} {pair : Int × Block}
    (hnodup : ((before ++ pair :: after).map (·.1)).Nodup) :
    pair.1 ∉ (before.map (·.1)).reverse ++ [] := by
  rw [List.map_append, List.map_cons, List.nodup_middle, List.nodup_cons] at hnodup
  intro hmem
  exact hnodup.1 (List.mem_append_left _ (by simpa using hmem))

section

variable {pairs : List (Int × Block)} (hnodup : (pairs.map (·.1)).Nodup)
include hnodup

theorem exists_of_mem_testedLeaves {leaf : Leaf} (hleaf : leaf ∈ testedLeaves [] pairs) :
    ∃ pair ∈ pairs, ∃ seen, pair.1 ∉ seen ∧ leaf = testedLeaf seen pair := by
  obtain ⟨before, pair, after, rfl, rfl⟩ := mem_testedLeaves_iff.1 hleaf
  exact ⟨pair, List.mem_append_right _ List.mem_cons_self, _, not_mem_before hnodup, rfl⟩

theorem exists_mem_testedLeaves {pair : Int × Block} (hpair : pair ∈ pairs) :
    ∃ seen, pair.1 ∉ seen ∧ testedLeaf seen pair ∈ testedLeaves [] pairs := by
  obtain ⟨before, after, rfl⟩ := List.append_of_mem hpair
  exact ⟨_, not_mem_before hnodup, mem_testedLeaves_iff.2 ⟨before, pair, after, rfl, rfl⟩⟩

end

end Cascade

/-- Whether a chain tests the states `0, ..., n - 1`, each once, up to the last one: `c` is
    tested last and `last` is left. -/
structure IsChain (tested : List (Int × Block)) (c last : Int × Block) (n : Nat) : Prop where
  nodup : ((tested ++ [c]).map (·.1)).Nodup
  last_ne : last.1 ≠ c.1
  last_not_mem : last.1 ∉ (tested.map (·.1)).reverse
  mem_iff : ∀ state : Int, 0 ≤ state ∧ state < n ↔
    state = last.1 ∨ state = c.1 ∨ state ∈ (tested.map (·.1)).reverse

variable {tested : List (Int × Block)} {c last : Int × Block} {n : Nat}

theorem nodup_of_perm_range {states : List Int}
    (h : states.Perm ((List.range n).map fun k : Nat => (k : Int))) : states.Nodup :=
  h.nodup_iff.2 (List.nodup_range.map Nat.cast_injective)

theorem isChain_of_perm
    (h : ((tested ++ [c, last]).map (·.1)).Perm ((List.range n).map fun k : Nat => (k : Int))) :
    IsChain tested c last n := by
  have hsplit : (tested ++ [c, last]).map (·.1) = (tested ++ [c]).map (·.1) ++ [last.1] := by simp
  have hnodup := nodup_of_perm_range h
  rw [hsplit, List.nodup_append] at hnodup
  obtain ⟨hnodup, -, hapart⟩ := hnodup
  refine ⟨hnodup, fun heq => ?_, fun hmem => ?_, fun state => ?_⟩
  · exact hapart c.1 (by simp) last.1 List.mem_cons_self heq.symm
  · refine hapart last.1 ?_ last.1 List.mem_cons_self rfl
    rw [List.map_append]
    exact List.mem_append_left _ (List.mem_reverse.1 hmem)
  · rw [← mem_map_range_iff, ← h.mem_iff, hsplit, List.map_append, List.mem_append, List.mem_append,
      List.mem_reverse]
    simp only [List.map_cons, List.map_nil, List.mem_singleton]
    tauto

section

variable (hchain : IsChain tested c last n)
include hchain

/-- The leaves of a chain are reached by one state each. -/
theorem IsChain.oneEach : (Cascade.equalityChain (tested ++ [c]) last.2).OneEach n := by
  intro leaf hleaf
  rw [Cascade.leaves_equalityChain] at hleaf
  rcases List.mem_append.1 hleaf with hleaf | hleaf
  · obtain ⟨pair, hpair, seen, hnew, rfl⟩ := Cascade.exists_of_mem_testedLeaves hchain.nodup hleaf
    have hmem : pair.1 = c.1 ∨ pair.1 ∈ (tested.map (·.1)).reverse := by
      rcases List.mem_append.1 hpair with hpair | hpair
      · exact .inr (List.mem_reverse.2 (List.mem_map_of_mem hpair))
      · exact .inl (congrArg Prod.fst (List.mem_singleton.1 hpair))
    refine ⟨pair.1, ⟨(hchain.mem_iff _).2 (.inr hmem), ?_⟩, fun state hstate => ?_⟩
    · exact (Cascade.passes_testedLeaf_iff hnew).2 rfl
    · exact (Cascade.passes_testedLeaf_iff hnew).1 hstate.2
  · -- The leaf behind all tests is reached by what none of them names: the last state.
    obtain rfl := List.mem_singleton.1 hleaf
    have hlast := (hchain.mem_iff last.1).2 (.inl rfl)
    refine ⟨last.1, ⟨hlast, ?_⟩, ?_⟩
    · exact Cascade.passes_lastLeaf_iff.2 ⟨hchain.last_ne, hchain.last_not_mem⟩
    · rintro state ⟨hmem, hpasses⟩
      have := (passes_lastLeaf_iff_of_nonneg hchain.mem_iff hchain.last_ne hchain.last_not_mem
        hmem.1).1 hpasses
      omega

/-- The state of a leaf of a chain is the one tested for, or what is found for the last. -/
theorem IsChain.state?_of_mem (hn : (n : Int) ≤ Test.maxState) {leaf : Leaf}
    (hleaf : leaf ∈ (Cascade.equalityChain (tested ++ [c]) last.2).leaves) :
    (∃ pair ∈ tested ++ [c], leaf.state? = .ok (some pair.1) ∧ leaf.body = pair.2) ∨
      leaf.state? = .ok (lastState n c.1 last.1) ∧ leaf.body = last.2 := by
  rw [Cascade.leaves_equalityChain] at hleaf
  rcases List.mem_append.1 hleaf with hleaf | hleaf
  · obtain ⟨pair, hpair, seen, hnew, rfl⟩ := Cascade.exists_of_mem_testedLeaves hchain.nodup hleaf
    exact .inl ⟨pair, hpair, Cascade.state?_testedLeaf hnew, rfl⟩
  · obtain rfl := List.mem_singleton.1 hleaf
    exact .inr ⟨state?_lastLeaf hchain.mem_iff hchain.last_ne hchain.last_not_mem hn, rfl⟩

/-- The states that are found are those tested, and what is found for the last one. -/
theorem IsChain.exists_leaf_iff (hn : (n : Int) ≤ Test.maxState) (state : Int) (body : Block) :
    (∃ leaf ∈ (Cascade.equalityChain (tested ++ [c]) last.2).leaves,
        leaf.state? = .ok (some state) ∧ leaf.body = body) ↔
      (state, body) ∈ tested ++ [c] ∨ lastState n c.1 last.1 = some state ∧ last.2 = body := by
  constructor
  · rintro ⟨leaf, hleaf, hstate, rfl⟩
    rcases hchain.state?_of_mem hn hleaf with ⟨pair, hpair, hfound, hbody⟩ | ⟨hfound, hbody⟩
    · obtain rfl : state = pair.1 := Option.some.inj (Except.ok.inj (hstate.symm.trans hfound))
      rw [hbody]
      exact .inl hpair
    · exact .inr ⟨Except.ok.inj (hfound.symm.trans hstate), hbody.symm⟩
  · -- Backwards, each state is found at the leaf of its own test.
    rw [Cascade.leaves_equalityChain]
    rintro (hpair | ⟨hstate, rfl⟩)
    · obtain ⟨seen, hnew, hleaf⟩ := Cascade.exists_mem_testedLeaves hchain.nodup hpair
      exact ⟨_, List.mem_append_left _ hleaf, Cascade.state?_testedLeaf hnew, rfl⟩
    · refine ⟨_, List.mem_append_right _ (List.mem_singleton_self _), ?_, rfl⟩
      rw [state?_lastLeaf hchain.mem_iff hchain.last_ne hchain.last_not_mem hn, hstate]

/-- The last state is found just if it is a neighbour of the one tested last. -/
theorem IsChain.lastState_eq_some_iff :
    lastState n c.1 last.1 = some last.1 ↔ last.1 = c.1 - 1 ∨ last.1 = c.1 + 1 := by
  have hlast := (hchain.mem_iff last.1).2 (.inl rfl)
  rw [lastState]
  split
  · rename_i hnext
    exact iff_of_true rfl hnext
  · rename_i hnext
    refine iff_of_false (fun h => ?_) hnext
    split at h
    · have := Option.some.inj h
      omega
    · cases h

end

theorem isComparison_equalityChain (tested : List (Int × Block)) (last : Block) :
    ∀ test ∈ (Cascade.equalityChain tested last).tests, test.op.isComparison = true := by
  induction tested with
  | nil => exact fun _ htest => absurd htest List.not_mem_nil
  | cons pair rest ih => exact List.forall_mem_cons.2 ⟨rfl, ih⟩

/-- Whether a dictionary has all `n` states of a chain with their code, and no others. -/
def IsComplete (dict : Dict Int Block) (chain : List (Int × Block)) (n : Nat) : Prop :=
  dict.length = n ∧ (∀ pair ∈ dict, 0 ≤ pair.1 ∧ pair.1 < n) ∧
    ∀ pair ∈ chain, dict.get? pair.1 = some pair.2

/-- A dictionary with the entries of a solved chain is complete just if the last state was
    found. -/
theorem isComplete_iff
    (hstates : ((tested ++ [c, last]).map (·.1)).Perm ((List.range n).map fun k : Nat => (k : Int)))
    {dict : Dict Int Block} (hdict : dict.Ascending)
    (hget : ∀ state body, dict.get? state = some body ↔
      (state, body) ∈ tested ++ [c] ∨ lastState n c.1 last.1 = some state ∧ last.2 = body) :
    IsComplete dict (tested ++ [c, last]) n ↔ lastState n c.1 last.1 = some last.1 := by
  have hchain := isChain_of_perm hstates
  constructor
  · rintro ⟨-, -, hall⟩
    rcases (hget last.1 last.2).1 (hall last (by simp)) with hmem | ⟨hstate, -⟩
    · -- The last state was not tested.
      rcases List.mem_append.1 hmem with hmem | hmem
      · exact absurd (List.mem_reverse.2 (List.mem_map_of_mem hmem)) hchain.last_not_mem
      · exact absurd (congrArg Prod.fst (List.mem_singleton.1 hmem)) hchain.last_ne
    · exact hstate
  · intro hstate
    have hmem : ∀ pair, pair ∈ dict ↔ pair ∈ tested ++ [c, last] := by
      rintro ⟨state, body⟩
      have hsplit : tested ++ [c, last] = (tested ++ [c]) ++ [last] := by simp
      rw [← hdict.get?_eq_some_iff, hget, hstate, hsplit, List.mem_append (s := tested ++ [c]),
        List.mem_singleton, Prod.ext_iff, Option.some.injEq, eq_comm, eq_comm (a := last.2)]
    have hperm : dict.Perm (tested ++ [c, last]) :=
      (List.perm_ext_iff_of_nodup (List.Nodup.of_map _ (hdict.imp ne_of_lt))
        (List.Nodup.of_map _ (nodup_of_perm_range hstates))).2 hmem
    refine ⟨?_, fun pair hpair => ?_, fun pair hpair => ?_⟩
    · exact hperm.length_eq.trans (by simpa using hstates.length_eq)
    · exact mem_map_range_iff.1 (hstates.mem_iff.1 (List.mem_map_of_mem ((hmem pair).1 hpair)))
    · exact hdict.get?_eq_some_iff.2 ((hmem pair).2 hpair)

/-- A chain of equalities over the states `0, ..., n - 1`, in any order, is solved to the
    states it tests and to what is found for the last one. It is solved completely just if
    the last state is a neighbour of the one tested last. -/
theorem solve_equalityChain {name : String} {stmt : Stmt}
    (hstates : ((tested ++ [c, last]).map (·.1)).Perm ((List.range n).map fun k : Nat => (k : Int)))
    (hstmt : (Cascade.equalityChain (tested ++ [c]) last.2).AsIf name stmt) :
    ∃ dict, solve name stmt = .ok dict ∧
      (∀ state body, dict.get? state = some body ↔
        (state, body) ∈ tested ++ [c] ∨ lastState n c.1 last.1 = some state ∧ last.2 = body) ∧
      (IsComplete dict (tested ++ [c, last]) n ↔ last.1 = c.1 - 1 ∨ last.1 = c.1 + 1) := by
  have hchain := isChain_of_perm hstates
  obtain ⟨hsolve, hn⟩ := solve_of_asIf hstmt hchain.oneEach
  rw [hsolve, Cascade.solve_of_comparisons (isComparison_equalityChain _ _)]
  -- No leaf fails, so the dispatch is solved; what it holds is then read off the leaves.
  have hfound : ∀ leaf ∈ (Cascade.equalityChain (tested ++ [c]) last.2).leaves,
      ∃ state, leaf.state? = .ok state := by
    intro leaf hleaf
    rcases hchain.state?_of_mem hn hleaf with ⟨pair, -, hstate, -⟩ | ⟨hstate, -⟩
    · exact ⟨_, hstate⟩
    · exact ⟨_, hstate⟩
  obtain ⟨dict, hdict⟩ := exists_solveLeaves hfound
  have hsolves := solves_of_solveLeaves (Cascade.pairwise_apart_leaves _) hdict
  have hget (state : Int) (body : Block) : dict.get? state = some body ↔
      (state, body) ∈ tested ++ [c] ∨ lastState n c.1 last.1 = some state ∧ last.2 = body := by
    rw [hsolves.ascending.get?_eq_some_iff, hsolves.mem_iff, hchain.exists_leaf_iff hn]
  refine ⟨dict, hdict, hget, ?_⟩
  rw [isComplete_iff hstates hsolves.ascending hget, hchain.lastState_eq_some_iff]

/-- A chain with two tests, as an `if` with an `elseif` and an `else`. -/
def shortChain (first second : Float) (a b c : String) : Stmt :=
  .ifThen (comparison .eq first) (marker a)
    (.elseIf (comparison .eq second) (marker b) (.block (marker c)))

/-- Nothing is found for the last of these states, whose neighbour is tested first; its code
    is put at the state above all others. -/
example : solve "s" (shortChain 1 2 "b" "c" "a") =
    .ok [(1, marker "b"), (2, marker "c"), (3, marker "a")] := rfl

theorem solve_shortChain_complete :
    (Cascade.equalityChain [(2, marker "c"), (0, marker "a")] (marker "b")).AsIf "s"
        (shortChain 2 0 "c" "a" "b") ∧
      ∃ dict, solve "s" (shortChain 2 0 "c" "a" "b") = .ok dict ∧
        IsComplete dict [(2, marker "c"), (0, marker "a"), (1, marker "b")] 3 := by
  have hstmt : (Cascade.equalityChain [(2, marker "c"), (0, marker "a")] (marker "b")).AsIf "s"
      (shortChain 2 0 "c" "a" "b") :=
    .ifThen ⟨2, rfl, value?_two⟩ (asBlock_marker "c")
      (.elseIf ⟨0, rfl, value?_zero⟩ (asBlock_marker "a") (.block (asBlock_marker "b")))
  obtain ⟨dict, hdict, -, hcomplete⟩ :=
    @solve_equalityChain [(2, marker "c")] (0, marker "a") (1, marker "b") 3 "s" _ (by decide) hstmt
  exact ⟨hstmt, dict, hdict, hcomplete.2 (.inr rfl)⟩

/-- The states are `1`, `0` and then `2`, which is not found: both neighbours of `0` are
    negative or tested. -/
theorem solve_shortChain_incomplete :
    ([1, 0, 2] : List Int).Perm ((List.range 3).map fun k : Nat => (k : Int)) ∧
      (Cascade.equalityChain [(1, marker "b"), (0, marker "a")] (marker "c")).AsIf "s"
        (shortChain 1 0 "b" "a" "c") ∧
      solve "s" (shortChain 1 0 "b" "a" "c") = .ok [(0, marker "a"), (1, marker "b")] ∧
      ¬IsComplete [(0, marker "a"), (1, marker "b")]
        [(1, marker "b"), (0, marker "a"), (2, marker "c")] 3 := by
  have hstates : ([1, 0, 2] : List Int).Perm ((List.range 3).map fun k : Nat => (k : Int)) := by
    decide
  have hstmt : (Cascade.equalityChain [(1, marker "b"), (0, marker "a")] (marker "c")).AsIf "s"
      (shortChain 1 0 "b" "a" "c") :=
    .ifThen ⟨1, rfl, value?_one⟩ (asBlock_marker "b")
      (.elseIf ⟨0, rfl, value?_zero⟩ (asBlock_marker "a") (.block (asBlock_marker "c")))
  have hchain : IsChain [(1, marker "b")] (0, marker "a") (2, marker "c") 3 :=
    isChain_of_perm hstates
  refine ⟨hstates, hstmt, ?_, fun h => absurd h.1 (by decide)⟩
  exact (solve_of_asIf hstmt hchain.oneEach).1

end LuaUnpack.Dispatch
