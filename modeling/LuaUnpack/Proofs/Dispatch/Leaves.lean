import LuaUnpack.Dispatch.Cascade
import LuaUnpack.Proofs.Dict
import LuaUnpack.Proofs.Outcome
import Mathlib.Data.List.Nodup

/-!
# The leaves of a cascade

A state that passes the tests on the path to a leaf is led to the code of that leaf
(`Cascade.follow_of_mem_leaves`). The paths to two leaves part at some test, so that no
state passes the tests of both (`Cascade.pairwise_apart_leaves`).

The state that is found for a leaf is the first of its candidates that passes the tests
on its path. States that are found for different leaves are therefore different, and the
dictionary of a solved dispatch has one entry for each leaf with a state
(`solves_of_solveLeaves`).
-/

namespace LuaUnpack.Dispatch

open LuaUnpack.Lua

/-! ## Paths -/

theorem Path.passes_cons (test : Test) (outcome : Bool) (above : List (Test × Bool)) (top : Top)
    (state : Int) :
    Path.passes ⟨(test, outcome) :: above, top⟩ state ↔
      test.holds state = outcome ∧ Path.passes ⟨above, top⟩ state := by
  rw [passes, passes, List.all_cons, Bool.and_eq_true, beq_iff_eq]

namespace Leaf

theorem passes_of_firstAdmitted {path : Path} {states : List Int} {state : Int}
    (h : firstAdmitted path states = .ok (some state)) : path.passes state := by
  induction states with
  | nil => cases h
  | cons first rest ih =>
    rw [firstAdmitted, Path.admits] at h
    split at h
    · rename_i hpasses
      split at h
      · cases h
        exact hpasses
      · exact ih h
      · cases h
    · exact ih h

/-- A state that is found for a leaf passes all tests on the path to it. -/
theorem passes_of_state? {leaf : Leaf} {state : Int} (h : leaf.state? = .ok (some state)) :
    leaf.path.passes state := by
  rw [state?] at h
  split at h
  · cases h
  · exact passes_of_firstAdmitted h

theorem mem_statesIn {low high state : Int} :
    state ∈ statesIn (low, high) ↔ low ≤ state ∧ state ≤ high := by
  simp only [statesIn, List.mem_map, List.mem_range]
  constructor
  · rintro ⟨k, hk, rfl⟩
    omega
  · rintro ⟨hlow, hhigh⟩
    exact ⟨(state - low).toNat, by omega, by omega⟩

theorem find?_statesIn {low high state : Int} {p : Int → Bool} (hlow : low ≤ state)
    (hhigh : state ≤ high) (hstate : p state) (hfirst : ∀ j, low ≤ j → j < state → ¬p j) :
    (statesIn (low, high)).find? p = some state := by
  obtain ⟨k, rfl⟩ : ∃ k : Nat, state = low + k := ⟨(state - low).toNat, by omega⟩
  rw [statesIn, List.find?_map, Option.map_eq_some_iff]
  refine ⟨k, List.find?_range_eq_some.2 ⟨hstate, List.mem_range.2 (by omega), ?_⟩, rfl⟩
  intro j hj
  simpa using hfirst (low + j) (by omega) (by omega)

theorem firstAdmitted_root (steps : List (Test × Bool)) (states : List Int) :
    firstAdmitted ⟨steps, .root⟩ states = .ok (states.find? (Path.passes ⟨steps, .root⟩)) := by
  induction states with
  | nil => rfl
  | cons first rest ih =>
    rw [firstAdmitted, Path.admits, List.find?_cons]
    cases h : Path.passes ⟨steps, .root⟩ first with
    | true => rfl
    | false => exact ih

section

variable {low high state : Int} {steps : List (Test × Bool)} {body : Block}

/-- The state of a leaf is the first of its candidates that passes the tests. -/
theorem state?_eq_some (hlow : low ≤ state) (hhigh : state ≤ high)
    (hstate : Path.passes ⟨steps, .root⟩ state)
    (hfirst : ∀ j, low ≤ j → j < state → ¬Path.passes ⟨steps, .root⟩ j) :
    state? ⟨(low, high), ⟨steps, .root⟩, body⟩ = .ok (some state) := by
  rw [state?, if_neg (by dsimp only; omega), firstAdmitted_root,
    find?_statesIn hlow hhigh hstate hfirst]

theorem state?_eq_some_of_single {candidates : Int × Int} (h : candidates = (state, state))
    (hstate : Path.passes ⟨steps, .root⟩ state) :
    state? ⟨candidates, ⟨steps, .root⟩, body⟩ = .ok (some state) := by
  subst h
  exact state?_eq_some (Int.le_refl _) (Int.le_refl _) hstate fun j hle hlt => by omega

/-- A leaf has no state if none of its candidates passes the tests. -/
theorem state?_eq_none (hle : low ≤ high)
    (h : ∀ j, low ≤ j → j ≤ high → ¬Path.passes ⟨steps, .root⟩ j) :
    state? ⟨(low, high), ⟨steps, .root⟩, body⟩ = .ok none := by
  rw [state?, if_neg (by dsimp only; omega), firstAdmitted_root, List.find?_eq_none.2]
  intro j hj
  obtain ⟨hlow, hhigh⟩ := mem_statesIn.1 hj
  exact h j hlow hhigh

end

/-- Whether a state is found for a leaf. -/
def hasState (leaf : Leaf) : Bool := leaf.state? matches .ok (some _)

/-- Whether no state leads to both of two leaves. -/
def Apart (l l' : Leaf) : Prop := ∀ state, l.path.passes state → ¬l'.path.passes state

end Leaf

/-! ## Cascades -/

namespace Cascade

variable {cascade : Cascade} {leaf : Leaf} {state : Int}

/-- The path to a leaf below a test passes the test, and from there on it is the way that
    the state takes. -/
theorem follow_of_mem_leavesBelow {above : List (Test × Bool)} {test : Test} {outcome : Bool}
    (hleaf : leaf ∈ leavesBelow above test outcome cascade) (hstate : leaf.path.passes state) :
    Path.passes ⟨(test, outcome) :: above, .root⟩ state ∧ cascade.follow state = leaf.body := by
  induction cascade generalizing above test outcome with
  | leaf body =>
    obtain rfl := List.mem_singleton.1 hleaf
    exact ⟨hstate, rfl⟩
  | branch next yes no ihyes ihno =>
    rcases List.mem_append.1 hleaf with hleaf | hleaf
    · -- The path of the leaf says how the next test comes out, which is the way that is followed.
      obtain ⟨hpath, hfollow⟩ := ihyes hleaf
      obtain ⟨hnext, habove⟩ := (Path.passes_cons ..).1 hpath
      rw [follow, hnext, if_pos rfl]
      exact ⟨habove, hfollow⟩
    · obtain ⟨hpath, hfollow⟩ := ihno hleaf
      obtain ⟨hnext, habove⟩ := (Path.passes_cons ..).1 hpath
      rw [follow, hnext, if_neg Bool.false_ne_true]
      exact ⟨habove, hfollow⟩

/-- A state that passes the tests on the path to a leaf is led to its code. -/
theorem follow_of_mem_leaves (hleaf : leaf ∈ cascade.leaves) (hstate : leaf.path.passes state) :
    cascade.follow state = leaf.body := by
  cases cascade with
  | leaf body => cases hleaf
  | branch test yes no =>
    rcases List.mem_append.1 hleaf with hleaf | hleaf
    · obtain ⟨hpath, hfollow⟩ := follow_of_mem_leavesBelow hleaf hstate
      rw [follow, ((Path.passes_cons ..).1 hpath).1, if_pos rfl, hfollow]
    · obtain ⟨hpath, hfollow⟩ := follow_of_mem_leavesBelow hleaf hstate
      rw [follow, ((Path.passes_cons ..).1 hpath).1, if_neg Bool.false_ne_true, hfollow]

/-- Leaves on the two sides of a test are apart. -/
theorem apart_of_sides {above : List (Test × Bool)} {test : Test} {yes no : Cascade} {l l' : Leaf}
    (hl : l ∈ leavesBelow above test true yes) (hl' : l' ∈ leavesBelow above test false no) :
    l.Apart l' := by
  intro state hstate hstate'
  have htrue := ((Path.passes_cons ..).1 (follow_of_mem_leavesBelow hl hstate).1).1
  have hfalse := ((Path.passes_cons ..).1 (follow_of_mem_leavesBelow hl' hstate').1).1
  exact Bool.false_ne_true (hfalse.symm.trans htrue)

theorem pairwise_apart_leavesBelow (above : List (Test × Bool)) (test : Test) (outcome : Bool)
    (cascade : Cascade) : (leavesBelow above test outcome cascade).Pairwise Leaf.Apart := by
  induction cascade generalizing above test outcome with
  | leaf body => exact List.pairwise_singleton _ _
  | branch next yes no ihyes ihno =>
    exact List.pairwise_append.2 ⟨ihyes _ _ _, ihno _ _ _, fun l hl l' hl' => apart_of_sides hl hl'⟩

/-- The paths to two leaves part at some test. -/
theorem pairwise_apart_leaves (cascade : Cascade) : cascade.leaves.Pairwise Leaf.Apart := by
  cases cascade with
  | leaf body => exact .nil
  | branch test yes no =>
    exact List.pairwise_append.2 ⟨pairwise_apart_leavesBelow _ _ _ yes,
      pairwise_apart_leavesBelow _ _ _ no, fun l hl l' hl' => apart_of_sides hl hl'⟩

end Cascade

/-! ## Entries -/

/-- Puts bodies into a dictionary by state. -/
def collectFrom (dict : Dict Int Block) (found : List (Option Int × Block)) : Dict Int Block :=
  found.foldl (fun dict pair =>
    match pair.1 with
    | some state => dict.putSorted state pair.2
    | none => dict) dict

/-- Bodies whose states are different and new all get entries of their own. -/
theorem collectFrom_spec {found : List (Option Int × Block)} {dict : Dict Int Block}
    (hdict : dict.Ascending) (hnew : ∀ pair ∈ dict, pair.1 ∉ found.filterMap (·.1))
    (hfound : (found.filterMap (·.1)).Nodup) :
    (collectFrom dict found).Ascending ∧
      (∀ state body, (state, body) ∈ collectFrom dict found ↔
        (state, body) ∈ dict ∨ (some state, body) ∈ found) ∧
      (collectFrom dict found).length = dict.length + (found.filterMap (·.1)).length := by
  induction found generalizing dict with
  | nil => exact ⟨hdict, fun _ _ => by simp [collectFrom], rfl⟩
  | cons pair found ih =>
    obtain ⟨_ | key, value⟩ := pair
    · -- A body without a state is dropped.
      rw [List.filterMap_cons_none rfl] at hfound hnew ⊢
      obtain ⟨hascending, hmem, hlength⟩ := ih hdict hnew hfound
      refine ⟨hascending, fun state body => (hmem state body).trans ?_, hlength⟩
      simp
    · have hstates : ((some key, value) :: found).filterMap (·.1) =
          key :: found.filterMap (·.1) := rfl
      rw [hstates] at hfound hnew ⊢
      rw [List.nodup_cons] at hfound
      have hkey : ∀ pair ∈ dict, pair.1 ≠ key := fun pair hpair heq =>
        hnew pair hpair (heq ▸ List.mem_cons_self)
      -- The states still to come are new to the dictionary with this one, too.
      have hnew' : ∀ pair ∈ dict.putSorted key value, pair.1 ∉ found.filterMap (·.1) := by
        intro pair hpair
        rcases (Dict.mem_putSorted hdict).1 hpair with rfl | ⟨hpair, -⟩
        · exact hfound.1
        · exact fun hmem => hnew pair hpair (List.mem_cons_of_mem _ hmem)
      obtain ⟨hascending, hmem, hlength⟩ :=
        ih (Dict.ascending_putSorted hdict) hnew' hfound.2
      refine ⟨hascending, fun state body => (hmem state body).trans ?_, ?_⟩
      · rw [Dict.mem_putSorted hdict, List.mem_cons, Prod.mk.injEq, Prod.mk.injEq,
          Option.some.injEq, and_iff_left_of_imp (hkey (state, body)), or_assoc, or_left_comm]
      · rw [Dict.length_putSorted hkey] at hlength
        rw [List.length_cons]
        exact hlength.trans (by omega)

/-- Whether a dictionary has one entry for each leaf with a state, and no others. -/
structure Solves (leaves : List Leaf) (dict : Dict Int Block) : Prop where
  ascending : dict.Ascending
  mem_iff : ∀ state body, (state, body) ∈ dict ↔
    ∃ leaf ∈ leaves, leaf.state? = .ok (some state) ∧ leaf.body = body
  length_eq : dict.length = leaves.countP Leaf.hasState

section

variable {leaves : List Leaf} {found : List (Option Int × Block)}
  (h : List.Forall₂ (fun leaf pair => leaf.state? = .ok pair.1 ∧ leaf.body = pair.2) leaves found)

include h

theorem mem_found_iff (state : Option Int) (body : Block) :
    (state, body) ∈ found ↔ ∃ leaf ∈ leaves, leaf.state? = .ok state ∧ leaf.body = body := by
  induction h with
  | nil => simp
  | cons hpair _ ih =>
    rw [List.mem_cons, ih, List.exists_mem_cons_iff, hpair.1, hpair.2]
    refine or_congr_left ?_
    rw [Prod.ext_iff, Except.ok.injEq, eq_comm, @eq_comm _ body]

theorem length_states :
    (found.filterMap (·.1)).length = leaves.countP Leaf.hasState := by
  induction h with
  | nil => rfl
  | @cons leaf pair _ _ hpair _ ih =>
    obtain ⟨_ | state, body⟩ := pair
    · rw [List.filterMap_cons_none rfl, ih, List.countP_cons_of_neg]
      rw [Leaf.hasState, hpair.1]
      exact Bool.false_ne_true
    · rw [List.countP_cons_of_pos, ← ih]
      · rfl
      · rw [Leaf.hasState, hpair.1]

/-- Different leaves have different states. -/
theorem nodup_states (hapart : leaves.Pairwise Leaf.Apart) :
    (found.filterMap (·.1)).Nodup := by
  induction h with
  | nil => exact .nil
  | @cons leaf pair leaves found hpair hrest ih =>
    obtain ⟨hleaf, hapart⟩ := List.pairwise_cons.1 hapart
    obtain ⟨_ | state, body⟩ := pair
    · exact ih hapart
    · refine List.nodup_cons.2 ⟨fun hmem => ?_, ih hapart⟩
      obtain ⟨⟨state', body'⟩, hmem, rfl⟩ := List.mem_filterMap.1 hmem
      -- A state of two leaves would pass the tests of both.
      obtain ⟨leaf', hleaf', hstate', -⟩ := (mem_found_iff hrest _ _).1 hmem
      exact hleaf leaf' hleaf' state (Leaf.passes_of_state? hpair.1) (Leaf.passes_of_state? hstate')

end

/-- The entries of a solved dispatch are those of the leaves with a state. -/
theorem solves_of_solveLeaves {leaves : List Leaf} {dict : Dict Int Block}
    (hapart : leaves.Pairwise Leaf.Apart) (h : solveLeaves leaves = .ok dict) :
    Solves leaves dict := by
  simp only [solveLeaves, bind_eq_ok_iff, pure_eq_ok_iff] at h
  obtain ⟨found, hfound, rfl⟩ := h
  have hpairs : List.Forall₂ (fun leaf pair => leaf.state? = .ok pair.1 ∧ leaf.body = pair.2)
      leaves found := by
    refine (mapM_eq_ok_iff.1 hfound).imp fun leaf pair hpair => ?_
    simp only [bind_eq_ok_iff, pure_eq_ok_iff] at hpair
    obtain ⟨state, hstate, rfl⟩ := hpair
    exact ⟨hstate, rfl⟩
  -- Leaves that are apart have different states, so no entry replaces another.
  obtain ⟨hascending, hmem, hlength⟩ := collectFrom_spec Dict.ascending_nil
    (fun _ hpair => absurd hpair List.not_mem_nil) (nodup_states hpairs hapart)
  refine ⟨hascending, fun state body => ?_, ?_⟩
  · rw [← mem_found_iff hpairs]
    exact (hmem state body).trans (or_iff_right List.not_mem_nil)
  · rw [← length_states hpairs]
    exact hlength.trans (Nat.zero_add _)

theorem exists_solveLeaves {leaves : List Leaf}
    (h : ∀ leaf ∈ leaves, ∃ state, leaf.state? = .ok state) :
    ∃ dict, solveLeaves leaves = .ok dict := by
  have hfound : ∃ found, (leaves.mapM fun leaf => do return (← leaf.state?, leaf.body)) =
      Except.ok found := by
    refine (exists_mapM_eq_ok_iff leaves).2 fun leaf hleaf => ?_
    obtain ⟨state, hstate⟩ := h leaf hleaf
    exact ⟨(state, leaf.body), by rw [hstate]; rfl⟩
  obtain ⟨found, hfound⟩ := hfound
  exact ⟨collect found, by rw [solveLeaves, hfound]; rfl⟩

end LuaUnpack.Dispatch
