import LuaUnpack.Recover.ControlFlow
import Mathlib.Data.List.Find

/-!
# Where control lands

When instructions are removed, control that would reach a removed one goes on to the
next that stays. The *landing* of an identity (`landing`) is the identity of the first
instruction that stays, at or after the one with that identity. Removing instructions
twice is the same as removing them at once (`firstFrom?_filter`).

Both passes that remove instructions move jumps to landings: the one that removes
padding (`successor_eq_landing`) and the one that removes the first of two jumps after
a test (`lookup_dropFlips`).
-/

namespace LuaUnpack.Recover

open LuaUnpack.Chunk

/-- The identities of instructions, in order. -/
def ids (code : List Instruction) : List Nat := code.map (·.id)

theorem ids_cons (i : Instruction) (code : List Instruction) :
    ids (i :: code) = i.id :: ids code := rfl

/-- The first instruction that stays, at or after the one with an identity. -/
def firstFrom? (stays : Instruction → Bool) (code : List Instruction) (id : Nat) :
    Option Instruction :=
  (code.dropWhile (·.id != id)).find? stays

/-- The identity of the first instruction that stays, at or after the one with an
    identity; the identity itself if there is none. -/
def landing (stays : Instruction → Bool) (code : List Instruction) (id : Nat) : Nat :=
  ((firstFrom? stays code id).map (·.id)).getD id

variable {stays : Instruction → Bool} {code : List Instruction} {id : Nat}

theorem firstFrom?_cons_self (i : Instruction) :
    firstFrom? stays (i :: code) i.id = (i :: code).find? stays := by
  rw [firstFrom?, List.dropWhile_cons_of_neg (by simp)]

theorem firstFrom?_cons_of_ne {i : Instruction} (h : i.id ≠ id) :
    firstFrom? stays (i :: code) id = firstFrom? stays code id := by
  rw [firstFrom?, List.dropWhile_cons_of_pos (by simpa using h), firstFrom?]

theorem firstFrom?_of_not_mem (h : id ∉ ids code) : firstFrom? stays code id = none := by
  induction code with
  | nil => rfl
  | cons i code ih =>
    rw [ids_cons, List.mem_cons, not_or] at h
    rw [firstFrom?_cons_of_ne (Ne.symm h.1), ih h.2]

/-- With distinct identities, what comes at or after the identity of an instruction is
    what comes at or after its index. -/
theorem firstFrom?_getElem (hids : (ids code).Nodup) {k : Nat} {i : Instruction}
    (hi : code[k]? = some i) : firstFrom? stays code i.id = (code.drop k).find? stays := by
  induction code generalizing k with
  | nil => cases hi
  | cons j code ih =>
    rw [ids_cons, List.nodup_cons] at hids
    cases k with
    | zero =>
      cases hi
      exact firstFrom?_cons_self i
    | succ k =>
      have hne : j.id ≠ i.id := fun h =>
        hids.1 (h ▸ List.mem_map_of_mem (List.mem_of_getElem? hi))
      rw [firstFrom?_cons_of_ne hne, List.drop_succ_cons]
      exact ih hids.2 hi

theorem landing_eq_of_firstFrom? {i : Instruction} (h : firstFrom? stays code id = some i) :
    landing stays code id = i.id := by
  rw [landing, h]
  rfl

theorem landing_eq_self_of_firstFrom? (h : firstFrom? stays code id = none) :
    landing stays code id = id := by
  rw [landing, h]
  rfl

/-- Only the first instruction that stays decides where control lands. -/
theorem landing_eq_landing {stays' : Instruction → Bool} {code' : List Instruction}
    (h : firstFrom? stays code id = firstFrom? stays' code' id) :
    landing stays code id = landing stays' code' id := by
  rw [landing, landing, h]

theorem landing_cons_self (i : Instruction) (h : stays i) :
    landing stays (i :: code) i.id = i.id :=
  landing_eq_of_firstFrom? (by rw [firstFrom?_cons_self, List.find?_cons_of_pos h])

theorem landing_cons_of_ne {i : Instruction} (h : i.id ≠ id) :
    landing stays (i :: code) id = landing stays code id :=
  landing_eq_landing (firstFrom?_cons_of_ne h)

theorem landing_of_not_mem (h : id ∉ ids code) : landing stays code id = id :=
  landing_eq_self_of_firstFrom? (firstFrom?_of_not_mem h)

theorem landing_of_forall (h : ∀ i ∈ code, stays i) : landing stays code id = id := by
  induction code with
  | nil => rfl
  | cons i code ih =>
    by_cases hid : i.id = id
    · subst hid
      exact landing_cons_self i (h i List.mem_cons_self)
    · rw [landing_cons_of_ne hid, ih fun j hj => h j (List.mem_cons_of_mem _ hj)]

theorem landing_mem (stays : Instruction → Bool) (code : List Instruction) (id : Nat) :
    landing stays code id = id ∨ landing stays code id ∈ ids code := by
  cases h : firstFrom? stays code id with
  | none => exact .inl (landing_eq_self_of_firstFrom? h)
  | some i =>
    have hi : i ∈ code := (List.dropWhile_sublist _).mem (List.mem_of_find?_eq_some h)
    exact .inr (landing_eq_of_firstFrom? h ▸ List.mem_map_of_mem hi)

theorem landing_congr {stays' : Instruction → Bool} (h : ∀ i ∈ code, stays i = stays' i) :
    landing stays code id = landing stays' code id :=
  landing_eq_landing
    (List.find?_congr fun i hi => h i ((List.dropWhile_sublist _).mem hi))

theorem find?_filter_of_imp {stays' : Instruction → Bool}
    (h : ∀ i ∈ code, stays' i → stays i) :
    (code.filter stays).find? stays' = code.find? stays' := by
  rw [List.find?_filter]
  refine List.find?_congr fun i hi => ?_
  cases hi' : stays' i
  · simp
  · simp [h i hi hi']

/-- The first instruction that stays in the end is found from the landing in the code
    that is left in between. -/
theorem firstFrom?_filter {stays' : Instruction → Bool} (hids : (ids code).Nodup)
    (hstays : ∀ i ∈ code, stays' i → stays i) {last : Instruction}
    (h : firstFrom? stays' code id = some last) :
    firstFrom? stays' (code.filter stays) (landing stays code id) = some last := by
  induction code with
  | nil => cases h
  | cons i code ih =>
    rw [ids_cons, List.nodup_cons] at hids
    have hstays' : ∀ j ∈ code, stays' j → stays j := fun j hj =>
      hstays j (List.mem_cons_of_mem _ hj)
    by_cases hid : i.id = id
    · subst hid
      rw [firstFrom?_cons_self] at h
      by_cases hi : stays i
      · rw [landing_cons_self i hi, List.filter_cons_of_pos hi, firstFrom?_cons_self]
        rw [List.find?_cons] at h ⊢
        rwa [find?_filter_of_imp hstays']
      · -- The instruction is removed, and its landing is the first of those after it.
        have hi' : ¬stays' i := fun h => hi (hstays i List.mem_cons_self h)
        rw [List.find?_cons_of_neg hi', ← find?_filter_of_imp hstays'] at h
        rw [List.filter_cons_of_neg hi, landing, firstFrom?_cons_self,
          List.find?_cons_of_neg hi, ← List.head?_filter]
        cases hf : code.filter stays with
        | nil =>
          rw [hf] at h
          cases h
        | cons j rest =>
          rw [hf] at h
          exact (firstFrom?_cons_self j).trans h
    · rw [firstFrom?_cons_of_ne hid] at h
      have hrest := ih hids.2 hstays' h
      rw [landing_cons_of_ne hid]
      by_cases hi : stays i
      · -- The first instruction stays, but it comes before the landing.
        have hne : i.id ≠ landing stays code id := by
          rcases landing_mem stays code id with hl | hl
          · rwa [hl]
          · exact fun hl' => hids.1 (hl' ▸ hl)
        rwa [List.filter_cons_of_pos hi, firstFrom?_cons_of_ne hne]
      · rwa [List.filter_cons_of_neg hi]

/-! ## Padding -/

/-- Jumps to padding are moved to their landing. -/
theorem successor_eq_landing (code : List Instruction) (id : Nat) :
    successor code id = landing (!·.isDead) code id := by
  rw [successor, landing, firstFrom?]
  cases h : code.dropWhile (·.id != id) with
  | nil => rfl
  | cons i rest =>
    have hid : i.id = id := by
      have := List.head?_dropWhile_not (fun i : Instruction => i.id != id) code
      rw [h] at this
      simpa using this
    -- An instruction that is not padding is its own successor.
    cases hd : i.isDead
    · rw [List.find?_cons_of_pos (by simp [hd])]
      simp [hid, hd]
    · rw [List.find?_cons_of_neg (by simp [hd])]
      simp [hd]

/-! ## Jumps by source -/

section

variable {refs : References} {source : Nat}

theorem lookup_retarget (change : Nat → Nat) :
    (retarget change refs).lookup source = (refs.lookup source).map change := by
  induction refs with
  | nil => rfl
  | cons ref refs ih =>
    obtain ⟨key, target⟩ := ref
    rw [retarget, List.map_cons, List.lookup_cons, List.lookup_cons]
    cases source == key
    · exact ih
    · rfl

theorem lookup_forgetJump {removed next : Nat} (h : source ≠ removed) :
    (forgetJump removed next refs).lookup source =
      (refs.lookup source).map fun target => if target = removed then next else target := by
  rw [forgetJump, lookup_retarget]
  congr 1
  induction refs with
  | nil => rfl
  | cons ref refs ih =>
    obtain ⟨key, target⟩ := ref
    by_cases hkey : key = removed
    · -- The entry of the removed jump is not the one that is looked for.
      rw [List.filter_cons_of_neg (by simpa using hkey), ih, List.lookup_cons]
      have hsource : (source == key) = false := by simpa [hkey] using h
      rw [hsource]
    · rw [List.filter_cons_of_pos (by simpa using hkey), List.lookup_cons, List.lookup_cons, ih]

end

/-! ## Tests -/

theorem id_flipTest (i : Instruction) : (flipTest i).id = i.id := by
  rw [flipTest]
  split <;> rfl

/-- Whether some identities are left of others: in their order, with the first and the last
    one. -/
structure Spans (left all : List Nat) : Prop where
  sublist : left.Sublist all
  head : left.head? = all.head?
  last : left.getLast? = all.getLast?

theorem Spans.refl (all : List Nat) : Spans all all := ⟨List.Sublist.refl _, rfl, rfl⟩

theorem Spans.cons {left all : List Nat} (h : Spans left all) (id : Nat) :
    Spans (id :: left) (id :: all) where
  sublist := h.sublist.cons_cons id
  head := rfl
  last := by rw [List.getLast?_cons, List.getLast?_cons, h.last]

/-- One that is neither the first nor the last is left out. -/
theorem Spans.cons_skip {left all : List Nat} {next : Nat} (h : Spans left (next :: all))
    (id removed : Nat) : Spans (id :: left) (id :: removed :: next :: all) where
  sublist := (h.sublist.cons removed).cons_cons id
  head := rfl
  last := by rw [List.getLast?_cons_cons, List.getLast?_cons_cons, List.getLast?_cons, h.last,
    List.getLast?_cons, Option.getD_some]

/-- Only the first of two jumps is removed, so that the ends stay. -/
theorem spans_dropFlips (code : List Instruction) (refs : References) :
    Spans (ids (dropFlips code refs).1) (ids code) := by
  fun_induction dropFlips code refs with
  | case1 i j k rest refs h code' refs' hrec ih =>
    rw [hrec] at ih
    rw [ids_cons, id_flipTest]
    exact ih.cons_skip i.id j.id
  | case2 i j k rest refs h code' refs' hrec ih =>
    rw [hrec] at ih
    exact ih.cons i.id
  | case3 code refs h => exact .refl _

/-- Whether the identity of an instruction is one of those that are left. -/
def isKept (left : List Nat) (i : Instruction) : Bool := left.contains i.id

theorem isKept_iff {left : List Nat} {i : Instruction} : isKept left i ↔ i.id ∈ left :=
  List.contains_iff_mem

theorem isKept_of_mem {i : Instruction} (hi : i ∈ code) : isKept (ids code) i :=
  isKept_iff.2 (List.mem_map_of_mem hi)

/-- A first instruction that is left does not matter to the landings after it. -/
theorem landing_isKept_cons {left : List Nat} {i : Instruction} (hi : i.id ∉ ids code) :
    landing (isKept (i.id :: left)) (i :: code) id = landing (isKept left) code id := by
  by_cases hid : i.id = id
  · subst hid
    rw [landing_cons_self i (isKept_iff.2 List.mem_cons_self), landing_of_not_mem hi]
  · rw [landing_cons_of_ne hid]
    refine landing_congr fun j hj => ?_
    have hne : j.id ≠ i.id := fun h => hi (h ▸ List.mem_map_of_mem hj)
    rw [Bool.eq_iff_iff, isKept_iff, isKept_iff, List.mem_cons, or_iff_right hne]

/-- The landing of a removed jump is the jump after it. -/
theorem landing_isKept_jump {left : List Nat} {j k : Instruction} (hj : j.id ∉ left)
    (hk : k.id ∈ left) : landing (isKept left) (j :: k :: code) j.id = k.id := by
  have hj' : ¬isKept left j := mt isKept_iff.1 hj
  have hk' : isKept left k := isKept_iff.2 hk
  exact landing_eq_of_firstFrom?
    (by rw [firstFrom?_cons_self, List.find?_cons_of_neg hj', List.find?_cons_of_pos hk'])

/-- After the removal of jumps, the jumps that are left lead to landings. A source is an
    identity that is left, or one that the code does not have. -/
theorem lookup_dropFlips (code : List Instruction) (refs : References)
    (hids : (ids code).Nodup) {source : Nat}
    (hsource : source ∈ ids code → source ∈ ids (dropFlips code refs).1) :
    (dropFlips code refs).2.lookup source =
      (refs.lookup source).map (landing (isKept (ids (dropFlips code refs).1)) code) := by
  fun_induction dropFlips code refs with
  | case1 i j k rest refs h code' refs' hrec ih =>
    have hspans := spans_dropFlips (k :: rest) (forgetJump j.id k.id refs)
    rw [hrec] at ih hspans
    have hleft : ids (flipTest i :: code') = i.id :: ids code' := by rw [ids_cons, id_flipTest]
    simp only [hleft] at hsource ⊢
    rw [ids_cons, List.nodup_cons, ids_cons j, List.nodup_cons, ← ids_cons] at hids
    obtain ⟨hi, hj, hrest⟩ := hids
    have hk : k.id ∈ ids code' := List.mem_of_head? hspans.head
    have hj' : j.id ∉ ids code' := fun h => hj (hspans.sublist.mem h)
    have hne : source ≠ j.id := by
      rintro rfl
      rcases List.mem_cons.1 (hsource (by simp [ids_cons])) with h | h
      · exact hi (h ▸ List.mem_cons_self)
      · exact hj' h
    have hsource' : source ∈ ids (k :: rest) → source ∈ ids code' := fun hs =>
      (List.mem_cons.1 (hsource (List.mem_cons_of_mem _ (List.mem_cons_of_mem _ hs)))).resolve_left
        fun h : source = i.id => hi (h ▸ List.mem_cons_of_mem _ hs)
    -- A jump to the removed one goes on to the jump after it, which is its landing.
    rw [ih hrest hsource', lookup_forgetJump hne, Option.map_map]
    congr 1
    funext target
    rw [landing_isKept_cons hi, Function.comp]
    by_cases ht : target = j.id
    · subst ht
      rw [if_pos rfl, landing_isKept_jump hj' hk, landing_cons_self _ (isKept_iff.2 hk)]
    · rw [if_neg ht, landing_cons_of_ne (Ne.symm ht)]
  | case2 i j k rest refs h code' refs' hrec ih =>
    rw [hrec] at ih
    rw [ids_cons, List.nodup_cons] at hids
    have hsource' : source ∈ ids (j :: k :: rest) → source ∈ ids code' := fun hs =>
      (List.mem_cons.1 (hsource (List.mem_cons_of_mem _ hs))).resolve_left
        fun h : source = i.id => hids.1 (h ▸ hs)
    rw [ih hids.2 hsource', ids_cons]
    congr 1
    funext target
    rw [landing_isKept_cons hids.1]
  | case3 code refs h =>
    have : landing (isKept (ids code)) code = fun target => target := by
      funext target
      exact landing_of_forall fun i hi => isKept_of_mem hi
    simp [this]

end LuaUnpack.Recover
