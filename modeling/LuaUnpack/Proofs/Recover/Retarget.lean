import LuaUnpack.Proofs.Chunk.Tree
import LuaUnpack.Proofs.Recover.Landing
import Mathlib.Data.List.Nodup

/-!
# Jumps keep their targets

Restoring the control flow of a function removes padding and jumps and adds returns, so
that instructions move. A jump that is left leads, after all this, to the first
instruction at or after its old target that is left too (`Retargets`). Restoring fails
only if a jump leads out of its function.

Jumps are followed by identity: they are read off the code (`lookup_referencesFrom`), moved
to the landings of their targets twice, and written back as offsets to the positions of
these. The returns that come in have identities that nothing else has.
-/

namespace LuaUnpack.Recover

open LuaUnpack.Chunk

/-! ## Reading jumps -/

/-- Whether an instruction is a jump that is not padding. -/
def IsLiveJump (i : Instruction) : Prop := i.isDead = false ∧ i.opcode.isJump = true
deriving Decidable

/-- Whether a jump at an index leads to an instruction of the code. -/
def InRange (code : List Instruction) (index : Nat) (i : Instruction) : Prop :=
  0 ≤ (index : Int) + i.b.toInt + 1 ∧ (index : Int) + i.b.toInt + 1 < code.length
deriving Decidable

/-- Whether all jumps of code that are not padding lead to instructions of the code. -/
def JumpsInRange (code : List Instruction) : Prop :=
  ∀ k i, code[k]? = some i → IsLiveJump i → InRange code k i

instance (code : List Instruction) : Decidable (JumpsInRange code) :=
  decidable_of_iff (∀ p ∈ code.zipIdx, IsLiveJump p.1 → InRange code p.2 p.1) (by
    rw [JumpsInRange, Prod.forall, forall_comm]
    simp only [List.mem_zipIdx_iff_getElem?])

section

variable {code rest : List Instruction} {index : Nat} {i : Instruction}

theorem referencesFrom_cons_of_not_jump (h : ¬IsLiveJump i) :
    referencesFrom code index (i :: rest) = referencesFrom code (index + 1) rest := by
  rw [IsLiveJump, not_and_or] at h
  exact if_pos (by simpa using h)

theorem referencesFrom_cons_of_out (hi : IsLiveJump i) (h : ¬InRange code index i) :
    referencesFrom code index (i :: rest) =
      .error (.jumpOutOfRange index ((index : Int) + i.b.toInt + 1)) := by
  refine (if_neg (by simp [hi.1, hi.2])).trans ?_
  by_cases hneg : (index : Int) + i.b.toInt + 1 < 0
  · simp only [hneg, if_true]
  · rw [InRange] at h
    have hlen : code.length ≤ ((index : Int) + i.b.toInt + 1).toNat := by omega
    simp only [hneg, if_false, List.getElem?_eq_none hlen]

theorem referencesFrom_cons_of_jump (rest : List Instruction) (hi : IsLiveJump i)
    (h : InRange code index i) :
    ∃ (target : Nat) (d : Instruction), (target : Int) = (index : Int) + i.b.toInt + 1 ∧
      code[target]? = some d ∧
      referencesFrom code index (i :: rest) = do
        return (i.id, d.id) :: (← referencesFrom code (index + 1) rest) := by
  obtain ⟨hlow, hhigh⟩ := h
  have hlt : ((index : Int) + i.b.toInt + 1).toNat < code.length := by omega
  have hneg : ¬(index : Int) + i.b.toInt + 1 < 0 := by omega
  refine ⟨((index : Int) + i.b.toInt + 1).toNat, code[((index : Int) + i.b.toInt + 1).toNat],
    Int.toNat_of_nonneg hlow, List.getElem?_eq_getElem hlt, ?_⟩
  refine (if_neg (by simp [hi.1, hi.2])).trans ?_
  simp only [hneg, if_false, List.getElem?_eq_getElem hlt]

end

/-- The jumps from an index on can be read if they all lead to instructions. -/
theorem exists_referencesFrom_iff (code rest : List Instruction) (index : Nat) :
    (∃ refs, referencesFrom code index rest = .ok refs) ↔
      ∀ k i, rest[k]? = some i → IsLiveJump i → InRange code (index + k) i := by
  induction rest generalizing index with
  | nil =>
    refine ⟨fun _ k i hi => ?_, fun _ => ⟨[], rfl⟩⟩
    simp at hi
  | cons j rest ih =>
    -- The condition is that of the first instruction and, one index on, that of the others.
    have hshift : (∀ k i, (j :: rest)[k]? = some i → IsLiveJump i → InRange code (index + k) i) ↔
        (IsLiveJump j → InRange code index j) ∧
          ∀ k i, rest[k]? = some i → IsLiveJump i → InRange code (index + 1 + k) i := by
      refine ⟨fun h => ⟨h 0 j rfl, fun k i hi => ?_⟩, fun h k i hi => ?_⟩
      · have := h (k + 1) i hi
        rwa [Nat.add_comm k, ← Nat.add_assoc] at this
      · cases k with
        | zero =>
          cases hi
          exact h.1
        | succ k =>
          have := h.2 k i hi
          rwa [Nat.add_assoc, Nat.add_comm 1] at this
    rw [hshift, ← ih]
    by_cases hj : IsLiveJump j
    · by_cases hr : InRange code index j
      · obtain ⟨_, d, _, _, heq⟩ := referencesFrom_cons_of_jump rest hj hr
        simp only [heq, bind_eq_ok_iff, pure_eq_ok_iff]
        constructor
        · rintro ⟨_, refs, hrefs, -⟩
          exact ⟨fun _ => hr, refs, hrefs⟩
        · rintro ⟨-, refs, hrefs⟩
          exact ⟨_, refs, hrefs, rfl⟩
      · rw [referencesFrom_cons_of_out hj hr]
        constructor
        · rintro ⟨_, h⟩
          cases h
        · intro h
          exact absurd (h.1 hj) hr
    · rw [referencesFrom_cons_of_not_jump hj]
      exact ⟨fun h => ⟨fun h' => absurd h' hj, h⟩, And.right⟩

/-- The targets of all jumps from an index on are found by their identity. -/
theorem lookup_referencesFrom {code rest : List Instruction} {index : Nat} {refs : References}
    (h : referencesFrom code index rest = .ok refs) (hids : (ids rest).Nodup) {k : Nat}
    {i : Instruction} (hi : rest[k]? = some i) (hjump : IsLiveJump i) :
    ∃ (target : Nat) (d : Instruction), (target : Int) = ((index + k : Nat) : Int) + i.b.toInt + 1 ∧
      code[target]? = some d ∧ refs.lookup i.id = some d.id := by
  induction rest generalizing index refs k with
  | nil => simp at hi
  | cons j rest ih =>
    rw [ids_cons, List.nodup_cons] at hids
    by_cases hj : IsLiveJump j
    · by_cases hr : InRange code index j
      · obtain ⟨target, d, ht, hd, heq⟩ := referencesFrom_cons_of_jump rest hj hr
        simp only [heq, bind_eq_ok_iff, pure_eq_ok_iff] at h
        obtain ⟨more, hrest, rfl⟩ := h
        cases k with
        | zero =>
          cases hi
          exact ⟨target, d, ht, hd, List.lookup_cons_self⟩
        | succ k =>
          -- The first jump has another identity, and is passed over.
          have hi' : rest[k]? = some i := hi
          have hne : (i.id == j.id) = false := by
            simpa using fun h : i.id = j.id =>
              hids.1 (h ▸ List.mem_map_of_mem (List.mem_of_getElem? hi'))
          obtain ⟨target, d, ht, hd, hl⟩ := ih hrest hids.2 hi'
          refine ⟨target, d, by omega, hd, ?_⟩
          rw [List.lookup_cons, hne]
          exact hl
      · rw [referencesFrom_cons_of_out hj hr] at h
        cases h
    · rw [referencesFrom_cons_of_not_jump hj] at h
      cases k with
      | zero =>
        cases hi
        exact absurd hjump hj
      | succ k =>
        obtain ⟨target, d, ht, hd, hl⟩ := ih h hids.2 hi
        exact ⟨target, d, by omega, hd, hl⟩

/-! ## Adding returns -/

section

variable {code : List Instruction} {next : Nat}

theorem lt_freshId {i : Instruction} (hi : i ∈ code) : i.id < freshId code := by
  have hfold (start : Nat) : start ≤ code.foldl (fun n i => max n (i.id + 1)) start ∧
      ∀ i ∈ code, i.id < code.foldl (fun n i => max n (i.id + 1)) start := by
    clear hi
    induction code generalizing start with
    | nil => exact ⟨Nat.le_refl _, fun _ hi => absurd hi List.not_mem_nil⟩
    | cons j code ih =>
      obtain ⟨hle, hlt⟩ := ih (max start (j.id + 1))
      rw [List.foldl_cons]
      refine ⟨by omega, fun i hi => ?_⟩
      rcases List.mem_cons.1 hi with rfl | hi
      · omega
      · exact hlt i hi
  exact (hfold 0).2 i hi

theorem sublist_addReturns (next : Nat) (code : List Instruction) :
    code.Sublist (addReturns next code) := by
  fun_induction addReturns next code with
  | case1 next => exact List.Sublist.refl _
  | case2 next i rest h ih => exact (ih.cons _).cons_cons i
  | case3 next i rest h ih => exact ih.cons_cons i

theorem mem_ids_addReturns {id : Nat} (h : id ∈ ids (addReturns next code)) :
    id ∈ ids code ∨ next ≤ id := by
  -- A return is added behind a call (`case2`), or not (`case3`).
  fun_induction addReturns next code with
  | case1 next => exact .inl h
  | case2 next i rest hcall ih =>
    rw [ids_cons, ids_cons] at h
    rcases List.mem_cons.1 h with rfl | h
    · exact .inl List.mem_cons_self
    rcases List.mem_cons.1 h with rfl | h
    · exact .inr (Nat.le_refl _)
    · exact (ih h).imp (List.mem_cons_of_mem _) Nat.le_of_succ_le
  | case3 next i rest hcall ih =>
    rw [ids_cons] at h
    rcases List.mem_cons.1 h with rfl | h
    · exact .inl List.mem_cons_self
    · exact (ih h).imp_left (List.mem_cons_of_mem _)

theorem nodup_ids_addReturns (hids : (ids code).Nodup) (hlt : ∀ id ∈ ids code, id < next) :
    (ids (addReturns next code)).Nodup := by
  fun_induction addReturns next code with
  | case1 next => exact hids
  | case2 next i rest hcall ih =>
    rw [ids_cons, List.nodup_cons] at hids
    have hi := hlt i.id List.mem_cons_self
    have hrest : ∀ id ∈ ids rest, id < next := fun id h => hlt id (List.mem_cons_of_mem _ h)
    -- The new return has a number above all of the code, and below those still to come.
    rw [ids_cons, ids_cons, List.nodup_cons, List.nodup_cons]
    refine ⟨fun h => ?_, fun h => ?_, ih hids.2 fun id h => Nat.lt_succ_of_lt (hrest id h)⟩
    · rcases List.mem_cons.1 h with h | h
      · exact Nat.ne_of_lt hi h
      · rcases mem_ids_addReturns h with h | h
        · exact hids.1 h
        · omega
    · rcases mem_ids_addReturns h with h | h
      · exact Nat.lt_irrefl next (hrest next h)
      · exact Nat.not_succ_le_self next h
  | case3 next i rest hcall ih =>
    rw [ids_cons, List.nodup_cons] at hids
    have hi := hlt i.id List.mem_cons_self
    rw [ids_cons, List.nodup_cons]
    refine ⟨fun h => ?_, ih hids.2 fun id h => hlt id (List.mem_cons_of_mem _ h)⟩
    rcases mem_ids_addReturns h with h | h
    · exact hids.1 h
    · omega

end

/-! ## Offsets -/

section

variable {code : List Instruction} {refs : References}

theorem id_setOffset (code : List Instruction) (refs : References) (index : Nat)
    (i : Instruction) : (setOffset code refs index i).1.id = i.id := by
  rw [setOffset]
  split
  · rfl
  · split <;> rfl

theorem getElem?_setOffsets (code : List Instruction) (refs : References) (k : Nat) :
    (setOffsets code refs).1[k]? = code[k]?.map fun i => (setOffset code refs k i).1 := by
  simp [setOffsets, Function.comp_def]

theorem ids_setOffsets (code : List Instruction) (refs : References) :
    ids (setOffsets code refs).1 = ids code := by
  refine List.ext_getElem? fun k => ?_
  rw [ids, ids, List.getElem?_map, List.getElem?_map, getElem?_setOffsets, Option.map_map]
  congr 1
  funext i
  exact id_setOffset code refs k i

theorem length_setOffsets (code : List Instruction) (refs : References) :
    (setOffsets code refs).1.length = code.length := by
  simp [setOffsets]

theorem position?_eq (code : List Instruction) (id : Nat) :
    position? code id = (ids code).findIdx? (· == id) := by
  rw [position?, ids, List.findIdx?_map]
  rfl

end

/-! ## Functions -/

/-- Whether the jumps of code keep their targets in restored code, in which identities
    are distinct. A jump that is left leads to the first instruction left at or after its
    old target, if anything but padding comes there. Offsets are 32-bit words; they are
    exact as long as the restored code is no longer than they can tell. -/
structure Retargets (code restored : List Instruction) : Prop where
  distinct : (ids restored).Nodup
  leads : ∀ (k k' target : Nat) (i i' : Instruction), code[k]? = some i → IsLiveJump i →
    restored[k']? = some i' → i'.id = i.id → (target : Int) = (k : Int) + i.b.toInt + 1 →
    (∃ live ∈ code.drop target, live.isDead = false) →
    ∃ first position, (code.drop target).find? (isKept (ids restored)) = some first ∧
      position? restored first.id = some position ∧
      i'.b = Int32.ofInt ((position : Int) - (k' + 1)) ∧
      (restored.length ≤ twoPow 31 → (k' : Int) + i'.b.toInt + 1 = position)

theorem restoreCode_eq_ok_iff {code restored : List Instruction} {warnings : List Warning} :
    restoreCode code = .ok (restored, warnings) ↔
      ∃ refs, references code = .ok refs ∧
        setOffsets
          (addReturns (freshId code) (dropFlips (dropDead code) (retarget (successor code) refs)).1)
          (dropFlips (dropDead code) (retarget (successor code) refs)).2 =
          (restored, warnings) := by
  simp only [restoreCode, bind_eq_ok_iff, pure_eq_ok_iff]

section

variable {code : List Instruction} {i : Instruction}

/-- An instruction whose identity is left after padding is removed is not padding. -/
theorem isDead_of_mem_ids_dropDead (hids : (ids code).Nodup) (hi : i ∈ code)
    (h : i.id ∈ ids (dropDead code)) : i.isDead = false := by
  obtain ⟨j, hj, hji⟩ := List.mem_map.1 h
  obtain ⟨hj, hlive⟩ := List.mem_filter.1 hj
  rw [← List.inj_on_of_nodup_map hids hj hi hji]
  simpa using hlive

/-- The returns that come in do not matter to which instructions of the code are left. -/
theorem isKept_addReturns (hi : i ∈ code) (kept : List Instruction) :
    isKept (ids (addReturns (freshId code) kept)) i = isKept (ids kept) i := by
  rw [Bool.eq_iff_iff, isKept_iff, isKept_iff]
  refine ⟨fun h => ?_, fun h => ((sublist_addReturns _ kept).map _).mem h⟩
  exact (mem_ids_addReturns h).resolve_right (Nat.not_le_of_lt (lt_freshId hi))

/-- If anything but padding comes at or after an index, something is left there: the last
    instruction that is not padding. -/
theorem exists_find?_isKept (refs : References) {target : Nat}
    (h : ∃ live ∈ code.drop target, live.isDead = false) :
    ∃ first, (code.drop target).find? (isKept (ids (dropFlips (dropDead code) refs).1)) =
      some first := by
  obtain ⟨live, hmem, hlive⟩ := h
  -- The last instruction that is not padding survives both removals.
  have hne : (code.drop target).filter (!·.isDead) ≠ [] :=
    List.ne_nil_of_mem (List.mem_filter.2 ⟨hmem, by simp [hlive]⟩)
  obtain ⟨last, hlast⟩ : ∃ last, ((code.drop target).filter (!·.isDead)).getLast? = some last :=
    ⟨_, List.getLast?_eq_some_getLast hne⟩
  have hall : (dropDead code).getLast? = some last := by
    have hsplit : dropDead code =
        (code.take target).filter (!·.isDead) ++ (code.drop target).filter (!·.isDead) := by
      rw [← List.filter_append, List.take_append_drop, dropDead]
    rw [hsplit, List.getLast?_append, hlast]
    rfl
  have hkept : last.id ∈ ids (dropFlips (dropDead code) refs).1 := by
    have := (spans_dropFlips (dropDead code) refs).last
    rw [ids.eq_1 (dropDead code), List.getLast?_map, hall] at this
    exact List.mem_of_getLast? this
  have hafter : last ∈ code.drop target :=
    (List.mem_filter.1 (List.mem_of_getLast? hlast)).1
  exact Option.isSome_iff_exists.1
    (List.find?_isSome.2 ⟨last, hafter, isKept_iff.2 hkept⟩)

/-- After both removals, a jump leads to the first instruction left at or after its
    target. -/
theorem lookup_dropFlips_dropDead (hids : (ids code).Nodup) {refs : References} {target : Nat}
    {d first : Instruction} (hd : code[target]? = some d)
    (hlookup : refs.lookup i.id = some (successor code d.id))
    (hkept : i.id ∈ ids (dropFlips (dropDead code) refs).1)
    (hfirst : (code.drop target).find? (isKept (ids (dropFlips (dropDead code) refs).1)) =
      some first) :
    (dropFlips (dropDead code) refs).2.lookup i.id = some first.id := by
  have hlive : (ids (dropDead code)).Nodup := hids.sublist (List.filter_sublist.map _)
  have hsub := (spans_dropFlips (dropDead code) refs).sublist
  have hstays : ∀ j ∈ code, isKept (ids (dropFlips (dropDead code) refs).1) j →
      (!j.isDead) = true := fun j hj hk => by
    simpa using isDead_of_mem_ids_dropDead hids hj (hsub.mem (isKept_iff.1 hk))
  rw [← firstFrom?_getElem hids hd] at hfirst
  -- Padding is removed first, and the jumps after tests from what is left.
  have hlands : firstFrom? (isKept (ids (dropFlips (dropDead code) refs).1)) (dropDead code)
      (landing (!·.isDead) code d.id) = some first := firstFrom?_filter hids hstays hfirst
  rw [lookup_dropFlips _ _ hlive fun _ => hkept, hlookup, Option.map_some, successor_eq_landing,
    landing_eq_of_firstFrom? hlands]

end

/-- Whether jumps lead, by identity, to the first instruction left at or after their
    targets, when `kept` are the instructions that are left. -/
structure Lands (code kept : List Instruction) (refs : References) : Prop where
  sublist : (ids kept).Sublist (ids code)
  exists_first : ∀ target, (∃ live ∈ code.drop target, live.isDead = false) →
    ∃ first, (code.drop target).find? (isKept (ids kept)) = some first
  lookup : ∀ (k target : Nat) (i first : Instruction), code[k]? = some i → IsLiveJump i →
    i.id ∈ ids kept → (target : Int) = (k : Int) + i.b.toInt + 1 →
    (code.drop target).find? (isKept (ids kept)) = some first → refs.lookup i.id = some first.id

theorem lands_dropFlips {code : List Instruction} {refs : References} (hids : (ids code).Nodup)
    (hrefs : references code = .ok refs) :
    Lands code (dropFlips (dropDead code) (retarget (successor code) refs)).1
      (dropFlips (dropDead code) (retarget (successor code) refs)).2 := by
  refine ⟨(spans_dropFlips _ _).sublist.trans (List.filter_sublist.map _),
    fun target h => exists_find?_isKept _ h, fun k target i first hi hjump hkept ht hfirst => ?_⟩
  obtain ⟨target', d, ht', hd, hlookup⟩ := lookup_referencesFrom hrefs hids hi hjump
  obtain rfl : target' = target := by omega
  refine lookup_dropFlips_dropDead hids hd ?_ hkept hfirst
  rw [lookup_retarget, hlookup]
  rfl

/-- A jump whose target has a position gets the offset to it. -/
theorem setOffset_of_lookup {code : List Instruction} {refs : References} (index : Nat)
    {target position : Nat} {i : Instruction} (hlookup : refs.lookup i.id = some target)
    (hposition : position? code target = some position) :
    (setOffset code refs index i).1.b = Int32.ofInt ((position : Int) - (index + 1)) := by
  rw [setOffset, hlookup]
  simp only [hposition]

theorem exists_position? {code : List Instruction} {id : Nat} (h : id ∈ ids code) :
    ∃ position, position? code id = some position ∧ position < code.length := by
  have hsome : (position? code id).isSome := by
    rw [position?_eq, List.findIdx?_isSome]
    exact List.any_eq_true.2 ⟨id, h, beq_self_eq_true id⟩
  obtain ⟨position, hposition⟩ := Option.isSome_iff_exists.1 hsome
  exact ⟨position, hposition, (List.findIdx?_eq_some_iff_getElem.1 hposition).1⟩

/-- The offset between two positions of code that is short enough is exact. -/
theorem add_toInt_offset {position index length : Nat} (hp : position < length)
    (hi : index < length) (hlength : length ≤ twoPow 31) :
    (index : Int) + (Int32.ofInt ((position : Int) - (index + 1))).toInt + 1 = position := by
  have hlength' : length ≤ 2147483648 := hlength
  rw [Int32.toInt_ofInt_of_le (by omega) (by omega)]
  omega

/-- Jumps that lead to the right instructions by identity do so by offset too, once
    returns are added. -/
theorem Lands.retargets {code kept : List Instruction} {refs : References}
    (hids : (ids code).Nodup) (h : Lands code kept refs) :
    Retargets code (setOffsets (addReturns (freshId code) kept) refs).1 := by
  have hids' := ids_setOffsets (addReturns (freshId code) kept) refs
  refine ⟨?_, fun k k' target i i' hi hjump hi' hid ht hlive => ?_⟩
  · rw [hids']
    refine nodup_ids_addReturns (hids.sublist h.sublist) fun id hid => ?_
    obtain ⟨i, hi, rfl⟩ := List.mem_map.1 (h.sublist.mem hid)
    exact lt_freshId hi
  · -- The jump is left, so its identity leads to the first instruction left.
    have hkept : i.id ∈ ids kept := by
      have hmem : i.id ∈ ids (setOffsets (addReturns (freshId code) kept) refs).1 :=
        hid ▸ List.mem_map_of_mem (List.mem_of_getElem? hi')
      rw [hids'] at hmem
      exact (mem_ids_addReturns hmem).resolve_right
        (Nat.not_le_of_lt (lt_freshId (List.mem_of_getElem? hi)))
    obtain ⟨first, hfirst⟩ := h.exists_first target hlive
    have hlookup := h.lookup k target i first hi hjump hkept ht hfirst
    -- It has a position there, and the returns do not come in between.
    have hstays : isKept (ids kept) first := List.find?_some hfirst
    have hmem : first.id ∈ ids (addReturns (freshId code) kept) :=
      ((sublist_addReturns _ kept).map _).mem (isKept_iff.1 hstays)
    obtain ⟨position, hposition, hlt⟩ := exists_position? hmem
    rw [getElem?_setOffsets, Option.map_eq_some_iff] at hi'
    obtain ⟨j, hj, rfl⟩ := hi'
    rw [id_setOffset] at hid
    have hoffset := setOffset_of_lookup k' (hid ▸ hlookup) hposition
    refine ⟨first, position, ?_, ?_, hoffset, fun hlength => ?_⟩
    · rw [hids', ← hfirst]
      exact List.find?_congr fun d hd => isKept_addReturns (List.mem_of_mem_drop hd) kept
    · rw [position?_eq, hids', ← position?_eq, hposition]
    · rw [length_setOffsets] at hlength
      rw [hoffset]
      exact add_toInt_offset hlt (List.getElem?_eq_some_iff.1 hj).1 hlength

theorem retargets_of_restoreCode {code restored : List Instruction} {warnings : List Warning}
    (hids : (ids code).Nodup) (h : restoreCode code = .ok (restored, warnings)) :
    Retargets code restored := by
  obtain ⟨refs, hrefs, heq⟩ := restoreCode_eq_ok_iff.1 h
  obtain ⟨rfl, -⟩ := Prod.mk.inj heq
  exact (lands_dropFlips hids hrefs).retargets hids

theorem exists_restoreCode_iff (code : List Instruction) :
    (∃ result, restoreCode code = .ok result) ↔ JumpsInRange code := by
  have hrefs := exists_referencesFrom_iff code code 0
  simp only [Nat.zero_add] at hrefs
  rw [JumpsInRange, ← hrefs]
  constructor
  · rintro ⟨_, h⟩
    obtain ⟨refs, hrefs, -⟩ := restoreCode_eq_ok_iff.1 h
    exact ⟨refs, hrefs⟩
  · rintro ⟨refs, h⟩
    exact ⟨_, restoreCode_eq_ok_iff.2 ⟨refs, h, rfl⟩⟩

/-! ## Programs -/

theorem runStep_restoreControlFlow_fst (root : Prototype) :
    (restoreControlFlow root).runStep.1 =
      root.mapBody fun code constants => do return ((← restoreCode code).1, constants) := by
  refine Prototype.run_mapBody_fst (fun code constants log => ?_) root []
  cases restoreCode code <;> rfl

/-- The control flow of a program whose jumps lead to instructions can be restored, prototype
    by prototype. -/
theorem exists_restoreControlFlow {root : Prototype}
    (hrange : ∀ f ∈ root.all, JumpsInRange f.instructions) :
    ∃ out, (restoreControlFlow root).runStep.1 = .ok out ∧
      List.Forall₂ (fun f g => ∃ warnings,
        restoreCode f.instructions = .ok (g.instructions, warnings)) root.all out.all := by
  rw [runStep_restoreControlFlow_fst]
  obtain ⟨out, hout⟩ : ∃ out, (root.mapBody fun code constants => do
      return ((← restoreCode code).1, constants) : Except Chunk.Error Prototype) = .ok out := by
    rw [Prototype.exists_mapBody_eq_ok_iff]
    intro f hf
    obtain ⟨result, hresult⟩ := (exists_restoreCode_iff f.instructions).2 (hrange f hf)
    exact ⟨(result.1, f.constants), by rw [hresult]; rfl⟩
  refine ⟨out, hout, (Prototype.forall₂_all_of_mapBody hout).imp fun f g h => ?_⟩
  simp only [bind_eq_ok_iff, pure_eq_ok_iff] at h
  obtain ⟨⟨restored, warnings⟩, hresult, hbody⟩ := h
  obtain ⟨hcode, -⟩ := Prod.mk.inj hbody
  exact ⟨warnings, hcode ▸ hresult⟩

/-- Restoring the control flow of a program whose instructions have distinct identities
    in each prototype succeeds just if all jumps that are not padding lead to instructions
    of their prototype, and then all jumps keep their targets. -/
theorem restoreControlFlow_retargets (root : Prototype)
    (hids : ∀ f ∈ root.all, (ids f.instructions).Nodup) :
    ((∃ out, (restoreControlFlow root).runStep.1 = .ok out) ↔
      ∀ f ∈ root.all, JumpsInRange f.instructions) ∧
    ∀ out, (restoreControlFlow root).runStep.1 = .ok out →
      List.Forall₂ (fun f g => Retargets f.instructions g.instructions) root.all out.all := by
  rw [runStep_restoreControlFlow_fst]
  refine ⟨?_, fun out hout => ?_⟩
  · rw [Prototype.exists_mapBody_eq_ok_iff]
    refine forall₂_congr fun f _ => ?_
    rw [← exists_restoreCode_iff]
    simp only [bind_eq_ok_iff, pure_eq_ok_iff]
    constructor
    · rintro ⟨_, result, hresult, -⟩
      exact ⟨result, hresult⟩
    · rintro ⟨result, hresult⟩
      exact ⟨_, result, hresult, rfl⟩
  · refine (List.forall₂_and_left _ _ |>.2 ⟨hids, Prototype.forall₂_all_of_mapBody hout⟩).imp ?_
    rintro f g ⟨hids, h⟩
    simp only [bind_eq_ok_iff, pure_eq_ok_iff] at h
    obtain ⟨result, hresult, hbody⟩ := h
    obtain ⟨hcode, -⟩ := Prod.mk.inj hbody
    exact hcode ▸ retargets_of_restoreCode hids hresult

/-- A program with a jump into padding, a test before two jumps, a tail call without a
    return, and jumps backwards. -/
def tangledProgram : Prototype where
  instructions := [
    .ofOpcode 0 .lt 1 2 3,
    .ofOpcode 1 .jmp 0 0 0,
    .ofOpcode 2 .jmp 0 1 0,
    .ofOpcode 3 .tailCall 4 1 0,
    (Instruction.ofOpcode 4 .move 0 0 0).markDead,
    (Instruction.ofOpcode 5 .jmp 0 99 0).markDead,
    .ofOpcode 6 .forLoop 0 (-4) 0,
    .ofOpcode 7 .jmp 0 (-7) 0]
  functions := [{ instructions := [.ofOpcode 0 .jmp 0 (-1) 0] }]

theorem restoreControlFlow_tangledProgram :
    ∃ out, (restoreControlFlow tangledProgram).runStep.1 = .ok out ∧
      List.Forall₂ (fun f g => Retargets f.instructions g.instructions)
        tangledProgram.all out.all := by
  obtain ⟨hsucceeds, hretargets⟩ := restoreControlFlow_retargets tangledProgram (by decide)
  obtain ⟨out, hout⟩ := hsucceeds.2 (by decide)
  exact ⟨out, hout, hretargets out hout⟩

end LuaUnpack.Recover
