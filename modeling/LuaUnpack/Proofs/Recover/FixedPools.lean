import LuaUnpack.Proofs.Recover.OperandWidth

/-!
# Rebuilt pools stay as they are

After its pool is rebuilt, code uses its constants in the order of their numbers: the place
of every place is that place itself (`place_places`). So rebuilding a second time renames
every use to itself and picks every constant again (`rebuildPool_again`).

This needs the second run to find the uses where the first one left them. An index past the
registers can be too large for its operand once the mark is added, and the operand would
then come out as a register; `MarksFit` says that this sum stays in 32 bits, as it does
whenever there is room for the mark after all constants in use.
-/

namespace LuaUnpack.Recover

open LuaUnpack.Chunk

/-! ## Places of places -/

theorem toNat_place (past : List Int) (index : Int) :
    (place past index).toNat = (firstUses past).idxOf index.toNat :=
  Int.toNat_natCast _

/-- The places are first used in the order of the numbers. -/
theorem firstUses_places (past : List Int) :
    firstUses (past.map (place past)) = List.range (firstUses past).length := by
  induction past using List.reverseRecOn with
  | nil => rfl
  | append_singleton past index ih =>
    have hplaces : past.map (place (past ++ [index])) = past.map (place past) :=
      List.map_congr_left fun k hk => place_append hk _
    rw [List.map_append, List.map_singleton, hplaces, place_concat, firstUses_concat, ih,
      firstUses_concat, toNat_place]
    by_cases hold : index.toNat ∈ firstUses past
    · rw [if_pos hold, if_pos (List.mem_range.2 (List.idxOf_lt_length_iff.2 hold))]
    · rw [if_neg hold, List.idxOf_eq_length hold, if_neg List.not_mem_range_self,
        List.length_append, List.length_singleton, List.range_succ]

theorem place_places {past : List Int} {index : Int} (h : index ∈ past) :
    place (past.map (place past)) (place past index) = place past index := by
  have hlt : (firstUses past).idxOf index.toNat < (List.range (firstUses past).length).length := by
    rw [List.length_range]
    exact List.idxOf_lt_length_iff.2 (mem_firstUses h)
  rw [place, firstUses_places, toNat_place, place]
  have hidx := List.nodup_range.idxOf_getElem _ hlt
  rw [List.getElem_range] at hidx
  rw [hidx]

/-! ## Code that is renamed twice -/

section

variable {rename again : Int → Int}

/-- An operand that was renamed stays as it is if it still refers to a constant, and its new
    use is renamed to itself. -/
theorem Role.renamed_renamed {role : Role} {operand : Int32}
    (hrefers : role.refers (role.renamed rename operand) = role.refers operand)
    (huses : ∀ k ∈ role.usesIn operand operand,
      (0 ≤ rename k ∧ rename k ≤ maxSigned 32) ∧ again (rename k) = rename k) :
    role.renamed again (role.renamed rename operand) = role.renamed rename operand := by
  by_cases h : role.refers operand = true
  · rw [Role.usesIn, if_pos h, List.forall_mem_singleton] at huses
    obtain ⟨⟨hpos, hle⟩, hagain⟩ := huses
    have hnew : role.renamed rename operand = role.operand (rename (role.number operand)) :=
      if_pos h
    rw [Role.renamed, hrefers, if_pos h, hnew, number_operand role hpos hle, hagain]
  · have hsame : role.renamed rename operand = operand := if_neg h
    rw [hsame, Role.renamed, if_neg h]

theorem map_renamed_renamed {code : List Instruction} (hrefers : ∀ i ∈ code, KeepsRefers rename i)
    (huses : ∀ k ∈ uses code,
      (0 ≤ rename k ∧ rename k ≤ maxSigned 32) ∧ again (rename k) = rename k) :
    (code.map (renamed rename)).map (renamed again) = code.map (renamed rename) := by
  rw [List.map_map]
  refine List.map_congr_left fun i hi => ?_
  obtain ⟨hb, hc⟩ := hrefers i hi
  have huses (k : Int) (hk : k ∈ usesIn i i) := huses k (List.mem_flatMap.2 ⟨i, hi, hk⟩)
  have hb' := Role.renamed_renamed hb fun k hk => huses k (List.mem_append_left _ hk)
  have hc' := Role.renamed_renamed hc fun k hk => huses k (List.mem_append_right _ hk)
  exact congrArg₂ (fun b c => { i with b, c }) hb' hc'

end

/-! ## Marks -/

/-- Whether the mark can be added in 32 bits to the new index of every constant that is used
    past the registers. -/
def MarksFit (code : List Instruction) : Prop :=
  ∀ operand ∈ mixedOperands code, Role.mixed.refers operand →
    place (uses code) (Role.mixed.number operand) + constantMark ≤ maxSigned 32

/-- The marks fit if there is room for one after all constants in use. -/
theorem marksFit_of_length_le {code : List Instruction}
    (h : (firstUses (uses code)).length + 256 ≤ twoPow 31) : MarksFit code := by
  intro operand hoperand hrefers
  have hplace := place_lt (number_mem_uses hoperand hrefers)
  rw [twoPow_31] at h
  rw [constantMark, maxSigned_32]
  omega

theorem Role.refers_renamed_place {code : List Instruction} {role : Role} {operand : Int32}
    (hmarks : MarksFit code) (h : role = .mixed → operand ∈ Recover.mixedOperands code) :
    role.refers (role.renamed (place (uses code)) operand) = role.refers operand := by
  cases role with
  | other => rfl
  | direct => rfl
  | mixed =>
    refine Role.refers_renamed fun k hk => ⟨place_nonneg _ k, ?_⟩
    rw [Role.usesIn] at hk
    split at hk
    · rename_i hrefers
      obtain rfl := List.mem_singleton.1 hk
      exact hmarks operand (h rfl) hrefers
    · exact absurd hk List.not_mem_nil

theorem keepsRefers_place {code : List Instruction} (hmarks : MarksFit code) :
    ∀ i ∈ code, KeepsRefers (place (uses code)) i := by
  intro i hi
  constructor
  · refine Role.refers_renamed_place hmarks fun hrole => List.mem_flatMap.2 ⟨i, hi, ?_⟩
    exact List.mem_append_left _ (by rw [hrole]; exact List.mem_singleton_self _)
  · refine Role.refers_renamed_place hmarks fun hrole => List.mem_flatMap.2 ⟨i, hi, ?_⟩
    exact List.mem_append_right _ (by rw [hrole]; exact List.mem_singleton_self _)

/-! ## Pools that are rebuilt twice -/

/-- If the constants are first used in the order of their numbers, all are picked again. -/
theorem usedConstants_eq_self {pool : List Constant} {past : List Int}
    (h : ∀ k ∈ past, InPool pool k) (horder : firstUses past = List.range pool.length) :
    usedConstants pool past = pool := by
  rw [usedConstants_eq_map h, horder]
  refine List.ext_getElem (by rw [List.length_map, List.length_range]) fun k _ hk => ?_
  rw [List.getElem_map, List.getElem_range, List.getD_eq_getElem?_getD,
    List.getElem?_eq_getElem hk, Option.getD_some]

/-- A second run finds the uses at the places that the first run gave them. -/
theorem rebuildPool_again {code code' : List Instruction} {pool pool' : List Constant}
    (h : rebuildPool code pool = .ok (code', pool')) (hmarks : MarksFit code) :
    rebuildPool code' pool' = .ok (code', pool') := by
  have hpool := (exists_rebuildPool_iff _ _).1 ⟨_, h⟩
  rw [rebuildPool_eq_ok hpool, Except.ok.injEq, Prod.mk.injEq] at h
  obtain ⟨rfl, rfl⟩ := h
  have hkeeps := keepsRefers_place hmarks
  have hlength := length_usedConstants hpool
  -- The first use of each new index comes in the order of the indices: they stay as they are.
  have huses : uses (code.map (renamed (place (uses code)))) =
      (uses code).map (place (uses code)) := by
    rw [uses_renamed_of_keepsRefers hkeeps]
    exact codeUsesIn_renamed fun k hk => ⟨place_nonneg _ k, place_le hk⟩
  have hpool' : ∀ k ∈ (uses code).map (place (uses code)),
      InPool (usedConstants pool (uses code)) k := by
    rw [List.forall_mem_map]
    intro k hk
    have hplace := place_lt hk
    exact ⟨place_nonneg _ k, by omega⟩
  rw [rebuildPool_eq_ok (huses ▸ hpool'), huses,
    map_renamed_renamed hkeeps fun k hk => ⟨⟨place_nonneg _ k, place_le hk⟩, place_places hk⟩,
    usedConstants_eq_self hpool' (hlength ▸ firstUses_places _)]

/-- Rebuilding the pools of a program whose pools are rebuilt changes nothing. -/
theorem rebuildPools_again {root out : Prototype} (hout : (rebuildPools root).runStep.1 = .ok out)
    (hmarks : ∀ f ∈ root.all, MarksFit f.instructions) :
    (rebuildPools out).runStep.1 = .ok out := by
  rw [runStep_rebuildPools_fst] at hout ⊢
  have hfixed : List.Forall₂ (fun g f =>
      rebuildPool g.instructions g.constants = .ok (g.instructions, g.constants) ∧
        rebuildPool f.instructions f.constants = .ok (g.instructions, g.constants))
      out.all root.all := by
    refine ((List.forall₂_and_left _ _).2
      ⟨hmarks, Prototype.forall₂_all_of_mapBody hout⟩).flip.imp ?_
    rintro g f ⟨hmarks, hbody⟩
    exact ⟨rebuildPool_again hbody hmarks, hbody⟩
  exact Prototype.mapBody_eq_self ((List.forall₂_and_left _ _).1 hfixed).1

theorem rebuildPools_again_pooledProgram :
    (∀ f ∈ pooledProgram.all, MarksFit f.instructions) ∧
      ∃ out, (rebuildPools pooledProgram).runStep.1 = .ok out ∧
        out.constants = [.string "print", .number 0x4000000000000000] ∧
        (rebuildPools out).runStep.1 = .ok out := by
  have hmarks : ∀ f ∈ pooledProgram.all, MarksFit f.instructions := by
    intro f hf
    refine marksFit_of_length_le ?_
    revert f
    decide
  exact ⟨hmarks, _, rfl, rfl, rebuildPools_again rfl hmarks⟩

end LuaUnpack.Recover
