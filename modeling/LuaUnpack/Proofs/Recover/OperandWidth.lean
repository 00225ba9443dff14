import LuaUnpack.Proofs.Chunk.RoundTrip
import LuaUnpack.Proofs.Recover.Pool

/-!
# Operands of rebuilt code in instruction words

An operand that can be a register or a constant has nine bits in an instruction word, so
that the indices of the first 256 constants fit in past the registers. The order of first
use goes over all uses together: constants that are used as indices take places too, and
one that is used past the registers can get a place that does not fit any more.

Which operands fit after the pools are rebuilt is said exactly (`rebuildPools_fitsField_iff`):
the registers, and the constants with fewer than 256 others before them in the order of
first use. The other operands are cut when the program is written, and read back as
something else.
-/

namespace LuaUnpack.Recover

open LuaUnpack.Chunk

/-! ## Mixed operands -/

/-- An operand that can be a register or a constant. -/
def Role.mixedOperands (role : Role) (operand : Int32) : List Int32 :=
  if role = .mixed then [operand] else []

/-- The operands of code that can be registers or constants. -/
def mixedOperands (code : List Instruction) : List Int32 :=
  code.flatMap fun i =>
    (roleB i.opcode).mixedOperands i.b ++ (roleC i.opcode).mixedOperands i.c

/-- Whether an operand fits in a field of nine bits. -/
def FitsField (operand : Int32) : Prop := 0 ≤ operand.toInt ∧ operand.toInt ≤ 511

instance (operand : Int32) : Decidable (FitsField operand) := inferInstanceAs (Decidable (_ ∧ _))

theorem Role.mixedOperands_eq_map {role : Role} {operand after : Int32} {change : Int32 → Int32}
    (h : role = .mixed → after = change operand) :
    role.mixedOperands after = (role.mixedOperands operand).map change := by
  rw [mixedOperands, mixedOperands]
  split
  · rename_i hrole
    rw [h hrole, List.map_singleton]
  · rfl

/-- Code with its mixed operands changed has the changed operands. -/
theorem mixedOperands_eq_map {code after : List Instruction} {change : Int32 → Int32}
    (h : List.Forall₂ (fun i j => j.opcode = i.opcode ∧
      (roleB i.opcode = .mixed → j.b = change i.b) ∧
      (roleC i.opcode = .mixed → j.c = change i.c)) code after) :
    mixedOperands after = (mixedOperands code).map change := by
  induction h with
  | nil => rfl
  | cons hij _ ih =>
    obtain ⟨hop, hb, hc⟩ := hij
    rw [mixedOperands, mixedOperands, List.flatMap_cons, List.flatMap_cons, List.map_append,
      List.map_append, hop]
    exact congrArg₂ _
      (congrArg₂ _ (Role.mixedOperands_eq_map hb) (Role.mixedOperands_eq_map hc)) ih

theorem Role.number_mem_usesIn {role : Role} {operand operand' : Int32}
    (h : operand ∈ role.mixedOperands operand') (hrefers : mixed.refers operand) :
    mixed.number operand ∈ role.usesIn operand' operand' := by
  rw [mixedOperands] at h
  split at h
  · rename_i hrole
    obtain rfl := List.mem_singleton.1 h
    rw [usesIn, hrole, if_pos hrefers]
    exact List.mem_singleton_self _
  · exact absurd h List.not_mem_nil

/-- A mixed operand that refers to a constant uses it. -/
theorem number_mem_uses {code : List Instruction} {operand : Int32}
    (h : operand ∈ mixedOperands code) (hrefers : Role.mixed.refers operand) :
    Role.mixed.number operand ∈ uses code := by
  obtain ⟨i, hi, h⟩ := List.mem_flatMap.1 h
  refine List.mem_flatMap.2 ⟨i, hi, ?_⟩
  rcases List.mem_append.1 h with h | h
  · exact List.mem_append_left _ (Role.number_mem_usesIn h hrefers)
  · exact List.mem_append_right _ (Role.number_mem_usesIn h hrefers)

/-! ## Renumbered operands -/

theorem mixedOperands_renamed (rename : Int → Int) (code : List Instruction) :
    mixedOperands (code.map (renamed rename)) =
      (mixedOperands code).map (Role.mixed.renamed rename) := by
  refine mixedOperands_eq_map ?_
  rw [List.forall₂_map_right_iff, List.forall₂_same]
  intro i _
  refine ⟨rfl, fun hrole => ?_, fun hrole => ?_⟩
  · rw [renamed, hrole]
  · rw [renamed, hrole]

/-- An index that an operand can hold fits in a field past the registers just if it is one
    of the first 256. -/
theorem fitsField_operand_iff {index : Int} (hpos : 0 ≤ index) (hle : index ≤ maxSigned 32) :
    FitsField (Role.mixed.operand index) ↔ index < 256 := by
  rw [maxSigned_32] at hle
  rw [FitsField, Role.operand]
  by_cases hsmall : index + 256 < 2147483648
  · rw [Int32.toInt_ofInt_of_le (by omega) (by omega)]
    omega
  · -- The sum is past the largest operand and comes out negative.
    have hneg : (Int32.ofInt (index + 256)).toInt = index + 256 - 4294967296 := by
      have hsize : ((Int32.size : Nat) : Int) = 4294967296 := rfl
      rw [Int32.toInt_ofInt, ← Int.sub_bmod_right, hsize]
      exact Int.bmod_eq_of_le (by omega) (by omega)
    omega

theorem fitsField_renamed_iff {code : List Instruction} {operand : Int32}
    (h : operand ∈ mixedOperands code) (hfits : FitsField operand) :
    FitsField (Role.mixed.renamed (place (uses code)) operand) ↔
      operand.toInt < 256 ∨ place (uses code) (operand.toInt - 256) < 256 := by
  by_cases hrefers : Role.mixed.refers operand
  · have hmark : 256 ≤ operand.toInt := of_decide_eq_true hrefers
    have hplace := place_le (number_mem_uses h hrefers)
    rw [Role.renamed, if_pos hrefers, fitsField_operand_iff (place_nonneg _ _) hplace,
      Role.number_mixed hrefers, constantMark]
    omega
  · have hmark : ¬ 256 ≤ operand.toInt := fun hmark => hrefers (decide_eq_true hmark)
    rw [Role.renamed, if_neg hrefers]
    exact ⟨fun _ => .inl (by omega), fun _ => hfits⟩

/-! ## Operands in words -/

theorem layout_of_roleB {op : Opcode} (h : roleB op = .mixed) : op.layout = .abc := by
  cases op <;> first | rfl | cases h

theorem layout_of_roleC {op : Opcode} (h : roleC op = .mixed) : op.layout = .abc := by
  cases op <;> first | rfl | cases h

/-- What is left of an operand in a field of nine bits. -/
def cut (operand : Int32) : Int32 := Int32.ofInt (residueFrom 0 (twoPow 9) operand.toInt)

theorem cut_eq_iff (operand : Int32) : cut operand = operand ↔ FitsField operand := by
  obtain ⟨hlow, hhigh, -⟩ := residueFrom_spec (show 0 < twoPow 9 by decide) 0 operand.toInt
  have hpow : (twoPow 9 : Int) = 512 := by decide
  rw [cut, FitsField]
  constructor
  · intro h
    rw [← h, Int32.toInt_ofInt_of_le (by omega) (by omega)]
    omega
  · rintro ⟨hpos, hlt⟩
    rw [residueFrom, Int.sub_zero, Int.zero_add, Int.emod_eq_of_lt hpos (by omega),
      Int32.ofInt_toInt]

theorem mixedOperands_stored (code : List Instruction) :
    mixedOperands (code.zipIdx.map fun (i, index) => i.stored index) =
      (mixedOperands code).map cut := by
  have h : mixedOperands (code.zipIdx.map fun (i, index) => i.stored index) =
      (mixedOperands (code.zipIdx.map Prod.fst)).map cut := by
    refine mixedOperands_eq_map ?_
    rw [List.forall₂_map_left_iff, List.forall₂_map_right_iff, List.forall₂_same]
    rintro ⟨i, index⟩ -
    refine ⟨rfl, fun hrole => ?_, fun hrole => ?_⟩
    · simp only [Instruction.stored, layout_of_roleB hrole, cut]
    · simp only [Instruction.stored, layout_of_roleC hrole, cut]
  rwa [List.zipIdx_map_fst] at h

/-- A program for which a chunk has room, and of which all operations are known, is read
    back with its constants and with its mixed operands cut. -/
theorem exists_read_write {f : Prototype} (hroom : f.Fits) (hknown : f.isResolved) :
    ∃ loaded, Standard.read (Standard.write f) = .ok loaded ∧
      List.Forall₂ (fun g h => h.constants = g.constants ∧
        mixedOperands h.instructions = (mixedOperands g.instructions).map cut)
        f.all loaded.all := by
  refine ⟨f.stored.assignNames, ?_, ?_⟩
  · rw [Standard.read_write_eq hroom, hknown]
    rfl
  · -- What is read back differs in names and positions, which are not in the bodies.
    have hbodies : List.Forall₂ Eq (f.all.map fun g =>
        (g.instructions.zipIdx.map fun (i, index) => i.stored index, g.constants))
        (f.stored.assignNames.all.map Prototype.body) := by
      rw [Prototype.map_body_all_assignNames, Prototype.map_body_all_stored, List.forall₂_eq_eq_eq]
    rw [List.forall₂_map_left_iff, List.forall₂_map_right_iff] at hbodies
    refine hbodies.imp ?_
    intro g h hbody
    obtain ⟨hcode, hconstants⟩ := Prod.mk.inj hbody
    exact ⟨hconstants.symm, by rw [← hcode, mixedOperands_stored]⟩

/-! ## Rebuilt programs -/

theorem mixedOperands_of_rebuildPool {f g : Prototype}
    (hbody : rebuildPool f.instructions f.constants = .ok (g.instructions, g.constants)) :
    mixedOperands g.instructions =
        (mixedOperands f.instructions).map (Role.mixed.renamed (place (uses f.instructions))) ∧
      g.constants.length = (firstUses (uses f.instructions)).length := by
  have hpool := (exists_rebuildPool_iff _ _).1 ⟨_, hbody⟩
  rw [rebuildPool_eq_ok hpool, Except.ok.injEq, Prod.mk.injEq] at hbody
  obtain ⟨hcode, hconstants⟩ := hbody
  rw [← hcode, ← hconstants, mixedOperands_renamed, length_usedConstants hpool]
  exact ⟨rfl, rfl⟩

/-- With at most 256 constants in use, every place is among the first 256. -/
theorem place_lt_of_mem_mixedOperands {code : List Instruction} {operand : Int32}
    (h : operand ∈ mixedOperands code) (hfew : (firstUses (uses code)).length ≤ 256) :
    operand.toInt < 256 ∨ place (uses code) (operand.toInt - 256) < 256 := by
  by_cases hrefers : Role.mixed.refers operand
  · have hplace := place_lt (number_mem_uses h hrefers)
    rw [Role.number_mixed hrefers, constantMark] at hplace
    exact .inr (by omega)
  · have hmark : ¬ 256 ≤ operand.toInt := fun hmark => hrefers (decide_eq_true hmark)
    exact .inl (by omega)

/-- The mixed operands of a rebuilt prototype that fit in their fields are the registers
    and the constants among the first 256 in the order of use, and so all of them if it
    uses no more constants. -/
structure FitsByPlace (f g : Prototype) : Prop where
  fits_iff : List.Forall₂
    (fun x y => FitsField y ↔ x.toInt < 256 ∨ place (uses f.instructions) (x.toInt - 256) < 256)
    (mixedOperands f.instructions) (mixedOperands g.instructions)
  fits_of_few : g.constants.length ≤ 256 → ∀ y ∈ mixedOperands g.instructions, FitsField y

/-- A prototype read back with the same constants, and with the same mixed operands where
    these fit in their fields. -/
structure LoadsFitting (g loaded : Prototype) : Prop where
  constants : loaded.constants = g.constants
  eq_iff : List.Forall₂ (fun y z => z = y ↔ FitsField y)
    (mixedOperands g.instructions) (mixedOperands loaded.instructions)

/-- If the mixed operands of a program fit in their fields, then after its pools are
    rebuilt those fit whose constants are used early enough, and these are the ones that
    are read back from a chunk as they are. -/
theorem rebuildPools_fitsField_iff {root out : Prototype}
    (hout : (rebuildPools root).runStep.1 = .ok out)
    (hfits : ∀ f ∈ root.all, ∀ x ∈ mixedOperands f.instructions, FitsField x) :
    List.Forall₂ FitsByPlace root.all out.all ∧
    (out.Fits → out.isResolved → ∃ loaded, Standard.read (Standard.write out) = .ok loaded ∧
      List.Forall₂ LoadsFitting out.all loaded.all) := by
  rw [runStep_rebuildPools_fst] at hout
  refine ⟨?_, fun hroom hknown => ?_⟩
  · refine (List.forall₂_and_left _ _ |>.2 ⟨hfits, Prototype.forall₂_all_of_mapBody hout⟩).imp ?_
    rintro f g ⟨hfits, hbody⟩
    obtain ⟨hoperands, hlength⟩ := mixedOperands_of_rebuildPool hbody
    refine ⟨?_, fun hfew y hy => ?_⟩
    · -- The operands are renamed one by one, each to the place of its constant.
      rw [hoperands, List.forall₂_map_right_iff, List.forall₂_same]
      exact fun x hx => fitsField_renamed_iff hx (hfits x hx)
    · rw [hoperands] at hy
      obtain ⟨x, hx, rfl⟩ := List.mem_map.1 hy
      rw [fitsField_renamed_iff hx (hfits x hx)]
      exact place_lt_of_mem_mixedOperands hx (hlength ▸ hfew)
  · obtain ⟨loaded, hread, hloaded⟩ := exists_read_write hroom hknown
    refine ⟨loaded, hread, hloaded.imp ?_⟩
    rintro g h ⟨hconstants, hoperands⟩
    refine ⟨hconstants, ?_⟩
    rw [hoperands, List.forall₂_map_right_iff, List.forall₂_same]
    exact fun y _ => cut_eq_iff y

/-- A program that uses 256 constants as indices before it uses one more past the
    registers. -/
def crowdedProgram : Prototype where
  constants := (List.range 257).map fun k => .number (UInt64.ofNat k)
  instructions :=
    (List.range 256).map (fun k => .ofOpcode k .loadK 0 (Int32.ofNat (k + 1)) 0) ++
      [.ofOpcode 256 .add 0 256 1]
  maxStackSize := 2

theorem mixedOperands_crowdedProgram : mixedOperands crowdedProgram.instructions = [256, 1] := by
  decide +kernel

theorem fitsField_crowdedProgram :
    ∀ f ∈ crowdedProgram.all, ∀ x ∈ mixedOperands f.instructions, FitsField x := by
  intro f hf
  rw [Prototype.all_eq_cons] at hf
  obtain rfl := List.mem_singleton.1 hf
  rw [mixedOperands_crowdedProgram, List.forall_mem_cons, List.forall_mem_singleton]
  exact ⟨by decide, by decide⟩

theorem firstUses_crowdedProgram :
    firstUses (uses crowdedProgram.instructions) = List.range' 1 256 ++ [0] := by
  have huses : (uses crowdedProgram.instructions).map Int.toNat = List.range' 1 256 ++ [0] := by
    decide +kernel
  have hnodup : (List.range' 1 256 ++ [0]).Nodup := by
    refine List.nodup_append.2 ⟨List.nodup_range', List.nodup_singleton 0, fun a ha b hb => ?_⟩
    have := (List.mem_range'_1.1 ha).1
    have := List.mem_singleton.1 hb
    omega
  rw [firstUses_eq_map (huses ▸ hnodup), huses]

theorem exists_rebuildPools_crowdedProgram :
    ∃ out, (rebuildPools crowdedProgram).runStep.1 = .ok out ∧ out.Fits ∧ out.isResolved ∧
      mixedOperands out.instructions = [512, 1] := by
  have hpool : ∀ k ∈ uses crowdedProgram.instructions, InPool crowdedProgram.constants k := by
    decide +kernel
  refine ⟨_, rebuildPools_eq_ok_of_functions_eq_nil rfl hpool, ?_, ?_, ?_⟩
  · -- No other prototypes are in this one.
    intro g hg
    rw [Prototype.all_eq_cons] at hg
    obtain rfl := List.mem_singleton.1 hg
    refine ⟨?_, ?_, ?_, fun s hs => ?_⟩
    · rw [List.length_map]
      decide +kernel
    · rw [length_usedConstants hpool, firstUses_crowdedProgram]
      decide +kernel
    · decide
    · -- All constants are numbers.
      dsimp only at hs
      obtain ⟨n, -, hn⟩ := List.mem_map.1 (mem_of_mem_usedConstants hs)
      cases hn
  · decide +kernel
  · have hregister : Role.mixed.renamed (place (uses crowdedProgram.instructions)) 1 = 1 := rfl
    have hconstant : Role.mixed.renamed (place (uses crowdedProgram.instructions)) 256 = 512 := by
      rw [Role.renamed, if_pos (by decide), show Role.mixed.number 256 = 0 by decide,
        place, firstUses_crowdedProgram]
      decide +kernel
    rw [mixedOperands_renamed, mixedOperands_crowdedProgram, List.map_cons, List.map_singleton,
      hregister, hconstant]

/-- A constant past the registers gets a place that does not fit any more, and is read back
    as a register. -/
theorem rebuildPools_crowdedProgram_cuts :
    (∀ f ∈ crowdedProgram.all, ∀ x ∈ mixedOperands f.instructions, FitsField x) ∧
      ∃ out loaded, (rebuildPools crowdedProgram).runStep.1 = .ok out ∧
        mixedOperands out.instructions = [512, 1] ∧ ¬ FitsField 512 ∧
        Standard.read (Standard.write out) = .ok loaded ∧
        mixedOperands loaded.instructions = [0, 1] := by
  obtain ⟨out, hout, hroom, hknown, hoperands⟩ := exists_rebuildPools_crowdedProgram
  obtain ⟨loaded, hread, hloaded⟩ := exists_read_write hroom hknown
  refine ⟨fitsField_crowdedProgram, out, loaded, hout, hoperands, by decide, hread, ?_⟩
  rw [Prototype.all_eq_cons, Prototype.all_eq_cons, List.forall₂_cons] at hloaded
  rw [hloaded.1.2, hoperands]
  decide

theorem rebuildPools_crowdedProgram_fitsField_iff :
    (∀ f ∈ crowdedProgram.all, ∀ x ∈ mixedOperands f.instructions, FitsField x) ∧
      ∃ out loaded, (rebuildPools crowdedProgram).runStep.1 = .ok out ∧
        List.Forall₂ FitsByPlace crowdedProgram.all out.all ∧
        Standard.read (Standard.write out) = .ok loaded ∧
        List.Forall₂ LoadsFitting out.all loaded.all := by
  obtain ⟨out, hout, hroom, hknown, -⟩ := exists_rebuildPools_crowdedProgram
  obtain ⟨hfits, hloads⟩ := rebuildPools_fitsField_iff hout fitsField_crowdedProgram
  obtain ⟨loaded, hread, hloaded⟩ := hloads hroom hknown
  exact ⟨fitsField_crowdedProgram, out, loaded, hout, hfits, hread, hloaded⟩

end LuaUnpack.Recover
