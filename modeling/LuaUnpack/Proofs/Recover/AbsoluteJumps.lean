import LuaUnpack.Proofs.Chunk.Records
import LuaUnpack.Proofs.Dict
import LuaUnpack.Recover.Resolve

/-!
# Absolute jumps

A jump of packed data names the number of the record it leads to, and it becomes an
offset between the numbers of two records. The code that is read has no place for
records that were left out, so an offset between indices can be smaller. A jump leads
to its record just if no record between the two was left out
(`resolveOpcodes_jump_leads_iff`).

An instruction can be identified more than once, if it is the last of its function.
Which handlers are found for an instruction is told apart from what becomes of it
(`resolutions`); the instruction is changed by these and by nothing else
(`getElem?_resolveFrom`).
-/

namespace LuaUnpack.Recover

open LuaUnpack.Chunk LuaUnpack.Handler

/-! ## What is found for an instruction -/

/-- What is found in the catalog for an instruction that takes operations: for the first
    one, or for all up to one that returns if it is the last instruction. -/
def foundIn (catalog : Catalog) (isLast : Bool) : List MicroOp → Instruction → List Resolution
  | [], _ => []
  | op :: ops, i =>
    let found := (catalog.get? op.fingerprint).toList
    let i := (identify catalog op i).1
    if returns i || !isLast then found else found ++ foundIn catalog isLast ops i

/-- What is found for an instruction that starts a handler. -/
def foundAtStart (mapping : Mapping) (catalog : Catalog) (isLast : Bool) (i : Instruction) :
    List Resolution :=
  foundIn catalog isLast ((mapping.get? i.opnum).getD []) i

/-- What is found for an instruction on a visit. -/
def foundAt (mapping : Mapping) (catalog : Catalog) (index : Nat) (isLast : Bool) (walk : Walk)
    (i : Instruction) : List Resolution :=
  match walk.mode with
  | .start => foundAtStart mapping catalog isLast i
  | .within ops => foundIn catalog isLast ops i
  | .padding =>
    if walk.targets.contains index then foundAtStart mapping catalog isLast i else []

/-- What is found for instructions from an index on. -/
def foundFrom (mapping : Mapping) (catalog : Catalog) (index : Nat) (walk : Walk) :
    List Instruction → List (List Resolution)
  | [] => []
  | i :: rest =>
    foundAt mapping catalog index rest.isEmpty walk i ::
      foundFrom mapping catalog (index + 1)
        (visit mapping catalog index rest.isEmpty walk i).walk rest

/-- What is found for the instructions of a function. -/
def resolutions (mapping : Mapping) (catalog : Catalog) (code : List Instruction) :
    List (List Resolution) :=
  foundFrom mapping catalog 0 {} code

/-- An instruction after all that is found for it. -/
def applyAll (i : Instruction) (found : List Resolution) : Instruction :=
  found.foldl (fun i resolution => resolution.apply i) i

variable {mapping : Mapping} {catalog : Catalog} {index : Nat} {isLast : Bool}
  {targets : List Nat} {walk : Walk} {i : Instruction}

theorem applyAll_append (i : Instruction) (found more : List Resolution) :
    applyAll i (found ++ more) = applyAll (applyAll i found) more := List.foldl_append

theorem identify_fst (catalog : Catalog) (op : MicroOp) (i : Instruction) :
    (identify catalog op i).1 = applyAll i (catalog.get? op.fingerprint).toList := by
  rw [identify]
  cases catalog.get? op.fingerprint <;> rfl

/-- Taking operations makes of an instruction what is found for them. -/
theorem takeOps_instruction (ops : List MicroOp) :
    (takeOps catalog index isLast targets ops i).instruction =
      applyAll i (foundIn catalog isLast ops i) := by
  induction ops generalizing i targets with
  | nil => rfl
  | cons op ops ih =>
    have hfirst := identify_fst catalog op i
    rw [takeOps, foundIn]
    generalize identify catalog op i = result at hfirst ⊢
    obtain ⟨j, warnings⟩ := result
    dsimp only at hfirst ⊢
    cases hreturns : returns j with
    | true => exact hfirst
    | false =>
      cases isLast with
      | false =>
        -- Operations that are left go to the instructions after it.
        cases ops <;> exact hfirst
      | true =>
        change _ = applyAll i (_ ++ foundIn catalog true ops j)
        rw [applyAll_append, ← hfirst]
        cases ops with
        | nil => rfl
        | cons op' ops => exact ih

theorem visitStart_instruction :
    (visitStart mapping catalog index isLast targets i).instruction =
      applyAll i (foundAtStart mapping catalog isLast i) := by
  rw [visitStart, foundAtStart]
  cases mapping.get? i.opnum with
  | none => rfl
  | some ops => exact takeOps_instruction ops

/-- A visit makes of an instruction what is found for it, or marks it as padding. -/
theorem visit_instruction :
    (visit mapping catalog index isLast walk i).instruction =
        applyAll i (foundAt mapping catalog index isLast walk i) ∨
      (visit mapping catalog index isLast walk i).instruction = i.markDead ∧
        foundAt mapping catalog index isLast walk i = [] := by
  rw [visit, foundAt]
  cases walk.mode with
  | start => exact .inl visitStart_instruction
  | within ops => exact .inl (takeOps_instruction ops)
  | padding =>
    dsimp only
    -- In padding a search is started only where a jump leads to.
    by_cases htarget : walk.targets.contains index
    · rw [if_pos htarget, if_pos htarget]
      exact .inl visitStart_instruction
    · rw [if_neg htarget, if_neg htarget]
      exact .inr ⟨rfl, rfl⟩

theorem resolveFrom_cons (mapping : Mapping) (catalog : Catalog) (index : Nat) (walk : Walk)
    (i : Instruction) (rest : List Instruction) :
    (resolveFrom mapping catalog index walk (i :: rest)).1 =
      (visit mapping catalog index rest.isEmpty walk i).instruction ::
        (resolveFrom mapping catalog (index + 1)
          (visit mapping catalog index rest.isEmpty walk i).walk rest).1 := rfl

/-- An instruction for which one resolution is found is changed by that and by nothing
    else. -/
theorem getElem?_resolveFrom {code : List Instruction} {k : Nat} {x : Instruction}
    {resolution : Resolution} (hx : code[k]? = some x)
    (hfound : (foundFrom mapping catalog index walk code)[k]? = some [resolution]) :
    (resolveFrom mapping catalog index walk code).1[k]? = some (resolution.apply x) := by
  induction code generalizing index walk k with
  | nil => cases hx
  | cons i rest ih =>
    rw [resolveFrom_cons]
    cases k with
    | zero =>
      cases hx
      have hhere : foundAt mapping catalog index rest.isEmpty walk x = [resolution] :=
        Option.some.inj hfound
      have hvisit := @visit_instruction mapping catalog index rest.isEmpty walk x
      rw [hhere] at hvisit
      rcases hvisit with hvisit | ⟨-, hnone⟩
      · exact congrArg some hvisit
      · -- Nothing is found for padding.
        cases hnone
    | succ k => exact ih hx hfound

/-! ## Jumps in the catalog -/

theorem mem_catalog_of_mem_foundIn {ops : List MicroOp} {resolution : Resolution}
    (h : resolution ∈ foundIn catalog isLast ops i) : ∃ k, (k, resolution) ∈ catalog := by
  induction ops generalizing i with
  | nil => cases h
  | cons op ops ih =>
    have hfirst : resolution ∈ (catalog.get? op.fingerprint).toList →
        ∃ k, (k, resolution) ∈ catalog := fun h => Dict.mem_of_get? (Option.mem_toList.1 h)
    rw [foundIn] at h
    split at h
    · exact hfirst h
    · exact (List.mem_append.1 h).elim hfirst ih

theorem mem_catalog_of_mem_foundFrom {code : List Instruction} {found : List Resolution}
    {resolution : Resolution} (hfound : found ∈ foundFrom mapping catalog index walk code)
    (h : resolution ∈ found) : ∃ k, (k, resolution) ∈ catalog := by
  induction code generalizing index walk with
  | nil => cases hfound
  | cons i rest ih =>
    rcases List.mem_cons.1 hfound with rfl | hfound
    · rw [foundAt] at h
      split at h
      · exact mem_catalog_of_mem_foundIn h
      · exact mem_catalog_of_mem_foundIn h
      · split at h
        · exact mem_catalog_of_mem_foundIn h
        · cases h
    · exact ih hfound

/-- All handlers that jump keep an absolute target. -/
theorem correction_of_jmp {k : String} {resolution : Resolution}
    (h : (k, resolution) ∈ standardCatalog) (hjmp : resolution.opcode = .jmp) :
    resolution = ⟨.jmp, some .relativeJump⟩ := by
  have hall : ∀ pair ∈ standardCatalog, pair.2.opcode = .jmp →
      pair.2 = ⟨.jmp, some .relativeJump⟩ := by decide
  exact hall (k, resolution) h hjmp

/-! ## Where jumps lead -/

/-- Whether the records from one number to another, in either direction, were all kept. -/
def AllKept (code : List Instruction) (p q : Int32) : Prop :=
  ∀ n : Int32, (p ≤ n ∧ n ≤ q) ∨ (q ≤ n ∧ n ≤ p) → ∃ i ∈ code, i.pc = n

theorem allKept_comm {code : List Instruction} {p q : Int32} :
    AllKept code p q ↔ AllKept code q p :=
  forall_congr' fun _ => by rw [or_comm]

/-- The indices of two instructions differ as their numbers do just if all records
    between them were kept. -/
theorem sub_eq_sub_iff_allKept {code : List Instruction} (h : IsNumbered code) {k l : Nat}
    {x z : Instruction} (hx : code[k]? = some x) (hz : code[l]? = some z) :
    (l : Int) - k = z.pc.toInt - x.pc.toInt ↔ AllKept code x.pc z.pc := by
  -- Jumps go in both directions; one of the two instructions comes first.
  wlog hle : k ≤ l generalizing k l x z
  · rw [allKept_comm, ← this hz hx (Nat.le_of_not_le hle)]
    omega
  have hxpc := h.toInt_pc (List.mem_of_getElem? hx)
  have hzpc := h.toInt_pc (List.mem_of_getElem? hz)
  obtain ⟨d, rfl⟩ := Nat.exists_eq_add_of_le hle
  have hlow : (code.map (·.id))[k]? = some x.id := by rw [List.getElem?_map, hx, Option.map_some]
  have hhigh : (code.map (·.id))[k + d]? = some z.id := by
    rw [List.getElem?_map, hz, Option.map_some]
  obtain ⟨hadd, hiff⟩ := add_le_of_ascending h.ascending hlow hhigh
  rw [hxpc, hzpc]
  have hshift : ((k + d : Nat) : Int) - k = z.id - x.id ↔ x.id + d = z.id := by omega
  rw [hshift, hiff]
  refine ⟨fun hall n hn => ?_, fun hall m hm hm' => ?_⟩
  · rw [Int32.le_iff_toInt_le, Int32.le_iff_toInt_le, Int32.le_iff_toInt_le,
      Int32.le_iff_toInt_le, hxpc, hzpc] at hn
    exact (h.mem_iff n.toInt.toNat (by omega)).1 (hall _ (by omega) (by omega))
  · have hlt := h.lt z (List.mem_of_getElem? hz)
    have hm'' : (Int32.ofNat m).toInt = m := Int32.toInt_ofNat_of_lt (Nat.lt_of_le_of_lt hm' hlt)
    refine (h.mem_iff m hm'').2 (hall _ (.inl ?_))
    rw [Int32.le_iff_toInt_le, Int32.le_iff_toInt_le, hxpc, hzpc, hm'']
    omega

/-- The offset between two numbers of records is exact. -/
theorem toInt_sub_next {p q : Int32} (hp : 0 ≤ p.toInt) (hq : 0 ≤ q.toInt) :
    (q - (p + 1)).toInt = q.toInt - p.toInt - 1 := by
  have hp' := p.toInt_lt
  have hq' := q.toInt_lt
  rw [Int32.toInt_sub, Int32.toInt_add, Int32.toInt_one, Int.sub_bmod_bmod,
    Int.bmod_eq_of_le (by omega) (by omega)]
  omega

/-- Whether the jumps of code, if they are identified once, lead to their records in
    resolved code just as far as all records in between were kept. -/
def JumpsLeadIffAllKept (mapping : Mapping) (code resolved : List Instruction) : Prop :=
  ∀ (k l : Nat) (x y z : Instruction) (resolution : Resolution),
    code[k]? = some x → resolved[k]? = some y →
    (resolutions mapping standardCatalog code)[k]? = some [resolution] →
    resolution.opcode = .jmp → code[l]? = some z → z.pc = x.b →
    ((k : Int) + y.b.toInt + 1 = l ↔ AllKept code x.pc x.b)

theorem jumpsLeadIffAllKept_resolveCode {code : List Instruction} (h : IsNumbered code)
    (mapping : Mapping) :
    JumpsLeadIffAllKept mapping code (resolveCode mapping standardCatalog code).1 := by
  intro k l x y z resolution hx hy hfound hjmp hz hzb
  have hresolved := getElem?_resolveFrom hx hfound
  rw [resolveCode, hresolved] at hy
  obtain ⟨key, hkey⟩ := mem_catalog_of_mem_foundFrom (List.mem_of_getElem? hfound)
    List.mem_cons_self
  obtain rfl := correction_of_jmp hkey hjmp
  cases hy
  -- The offset is taken between numbers; between indices it is right if these differ alike.
  have hxpc := h.toInt_pc (List.mem_of_getElem? hx)
  have hzpc := h.toInt_pc (List.mem_of_getElem? hz)
  rw [← hzb, ← sub_eq_sub_iff_allKept h hx hz]
  change (k : Int) + (x.b - (x.pc + 1)).toInt + 1 = l ↔ _
  rw [← hzb, toInt_sub_next (by omega) (by omega)]
  omega

theorem runStep_resolveOpcodes_fst (mapping : Mapping) (catalog : Catalog) (root : Prototype) :
    (resolveOpcodes mapping catalog root).runStep.1 =
      root.mapBody fun code constants => .ok ((resolveCode mapping catalog code).1, constants) :=
  Prototype.run_mapBody_fst (fun _ _ _ => rfl) root []

/-- In every program that can be read, a jump that is identified once leads to the
    instruction of the record it names just if no record between the two was left out. -/
theorem resolveOpcodes_jump_leads_iff {format : Format} {data : List UInt8} {root : Prototype}
    (hread : Packed.read format data = .ok root) (mapping : Mapping) :
    ∃ out, (resolveOpcodes mapping standardCatalog root).runStep.1 = .ok out ∧
      List.Forall₂ (fun f g => JumpsLeadIffAllKept mapping f.instructions g.instructions)
        root.all out.all := by
  obtain ⟨out, hout⟩ :
      ∃ out, (resolveOpcodes mapping standardCatalog root).runStep.1 = .ok out := by
    rw [runStep_resolveOpcodes_fst, Prototype.exists_mapBody_eq_ok_iff]
    exact fun _ _ => ⟨_, rfl⟩
  refine ⟨out, hout, ?_⟩
  rw [runStep_resolveOpcodes_fst] at hout
  -- That a program could be read is what numbers the instructions of all its functions.
  refine (List.forall₂_and_left _ _ |>.2
    ⟨Packed.isNumbered_of_read hread, Prototype.forall₂_all_of_mapBody hout⟩).imp ?_
  rintro f g ⟨hnumbered, h⟩
  obtain ⟨hcode, -⟩ := Prod.mk.inj (Except.ok.inj h)
  rw [← hcode]
  exact jumpsLeadIffAllKept_resolveCode hnumbered mapping

/-! ## A jump over a record that was left out -/

/-- A format with nothing but instructions. -/
def codeFormat : Format where
  sections := [.instructions]

/-- Three records: a jump to the last one, one that is left out, and a return. -/
def gappedData : List UInt8 :=
  [3, 0, 0, 0,
   2, 4, 0, 0, 0, 2, 0, 0, 0,
   1,
   0, 5, 0, 0, 0, 0, 0, 0, 0]

/-- The program of the three records. -/
def gappedProgram : Prototype where
  name := "func_00000000"
  instructions := [⟨0, 4, .unknown, 0, 2, 0, {}, 0⟩, ⟨2, 5, .unknown, 0, 0, 0, {}, 2⟩]

/-- Handlers for the jump and the return. -/
def gappedMapping : Mapping :=
  [(4, [.ofBlock [.assign [.name "pc"] [.index (.name "inst") (.name "OP_B")]]]),
   (5, [.ofBlock [.ret []]])]

theorem resolveOpcodes_gappedProgram_jump_leads_iff :
    ∃ out, (resolveOpcodes gappedMapping standardCatalog gappedProgram).runStep.1 = .ok out ∧
      List.Forall₂ (fun f g => JumpsLeadIffAllKept gappedMapping f.instructions g.instructions)
        gappedProgram.all out.all :=
  resolveOpcodes_jump_leads_iff
    (show Packed.read codeFormat gappedData = .ok gappedProgram from rfl) gappedMapping

/-- The return has index 1, and the jump to it leads past the end. -/
theorem resolveOpcodes_gappedProgram_misses :
    Packed.read codeFormat gappedData = .ok gappedProgram ∧
      ∃ out x y z,
        (resolveOpcodes gappedMapping standardCatalog gappedProgram).runStep.1 = .ok out ∧
        gappedProgram.instructions[0]? = some x ∧ out.instructions[0]? = some y ∧
        (resolutions gappedMapping standardCatalog gappedProgram.instructions)[0]? =
          some [⟨.jmp, some .relativeJump⟩] ∧
        gappedProgram.instructions[1]? = some z ∧ z.pc = x.b ∧ (0 : Int) + y.b.toInt + 1 ≠ 1 :=
  ⟨rfl, _, _, _, _, rfl, rfl, rfl, by decide, rfl, rfl, by decide⟩

end LuaUnpack.Recover
