import LuaUnpack.Proofs.Chunk.Tree
import LuaUnpack.Proofs.Recover.Uses
import Mathlib.Data.List.Induction
import Mathlib.Data.List.Range

/-!
# Rebuilt constant pools

Rebuilding the constant pools of a program fails just if an instruction uses a constant
that its prototype does not have. Otherwise every prototype is `Rebuilt`: its uses lead to
the same constants as before and nothing else in its code changes, and the new pool has
the used constants only, each once for each of its old indices, in the order of first use.

An index that stands past the registers is stored in an operand of 32 bits, which can
hold the index of every constant but the last 256 that a pool of 2³¹ constants would have.
`Rebuilt` reads uses with the arithmetic of such operands, which leads to the right
constant even there; that the new code has these uses by its own operands is said for
pools that are small enough.
-/

namespace LuaUnpack.Recover

open LuaUnpack.Chunk

/-! ## What a rebuilt prototype is -/

/-- An instruction that differs from another one at most in the operands that refer to
    constants. -/
structure KeepsRest (i after : Instruction) : Prop where
  eq : after = { i with b := after.b, c := after.c }
  b : ¬ (roleB i.opcode).refers i.b → after.b = i.b
  c : ¬ (roleC i.opcode).refers i.c → after.c = i.c

/-- Whether an index leads to a constant in a pool. -/
def Denotes (pool : List Constant) (index : Int) (constant : Constant) : Prop :=
  0 ≤ index ∧ pool[index.toNat]? = some constant

/-- A prototype with its constants in the order of their first use. The uses after are
    taken where the uses before were. -/
structure Rebuilt (f g : Prototype) : Prop where
  rest : List.Forall₂ KeepsRest f.instructions g.instructions
  /-- Each use leads to the constant that it led to before. -/
  denotes : List.Forall₂
    (fun k l => ∃ constant, Denotes f.constants k constant ∧ Denotes g.constants l constant)
    (uses f.instructions) (codeUsesIn f.instructions g.instructions)
  /-- Two uses are equal just if they were before. -/
  eq_iff : ∀ p ∈ (uses f.instructions).zip (codeUsesIn f.instructions g.instructions),
    ∀ q ∈ (uses f.instructions).zip (codeUsesIn f.instructions g.instructions),
      p.1 = q.1 ↔ p.2 = q.2
  used : ∀ k < g.constants.length, (k : Int) ∈ codeUsesIn f.instructions g.instructions
  /-- The uses first occur in the order of the numbers. -/
  order : (codeUsesIn f.instructions g.instructions).eraseDups =
    (List.range g.constants.length).map Int.ofNat
  read : g.constants.length + 256 ≤ twoPow 31 →
    uses g.instructions = codeUsesIn f.instructions g.instructions

/-! ## Renamed code -/

section

variable {rename : Int → Int}

theorem keepsRest_renamed (i : Instruction) : KeepsRest i (renamed rename i) where
  eq := rfl
  b h := if_neg h
  c h := if_neg h

theorem Role.usesIn_renamed {role : Role} {operand : Int32}
    (h : ∀ k ∈ role.usesIn operand operand, 0 ≤ rename k ∧ rename k ≤ maxSigned 32) :
    role.usesIn operand (role.renamed rename operand) =
      (role.usesIn operand operand).map rename := by
  rw [usesIn, usesIn] at *
  split
  · rename_i hrefers
    rw [if_pos hrefers, List.forall_mem_singleton] at h
    rw [Role.renamed, if_pos hrefers, number_operand role h.1 h.2, List.map_singleton]
  · rfl

/-- Renaming keeps which operands refer to constants, if the new indices fit in past the
    registers. -/
theorem Role.refers_renamed {role : Role} {operand : Int32}
    (h : ∀ k ∈ role.usesIn operand operand, 0 ≤ rename k ∧ rename k + 256 ≤ maxSigned 32) :
    role.refers (role.renamed rename operand) = role.refers operand := by
  cases role with
  | other => rfl
  | direct => rfl
  | mixed =>
    rw [usesIn] at h
    rw [Role.renamed]
    split
    · rename_i hrefers
      rw [if_pos hrefers, List.forall_mem_singleton] at h
      rw [maxSigned_32] at h
      -- The new operand is above the registers again and does not wrap.
      rw [hrefers, Role.operand, refers, Int32.toInt_ofInt_of_le (by omega) (by omega)]
      exact decide_eq_true (by omega)
    · rfl

theorem codeUsesIn_renamed {code : List Instruction}
    (h : ∀ k ∈ uses code, 0 ≤ rename k ∧ rename k ≤ maxSigned 32) :
    codeUsesIn code (code.map (renamed rename)) = (uses code).map rename := by
  induction code with
  | nil => rfl
  | cons i rest ih =>
    rw [uses, List.flatMap_cons, List.forall_mem_append, usesIn, List.forall_mem_append] at h
    rw [codeUsesIn, List.map_cons, List.zipWith_cons_cons, List.flatten_cons, uses,
      List.flatMap_cons, List.map_append, usesIn, usesIn, List.map_append]
    exact congrArg₂ _
      (congrArg₂ _ (Role.usesIn_renamed h.1.1) (Role.usesIn_renamed h.1.2)) (ih h.2)

/-- Whether renaming keeps which operands of an instruction refer to constants. -/
structure KeepsRefers (rename : Int → Int) (i : Instruction) : Prop where
  b : (roleB i.opcode).refers (renamed rename i).b = (roleB i.opcode).refers i.b
  c : (roleC i.opcode).refers (renamed rename i).c = (roleC i.opcode).refers i.c

theorem uses_renamed_of_keepsRefers {code : List Instruction}
    (h : ∀ i ∈ code, KeepsRefers rename i) :
    uses (code.map (renamed rename)) = codeUsesIn code (code.map (renamed rename)) := by
  induction code with
  | nil => rfl
  | cons i rest ih =>
    obtain ⟨⟨hb, hc⟩, hrest⟩ := List.forall_mem_cons.1 h
    have hi : usesIn (renamed rename i) (renamed rename i) = usesIn i (renamed rename i) := by
      rw [usesIn, usesIn, Role.usesIn, Role.usesIn, Role.usesIn, Role.usesIn, ← hb, ← hc]
      rfl
    rw [codeUsesIn, List.map_cons, List.zipWith_cons_cons, List.flatten_cons, uses,
      List.flatMap_cons, hi]
    exact congrArg _ (ih hrest)

theorem uses_renamed {code : List Instruction}
    (h : ∀ k ∈ uses code, 0 ≤ rename k ∧ rename k + 256 ≤ maxSigned 32) :
    uses (code.map (renamed rename)) = codeUsesIn code (code.map (renamed rename)) := by
  refine uses_renamed_of_keepsRefers fun i hi => ?_
  have huses (k : Int) (hk : k ∈ usesIn i i) := h k (List.mem_flatMap.2 ⟨i, hi, hk⟩)
  exact ⟨Role.refers_renamed fun k hk => huses k (List.mem_append_left _ hk),
    Role.refers_renamed fun k hk => huses k (List.mem_append_right _ hk)⟩

end

/-! ## Places -/

theorem nodup_firstUses (past : List Int) : (firstUses past).Nodup := by
  induction past using List.reverseRecOn with
  | nil => exact List.nodup_nil
  | append_singleton past index ih =>
    rw [firstUses_concat]
    split
    · exact ih
    · rename_i h
      rw [← List.concat_eq_append]
      exact ih.concat h

/-- Uses without repetitions are in the order of their first use. -/
theorem firstUses_eq_map {past : List Int} (h : (past.map Int.toNat).Nodup) :
    firstUses past = past.map Int.toNat := by
  induction past using List.reverseRecOn with
  | nil => rfl
  | append_singleton past index ih =>
    rw [List.map_append, List.map_singleton] at h ⊢
    obtain ⟨hpast, -, hnew⟩ := List.nodup_append.1 h
    rw [firstUses_concat, ih hpast, if_neg]
    exact fun hmem => hnew _ hmem _ (List.mem_singleton_self _) rfl

theorem twoPow_31 : twoPow 31 = 2147483648 := rfl

theorem place_nonneg (past : List Int) (index : Int) : 0 ≤ place past index :=
  Int.natCast_nonneg _

theorem place_lt {past : List Int} {index : Int} (h : index ∈ past) :
    place past index < (firstUses past).length :=
  Int.ofNat_lt.2 (List.idxOf_lt_length_iff.2 (mem_firstUses h))

theorem le_of_mem_uses {code : List Instruction} {index : Int} (h : index ∈ uses code) :
    index ≤ maxSigned 32 := by
  have hrole : ∀ (role : Role) (operand : Int32), index ∈ role.usesIn operand operand →
      index ≤ maxSigned 32 := by
    intro role operand h
    rw [Role.usesIn] at h
    split at h
    · rw [List.mem_singleton.1 h]
      exact role.number_le operand
    · exact absurd h List.not_mem_nil
  obtain ⟨i, -, h⟩ := List.mem_flatMap.1 h
  rcases List.mem_append.1 h with h | h
  · exact hrole _ _ h
  · exact hrole _ _ h

/-- Different indices have different places. -/
theorem place_inj {past : List Int} {k l : Int} (hk : 0 ≤ k) (hl : 0 ≤ l) (hmem : k ∈ past) :
    place past k = place past l ↔ k = l := by
  constructor
  · intro h
    have hnat := (List.idxOf_inj (mem_firstUses hmem)).1 (Int.ofNat.inj h)
    omega
  · intro h
    rw [h]

/-- There are not more first uses than indices that an operand can hold. -/
theorem length_firstUses_le (code : List Instruction) :
    (firstUses (uses code)).length ≤ twoPow 31 := by
  have hsub : firstUses (uses code) ⊆ List.range (twoPow 31) := by
    intro n hn
    obtain ⟨k, hk, rfl⟩ := mem_firstUses_iff.1 hn
    have hle := le_of_mem_uses hk
    rw [maxSigned_32] at hle
    rw [List.mem_range, twoPow_31]
    omega
  have hlength := ((nodup_firstUses (uses code)).subperm hsub).length_le
  rwa [List.length_range] at hlength

/-- A place is an index that an operand can hold. -/
theorem place_le {code : List Instruction} {index : Int} (h : index ∈ uses code) :
    place (uses code) index ≤ maxSigned 32 := by
  have hplace := place_lt h
  have hlength := length_firstUses_le code
  rw [twoPow_31] at hlength
  rw [maxSigned_32]
  omega

/-- The places, in the order of use and without repetitions, are the numbers from zero on. -/
theorem eraseDups_places (past : List Int) :
    (past.map (place past)).eraseDups =
      (List.range (firstUses past).length).map Int.ofNat := by
  induction past using List.reverseRecOn with
  | nil => rfl
  | append_singleton past index ih =>
    have hplaces : past.map (place (past ++ [index])) = past.map (place past) :=
      List.map_congr_left fun k hk => place_append hk _
    rw [List.map_append, List.map_singleton, hplaces, place_concat, eraseDups_concat,
      firstUses_concat, ih]
    -- A place is among those before just if its index was used before.
    have hmem : place past index ∈ past.map (place past) ↔ index.toNat ∈ firstUses past := by
      constructor
      · intro h
        obtain ⟨k, hk, hplace⟩ := List.mem_map.1 h
        have hk' := mem_firstUses hk
        rwa [← (List.idxOf_inj hk').1 (Int.ofNat.inj hplace)]
      · intro h
        obtain ⟨k, hk, hindex⟩ := mem_firstUses_iff.1 h
        exact List.mem_map.2 ⟨k, hk, by rw [place, place, hindex]⟩
    split
    · rename_i h
      rw [if_pos (hmem.1 h)]
    · rename_i h
      have hnew := mt hmem.2 h
      rw [if_neg hnew, List.length_append, List.length_singleton, List.range_succ,
        List.map_append, List.map_singleton, place, List.idxOf_eq_length hnew]
      rfl

/-! ## Pools -/

/-- The constants with used indices, in the order of first use. -/
def usedConstants (pool : List Constant) (past : List Int) : List Constant :=
  (firstUses past).filterMap fun k => pool[k]?

theorem denotes_getD {pool : List Constant} {index : Int} (h : InPool pool index) :
    Denotes pool index (pool.getD index.toNat .nil) := by
  obtain ⟨hpos, hlt⟩ := h
  have hlt' : index.toNat < pool.length := by omega
  refine ⟨hpos, ?_⟩
  rw [List.getD_eq_getElem?_getD, List.getElem?_eq_getElem hlt', Option.getD_some]

theorem mem_of_mem_usedConstants {pool : List Constant} {past : List Int} {constant : Constant}
    (h : constant ∈ usedConstants pool past) : constant ∈ pool := by
  obtain ⟨k, -, hk⟩ := List.mem_filterMap.1 h
  exact List.mem_of_getElem? hk

section

variable {pool : List Constant} {past : List Int} (h : ∀ k ∈ past, InPool pool k)
include h

/-- Every used index leads to a constant, and so none is left out. -/
theorem usedConstants_eq_map :
    usedConstants pool past = (firstUses past).map fun k => pool.getD k .nil := by
  refine List.filterMap_eq_map_iff_forall_eq_some.2 fun n hn => ?_
  obtain ⟨k, hk, rfl⟩ := mem_firstUses_iff.1 hn
  exact (denotes_getD (h k hk)).2

theorem length_usedConstants : (usedConstants pool past).length = (firstUses past).length := by
  rw [usedConstants_eq_map h, List.length_map]

/-- The place of an index leads to the constant that the index led to. -/
theorem denotes_place {index : Int} (hindex : index ∈ past) :
    ∃ constant, Denotes pool index constant ∧
      Denotes (usedConstants pool past) (place past index) constant := by
  have hplace := List.idxOf_lt_length_iff.2 (mem_firstUses hindex)
  refine ⟨pool.getD index.toNat .nil, denotes_getD (h index hindex), place_nonneg past index, ?_⟩
  rw [usedConstants_eq_map h, List.getElem?_map, place, Int.toNat_natCast,
    List.getElem?_eq_getElem hplace, List.getElem_idxOf, Option.map_some]

end

theorem rebuildPool_eq_ok {code : List Instruction} {pool : List Constant}
    (h : ∀ k ∈ uses code, InPool pool k) :
    rebuildPool code pool =
      .ok (code.map (renamed (place (uses code))), usedConstants pool (uses code)) := by
  have hrun := (renumbers_poolCode pool code).ok h [] []
  rw [List.nil_append, List.append_nil] at hrun
  rw [rebuildPool, show (poolCode pool code).run [] = _ from hrun]
  rfl

/-- A pool with a use that leads to none of its constants cannot be rebuilt, and the error
    names such a use. -/
theorem rebuildPool_eq_error {code : List Instruction} {pool : List Constant}
    (h : ¬ ∀ k ∈ uses code, InPool pool k) :
    ∃ k ∈ uses code, ¬ InPool pool k ∧
      rebuildPool code pool = .error (.constantOutOfRange k pool.length) := by
  push Not at h
  obtain ⟨k, hk, hout, hrun⟩ := (renumbers_poolCode pool code).error h []
  refine ⟨k, hk, hout, ?_⟩
  rw [rebuildPool, show (poolCode pool code).run [] = _ from hrun]
  rfl

theorem exists_rebuildPool_iff (code : List Instruction) (pool : List Constant) :
    (∃ body, rebuildPool code pool = .ok body) ↔ ∀ k ∈ uses code, InPool pool k := by
  constructor
  · rintro ⟨body, hbody⟩
    by_contra h
    obtain ⟨k, -, -, herror⟩ := rebuildPool_eq_error h
    cases hbody.symm.trans herror
  · intro h
    exact ⟨_, rebuildPool_eq_ok h⟩

/-- Renaming the uses of code by their places, with the used constants as the pool. -/
theorem rebuilt_of_rebuildPool {f g : Prototype}
    (h : ∀ k ∈ uses f.instructions, InPool f.constants k)
    (hg : rebuildPool f.instructions f.constants = .ok (g.instructions, g.constants)) :
    Rebuilt f g := by
  rw [rebuildPool_eq_ok h, Except.ok.injEq, Prod.mk.injEq] at hg
  obtain ⟨hcode, hpool⟩ := hg
  have hlength := length_usedConstants h
  have huses : codeUsesIn f.instructions g.instructions =
      (uses f.instructions).map (place (uses f.instructions)) := by
    rw [← hcode]
    exact codeUsesIn_renamed fun k hk => ⟨place_nonneg _ k, place_le hk⟩
  -- The uses after are the places of those before, and the rest is read off the places.
  have horder := eraseDups_places (uses f.instructions)
  rw [← huses, ← hlength, hpool] at horder
  refine ⟨?_, ?_, ?_, fun k hk => ?_, horder, fun hsmall => ?_⟩
  · rw [← hcode, List.forall₂_map_right_iff, List.forall₂_same]
    exact fun i _ => keepsRest_renamed i
  · rw [huses, List.forall₂_map_right_iff, List.forall₂_same, ← hpool]
    exact fun k hk => denotes_place h hk
  · rw [huses, ← List.map_prod_left_eq_zip]
    intro p hp q hq
    obtain ⟨k, hk, rfl⟩ := List.mem_map.1 hp
    obtain ⟨l, hl, rfl⟩ := List.mem_map.1 hq
    exact (place_inj (h k hk).1 (h l hl).1 hk).symm
  · rw [← List.mem_eraseDups, horder]
    exact List.mem_map.2 ⟨k, List.mem_range.2 hk, rfl⟩
  · rw [← hcode]
    refine uses_renamed fun k hk => ⟨place_nonneg _ k, ?_⟩
    have hplace := place_lt hk
    rw [← hpool, hlength, twoPow_31] at hsmall
    rw [maxSigned_32]
    omega

/-! ## Programs -/

theorem runStep_rebuildPools_fst (root : Prototype) :
    (rebuildPools root).runStep.1 = root.mapBody rebuildPool := by
  refine Prototype.run_mapBody_fst (fun code pool log => ?_) root []
  cases rebuildPool code pool <;> rfl

theorem rebuildPools_eq_ok_of_functions_eq_nil {f : Prototype} (hnone : f.functions = [])
    (hpool : ∀ k ∈ uses f.instructions, InPool f.constants k) :
    (rebuildPools f).runStep.1 = .ok { f with
      instructions := f.instructions.map (renamed (place (uses f.instructions)))
      constants := usedConstants f.constants (uses f.instructions) } := by
  rw [runStep_rebuildPools_fst, Prototype.mapBody_eq_ok_iff]
  refine ⟨rebuildPool_eq_ok hpool, ?_, rfl⟩
  simp only [hnone]
  rfl

/-- Rebuilding the constant pools of a program fails just if a use in some prototype leads
    to no constant of that prototype, and otherwise rebuilds every prototype. -/
theorem rebuildPools_rebuilt (root : Prototype) :
    ((∃ index length,
        (rebuildPools root).runStep.1 = .error (.constantOutOfRange index length)) ↔
      ∃ f ∈ root.all, ∃ k ∈ uses f.instructions, ¬ InPool f.constants k) ∧
    ((∀ f ∈ root.all, ∀ k ∈ uses f.instructions, InPool f.constants k) →
      ∃ out, (rebuildPools root).runStep.1 = .ok out ∧
        List.Forall₂ Rebuilt root.all out.all) := by
  have hok : (∃ out, root.mapBody rebuildPool = .ok out) ↔
      ∀ f ∈ root.all, ∀ k ∈ uses f.instructions, InPool f.constants k := by
    simp only [Prototype.exists_mapBody_eq_ok_iff, exists_rebuildPool_iff]
  rw [runStep_rebuildPools_fst]
  refine ⟨⟨?_, ?_⟩, ?_⟩
  · rintro ⟨index, length, herror⟩
    by_contra h
    push Not at h
    obtain ⟨out, hout⟩ := hok.2 h
    cases hout.symm.trans herror
  · rintro ⟨f, hf, k, hk, hout⟩
    -- The failure is that of some prototype, which need not be this one.
    cases hresult : root.mapBody rebuildPool with
    | ok out => exact absurd (hok.1 ⟨out, hresult⟩ f hf k hk) hout
    | error e =>
      obtain ⟨g, -, herror⟩ := Prototype.exists_of_mapBody_eq_error hresult
      have hg : ¬ ∀ k ∈ uses g.instructions, InPool g.constants k := by
        intro h
        cases herror.symm.trans (rebuildPool_eq_ok h)
      obtain ⟨index, -, -, herror'⟩ := rebuildPool_eq_error hg
      rw [Except.error.inj (herror.symm.trans herror')]
      exact ⟨index, g.constants.length, rfl⟩
  · intro h
    obtain ⟨out, hout⟩ := hok.2 h
    refine ⟨out, hout, ?_⟩
    refine (List.forall₂_and_left _ _ |>.2 ⟨h, Prototype.forall₂_all_of_mapBody hout⟩).imp ?_
    rintro f g ⟨hpool, hbody⟩
    exact rebuilt_of_rebuildPool hpool hbody

/-- A program with a constant that it does not use and one that it uses in both ways, and
    a prototype in it that has a pool of its own. -/
def pooledProgram : Prototype where
  constants := [.string "unused", .string "print", .number 0x4000000000000000]
  instructions := [
    .ofOpcode 0 .getGlobal 0 1 0,
    .ofOpcode 1 .add 1 0 258,
    .ofOpcode 2 .loadK 2 2 0]
  functions := [{
    constants := [.nil, .boolean true]
    instructions := [.ofOpcode 0 .setTable 0 257 256, .ofOpcode 1 .self 0 1 257] }]

theorem rebuildPools_pooledProgram :
    (∀ f ∈ pooledProgram.all, ∀ k ∈ uses f.instructions, InPool f.constants k) ∧
      ∃ out, (rebuildPools pooledProgram).runStep.1 = .ok out ∧
        List.Forall₂ Rebuilt pooledProgram.all out.all :=
  have h : ∀ f ∈ pooledProgram.all, ∀ k ∈ uses f.instructions, InPool f.constants k := by decide
  ⟨h, (rebuildPools_rebuilt pooledProgram).2 h⟩

end LuaUnpack.Recover
