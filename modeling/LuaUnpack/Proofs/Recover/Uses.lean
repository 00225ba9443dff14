import LuaUnpack.Recover.Pool
import LuaUnpack.Width
import LuaUnpack.Proofs.Dict
import LuaUnpack.Proofs.Outcome
import Mathlib.Data.List.Nodup
import Mathlib.Data.List.Perm.Subperm

/-!
# Uses of constants

Operands refer to constants in one of two ways (`Role`): some are indices of constants,
and some are registers or, past a mark, indices. The `uses` of code are the indices to
which it refers, in the order of its instructions and `b` before `c`.

Renumbering is told here without the list that the pass keeps: after the uses `past`
that list is `firstUses past`, the uses without repetitions. A computation `Renumbers`
uses if it goes on from any such list to the one with these uses added, and gives its
result with every index replaced by its place, or fails on a use that leads to no
constant. Computations that renumber are put together by `Renumbers.bind`.
-/

namespace LuaUnpack.Recover

open LuaUnpack.Chunk

/-! ## Reading uses -/

/-- How an operand can refer to a constant: not at all, as its index, or as its index
    past the registers. -/
inductive Role where
  | other | direct | mixed
deriving DecidableEq

/-- The role of the operand `b` of an operation. -/
def roleB : Opcode → Role
  | .loadK | .getGlobal | .setGlobal => .direct
  | .setTable | .eq | .lt | .le | .add | .sub | .mul | .div | .mod | .pow => .mixed
  | _ => .other

/-- The role of the operand `c` of an operation. -/
def roleC : Opcode → Role
  | .getTable | .self => .mixed
  | .setTable | .eq | .lt | .le | .add | .sub | .mul | .div | .mod | .pow => .mixed
  | _ => .other

theorem maxSigned_32 : maxSigned 32 = 2147483647 := rfl

namespace Role

/-- Whether an operand refers to a constant. -/
def refers : Role → Int32 → Bool
  | other, _ => false
  | direct, _ => true
  | mixed, operand => 256 ≤ operand.toInt

/-- The index in an operand that refers to a constant. -/
def number : Role → Int32 → Int
  | mixed, operand => (operand - 256).toInt
  | _, operand => operand.toInt

/-- The operand that refers to the constant with an index. -/
def operand : Role → Int → Int32
  | mixed, index => Int32.ofInt (index + 256)
  | _, index => Int32.ofInt index

theorem number_operand (role : Role) {index : Int} (hpos : 0 ≤ index)
    (hle : index ≤ maxSigned 32) : role.number (role.operand index) = index := by
  rw [maxSigned_32] at hle
  have hindex : (Int32.ofInt index).toInt = index :=
    Int32.toInt_ofInt_of_le (by omega) (by omega)
  cases role with
  | other => exact hindex
  | direct => exact hindex
  | mixed =>
    have hsub : Int32.ofInt (index + 256) - 256 = Int32.ofInt index := by
      rw [Int32.ofInt_add]
      exact Int32.add_sub_cancel _ _
    rw [operand, number, hsub, hindex]

/-- An index in a mixed operand is exact, because the operand is not below the mark. -/
theorem number_mixed {operand : Int32} (h : mixed.refers operand) :
    mixed.number operand = operand.toInt - constantMark := by
  have hmark : 256 ≤ operand.toInt := of_decide_eq_true h
  have hlt := operand.toInt_lt
  have h256 : (256 : Int32).toInt = 256 := by decide
  rw [number, Int32.toInt_sub, h256, constantMark]
  exact Int.bmod_eq_of_le (by omega) (by omega)

theorem number_le (role : Role) (operand : Int32) : role.number operand ≤ maxSigned 32 := by
  have h (x : Int32) : x.toInt ≤ maxSigned 32 := by
    have := x.toInt_lt
    rw [maxSigned_32]
    omega
  cases role <;> exact h _

/-- The use of an operand, if it has one, as it is in the operand `after`. -/
def usesIn (role : Role) (operand after : Int32) : List Int :=
  if role.refers operand then [role.number after] else []

end Role

/-- The uses of an instruction as they are in another one: the indices in `after` where
    `i` refers to constants. -/
def usesIn (i after : Instruction) : List Int :=
  (roleB i.opcode).usesIn i.b after.b ++ (roleC i.opcode).usesIn i.c after.c

/-- The uses of code as they are in other code of the same length. -/
def codeUsesIn (code after : List Instruction) : List Int :=
  (List.zipWith usesIn code after).flatten

/-- The indices to which code refers, in the order of its instructions. -/
def uses (code : List Instruction) : List Int := code.flatMap fun i => usesIn i i

/-- Whether there is a constant with an index. -/
def InPool (pool : List Constant) (index : Int) : Prop := 0 ≤ index ∧ index < pool.length

instance (pool : List Constant) (index : Int) : Decidable (InPool pool index) :=
  inferInstanceAs (Decidable (_ ∧ _))

/-! ## Renumbered code -/

section

variable (rename : Int → Int)

/-- An operand with its use renamed. -/
def Role.renamed (role : Role) (operand : Int32) : Int32 :=
  if role.refers operand then role.operand (rename (role.number operand)) else operand

/-- An instruction with its uses renamed. -/
def renamed (i : Instruction) : Instruction :=
  { i with b := (roleB i.opcode).renamed rename i.b, c := (roleC i.opcode).renamed rename i.c }

end

/-- The old indices in the order of their first use. -/
def firstUses (uses : List Int) : Used := (uses.map Int.toNat).eraseDups

/-- The place of an index in the order of first use. -/
def place (uses : List Int) (index : Int) : Int :=
  ((firstUses uses).idxOf index.toNat : Nat)

theorem firstUses_concat (past : List Int) (index : Int) :
    firstUses (past ++ [index]) =
      if index.toNat ∈ firstUses past then firstUses past
      else firstUses past ++ [index.toNat] := by
  rw [firstUses, List.map_append, List.map_singleton, eraseDups_concat]
  simp only [firstUses, List.mem_eraseDups]

theorem mem_firstUses_iff {uses : List Int} {n : Nat} :
    n ∈ firstUses uses ↔ ∃ index ∈ uses, index.toNat = n := by
  rw [firstUses, List.mem_eraseDups, List.mem_map]

theorem mem_firstUses {uses : List Int} {index : Int} (h : index ∈ uses) :
    index.toNat ∈ firstUses uses :=
  mem_firstUses_iff.2 ⟨index, h, rfl⟩

/-- A place does not change when more uses follow. -/
theorem place_append {past : List Int} {index : Int} (h : index ∈ past) (future : List Int) :
    place (past ++ future) index = place past index := by
  rw [place, firstUses, List.map_append, List.eraseDups_append]
  exact congrArg Nat.cast (List.idxOf_append_of_mem (mem_firstUses h))

/-- The place of an index is known before it is used: an old one keeps its place, and a new
    one gets the next. -/
theorem place_concat (past : List Int) (index : Int) :
    place (past ++ [index]) index = place past index := by
  rw [place, firstUses_concat, place]
  split
  · rfl
  · rename_i h
    rw [List.idxOf_append, if_neg h, List.idxOf_eq_length h]
    simp

/-! ## Computations that renumber -/

section

variable {α β : Type} (pool : List Constant)

/-- What a computation does with uses: if all of them lead to constants, it gives its
    result with the places as new indices, whatever uses follow, and otherwise it fails
    on one that does not. -/
structure Renumbers (step : Pooling α) (used : List Int) (result : (Int → Int) → α) : Prop where
  ok : (∀ r ∈ used, InPool pool r) → ∀ past future,
    step.run (firstUses past) =
      .ok (result (place (past ++ used ++ future)), firstUses (past ++ used))
  error : (∃ r ∈ used, ¬ InPool pool r) → ∀ past, ∃ r ∈ used, ¬ InPool pool r ∧
    step.run (firstUses past) = .error (.constantOutOfRange r pool.length)

variable {pool}

theorem renumbers_pure (a : α) : Renumbers pool (pure a) [] fun _ => a := by
  refine ⟨fun _ past future => ?_, ?_⟩
  · rw [List.append_nil]
    rfl
  · rintro ⟨r, hr, -⟩
    exact absurd hr List.not_mem_nil

/-- One computation after the other renumbers the uses of both. -/
theorem Renumbers.bind {step : Pooling α} {next : α → Pooling β} {used more : List Int}
    {result : (Int → Int) → α} {final : α → (Int → Int) → β}
    (hstep : Renumbers pool step used result)
    (hnext : ∀ a, Renumbers pool (next a) more (final a)) :
    Renumbers pool (step >>= next) (used ++ more) fun rename =>
      final (result rename) rename := by
  refine ⟨fun hpool past future => ?_, fun hout past => ?_⟩
  · rw [List.forall_mem_append] at hpool
    -- For the first computation, the uses of the second one are yet to come.
    have h := hstep.ok hpool.1 past (more ++ future)
    have h' := (hnext (result (place (past ++ used ++ (more ++ future))))).ok hpool.2
      (past ++ used) future
    simp only [List.append_assoc] at h h' ⊢
    rw [StateT.run_bind, h]
    exact h'
  · by_cases hpool : ∀ r ∈ used, InPool pool r
    · obtain ⟨r, hr, hrout⟩ := hout
      have hmore : r ∈ more :=
        (List.mem_append.1 hr).resolve_left fun hr => hrout (hpool r hr)
      have h := hstep.ok hpool past []
      obtain ⟨r, hr, hrout, h'⟩ := (hnext _).error ⟨r, hmore, hrout⟩ (past ++ used)
      refine ⟨r, List.mem_append_right _ hr, hrout, ?_⟩
      rw [StateT.run_bind, h]
      exact h'
    · push Not at hpool
      obtain ⟨r, hr, hrout, h⟩ := hstep.error hpool past
      refine ⟨r, List.mem_append_left _ hr, hrout, ?_⟩
      rw [StateT.run_bind, h]
      rfl

theorem Renumbers.map {step : Pooling α} {used : List Int} {result : (Int → Int) → α}
    (h : Renumbers pool step used result) (f : α → β) :
    Renumbers pool (step >>= fun a => pure (f a)) used fun rename => f (result rename) := by
  have := h.bind fun a => renumbers_pure (f a)
  rwa [List.append_nil] at this

end

/-! ## The pass -/

variable (pool : List Constant)

theorem run_newIndex (index : Int) (used : Used) :
    (newIndex pool index).run used =
      if InPool pool index then
        .ok ((used.idxOf index.toNat : Nat),
          if index.toNat ∈ used then used else used ++ [index.toNat])
      else .error (.constantOutOfRange index pool.length) := by
  simp only [newIndex, StateT.run_bind, StateT.run_get, pure_bind]
  by_cases hpool : InPool pool index
  · rw [if_pos hpool, if_pos (show _ ∧ _ from hpool), List.idxOf_eq_getD_idxOf?]
    -- An index that was used before keeps its place, a new one comes last.
    cases hfound : used.idxOf? index.toNat with
    | some k =>
      have hmem : index.toNat ∈ used :=
        List.isSome_idxOf?.1 (Option.isSome_iff_exists.2 ⟨k, hfound⟩)
      rw [if_pos hmem]
      rfl
    | none =>
      rw [if_neg (List.idxOf?_eq_none_iff.1 hfound)]
      rfl
  · rw [if_neg hpool, if_neg (show ¬ (_ ∧ _) from hpool)]
    rfl

/-- A new index is the place of the old one, if there is such a constant. -/
theorem renumbers_newIndex (index : Int) :
    Renumbers pool (newIndex pool index) [index] fun rename => rename index := by
  refine ⟨fun hpool past future => ?_, ?_⟩
  · rw [run_newIndex, if_pos (hpool index (List.mem_singleton_self _)),
      place_append (List.mem_append_right _ (List.mem_singleton_self _)), place_concat,
      firstUses_concat]
    rfl
  · rintro ⟨r, hr, hout⟩ past
    obtain rfl := List.mem_singleton.1 hr
    exact ⟨r, hr, hout, by rw [run_newIndex, if_neg hout]⟩

/-- The renumbering of an operand with a role. -/
def poolOperand : Role → Int32 → Pooling Int32
  | .other, operand => pure operand
  | .direct, operand => constantOperand pool operand
  | .mixed, operand => mixedOperand pool operand

theorem renumbers_poolOperand (role : Role) (operand : Int32) :
    Renumbers pool (poolOperand pool role operand)
      (role.usesIn operand operand) fun rename => role.renamed rename operand := by
  cases role with
  | other => exact renumbers_pure operand
  | direct => exact (renumbers_newIndex pool operand.toInt).map Int32.ofInt
  | mixed =>
    by_cases h : Role.mixed.refers operand
    · have hmark : constantMark ≤ operand.toInt := of_decide_eq_true h
      simp only [poolOperand, mixedOperand, Role.usesIn, Role.renamed, if_pos hmark, if_pos h,
        Role.number_mixed h]
      exact (renumbers_newIndex pool _).map fun k => Int32.ofInt (k + constantMark)
    · have hmark : ¬ constantMark ≤ operand.toInt := fun hmark => h (decide_eq_true hmark)
      simp only [poolOperand, mixedOperand, Role.usesIn, Role.renamed, if_neg hmark, if_neg h]
      exact renumbers_pure operand

/-- An instruction is renumbered operand by operand, each by its role. -/
theorem poolInstruction_eq (i : Instruction) :
    poolInstruction pool i = do
      let b ← poolOperand pool (roleB i.opcode) i.b
      let c ← poolOperand pool (roleC i.opcode) i.c
      return { i with b, c } := by
  obtain ⟨id, opnum, opcode, a, b, c, flags, pc⟩ := i
  cases opcode <;> simp [poolInstruction, poolOperand, roleB, roleC]

theorem renumbers_poolInstruction (i : Instruction) :
    Renumbers pool (poolInstruction pool i) (usesIn i i) fun rename => renamed rename i := by
  rw [poolInstruction_eq]
  exact (renumbers_poolOperand pool _ i.b).bind fun b =>
    (renumbers_poolOperand pool _ i.c).map fun c => { i with b, c }

theorem renumbers_poolCode (code : List Instruction) :
    Renumbers pool (poolCode pool code) (uses code) fun rename =>
      code.map (renamed rename) := by
  induction code with
  | nil => exact renumbers_pure []
  | cons i rest ih => exact (renumbers_poolInstruction pool i).bind fun i => ih.map (i :: ·)

end LuaUnpack.Recover
