import LuaUnpack.Recover.Entry
import LuaUnpack.Proofs.Chunk.Records
import Mathlib.Data.List.Forall2
import Mathlib.Data.List.TakeWhile

/-!
# Programs without their entry check

Removing the entry check takes away the code up to the return that ends the entry
(`LeftAfterEntry`), and with it the prototypes to which no closure of the code that is left
refers. Those that stay keep their order, so that the new index of one is the number of those
before it. Every closure refers to the same prototype as before, or to none as before
(`KeepsUsed`).
-/

namespace LuaUnpack.Recover

open LuaUnpack.Chunk

/-! ## The entry -/

/-- Whether an instruction compares something with a text constant that starts with the
    marker. -/
def ComparesWith (marker : String) (root : Prototype) (i : Instruction) : Prop :=
  i.opcode = .eq ∧ 255 < i.c.toInt ∧ ∃ text,
    root.constants[(i.c.toInt - 256).toNat]? = some (.string text) ∧ marker.toList <+: text.toList

/-- Whether code is what is left of a program without its entry: what comes after the first
    return at or after the first comparison with the marker, and everything if there is no such
    return. -/
inductive LeftAfterEntry (marker : String) (root : Prototype) : List Instruction → Prop
  | cut {before entry rest : List Instruction} {check ret : Instruction}
      (hcode : root.instructions = before ++ check :: (entry ++ ret :: rest))
      (hbefore : ∀ i ∈ before, ¬ComparesWith marker root i)
      (hcheck : ComparesWith marker root check) (hentry : ∀ i ∈ entry, i.opcode ≠ .ret)
      (hret : ret.opcode = .ret) : LeftAfterEntry marker root rest
  | whole {before after : List Instruction} {check : Instruction}
      (hcode : root.instructions = before ++ check :: after)
      (hbefore : ∀ i ∈ before, ¬ComparesWith marker root i)
      (hcheck : ComparesWith marker root check) (hafter : ∀ i ∈ after, i.opcode ≠ .ret) :
      LeftAfterEntry marker root root.instructions

section

variable {marker : String} {root : Prototype} {i : Instruction} {code rest : List Instruction}

theorem asString?_eq_some_iff {constant : Constant} {text : String} :
    constant.asString? = some text ↔ constant = .string text := by
  cases constant <;> simp [Constant.asString?]

theorem isCheck_iff : isCheck root marker i = true ↔ ComparesWith marker root i := by
  simp only [isCheck, Bool.and_eq_true, beq_iff_eq, decide_eq_true_eq, Option.any_eq_true,
    List.isPrefixOf_iff_prefix, Option.bind_eq_some_iff, asString?_eq_some_iff, and_assoc]
  refine and_congr_right fun _ => and_congr_right fun hc => exists_congr fun text => ?_
  have hlt := i.c.toInt_lt
  have hindex : (i.c - 256).toInt = i.c.toInt - 256 := by
    rw [Int32.toInt_sub, show (256 : Int32).toInt = 256 from rfl,
      Int.bmod_eq_of_le (by omega) (by omega)]
  have hnonneg : ¬i.c.toInt - 256 < 0 := by omega
  simp [Prototype.constant?, hindex, hnonneg]

theorem afterReturn?_eq_none (h : afterReturn? code = none) : ∀ i ∈ code, i.opcode ≠ .ret := by
  induction code with
  | nil => simp
  | cons j code ih =>
    rw [afterReturn?] at h
    split at h
    · simp at h
    · next hj => exact List.forall_mem_cons.2 ⟨by simpa using hj, ih h⟩

theorem exists_of_afterReturn? (h : afterReturn? code = some rest) :
    ∃ entry ret, code = entry ++ ret :: rest ∧ (∀ i ∈ entry, i.opcode ≠ .ret) ∧
      ret.opcode = .ret := by
  induction code with
  | nil => simp [afterReturn?] at h
  | cons j code ih =>
    rw [afterReturn?] at h
    split at h
    · next hj =>
      obtain rfl := Option.some.inj h
      exact ⟨[], j, rfl, by simp, by simpa using hj⟩
    · next hj =>
      obtain ⟨entry, ret, rfl, hentry, hret⟩ := ih h
      exact ⟨j :: entry, ret, rfl, List.forall_mem_cons.2 ⟨by simpa using hj, hentry⟩, hret⟩

/-- The code that is left of a program with a comparison. -/
theorem leftAfterEntry_afterReturn? {before after : List Instruction} {check : Instruction}
    (hcode : root.instructions = before ++ check :: after)
    (hbefore : ∀ i ∈ before, ¬ComparesWith marker root i)
    (hcheck : ComparesWith marker root check) :
    LeftAfterEntry marker root ((afterReturn? (check :: after)).getD root.instructions) := by
  have hop : (check.opcode == .ret) = false := by simp [hcheck.1]
  rw [afterReturn?, hop, if_neg Bool.false_ne_true]
  cases h : afterReturn? after with
  | none => exact .whole hcode hbefore hcheck (afterReturn?_eq_none h)
  | some rest =>
    obtain ⟨entry, ret, rfl, hentry, hret⟩ := exists_of_afterReturn? h
    exact .cut hcode hbefore hcheck hentry hret

end

/-! ## Prototypes that stay -/

/-- The prototype at an index. -/
def function? (root : Prototype) (index : Int32) : Option Prototype :=
  if index.toInt < 0 then none else root.functions[index.toInt.toNat]?

/-- Whether an instruction has become another one when prototypes went away and those at the
    kept indices stayed. Only the prototype of a closure has another index; it is the same one,
    and a closure without one is left alone. -/
structure Renumbered (root out : Prototype) (kept : List Nat) (i i' : Instruction) : Prop where
  same : i' = { i with b := i'.b }
  other : i.opcode ≠ .closure → i'.b = i.b
  place : i.opcode = .closure → (function? root i.b).isSome →
    0 ≤ i'.b.toInt ∧ kept[i'.b.toInt.toNat]? = some i.b.toInt.toNat
  function : i.opcode = .closure → function? out i'.b = function? root i.b
  missing : i.opcode = .closure → function? root i.b = none → i'.b = i.b

/-- Whether a program is another one with other code, and with those of its prototypes, at the
    kept indices, to which closures of that code refer. -/
structure KeepsUsed (root : Prototype) (code : List Instruction) (kept : List Nat)
    (out : Prototype) : Prop where
  others : out = { root with instructions := out.instructions, functions := out.functions }
  ascending : kept.Pairwise (· < ·)
  mem_kept : ∀ k, k ∈ kept ↔
    k < root.functions.length ∧ ∃ i ∈ code, i.opcode = .closure ∧ i.b.toInt = k
  functions : out.functions.map some = kept.map fun k => root.functions[k]?
  instructions : List.Forall₂ (Renumbered root out kept) code out.instructions

theorem mem_keptIndices_iff {code : List Instruction} {count k : Nat} :
    k ∈ keptIndices code count ↔ k < count ∧ ∃ i ∈ code, i.opcode = .closure ∧ i.b.toInt = k := by
  simp [keptIndices, usedFunctions, and_assoc]

theorem ascending_keptIndices (code : List Instruction) (count : Nat) :
    (keptIndices code count).Pairwise (· < ·) :=
  List.pairwise_lt_range.filter _

theorem map_some_functions {kept : List Nat} {functions : List Prototype}
    (h : ∀ k ∈ kept, k < functions.length) :
    (kept.filterMap fun k => functions[k]?).map some = kept.map fun k => functions[k]? := by
  induction kept with
  | nil => rfl
  | cons k kept ih =>
    obtain ⟨hk, hkept⟩ := List.forall_mem_cons.1 h
    simp [List.getElem?_eq_getElem hk, ih hkept]

/-! ## Closures -/

section

variable {root out : Prototype} {kept : List Nat} {i : Instruction} {k : Nat}

theorem function?_of_toInt {index : Int32} (h : index.toInt = k) :
    function? root index = root.functions[k]? := by
  rw [function?, h, if_neg (by omega), Int.toNat_natCast]

/-- An index that refers to no prototype is negative or too large. -/
theorem function?_eq_none_iff {index : Int32} :
    function? root index = none ↔ ∀ k < root.functions.length, index.toInt ≠ k := by
  by_cases hneg : index.toInt < 0
  · have hne (k : Nat) : index.toInt ≠ k := by omega
    simp [function?, hneg, hne]
  · obtain ⟨n, hn⟩ := Int.eq_ofNat_of_zero_le (Int.not_lt.1 hneg)
    rw [function?_of_toInt hn, List.getElem?_eq_none_iff, hn]
    refine ⟨fun hle k hk => by omega, fun h => ?_⟩
    by_contra hlt
    exact h n (Nat.lt_of_not_le hlt) rfl

/-- An ascending list has no number before its own place. -/
theorem le_of_ascending (hascending : kept.Pairwise (· < ·)) {n : Nat} (h : kept[n]? = some k) :
    n ≤ k := by
  have hlt := (List.getElem?_eq_some_iff.1 h).1
  have hfirst : kept[0]? = some kept[0] := List.getElem?_eq_getElem (by omega)
  have hle := (add_le_of_ascending hascending hfirst ((Nat.zero_add n).symm ▸ h)).1
  omega

/-- The new index of a prototype that stays is not larger than its old one, so that it fits into
    the operand. -/
theorem exists_renumber_eq (hascending : kept.Pairwise (· < ·)) (hop : i.opcode = .closure)
    (hb : i.b.toInt = k) (hk : k ∈ kept) :
    ∃ n, kept[n]? = some k ∧ renumber kept i = { i with b := Int32.ofNat n } ∧
      (Int32.ofNat n).toInt = n := by
  obtain ⟨n, hn⟩ := Option.isSome_iff_exists.1 (List.isSome_idxOf?.2 hk)
  obtain ⟨hlt, hget, -⟩ := List.idxOf?_eq_some_iff.1 hn
  have hkept : kept[n]? = some k := List.getElem?_eq_some_iff.2 ⟨hlt, hget⟩
  refine ⟨n, hkept, ?_, Int32.toInt_ofNat_of_lt ?_⟩
  · simp [renumber, hop, hb, hn]
  · have hle := le_of_ascending hascending hkept
    have hlt' := i.b.toInt_lt
    omega

theorem renumber_eq_self (h : i.opcode = .closure → ∀ k ∈ kept, i.b.toInt ≠ k) :
    renumber kept i = i := by
  rw [renumber]
  split
  · next hclosure =>
    rw [Bool.and_eq_true, beq_iff_eq, decide_eq_true_eq] at hclosure
    have hnone : kept.idxOf? i.b.toInt.toNat = none :=
      List.idxOf?_eq_none_iff.2 fun hmem => h hclosure.1 _ hmem (by omega)
    rw [hnone]
  · rfl

section

variable (hascending : kept.Pairwise (· < ·)) (hkept : ∀ k ∈ kept, k < root.functions.length)
  (hfunctions : out.functions.map some = kept.map fun k => root.functions[k]?)
include hascending hkept hfunctions

/-- A closure without a prototype has none afterwards, as no more prototypes stay than there
    were. -/
theorem function?_eq_none_of_kept (hmissing : function? root i.b = none) :
    function? out i.b = none := by
  rw [function?_eq_none_iff] at hmissing ⊢
  intro k hk
  have hlength : out.functions.length = kept.length := by
    simpa using congrArg List.length hfunctions
  have hget : kept[k]? = some kept[k] := List.getElem?_eq_getElem (hlength ▸ hk)
  have hle := le_of_ascending hascending hget
  exact hmissing k (Nat.lt_of_le_of_lt hle (hkept _ (List.mem_of_getElem? hget)))

/-- Renumbering is right if the prototype of every closure stays. -/
theorem renumbered_renumber
    (huses : i.opcode = .closure → ∀ k < root.functions.length, i.b.toInt = k → k ∈ kept) :
    Renumbered root out kept i (renumber kept i) := by
  by_cases hop : i.opcode = .closure
  · by_cases hmissing : function? root i.b = none
    · have hout := function?_eq_none_of_kept hascending hkept hfunctions hmissing
      rw [renumber_eq_self fun _ k hk => function?_eq_none_iff.1 hmissing k (hkept k hk)]
      exact ⟨rfl, fun _ => rfl, by simp [hmissing], fun _ => hout.trans hmissing.symm,
        fun _ _ => rfl⟩
    · -- The prototype stays, and its new index is its place among those that do.
      rw [function?_eq_none_iff] at hmissing
      push Not at hmissing
      obtain ⟨k, hlt, hk⟩ := hmissing
      obtain ⟨n, hn, heq, hvalue⟩ := exists_renumber_eq hascending hop hk (huses hop k hlt hk)
      have hplace : out.functions[n]? = root.functions[k]? := by
        have hsome := congrArg (·[n]?) hfunctions
        simp only [List.getElem?_map, hn, Option.map_some] at hsome
        simpa [List.getElem?_eq_getElem hlt] using hsome
      have hfound : function? root i.b = root.functions[k]? := function?_of_toInt hk
      rw [heq]
      refine ⟨rfl, fun h => absurd hop h, fun _ _ => ?_, fun _ => ?_, fun _ hnone => ?_⟩
      · simp [hvalue, hk, hn]
      · rw [function?_of_toInt hvalue, hplace, hfound]
      · rw [hfound, List.getElem?_eq_getElem hlt] at hnone
        simp at hnone
  · have hself : renumber kept i = i := renumber_eq_self fun h => absurd h hop
    rw [hself]
    exact ⟨rfl, fun _ => rfl, fun h => absurd h hop, fun h => absurd h hop, fun h => absurd h hop⟩

end

end

/-! ## Programs -/

theorem keepsUsed_dropUnused (root : Prototype) (code : List Instruction) :
    KeepsUsed root code (keptIndices code root.functions.length)
      (dropUnused { root with instructions := code }) := by
  have hkept : ∀ k ∈ keptIndices code root.functions.length, k < root.functions.length :=
    fun k hk => (mem_keptIndices_iff.1 hk).1
  have hfunctions := map_some_functions hkept
  refine ⟨rfl, ascending_keptIndices _ _, fun k => mem_keptIndices_iff, hfunctions, ?_⟩
  rw [dropUnused, List.forall₂_map_right_iff, List.forall₂_same]
  intro i hi
  exact renumbered_renumber (ascending_keptIndices _ _) hkept hfunctions fun hop k hlt hk =>
    mem_keptIndices_iff.2 ⟨hlt, i, hi, hop, hk⟩

/-- The code of a program either has no comparison with the marker, or it is searched up to the
    first one. -/
theorem dropWhile_isCheck_cases (marker : String) (root : Prototype) :
    (root.instructions.dropWhile (!isCheck root marker ·) = [] ∧
      ∀ i ∈ root.instructions, ¬ComparesWith marker root i) ∨
    ∃ before check after, root.instructions.dropWhile (!isCheck root marker ·) = check :: after ∧
      root.instructions = before ++ check :: after ∧
      (∀ i ∈ before, ¬ComparesWith marker root i) ∧ ComparesWith marker root check := by
  have hsplit := List.takeWhile_append_dropWhile
    (p := (!isCheck root marker ·)) (l := root.instructions)
  have hbefore : ∀ i ∈ root.instructions.takeWhile (!isCheck root marker ·),
      ¬ComparesWith marker root i := fun i hi => by
    rw [← isCheck_iff]
    simpa using List.mem_takeWhile_imp hi
  -- The search stops at the first check or not at all.
  cases hdrop : root.instructions.dropWhile (!isCheck root marker ·) with
  | nil =>
    rw [hdrop, List.append_nil] at hsplit
    exact .inl ⟨rfl, hsplit ▸ hbefore⟩
  | cons check after =>
    have hcheck := List.head?_dropWhile_not (!isCheck root marker ·) root.instructions
    rw [hdrop] at hcheck hsplit
    exact .inr ⟨_, check, after, rfl, hsplit.symm, hbefore, isCheck_iff.1 (by simpa using hcheck)⟩

/-- A program without a comparison with the marker is left as it is. One with a comparison loses
    its entry and the prototypes that are not used without it, and all closures that are left
    refer to the same prototypes as before. -/
theorem trimEntry_keepsUsed (marker : String) (root : Prototype) :
    ((∀ i ∈ root.instructions, ¬ComparesWith marker root i) → trimEntry marker root = root) ∧
    ((∃ i ∈ root.instructions, ComparesWith marker root i) → ∃ code kept,
      LeftAfterEntry marker root code ∧ KeepsUsed root code kept (trimEntry marker root)) := by
  rw [trimEntry]
  rcases dropWhile_isCheck_cases marker root with
    ⟨hdrop, hnone⟩ | ⟨before, check, after, hdrop, hcode, hbefore, hcheck⟩
  · rw [hdrop]
    exact ⟨fun _ => rfl, fun ⟨i, hi, h⟩ => absurd h (hnone i hi)⟩
  · rw [hdrop]
    have hmem : check ∈ root.instructions := by simp [hcode]
    exact ⟨fun h => absurd hcheck (h check hmem), fun _ => ⟨_, _,
      leftAfterEntry_afterReturn? hcode hbefore hcheck, keepsUsed_dropUnused root _⟩⟩

/-- A program with an entry that uses the second of four prototypes, and code that uses the
    fourth twice, the first, one that is missing and a negative index. -/
def guardedProgram : Prototype where
  instructions := [
    .ofOpcode 0 .closure 0 1 0,
    .ofOpcode 1 .eq 0 0 256,
    .ofOpcode 2 .ret 0 1 0,
    .ofOpcode 3 .closure 0 3 0,
    .ofOpcode 4 .closure 1 0 0,
    .ofOpcode 5 .closure 2 3 0,
    .ofOpcode 6 .closure 3 4 0,
    .ofOpcode 7 .closure 4 (-1) 0,
    .ofOpcode 8 .move 0 3 0]
  constants := [.string "marked text"]
  functions := [{ name := "a" }, { name := "b" }, { name := "c" }, { name := "d" }]

theorem trimEntry_guardedProgram :
    (∃ i ∈ guardedProgram.instructions, ComparesWith "marked" guardedProgram i) ∧
    ∃ code kept, LeftAfterEntry "marked" guardedProgram code ∧
      KeepsUsed guardedProgram code kept (trimEntry "marked" guardedProgram) := by
  have hcheck : ∃ i ∈ guardedProgram.instructions, ComparesWith "marked" guardedProgram i :=
    ⟨.ofOpcode 1 .eq 0 0 256, by decide, rfl, by decide, "marked text", rfl, by decide⟩
  exact ⟨hcheck, (trimEntry_keepsUsed "marked" guardedProgram).2 hcheck⟩

example : ((trimEntry "marked" guardedProgram).instructions.map (·.b.toInt),
    (trimEntry "marked" guardedProgram).functions.map (·.name)) =
      ([1, 0, 1, 4, -1, 3], ["a", "d"]) := by decide

end LuaUnpack.Recover
