import LuaUnpack.Proofs.Pseudocode.HeldTrees
import Mathlib.Order.Defs.LinearOrder

/-!
# Conditions and what is skipped

An instruction that tests something skips the next one for some values of its operands
(`Skips`). The line that it writes names a condition, under which the lines after it are meant
to be run. The condition holds just when the next instruction is skipped if equality is tested,
and if an order is tested without a flag; with the flag the two differ for equal operands, and
truth is always asked for the wrong way round (`holds_iff_skips_iff`).
-/

namespace LuaUnpack.Pseudocode

open Chunk Lua

variable {V : Type} [LinearOrder V]

/-! ## What conditions say -/

/-- What a comparison says of two values. -/
def Compares (l r : V) : BinaryOp → Prop
  | .eq => l = r
  | .ne => l ≠ r
  | .lt => l < r
  | .le => l ≤ r
  | .gt => l > r
  | .ge => l ≥ r
  | _ => False

namespace Condition

/-- The operands of a condition as they are written. -/
def operands : Condition → List String
  | compare _ left right => [left, right]
  | truth _ value => [value]

/-- Whether a condition holds, if its operands have the given values; with a single operand only
    the first value counts. -/
def Holds (truthy : V → Prop) (l r : V) : Condition → Prop
  | compare op _ _ => Compares l r op
  | truth wanted _ => truthy l ↔ wanted = true

/-- A condition as an expression, if its operands are the given ones. -/
def tree (l r : Expr) : Condition → Expr
  | compare op _ _ => .binary op l r
  | truth true _ => l
  | truth false _ => .unary .not l

/-- A condition on expressions without parentheses is read as what it says just if it needs no
    parentheses either. -/
theorem parseExpr_text_iff {condition : Condition} {l r : Expr} (hl : l.IsPlain) (hr : r.IsPlain)
    (h : condition.operands <+: [l.flatText, r.flatText]) :
    parseExpr condition.text = .ok (condition.tree l r) ↔ (condition.tree l r).IsGrouped := by
  cases condition with
  | compare op left right =>
    obtain ⟨rfl, hright⟩ := List.cons_prefix_cons.1 h
    obtain ⟨rfl, -⟩ := List.cons_prefix_cons.1 hright
    rw [text, ← Expr.flatText_binary]
    exact (Expr.IsPlain.binary op hl hr).parseExpr_flatText_iff
  | truth wanted value =>
    obtain ⟨rfl, -⟩ := List.cons_prefix_cons.1 h
    cases wanted with
    | true => exact hl.parseExpr_flatText_iff
    | false =>
      change parseExpr (UnaryOp.not.symbol ++ l.flatText) = _ ↔ _
      rw [← Expr.flatText_unary]
      exact (Expr.IsPlain.unary .not hl).parseExpr_flatText_iff

end Condition

/-! ## What is skipped -/

/-- Whether an operation tests something. -/
def isTest : Opcode → Bool
  | .eq | .lt | .le | .test | .testSet => true
  | _ => false

/-- What an instruction tests, as it is written. -/
def testedTexts (f : Prototype) (frame : Frame) (i : Instruction) : List String :=
  match i.opcode with
  | .test => [frame.read i.a.toInt]
  | .testSet => [frame.read i.b.toInt]
  | _ => [operandText f frame i.b, operandText f frame i.c]

/-- Whether an instruction that tests values skips the next one: if what it tests is not as its
    flag says. -/
def Skips (truthy : V → Prop) (l r : V) (i : Instruction) : Prop :=
  match i.opcode with
  | .eq => ¬(l = r ↔ i.a ≠ 0)
  | .lt => ¬(l < r ↔ i.a ≠ 0)
  | .le => ¬(l ≤ r ↔ i.a ≠ 0)
  | .test | .testSet => ¬(truthy l ↔ i.c ≠ 0)
  | _ => False

/-- An order and its mirror image exclude each other, and only equal values satisfy neither. -/
theorem gt_iff_not_lt_iff {l r : V} : (l > r ↔ ¬l < r) ↔ l ≠ r := by
  rcases lt_trichotomy l r with h | rfl | h
  · simp [h, h.le, h.ne]
  · simp
  · simp [h, h.le, h.ne']

theorem ge_iff_not_le_iff {l r : V} : (l ≥ r ↔ ¬l ≤ r) ↔ l ≠ r := by
  rcases lt_trichotomy l r with h | rfl | h
  · simp [h, h.le, h.ne]
  · simp
  · simp [h, h.le, h.ne']

/-- An instruction that tests something writes a condition on what it tests. The condition holds
    just when the next instruction is skipped, except for the flagged orders of equal operands
    and for truth. -/
theorem holds_iff_skips_iff (f : Prototype) (frame : Frame) (i : Instruction)
    (h : isTest i.opcode = true) :
    ∃ condition : Condition, line? f frame i = some ("if " ++ condition.text ++ " then") ∧
      condition.operands = testedTexts f frame i ∧
      ∀ (V : Type) [LinearOrder V] (truthy : V → Prop) (l r : V),
        (condition.Holds truthy l r ↔ Skips truthy l r i) ↔
          i.opcode = .eq ∨ (i.opcode = .lt ∨ i.opcode = .le) ∧ (i.a = 0 ∨ l ≠ r) := by
  obtain ⟨id, opnum, opcode, a, b, c, flags, pc⟩ := i
  cases opcode
  case test | testSet =>
    refine ⟨.truth (c != 0) _, rfl, rfl, fun V _ truthy l r => ?_⟩
    have hwanted : (c != 0) = true ↔ c ≠ 0 := bne_iff_ne
    simp [Condition.Holds, Skips, hwanted]
  case eq =>
    refine ⟨.compare (if a = 0 then .eq else .ne) _ _, rfl, rfl, fun V _ truthy l r => ?_⟩
    by_cases ha : a = 0 <;> simp [Condition.Holds, Skips, Compares, ha]
  case lt =>
    refine ⟨.compare (if a = 0 then .lt else .gt) _ _, rfl, rfl, fun V _ truthy l r => ?_⟩
    by_cases ha : a = 0
    · simp [Condition.Holds, Skips, Compares, ha]
    · -- A flagged order is written the other way round, which differs for equal operands.
      simpa [Condition.Holds, Skips, Compares, ha] using gt_iff_not_lt_iff (l := l) (r := r)
  case le =>
    refine ⟨.compare (if a = 0 then .le else .ge) _ _, rfl, rfl, fun V _ truthy l r => ?_⟩
    by_cases ha : a = 0
    · simp [Condition.Holds, Skips, Compares, ha]
    · simpa [Condition.Holds, Skips, Compares, ha] using ge_iff_not_le_iff (l := l) (r := r)
  all_goals cases h

/-- An order tested with a flag. -/
def flaggedOrder : Instruction := .ofOpcode 0 .lt 1 0 1

theorem holds_iff_skips_iff_flaggedOrder :
    isTest flaggedOrder.opcode = true ∧
      ∃ condition : Condition,
        line? {} {} flaggedOrder = some ("if " ++ condition.text ++ " then") ∧
        condition.operands = testedTexts {} {} flaggedOrder ∧
        ∀ (V : Type) [LinearOrder V] (truthy : V → Prop) (l r : V),
          (condition.Holds truthy l r ↔ Skips truthy l r flaggedOrder) ↔
            flaggedOrder.opcode = .eq ∨ (flaggedOrder.opcode = .lt ∨ flaggedOrder.opcode = .le) ∧
              (flaggedOrder.a = 0 ∨ l ≠ r) :=
  ⟨rfl, holds_iff_skips_iff {} {} flaggedOrder rfl⟩

/-- A test that skips the next instruction for true values. -/
def truthTest : Instruction := .ofOpcode 0 .test 0 0 0

/-- What is skipped for true values stands under a condition that asks for a false one, and what
    is skipped for values that are not less under one that leaves out equal values. -/
theorem skips_of_not_holds :
    (line? {} {} truthTest = some "if not R0 then" ∧
        condition? {} {} truthTest = some (.truth false "R0") ∧
        Skips (· = true) true true truthTest ∧
        ¬(Condition.truth false "R0").Holds (· = true) true true) ∧
      line? {} {} flaggedOrder = some "if R0 > R1 then" ∧
        condition? {} {} flaggedOrder = some (.compare .gt "R0" "R1") ∧
        Skips (fun _ => True) 0 0 flaggedOrder ∧
        ¬(Condition.compare .gt "R0" "R1").Holds (fun _ => True) 0 0 := by
  refine ⟨⟨by rfl, by rfl, ?_, ?_⟩, by rfl, by rfl, ?_, ?_⟩
  · simp [Skips, truthTest, Instruction.ofOpcode]
  · simp [Condition.Holds]
  · simp [Skips, flaggedOrder, Instruction.ofOpcode]
  · simp [Condition.Holds, Compares]

end LuaUnpack.Pseudocode
