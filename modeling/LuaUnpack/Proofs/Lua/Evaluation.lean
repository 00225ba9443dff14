import LuaUnpack.Lua.Eval
import LuaUnpack.Proofs.Outcome

/-!
# Results of operators

What an operator gives depends on the values of its operands only; the whole expression is
quoted in errors. Comparing two values the other way round gives the opposite order, for
numbers as for strings, so a comparison with its operands exchanged has the same result
(`Eval.binary_exchanged`). What is no number has no order in either direction.
-/

namespace LuaUnpack.Lua

/-! ## Numbers -/

theorem compare_swap_unpacked (a b : Float.Model.UnpackedFloat) :
    b.compare a = (a.compare b).map Ordering.swap := by
  have hthen (i j : Int) (m n : Nat) : (compare j i).then (compare n m) =
      ((compare i j).then (compare m n)).swap := by
    rw [Ordering.swap_then, Int.compare_swap, Nat.compare_swap]
  rcases a with (_ | _) | _ | (_ | _) | ⟨_ | _, m, i, _⟩ <;>
    rcases b with (_ | _) | _ | (_ | _) | ⟨_ | _, n, j, _⟩
  all_goals first
    | rfl
    | exact congrArg some (hthen i j m n)
    | exact congrArg (fun order => some order.swap) (hthen i j m n)

namespace Value

theorem lt_iff_compare {a b : Float} :
    a < b ↔ a.toModel.unpack.compare b.toModel.unpack = some .lt := by
  change decide (a.toModel < b.toModel) = true ↔ _
  rw [decide_eq_true_iff]
  change a.toModel.unpack.lt b.toModel.unpack = true ↔ _
  rw [Float.Model.UnpackedFloat.lt, beq_iff_eq]

theorem beq_eq_compare (a b : Float) :
    (a == b) = (a.toModel.unpack.compare b.toModel.unpack == some .eq) := rfl

/-- The order of two numbers is the one of the model of floats. -/
theorem compareNumbers?_eq (a b : Float) :
    compareNumbers? a b = a.toModel.unpack.compare b.toModel.unpack := by
  have hswap := compare_swap_unpacked a.toModel.unpack b.toModel.unpack
  rw [compareNumbers?, beq_eq_compare]
  simp only [lt_iff_compare, hswap]
  rcases a.toModel.unpack.compare b.toModel.unpack with _ | _ | _ | _ <;> rfl

theorem compareNumbers?_swap (a b : Float) :
    compareNumbers? b a = (compareNumbers? a b).map Ordering.swap := by
  rw [compareNumbers?_eq, compareNumbers?_eq, compare_swap_unpacked]

theorem beq_comm_float (a b : Float) : (b == a) = (a == b) := by
  rw [beq_eq_compare, beq_eq_compare, compare_swap_unpacked]
  rcases a.toModel.unpack.compare b.toModel.unpack with _ | _ | _ | _ <;> rfl

/-! ## Values -/

theorem compareBytes_swap (a b : List UInt8) : compareBytes b a = (compareBytes a b).swap := by
  fun_induction compareBytes a b with
  | case1 | case2 | case3 => rfl
  | case4 a as b bs h => rw [compareBytes, if_neg (UInt8.lt_asymm h), if_pos h]; rfl
  | case5 a as b bs h h' => rw [compareBytes, if_pos h']; rfl
  | case6 a as b bs h h' ih => rw [compareBytes, if_neg h', if_neg h, ih]

theorem compare?_swap (a b : Value) : b.compare? a = (a.compare? b).map Ordering.swap := by
  cases a with
  | number x => cases b <;> first | rfl | exact compareNumbers?_swap x _
  | string x => cases b <;> first | rfl | exact congrArg some (compareBytes_swap x _)
  | nil | boolean _ | table _ => cases b <;> rfl

mutual

theorem same_comm : (a b : Value) → b.same a = a.same b
  | .nil, b | .boolean _, b | .number _, b | .string _, b => by
    cases b <;> first
      | rfl
      | exact beq_comm_float _ _
      | exact BEq.comm
  | .table as, b => by
    cases b with
    | table bs => exact sameItems_comm as bs
    | nil | boolean _ | number _ | string _ => rfl

theorem sameItems_comm : (as bs : List Value) → sameItems bs as = sameItems as bs
  | [], [] | [], _ :: _ | _ :: _, [] => rfl
  | a :: as, b :: bs => by rw [sameItems, sameItems, same_comm a b, sameItems_comm as bs]

end

end Value

/-! ## Operators -/

namespace Eval

theorem accepts_swap {op : BinaryOp} (hop : op.isComparison = true) (heq : op ≠ .eq)
    (hne : op ≠ .ne) (order : Ordering) :
    accepts op.exchanged order.swap = accepts op order := by
  cases op <;> first | cases order <;> rfl | contradiction

/-- What a comparison other than `==` and `~=` succeeds with. -/
theorem binary_eq_compare {op : BinaryOp} (hop : op.isComparison = true) (heq : op ≠ .eq)
    (hne : op ≠ .ne) (a b : Value) (expr : Expr) :
    binary op a b expr = match a.compare? b with
      | some order => .ok (.boolean (accepts op order))
      | none => .error (.badArgument s!"compare {a.typeName} with {b.typeName}") := by
  cases op <;> first | rfl | contradiction

theorem binary_eq_ok_iff {op : BinaryOp} (hop : op.isComparison = true) (heq : op ≠ .eq)
    (hne : op ≠ .ne) {a b v : Value} {expr : Expr} :
    binary op a b expr = .ok v ↔
      ∃ order, a.compare? b = some order ∧ v = .boolean (accepts op order) := by
  rw [binary_eq_compare hop heq hne]
  rcases a.compare? b with _ | order
  · simp
  · simp [eq_comm]

/-- A comparison that has a result has the same one with its operands exchanged. -/
theorem binary_exchanged {op : BinaryOp} (hop : op.isComparison = true) {a b v : Value}
    {expr : Expr} (h : binary op a b expr = .ok v) (expr' : Expr) :
    binary op.exchanged b a expr' = .ok v := by
  by_cases heq : op = .eq
  · subst heq
    exact (congrArg (fun same => Except.ok (Value.boolean same)) (Value.same_comm a b)).trans h
  by_cases hne : op = .ne
  · subst hne
    exact (congrArg (fun same => Except.ok (Value.boolean !same)) (Value.same_comm a b)).trans h
  obtain ⟨order, horder, rfl⟩ := (binary_eq_ok_iff hop heq hne).1 h
  have hop' : op.exchanged.isComparison = true ∧ op.exchanged ≠ .eq ∧ op.exchanged ≠ .ne := by
    cases op <;> first | contradiction | decide
  refine (binary_eq_ok_iff hop'.1 hop'.2.1 hop'.2.2).2 ⟨order.swap, ?_, ?_⟩
  · rw [Value.compare?_swap, horder, Option.map_some]
  · rw [accepts_swap hop heq hne]

/-! ## What results depend on -/

/-- The result of a unary operator does not depend on the expression that an error quotes. -/
theorem unary_eq_ok {op : UnaryOp} {a v : Value} {expr : Expr} (h : unary op a expr = .ok v)
    (expr' : Expr) : unary op a expr' = .ok v := by
  cases op with
  | not => exact h
  | length => exact h
  | negate =>
    unfold unary at h ⊢
    cases hx : a.toNumber? with
    | none => simp [hx] at h
    | some x => simpa [hx] using h

theorem binary_eq_ok {op : BinaryOp} {a b v : Value} {expr : Expr}
    (h : binary op a b expr = .ok v) (expr' : Expr) : binary op a b expr' = .ok v := by
  unfold binary at h ⊢
  split at h
  · exact h
  · exact h
  · exact h
  · split at h
    · rw [if_pos ‹_›]
      exact h
    · rw [if_neg ‹_›]
      split at h
      · split at h
        · exact h
        · cases h
      · cases h

theorem unary_congr {op : UnaryOp} {a : Value} {expr expr' : Expr} (h : expr.print = expr'.print) :
    unary op a expr = unary op a expr' := by
  unfold unary
  rw [h]

theorem binary_congr {op : BinaryOp} {a b : Value} {expr expr' : Expr}
    (h : expr.print = expr'.print) : binary op a b expr = binary op a b expr' := by
  unfold binary
  rw [h]

theorem length_of_items {fields : List Field} {vs : List Value}
    (h : items fields = .ok (some vs)) : vs.length = fields.length := by
  induction fields generalizing vs with
  | nil =>
    cases h
    rfl
  | cons field fields ih =>
    cases field with
    | positional value =>
      obtain ⟨first, -, h⟩ := bind_eq_ok_iff.1 h
      obtain ⟨rest, hrest, h⟩ := bind_eq_ok_iff.1 h
      obtain ⟨vs, rfl, rfl⟩ := Option.map_eq_some_iff.1 (pure_eq_ok_iff.1 h)
      rw [List.length_cons, List.length_cons, ih hrest]
    | named _ _ => cases h
    | keyed _ _ => cases h

/-- The values of a binary operator that needs both operands. -/
theorem values_binary {op : BinaryOp} (hand : op ≠ .and) (hor : op ≠ .or) {left right : Expr}
    {vs : List Value} : values (.binary op left right) = .ok vs ↔ ∃ as bs v,
      values left = .ok as ∧ values right = .ok bs ∧
        binary op (firstValue as) (firstValue bs) (.binary op left right) = .ok v ∧ vs = [v] := by
  have hvalues : values (.binary op left right) = do
      let a := firstValue (← values left)
      let b := firstValue (← values right)
      return [← binary op a b (.binary op left right)] := by
    cases op <;> first | rfl | contradiction
  simp only [hvalues, bind_eq_ok_iff, pure_eq_ok_iff]
  constructor
  · rintro ⟨as, has, bs, hbs, v, hv, rfl⟩
    exact ⟨as, bs, v, has, hbs, hv, rfl⟩
  · rintro ⟨as, bs, v, has, hbs, hv, rfl⟩
    exact ⟨as, has, bs, hbs, v, hv, rfl⟩

end Eval

end LuaUnpack.Lua
