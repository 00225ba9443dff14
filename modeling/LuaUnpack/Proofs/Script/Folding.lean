import LuaUnpack.Proofs.Lua.Evaluation
import LuaUnpack.Proofs.Lua.Shape
import LuaUnpack.Proofs.Lua.Walks
import LuaUnpack.Script.Fold

/-!
# Folded scripts

Folding takes its steps from the inside to the outside, so a step meets parts that are folded
already and leads to an expression to which no other applies (`Fold.step?_stepped`). Hence
every expression of a folded script is the folded form of one of the script
(`Fold.Folds.sources`), and there is nothing left to fold. A step keeps the values of an
expression that has some; where it has none the error can be a different one, because that of
a comparison names the types of the operands in their order.
-/

namespace LuaUnpack.Script

open LuaUnpack.Lua

namespace Fold

/-! ## One step -/

/-- Whether an expression is one that folding replaces: the length of a table of literals, the
    negation of a number, or a comparison with a number on its left only. -/
inductive IsFoldable : Expr → Prop
  | length (fields : List Field)
      (h : ∀ field ∈ fields, ∃ value : Expr, field = .positional value ∧ value.isValueLiteral) :
      IsFoldable (.unary .length (.table fields))
  | negate (x : Float) : IsFoldable (.unary .negate (.number x))
  | comparison (op : BinaryOp) (x : Float) (right : Expr) (hop : op.isComparison)
      (hright : ∀ y, right ≠ .number y) : IsFoldable (.binary op (.number x) right)

theorem isConstantEntry_iff {field : Field} : isConstantEntry field = true ↔
    ∃ value : Expr, field = .positional value ∧ value.isValueLiteral := by
  cases field <;> simp [isConstantEntry]

theorem isNumber_eq_false_iff {e : Expr} : e.isNumber = false ↔ ∀ y, e ≠ .number y := by
  cases e <;> simp [Expr.isNumber]

theorem step?_eq_none_iff {e : Expr} : step? e = none ↔ ¬ IsFoldable e := by
  constructor
  · rintro h (⟨fields, hfields⟩ | x | ⟨op, x, right, hop, hright⟩)
    · have hall : fields.all isConstantEntry = true :=
        List.all_eq_true.2 fun field hfield => isConstantEntry_iff.2 (hfields field hfield)
      simp [step?, hall] at h
    · cases h
    · simp [step?, hop, isNumber_eq_false_iff.2 hright] at h
  · intro h
    unfold step?
    split
    · split
      · rename_i fields hall
        refine absurd (.length fields fun field hfield => isConstantEntry_iff.1 ?_) h
        exact List.all_eq_true.1 hall field hfield
      · rfl
    · exact absurd (.negate _) h
    · split
      · rename_i op x right hop
        rw [Bool.and_eq_true, Bool.not_eq_true'] at hop
        exact absurd (.comparison op x right hop.1 (isNumber_eq_false_iff.1 hop.2)) h
      · rfl
    · rfl

/-- An expression after the step that applies to it, if there is one. -/
def stepped (e : Expr) : Expr := (step? e).getD e

theorem stepped_of_step? {e : Expr} (h : step? e = none) : stepped e = e := by
  rw [stepped, h, Option.getD_none]

theorem stepped_of_step?_eq_some {e e' : Expr} (h : step? e = some e') : stepped e = e' := by
  rw [stepped, h, Option.getD_some]

/-- What a step can lead to. -/
theorem step?_eq_some {e e' : Expr} (h : step? e = some e') :
    (∃ fields, e = .unary .length (.table fields) ∧ fields.all isConstantEntry = true ∧
      e' = .number (Decimal.nearest fields.length 1)) ∨
    (∃ x, e = .unary .negate (.number x) ∧ e' = .number (-x)) ∨
    ∃ op x right, e = .binary op (.number x) right ∧ op.isComparison = true ∧
      right.isNumber = false ∧ e' = .binary op.exchanged right (.number x) := by
  -- The cases are the three patterns of `step?`, each with its guard.
  unfold step? at h
  split at h
  · split at h
    · exact .inl ⟨_, rfl, ‹_›, (Option.some.inj h).symm⟩
    · cases h
  · exact .inr (.inl ⟨_, rfl, (Option.some.inj h).symm⟩)
  · split at h
    · rename_i hop
      rw [Bool.and_eq_true, Bool.not_eq_true'] at hop
      exact .inr (.inr ⟨_, _, _, rfl, hop.1, hop.2, (Option.some.inj h).symm⟩)
    · cases h
  · cases h

/-- After one step no other applies. -/
theorem step?_stepped (e : Expr) : step? (stepped e) = none := by
  rcases h : step? e with _ | e'
  · rw [stepped_of_step? h, h]
  · rw [stepped_of_step?_eq_some h]
    obtain ⟨_, -, -, rfl⟩ | ⟨x, -, rfl⟩ | ⟨op, x, right, -, -, hright, rfl⟩ := step?_eq_some h
    · rfl
    · rfl
    · cases right <;> first | rfl | cases hright

/-! ## The walk -/

/-- The fold without its count. -/
def plain : Mapper Id where
  expr _ inner := stepped inner

/-- An expression with all its constants folded. -/
def folded (e : Expr) : Expr := plain.onExpr e

/-- Whether nodes hold no expression that a step applies to. -/
def IsFolded (nodes : List Node) : Prop := ∀ e, .expr e ∈ nodes → step? e = none

/-- What folding makes of a part of a tree: a part of which every expression is the folded
    form of an expression of the old one, in a number of steps that does not depend on those
    taken before; where there is nothing to fold it leaves the part as it is. -/
structure Folds {α : Type} (act : StateM Nat α) (before after : α) (old new : List Node) :
    Prop where
  runs : ∃ count, (∀ k, act.run k = (after, k + count)) ∧
    (IsFolded old → after = before ∧ count = 0)
  sources : ∀ e, .expr e ∈ new → ∃ e₀, .expr e₀ ∈ old ∧ e = folded e₀

section

variable {α β : Type} {act : StateM Nat α} {a a' : α} {old new old₁ old₂ new₁ new₂ : List Node}

theorem folds_pure (a : α) : Folds (pure a) a a [] [] where
  runs := ⟨0, fun _ => rfl, fun _ => ⟨rfl, rfl⟩⟩
  sources _ h := absurd h List.not_mem_nil

theorem Folds.bind {next : α → StateM Nat β} {same changed : α → β}
    (h₁ : Folds act a a' old₁ new₁)
    (h₂ : ∀ x, Folds (next x) (same x) (changed x) old₂ new₂) :
    Folds (act >>= next) (same a) (changed a') (old₁ ++ old₂) (new₁ ++ new₂) where
  runs := by
    obtain ⟨count₁, hrun₁, hsame₁⟩ := h₁.runs
    obtain ⟨count₂, hrun₂, hsame₂⟩ := (h₂ a').runs
    -- The counts add up; if nothing can be folded, both are zero.
    refine ⟨count₁ + count₂, fun k => ?_, fun hold => ?_⟩
    · rw [StateT.run_bind, hrun₁]
      exact (hrun₂ _).trans (by rw [Nat.add_assoc])
    · obtain ⟨rfl, rfl⟩ := hsame₁ fun e he => hold e (List.mem_append_left _ he)
      obtain ⟨hsame, rfl⟩ := hsame₂ fun e he => hold e (List.mem_append_right _ he)
      exact ⟨hsame, rfl⟩
  sources e h := by
    rcases List.mem_append.1 h with h | h
    · obtain ⟨e₀, he₀, rfl⟩ := h₁.sources e h
      exact ⟨e₀, List.mem_append_left _ he₀, rfl⟩
    · obtain ⟨e₀, he₀, rfl⟩ := (h₂ a').sources e h
      exact ⟨e₀, List.mem_append_right _ he₀, rfl⟩

/-- The node of a statement does not count. -/
theorem Folds.underStmt {act : StateM Nat Stmt} {s s' : Stmt}
    (h : Folds act s s' (Node.ofStmt (fun _ => true) s).tail
      (Node.ofStmt (fun _ => true) s').tail) :
    Folds act s s' (Node.ofStmt (fun _ => true) s) (Node.ofStmt (fun _ => true) s') where
  runs := by
    obtain ⟨count, hrun, hsame⟩ := h.runs
    exact ⟨count, hrun, fun hold => hsame fun e he => hold e (List.mem_of_mem_tail he)⟩
  sources e he := by
    rw [Node.ofStmt_eq_cons] at he
    rcases List.mem_cons.1 he with he | he
    · cases he
    · obtain ⟨e₀, he₀, rfl⟩ := h.sources e he
      exact ⟨e₀, List.mem_of_mem_tail he₀, rfl⟩

/-- A step puts nothing new below an expression. -/
theorem mem_nodes_stepped {e e₁ : Expr}
    (h : .expr e₁ ∈ Node.ofExpr (fun _ => true) (stepped e)) :
    e₁ = stepped e ∨ .expr e₁ ∈ (Node.ofExpr (fun _ => true) e).tail := by
  rcases hstep : step? e with _ | e'
  · rw [stepped_of_step? hstep] at h ⊢
    rw [Node.ofExpr_eq_cons] at h
    exact (List.mem_cons.1 h).imp_left Node.expr.inj
  · rw [stepped_of_step?_eq_some hstep] at h ⊢
    obtain ⟨_, -, -, rfl⟩ | ⟨x, -, rfl⟩ | ⟨op, x, right, rfl, -, -, rfl⟩ := step?_eq_some hstep
    · exact .inl (Node.expr.inj (List.mem_singleton.1 h))
    · exact .inl (Node.expr.inj (List.mem_singleton.1 h))
    · refine (List.mem_cons.1 h).imp Node.expr.inj fun h => ?_
      exact List.mem_append.2 (List.mem_append.1 h).symm

/-- An expression is folded after its parts. -/
theorem run_expr (e : Expr) (act : StateM Nat Expr) (k : Nat) :
    (mapper.expr e act).run k =
      (match step? (act.run k).1 with
        | some folded => do modify (· + 1); return folded
        | none => return (act.run k).1 : StateM Nat Expr).run (act.run k).2 :=
  rfl

/-- The step at an expression, after the fold of what it is made of. -/
theorem Folds.underExpr {act : StateM Nat Expr} {e e' : Expr} (hfolded : folded e = stepped e')
    (h : Folds act e e' (Node.ofExpr (fun _ => true) e).tail
      (Node.ofExpr (fun _ => true) e').tail) :
    Folds (mapper.expr e act) e (stepped e') (Node.ofExpr (fun _ => true) e)
      (Node.ofExpr (fun _ => true) (stepped e')) where
  runs := by
    obtain ⟨count, hrun, hsame⟩ := h.runs
    -- The parts are folded first, and the step is counted at what they were folded to.
    refine ⟨count + if (step? e').isSome then 1 else 0, fun k => ?_, fun hfold => ?_⟩
    · rw [run_expr, hrun, stepped]
      rcases step? e' with _ | e'' <;> rfl
    · rw [Node.ofExpr_eq_cons] at hfold
      obtain ⟨rfl, rfl⟩ := hsame fun e he => hfold e (List.mem_cons_of_mem _ he)
      have hnone := hfold e' List.mem_cons_self
      rw [stepped_of_step? hnone, hnone]
      exact ⟨rfl, rfl⟩
  sources e₁ h₁ := by
    rw [Node.ofExpr_eq_cons e]
    rcases mem_nodes_stepped h₁ with rfl | h₁
    · exact ⟨e, List.mem_cons_self, hfolded.symm⟩
    · obtain ⟨e₀, he₀, rfl⟩ := h.sources e₁ h₁
      exact ⟨e₀, List.mem_cons_of_mem _ he₀, rfl⟩

end

theorem carries_folds : Mapper.Carries (fun _ : Unit => mapper) plain
    (fun act a a' old new => Folds (act ()) a a' old new) where
  pure := folds_pure
  bind _ _ h₁ h₂ := h₁.bind h₂
  expr hfolded h := h.underExpr hfolded
  stmt _ h := h.underStmt
  block h := h

theorem folds_onExpr (e : Expr) : Folds (mapper.onExpr e) e (folded e)
    (Node.ofExpr (fun _ => true) e) (Node.ofExpr (fun _ => true) (folded e)) :=
  carries_folds.onExpr e

theorem folds_onStmts (ss : List Stmt) : Folds (mapper.onStmts ss) ss (plain.onStmts ss)
    (Node.ofStmts (fun _ => true) ss) (Node.ofStmts (fun _ => true) (plain.onStmts ss)) :=
  carries_folds.onStmts ss

theorem run_onExpr (e : Expr) (k : Nat) : ((mapper.onExpr e).run k).1 = folded e := by
  obtain ⟨count, hrun, -⟩ := (folds_onExpr e).runs
  rw [hrun]

theorem step?_folded (e : Expr) : step? (folded e) = none := by
  cases e with
  | unary op e => exact step?_stepped (.unary op (folded e))
  | binary op l r => exact step?_stepped (.binary op (folded l) (folded r))
  | function f =>
    obtain ⟨_, _, _⟩ := f
    rfl
  | _ => rfl

theorem foldConstants_eq (block : Block) : (foldConstants block).1 = plain.onStmts block := by
  obtain ⟨count, hrun, -⟩ := (folds_onStmts block).runs
  exact congrArg Prod.fst (hrun 0)

theorem isFolded_foldConstants (block : Block) : IsFolded (foldConstants block).1.nodes := by
  intro e he
  rw [foldConstants_eq] at he
  obtain ⟨e₀, -, rfl⟩ := (folds_onStmts block).sources e he
  exact step?_folded e₀

/-! ## Values -/

open Lua.Eval

/-- A step keeps the values of an expression that has some. -/
theorem values_stepped {e : Expr} {vs : List Value} (h : values e = .ok vs) :
    values (stepped e) = .ok vs := by
  rcases hstep : step? e with _ | e'
  · rwa [stepped_of_step? hstep]
  rw [stepped_of_step?_eq_some hstep]
  obtain ⟨fields, rfl, -, rfl⟩ | ⟨x, rfl, rfl⟩ | ⟨op, x, right, rfl, hop, -, rfl⟩ :=
    step?_eq_some hstep
  · obtain ⟨_, htable, h⟩ := bind_eq_ok_iff.1 h
    obtain ⟨found, hitems, htable⟩ := bind_eq_ok_iff.1 htable
    cases found with
    | none => cases htable
    | some vs' =>
      cases htable
      rw [← length_of_items hitems]
      exact h
  · exact h
  · -- An exchanged comparison reads its sides in the other order; both have values anyway.
    have hop' : op ≠ .and ∧ op ≠ .or ∧ op.exchanged ≠ .and ∧ op.exchanged ≠ .or := by
      cases op <;> first | contradiction | decide
    obtain ⟨as, bs, v, has, hbs, hv, rfl⟩ := (values_binary hop'.1 hop'.2.1).1 h
    exact (values_binary hop'.2.2.1 hop'.2.2.2).2
      ⟨bs, as, v, hbs, has, binary_exchanged hop hv _, rfl⟩

theorem folded_of_functionName? {callee : Expr} {name : String}
    (h : functionName? callee = some name) : folded callee = callee := by
  fun_induction functionName? callee with
  | case1 => rfl
  | case2 => rfl
  | case3 inner ih => exact congrArg Expr.paren (ih h)
  | case4 => cases h

mutual

/-- Folding keeps the values of an expression that has some. -/
theorem values_folded : (e : Expr) → ∀ {vs}, values e = .ok vs → values (folded e) = .ok vs
  | .nil, _, h | .boolean _, _, h | .number _, _, h | .string _, _, h => h
  | .vararg, _, h | .name _, _, h | .member _ _, _, h | .index _ _, _, h
  | .function _, _, h => nomatch h
  | .paren e, _, h => by
    obtain ⟨vs, he, h⟩ := bind_eq_ok_iff.1 h
    exact bind_eq_ok_iff.2 ⟨vs, values_folded e he, h⟩
  | .table fields, _, h => by
    obtain ⟨found, hitems, h⟩ := bind_eq_ok_iff.1 h
    cases found with
    | none => cases h
    | some vs => exact bind_eq_ok_iff.2 ⟨some vs, items_folded fields hitems, h⟩
  | .unary op e, _, h => by
    obtain ⟨vs, he, h⟩ := bind_eq_ok_iff.1 h
    obtain ⟨v, hv, h⟩ := bind_eq_ok_iff.1 h
    exact values_stepped (bind_eq_ok_iff.2 ⟨vs, values_folded e he,
      bind_eq_ok_iff.2 ⟨v, unary_eq_ok hv _, h⟩⟩)
  | .binary op l r, _, h => by
    refine values_stepped (e := .binary op (folded l) (folded r)) ?_
    -- The right side of `and` and `or` is read only where the left side calls for it.
    by_cases hand : op = .and
    · subst hand
      obtain ⟨as, has, h⟩ := bind_eq_ok_iff.1 h
      refine bind_eq_ok_iff.2 ⟨as, values_folded l has, ?_⟩
      by_cases htrue : (firstValue as).isTruthy = true
      · simp only [if_pos htrue] at h ⊢
        obtain ⟨bs, hbs, h⟩ := bind_eq_ok_iff.1 h
        exact bind_eq_ok_iff.2 ⟨bs, values_folded r hbs, h⟩
      · simp only [if_neg htrue] at h ⊢
        exact h
    by_cases hor : op = .or
    · subst hor
      obtain ⟨as, has, h⟩ := bind_eq_ok_iff.1 h
      refine bind_eq_ok_iff.2 ⟨as, values_folded l has, ?_⟩
      by_cases htrue : (firstValue as).isTruthy = true
      · simp only [if_pos htrue] at h ⊢
        exact h
      · simp only [if_neg htrue] at h ⊢
        obtain ⟨bs, hbs, h⟩ := bind_eq_ok_iff.1 h
        exact bind_eq_ok_iff.2 ⟨bs, values_folded r hbs, h⟩
    obtain ⟨as, bs, v, has, hbs, hv, rfl⟩ := (values_binary hand hor).1 h
    exact (values_binary hand hor).2
      ⟨as, bs, v, values_folded l has, values_folded r hbs, binary_eq_ok hv _, rfl⟩
  | .call callee args, _, h => by
    change values (.call (folded callee) (plain.onExprs args)) = _
    rw [values] at h ⊢
    cases hname : functionName? callee with
    | none =>
      rw [hname] at h
      cases h
    | some name =>
      simp only [folded_of_functionName? hname, hname] at h ⊢
      obtain ⟨as, has, h⟩ := bind_eq_ok_iff.1 h
      exact bind_eq_ok_iff.2 ⟨as, argValues_folded args has, h⟩
  | .methodCall object method args, _, h => by
    obtain ⟨vs, hobject, h⟩ := bind_eq_ok_iff.1 h
    refine bind_eq_ok_iff.2 ⟨vs, values_folded object hobject, ?_⟩
    cases hvalue : firstValue vs with
    | string bytes =>
      simp only [hvalue] at h ⊢
      obtain ⟨as, has, h⟩ := bind_eq_ok_iff.1 h
      exact bind_eq_ok_iff.2 ⟨as, argValues_folded args has, h⟩
    | nil | boolean _ | number _ | table _ =>
      simp only [hvalue] at h
      cases h

theorem argValues_folded : (es : List Expr) →
    ∀ {vs}, argValues es = .ok vs → argValues (plain.onExprs es) = .ok vs
  | [], _, h => h
  | [e], _, h => values_folded e h
  | e :: e' :: rest, _, h => by
    obtain ⟨vs, he, h⟩ := bind_eq_ok_iff.1 h
    obtain ⟨more, hrest, h⟩ := bind_eq_ok_iff.1 h
    exact bind_eq_ok_iff.2 ⟨vs, values_folded e he,
      bind_eq_ok_iff.2 ⟨more, argValues_folded (e' :: rest) hrest, h⟩⟩

theorem items_folded : (fields : List Field) →
    ∀ {vs}, items fields = .ok (some vs) → items (plain.onFields fields) = .ok (some vs)
  | [], _, h => h
  | .positional value :: rest, _, h => by
    obtain ⟨vs, hvalue, h⟩ := bind_eq_ok_iff.1 h
    obtain ⟨found, hrest, h⟩ := bind_eq_ok_iff.1 h
    obtain ⟨more, rfl, hvs⟩ := Option.map_eq_some_iff.1 (pure_eq_ok_iff.1 h)
    exact bind_eq_ok_iff.2 ⟨vs, values_folded value hvalue,
      bind_eq_ok_iff.2 ⟨some more, items_folded rest hrest, h⟩⟩
  | .named _ _ :: _, _, h | .keyed _ _ :: _, _, h => nomatch h

end

end Fold

/-- Folding leaves nothing to fold, so folding again changes nothing, and it keeps the value of
    every expression that has one. -/
theorem foldConstants_isNormal_and_keeps_values :
    (∀ block : Block,
      (∀ e ∈ (foldConstants block).1.expressions, ¬ Fold.IsFoldable e) ∧
        foldConstants (foldConstants block).1 = ((foldConstants block).1, 0)) ∧
      ∀ e v, Eval.value e = .ok v → Eval.value ((Fold.mapper.onExpr e).run 0).1 = .ok v := by
  refine ⟨fun block => ?_, fun e v h => ?_⟩
  · have hfolded := Fold.isFolded_foldConstants block
    refine ⟨fun e he => ?_, ?_⟩
    · exact Fold.step?_eq_none_iff.1 (hfolded e (Block.mem_expressions_iff.1 he))
    · obtain ⟨count, hrun, hsame⟩ := (Fold.folds_onStmts (foldConstants block).1).runs
      obtain ⟨hblock, rfl⟩ := hsame hfolded
      exact (hrun 0).trans (by rw [hblock])
  · obtain ⟨vs, hvs, hv⟩ := bind_eq_ok_iff.1 h
    rw [Fold.run_onExpr]
    exact bind_eq_ok_iff.2 ⟨vs, Fold.values_folded e hvs, hv⟩

/-- A length inside a negation inside a comparison: `-#{"a", true} < tonumber(7)`. -/
def nestedConstants : Expr :=
  .binary .lt
    (.unary .negate (.unary .length
      (.table [.positional (.string ⟨"a", .double⟩), .positional (.boolean true)])))
    (.call (.name "tonumber") [.number (Decimal.nearest 7 1)])

theorem foldConstants_nestedConstants_keeps_value :
    Eval.value nestedConstants = .ok (.boolean true) ∧
      (Fold.mapper.onExpr nestedConstants).run 0 =
        (.binary .gt (.call (.name "tonumber") [.number (Decimal.nearest 7 1)])
          (.number (-Decimal.nearest 2 1)), 3) ∧
      Eval.value ((Fold.mapper.onExpr nestedConstants).run 0).1 = .ok (.boolean true) := by
  have hless : Value.compareNumbers? (-Decimal.nearest 2 1) (Decimal.nearest 7 1) = some .lt := by
    decide
  have hvalue : Eval.value nestedConstants = .ok (.boolean true) := by
    refine bind_eq_ok_iff.2 ⟨_, (Eval.values_binary (by decide) (by decide)).2
      ⟨[.number (-Decimal.nearest 2 1)], [.number (Decimal.nearest 7 1)], .boolean true, rfl, rfl,
        (Eval.binary_eq_ok_iff rfl (by decide) (by decide)).2 ⟨.lt, hless, rfl⟩, rfl⟩, rfl⟩
  exact ⟨hvalue, rfl, foldConstants_isNormal_and_keeps_values.2 nestedConstants _ hvalue⟩

end LuaUnpack.Script
