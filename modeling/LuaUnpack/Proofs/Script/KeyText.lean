import LuaUnpack.Proofs.Lua.Signs
import LuaUnpack.Proofs.Script.Folding

/-!
# Folded expressions as text

The key of a script is evaluated from the text of its expression, after the script was folded.
Folding makes numbers negative, and a negative number is not what its text is read as: that is
a negation. The two are written alike and evaluated alike, so evaluating the text is the same
as evaluating the expression (`sourceNumber_print_of_folded`), with the same text in the
errors that quote an expression.
-/

namespace LuaUnpack.Script

open LuaUnpack.Lua

namespace Fold

/-! ## The shape of folded expressions -/

theorem stepped_unary (op : UnaryOp) (e : Expr) :
    stepped (.unary op e) = .unary op e ∨ ∃ x, stepped (.unary op e) = .number x := by
  rcases hstep : step? (.unary op e) with _ | e'
  · exact .inl (stepped_of_step? hstep)
  · right
    rw [stepped, hstep, Option.getD_some]
    obtain ⟨_, -, -, rfl⟩ | ⟨x, -, rfl⟩ | ⟨_, _, _, h, -⟩ := step?_eq_some hstep
    · exact ⟨_, rfl⟩
    · exact ⟨_, rfl⟩
    · cases h

theorem stepped_binary (op : BinaryOp) (l r : Expr) :
    ∃ op' l' r', stepped (.binary op l r) = .binary op' l' r' := by
  rcases hstep : step? (.binary op l r) with _ | e'
  · exact ⟨op, l, r, stepped_of_step? hstep⟩
  · rw [stepped, hstep, Option.getD_some]
    obtain ⟨_, h, -⟩ | ⟨_, h, -⟩ | ⟨op, x, right, -, -, -, rfl⟩ := step?_eq_some hstep
    · cases h
    · cases h
    · exact ⟨_, _, _, rfl⟩

theorem isMultiple_folded (e : Expr) : (folded e).isMultiple = e.isMultiple := by
  cases e with
  | unary op e =>
    change (stepped (.unary op (folded e))).isMultiple = false
    obtain h | ⟨x, h⟩ := stepped_unary op (folded e) <;> rw [h] <;> rfl
  | binary op l r =>
    change (stepped (.binary op (folded l) (folded r))).isMultiple = false
    obtain ⟨_, _, _, h⟩ := stepped_binary op (folded l) (folded r)
    rw [h]
    rfl
  | function f =>
    obtain ⟨_, _, _⟩ := f
    rfl
  | _ => rfl

theorem eq_vararg_of_folded {e : Expr} (h : folded e = .vararg) : e = .vararg := by
  cases e with
  | vararg => rfl
  | unary op e =>
    change stepped (.unary op (folded e)) = .vararg at h
    obtain h' | ⟨x, h'⟩ := stepped_unary op (folded e) <;> rw [h'] at h <;> cases h
  | binary op l r =>
    change stepped (.binary op (folded l) (folded r)) = .vararg at h
    obtain ⟨_, _, _, h'⟩ := stepped_binary op (folded l) (folded r)
    rw [h'] at h
    cases h
  | function f =>
    obtain ⟨_, _, _⟩ := f
    cases h
  | _ => cases h

theorem fieldNames_onFields (fs : List Field) :
    (plain.onFields fs).filterMap Node.fieldName? = fs.filterMap Node.fieldName? := by
  induction fs with
  | nil => rfl
  | cons f fs ih =>
    change (plain.onField f :: plain.onFields fs).filterMap Node.fieldName? = _
    rw [List.filterMap_cons, List.filterMap_cons, ih]
    cases f <;> rfl

end Fold

/-- Whether a node is neither a function, nor a string in long brackets, nor a number that is
    infinite, negative zero or no number. -/
def isSpellableNode : Node → Bool
  | .expr (.function _) => false
  | .expr (.string ⟨_, .long _⟩) => false
  | .expr (.number x) => isSpellable x
  | _ => true

/-- What was read keeps its shape when it is folded. -/
theorem Fold.isFlat_folded {e : Expr} (h : (Node.expr e).IsShaped TokenKind.IsLexed)
    (hspellable : isSpellableNode (.expr (folded e)) = true) :
    (Node.expr (folded e)).IsFlat TokenKind.IsSpellable := by
  have hnames (names : List String) := forall_names TokenKind.IsLexed TokenKind.IsSpellable names
    (fun _ => id)
  -- Folding changes signs and comparisons only; any other node keeps its words and its parts.
  cases e with
  | nil | boolean b | vararg => exact ⟨⟨nofun, trivial, nofun⟩, rfl⟩
  | number x => exact ⟨⟨List.forall_mem_singleton.2 hspellable, trivial, nofun⟩, rfl⟩
  | string l =>
    have hshort : l.IsShort := by
      refine (h.words _ List.mem_cons_self : TokenKind.IsLexed (.string l)).resolve_right ?_
      rintro ⟨level, hlevel, -⟩
      obtain ⟨raw, delimiter⟩ := l
      cases hlevel
      cases hspellable
    exact ⟨⟨List.forall_mem_singleton.2 hshort, trivial, nofun⟩, rfl⟩
  | name n => exact ⟨⟨hnames [n] h.words, trivial, nofun⟩, rfl⟩
  | member t k =>
    exact ⟨⟨hnames [k] h.words, fun ht => h.parts (eq_vararg_of_folded ht), nofun⟩, rfl⟩
  | index t k => exact ⟨⟨nofun, fun ht => h.parts (eq_vararg_of_folded ht), nofun⟩, rfl⟩
  | call f args => exact ⟨⟨nofun, fun hf => h.parts (eq_vararg_of_folded hf), nofun⟩, rfl⟩
  | methodCall o m args =>
    exact ⟨⟨hnames [m] h.words, fun ho => h.parts (eq_vararg_of_folded ho), nofun⟩, rfl⟩
  | function f =>
    obtain ⟨_, _, _⟩ := f
    cases hspellable
  | table fields =>
    have hwords := hnames _ h.words
    rw [← fieldNames_onFields] at hwords
    exact ⟨⟨hwords, trivial, nofun⟩, rfl⟩
  | unary op e =>
    change isSpellableNode (.expr (stepped (.unary op (folded e)))) = true at hspellable
    change (Node.expr (stepped (.unary op (folded e)))).IsFlat TokenKind.IsSpellable
    obtain hstep | ⟨x, hstep⟩ := stepped_unary op (folded e)
    · rw [hstep]
      exact ⟨⟨nofun, trivial, nofun⟩, rfl⟩
    · rw [hstep] at hspellable ⊢
      exact ⟨⟨List.forall_mem_singleton.2 hspellable, trivial, nofun⟩, rfl⟩
  | binary op l r =>
    change (Node.expr (stepped (.binary op (folded l) (folded r)))).IsFlat TokenKind.IsSpellable
    obtain ⟨_, _, _, hstep⟩ := stepped_binary op (folded l) (folded r)
    rw [hstep]
    exact ⟨⟨nofun, trivial, nofun⟩, rfl⟩
  | paren e => exact ⟨⟨nofun, (isMultiple_folded e).trans h.parts, nofun⟩, rfl⟩

/-- Whether an expression was read and folded, alone or inside a script. -/
inductive IsReadFolded : Expr → Prop
  | alone {source : String} {e : Expr} (h : parseExpr source = .ok e) :
      IsReadFolded ((Fold.mapper.onExpr e).run 0).1
  | inside {source : String} {block : Block} {e : Expr} (h : parse source = .ok block)
      (he : e ∈ (foldConstants block).1.expressions) : IsReadFolded e

/-- The expressions of what was read and folded are folded forms of ones that were read. -/
theorem IsReadFolded.sources {e e₁ : Expr} (h : IsReadFolded e) (he₁ : .expr e₁ ∈ e.nodes) :
    ∃ e₀, (Node.expr e₀).IsShaped TokenKind.IsLexed ∧ e₁ = Fold.folded e₀ := by
  -- The expression was read alone, or it stands in a block that was read as a whole.
  cases h with
  | alone h =>
    obtain ⟨tokens, htokens, hread⟩ := bind_eq_ok_iff.1 h
    have hshaped := of_whole (fun depth => (shapes_isLexed depth).expression)
      (isLexed_tokenize htokens) hread
    rw [Fold.run_onExpr] at he₁
    obtain ⟨e₀, he₀, rfl⟩ := (Fold.folds_onExpr _).sources e₁ he₁
    exact ⟨e₀, hshaped _ he₀, rfl⟩
  | inside h he =>
    obtain ⟨tokens, htokens, hread⟩ := bind_eq_ok_iff.1 h
    have hshaped := of_whole (fun depth => (shapes_isLexed depth).block)
      (isLexed_tokenize htokens) hread
    have hnode := Node.holdsWhole_ofStmts _ e (Block.mem_expressions_iff.1 he) he₁
    rw [Fold.foldConstants_eq] at hnode
    obtain ⟨e₀, he₀, rfl⟩ := (Fold.folds_onStmts _).sources e₁ hnode
    exact ⟨e₀, hshaped.2 _ he₀, rfl⟩

/-- Evaluating the text of an expression that was read and folded gives what evaluating the
    expression gives, the same number or the same error. -/
theorem sourceNumber_print_of_folded {e : Expr} (hread : IsReadFolded e)
    (hspellable : ∀ node ∈ e.nodes, isSpellableNode node = true) :
    Eval.sourceNumber ("return " ++ e.print) = Eval.number e := by
  have hflat : Node.All Node.CanRespell e.nodes := by
    rintro node hnode e₁ rfl
    obtain ⟨e₀, he₀, rfl⟩ := hread.sources hnode
    exact Fold.isFlat_folded he₀ (hspellable _ hnode)
  obtain ⟨e', he'⟩ := e.exists_respelled hflat
  exact he'.sourceNumber

/-- Negative numbers on both sides of a power, and a length. -/
def negativePowerText : String := "(-2) ^ -3 + #\x7b-1, \x22a\x22\x7d"

/-- What it is read as. -/
def negativePowerExpr : Expr :=
  .binary .add
    (.binary .pow (.unary .negate (.number (Decimal.nearest 2 1)))
      (.unary .negate (.number (Decimal.nearest 3 1))))
    (.unary .length (.table [.positional (.unary .negate (.number (Decimal.nearest 1 1))),
      .positional (.string ⟨"a", .double⟩)]))

/-- What that is folded to. -/
def negativePower : Expr :=
  .binary .add
    (.binary .pow (.number (-Decimal.nearest 2 1)) (.number (-Decimal.nearest 3 1)))
    (.number (Decimal.nearest 2 1))

theorem sourceNumber_print_negativePower :
    IsReadFolded negativePower ∧ (∀ node ∈ negativePower.nodes, isSpellableNode node = true) ∧
      negativePower.print = "(-2) ^ (-3) + 2" ∧
      Eval.sourceNumber ("return " ++ negativePower.print) = Eval.number negativePower := by
  have htokens : tokenize negativePowerText = .ok (List.map (fun kind => ⟨kind, 1⟩)
      [.symbol .leftParen, .symbol .minus, .number (Decimal.nearest 2 1), .symbol .rightParen,
       .symbol .caret, .symbol .minus, .number (Decimal.nearest 3 1), .symbol .plus, .symbol .hash,
       .symbol .leftBrace, .symbol .minus, .number (Decimal.nearest 1 1), .symbol .comma,
       .string ⟨"a", .double⟩, .symbol .rightBrace, .eof]) := by
    decide +kernel
  have hparse : parseExpr negativePowerText = .ok negativePowerExpr := by
    rw [parseExpr, htokens]
    rfl
  have hread : IsReadFolded negativePower := .alone hparse
  have hspellable : ∀ node ∈ negativePower.nodes, isSpellableNode node = true := by
    decide
  have hprint : negativePower.print = "(-2) ^ (-3) + 2" := by decide
  exact ⟨hread, hspellable, hprint, sourceNumber_print_of_folded hread hspellable⟩

end LuaUnpack.Script
