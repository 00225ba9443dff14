import LuaUnpack.Lua.Parser
import LuaUnpack.Proofs.Lua.Lexing
import LuaUnpack.Proofs.Lua.Shape

/-!
# What starts and what follows an expression

Printing puts parentheses where operators would otherwise take an operand apart, reading
goes by the strength of the next operator. Both agree: what follows an operand without
parentheses is never bound more strongly than the operators at its end (`Follows`). How
strongly these bind is said by the outermost operator alone, since an operand to the right
that binds more weakly stands in parentheses.
-/

namespace LuaUnpack.Lua

open Piece LuaUnpack.Lua.Parser

/-! ## Strengths -/

namespace BinaryOp

theorem mem_all (op : BinaryOp) : op ∈ all := by
  cases op <;> decide

theorem rightStrength_le (op : BinaryOp) : op.rightStrength ≤ op.leftStrength := by
  cases op <;> decide

theorem leftStrength_ne_strength (op : BinaryOp) : op.leftStrength ≠ UnaryOp.strength := by
  cases op <;> decide

/-- Whether an operator can be the outermost one of an operand without parentheses. -/
def Admits (op : BinaryOp) (isLeft : Bool) (op' : BinaryOp) : Prop :=
  op.leftStrength < op'.leftStrength ∨
    op.leftStrength = op'.leftStrength ∧ isLeft ≠ op.groupsRight

instance (op op' : BinaryOp) (isLeft : Bool) : Decidable (op.Admits isLeft op') :=
  inferInstanceAs (Decidable (_ ∨ _))

/-- What an operator admits to its left binds its own right operand at least as strongly. -/
theorem Admits.leftStrength_le {op op' : BinaryOp} (h : op.Admits true op') :
    op.leftStrength ≤ op'.rightStrength := by
  have hall : ∀ op ∈ all, ∀ op' ∈ all, op.Admits true op' →
      op.leftStrength ≤ op'.rightStrength := by decide
  exact hall op op.mem_all op' op'.mem_all h

/-- What an operator admits to its right binds both of its operands more strongly. -/
theorem Admits.rightStrength_le {op op' : BinaryOp} (h : op.Admits false op') :
    op.rightStrength ≤ op'.rightStrength ∧ op.rightStrength < op'.leftStrength := by
  have hall : ∀ op ∈ all, ∀ op' ∈ all, op.Admits false op' →
      op.rightStrength ≤ op'.rightStrength ∧ op.rightStrength < op'.leftStrength := by decide
  exact hall op op.mem_all op' op'.mem_all h

/-- The token of an operator. -/
def kind : BinaryOp → TokenKind
  | .add => .symbol .plus
  | .sub => .symbol .minus
  | .mul => .symbol .star
  | .div => .symbol .slash
  | .mod => .symbol .percent
  | .pow => .symbol .caret
  | .concat => .symbol .dotDot
  | .eq => .symbol .equalEqual
  | .ne => .symbol .tildeEqual
  | .lt => .symbol .less
  | .le => .symbol .lessEqual
  | .gt => .symbol .greater
  | .ge => .symbol .greaterEqual
  | .and => .keyword .kwAnd
  | .or => .keyword .kwOr

theorem piece_eq (op : BinaryOp) : op.piece = .token op.kind := by
  cases op <;> rfl

@[simp]
theorem binaryOp?_kind (op : BinaryOp) : binaryOp? op.kind = some op := by
  cases op <;> rfl

end BinaryOp

/-- The token of a unary operator. -/
def UnaryOp.kind : UnaryOp → TokenKind
  | .negate => .symbol .minus
  | .not => .keyword .kwNot
  | .length => .symbol .hash

@[simp]
theorem UnaryOp.kinds_pieces (op : UnaryOp) : Piece.kinds op.pieces = [op.kind] := by
  cases op <;> rfl

@[simp]
theorem UnaryOp.unaryOp?_kind (op : UnaryOp) : unaryOp? op.kind = some op := by
  cases op <;> rfl

/-! ## What follows -/

/-- Whether a token starts an access or a call. -/
def startsSuffix : TokenKind → Bool
  | .symbol .dot | .symbol .leftBracket | .symbol .colon | .symbol .leftParen
  | .symbol .leftBrace | .string _ => true
  | _ => false

theorem startsSuffix_binary (op : BinaryOp) : startsSuffix op.kind = false := by
  cases op <;> rfl

/-- How strongly the outermost operator of an expression binds to the right. -/
def Expr.reach? : Expr → Option Nat
  | .binary op _ _ => some op.rightStrength
  | .unary _ _ => some UnaryOp.strength
  | _ => none

/-- Whether a token can follow an expression in a chain of operands: it must not be taken for
    a suffix of its end, nor be an operator that binds more strongly. -/
def Expr.Follows (e : Expr) (kind : TokenKind) : Prop :=
  (e.endsOpen = true → startsSuffix kind = false) ∧
    ∀ op, binaryOp? kind = some op → ∀ r ∈ e.reach?, op.leftStrength ≤ r

/-- Whether a token can follow a whole expression. -/
def Expr.Closes (e : Expr) (kind : TokenKind) : Prop :=
  (e.endsOpen = true → startsSuffix kind = false) ∧ binaryOp? kind = none

theorem Expr.Closes.follows {e : Expr} {kind : TokenKind} (h : e.Closes kind) : e.Follows kind := by
  refine ⟨h.1, fun op hop => ?_⟩
  rw [h.2] at hop
  cases hop

namespace Expr

variable {l r e : Expr} {op op' : BinaryOp} {unary : UnaryOp} {kind : TokenKind} {isLeft : Bool}

theorem needsParens_binary_eq_false_iff :
    (Expr.binary op' l r).needsParens op isLeft = false ↔ op.Admits isLeft op' := by
  rw [BinaryOp.Admits]
  simp only [needsParens, strength?, Bool.or_eq_false_iff, decide_eq_false_iff_not,
    Bool.and_eq_false_iff, beq_eq_false_iff_ne]
  grind

theorem needsParens_unary_eq_false_iff :
    (Expr.unary unary e).needsParens op isLeft = false ↔ op.leftStrength < UnaryOp.strength := by
  have hne := op.leftStrength_ne_strength
  simp only [needsParens, strength?, Bool.or_eq_false_iff, decide_eq_false_iff_not,
    Bool.and_eq_false_iff, beq_eq_false_iff_ne]
  exact ⟨fun h => Nat.lt_of_le_of_ne (Nat.not_lt.1 h.1) hne,
    fun h => ⟨Nat.lt_asymm h, .inl hne.symm⟩⟩

/-- Only a power is the operand of a unary operator without parentheses. -/
theorem strength_lt_of_needsParensUnder
    (h : (Expr.binary op l r).needsParensUnder unary = false) :
    UnaryOp.strength < op.leftStrength ∧ UnaryOp.strength ≤ op.rightStrength := by
  have hstrength : decide (op.leftStrength < UnaryOp.strength) = false :=
    (Bool.or_eq_false_iff.1 h).1
  revert hstrength
  cases op <;> decide

/-- An operator can follow its left operand. -/
theorem follows_of_needsParens_left (h : l.needsParens op true = false) : l.Follows op.kind := by
  refine ⟨fun _ => startsSuffix_binary op, fun op' hop' s hs => ?_⟩
  obtain rfl : op = op' := Option.some.inj ((BinaryOp.binaryOp?_kind op).symm.trans hop')
  cases l with
  | binary op' l r =>
    obtain rfl := Option.some.inj hs
    exact (needsParens_binary_eq_false_iff.1 h).leftStrength_le
  | unary unary e =>
    obtain rfl := Option.some.inj hs
    exact Nat.le_of_lt (needsParens_unary_eq_false_iff.1 h)
  | _ => cases hs

/-- What can follow an operation can follow its right operand. -/
theorem Follows.right (h : (Expr.binary op l r).Follows kind)
    (hr : r.needsParens op false = false) : r.Follows kind := by
  refine ⟨fun hopen => h.1 (Bool.or_eq_true_iff.2 (.inr hopen)), fun op' hop' s hs => ?_⟩
  have hle : op'.leftStrength ≤ op.rightStrength := h.2 op' hop' _ rfl
  cases r with
  | binary op'' l r =>
    obtain rfl := Option.some.inj hs
    exact hle.trans (needsParens_binary_eq_false_iff.1 hr).rightStrength_le.1
  | unary unary e =>
    obtain rfl := Option.some.inj hs
    exact hle.trans (op.rightStrength_le.trans (needsParens_unary_eq_false_iff.1 hr).le)
  | _ => cases hs

/-- What can follow a unary operation can follow its operand. -/
theorem Follows.operand (h : (Expr.unary unary e).Follows kind)
    (he : e.needsParensUnder unary = false) : e.Follows kind := by
  refine ⟨fun hopen => h.1 (Bool.or_eq_true_iff.2 (.inr hopen)), fun op hop s hs => ?_⟩
  have hle : op.leftStrength ≤ UnaryOp.strength := h.2 op hop _ rfl
  cases e with
  | binary op' l r =>
    obtain rfl := Option.some.inj hs
    exact hle.trans (strength_lt_of_needsParensUnder he).2
  | unary unary' e =>
    obtain rfl := Option.some.inj hs
    exact hle
  | _ => cases hs

end Expr

/-! ## What comes first -/

/-- Whether an expression can start with a token. -/
def opensExpr : TokenKind → Bool
  | .name _ | .number _ | .string _ => true
  | .keyword .kwNil | .keyword .kwTrue | .keyword .kwFalse | .keyword .kwFunction
  | .keyword .kwNot => true
  | .symbol .ellipsis | .symbol .leftParen | .symbol .leftBrace | .symbol .minus
  | .symbol .hash => true
  | _ => false

/-- Whether an expression that takes suffixes can start with a token. -/
def opensPrimary : TokenKind → Bool
  | .name _ | .symbol .leftParen => true
  | _ => false

/-- Whether pieces start as an expression does. What follows a name tells an expression from
    a table entry with a name. -/
def Opens (pieces : List Piece) : Prop :=
  ∃ kind rest, pieces = .token kind :: rest ∧ opensExpr kind = true ∧
    ∀ name, kind = .name name → (kinds rest).head? ≠ some (.symbol .equal)

theorem Opens.append {left right : List Piece} (h : Opens left)
    (hright : (kinds right).head? ≠ some (.symbol .equal)) : Opens (left ++ right) := by
  obtain ⟨kind, rest, rfl, hkind, hrest⟩ := h
  refine ⟨kind, rest ++ right, rfl, hkind, fun name hname => ?_⟩
  rw [kinds_append]
  cases hkinds : kinds rest with
  | nil => exact hright
  | cons kind' rest' =>
    rw [List.cons_append, List.head?_cons, ← List.head?_cons, ← hkinds]
    exact hrest name hname

theorem opens_cons {kind : TokenKind} {rest : List Piece} (h : opensExpr kind = true)
    (hname : ∀ name, kind ≠ .name name) : Opens (.token kind :: rest) :=
  ⟨kind, rest, rfl, h, fun name h => absurd h (hname name)⟩

theorem opens_symbol {sign : Symbol} {rest : List Piece} (h : opensExpr (.symbol sign) = true) :
    Opens (sym sign :: rest) :=
  opens_cons h fun _ => TokenKind.noConfusion

theorem opens_keyword {word : Keyword} {rest : List Piece} (h : opensExpr (.keyword word) = true) :
    Opens (kw word :: rest) :=
  opens_cons h fun _ => TokenKind.noConfusion

theorem opens_number {x : Float} {rest : List Piece} : Opens (.token (.number x) :: rest) :=
  opens_cons rfl fun _ => TokenKind.noConfusion

theorem opens_string {literal : Literal} {rest : List Piece} :
    Opens (.token (.string literal) :: rest) :=
  opens_cons rfl fun _ => TokenKind.noConfusion

theorem Opens.parensIf {pieces : List Piece} (h : Opens pieces) (condition : Bool) :
    Opens (parensIf condition pieces) := by
  cases condition with
  | true => exact opens_symbol rfl
  | false => exact h

/-- A number starts with a token that is an expression, with a sign, or with a parenthesis. -/
theorem opens_numberPieces (x : Float) : Opens (numberPieces x) := by
  unfold numberPieces
  split
  · exact opens_symbol rfl
  · split
    · exact opens_symbol rfl
    · exact ⟨.name "math", _, rfl, rfl, fun _ _ => nofun⟩
  · split
    · exact opens_symbol rfl
    · exact opens_number

/-- Whether a token of a tree is written as one token. -/
def TokenKind.IsWhole : TokenKind → Prop
  | .number x => numberPieces x = [.token (.number x)]
  | _ => True

/-- Whether all of some nodes have the shape of ones that were read, and their words are written
    as one token each. -/
abbrev Written (nodes : List Node) : Prop :=
  Node.All (Node.IsShaped TokenKind.IsWhole) nodes

namespace Expr

/-- The nodes of an expression. -/
abbrev nodes (e : Expr) : List Node := Node.ofExpr (fun _ => true) e

theorem opens_pieces (e : Expr) : Opens e.pieces := by
  cases e with
  | nil => exact opens_keyword rfl
  | boolean b => cases b <;> exact opens_keyword rfl
  | number x => exact opens_numberPieces x
  | string _ => exact opens_string
  | vararg => exact opens_symbol rfl
  | name n => exact ⟨.name n, [], rfl, rfl, fun _ _ => nofun⟩
  -- What takes suffixes opens as what it is taken from, unless that stands in parentheses.
  | member t k =>
    rw [pieces]
    exact ((opens_pieces t).parensIf _).append nofun
  | index t k =>
    rw [pieces, List.append_assoc]
    exact ((opens_pieces t).parensIf _).append nofun
  | call f args =>
    rw [pieces]
    exact ((opens_pieces f).parensIf _).append (by rw [kinds_inParens]; exact nofun)
  | methodCall o m args =>
    rw [pieces]
    exact ((opens_pieces o).parensIf _).append nofun
  | function f =>
    cases f
    exact opens_keyword rfl
  | table _ => exact opens_symbol rfl
  | binary op l r =>
    rw [pieces, BinaryOp.piece_eq]
    exact ((opens_pieces l).parensIf _).append (by cases op <;> nofun)
  | unary op e =>
    rw [pieces]
    cases op with
    | negate | length => exact opens_symbol rfl
    | not => exact opens_keyword rfl
  | paren e => exact opens_symbol rfl

/-- Whether tokens start with a name or a parenthesis, and with which of them. -/
def OpensPrimary (isParen : Bool) (kinds : List TokenKind) : Prop :=
  ∃ kind rest, kinds = kind :: rest ∧ opensPrimary kind = true ∧
    (kind = .symbol .leftParen ↔ isParen = true)

theorem OpensPrimary.append {isParen : Bool} {left : List TokenKind} (h : OpensPrimary isParen left)
    (right : List TokenKind) : OpensPrimary isParen (left ++ right) := by
  obtain ⟨kind, rest, rfl, h⟩ := h
  exact ⟨kind, rest ++ right, rfl, h⟩

theorem opensPrimary_paren (rest : List TokenKind) :
    OpensPrimary true (.symbol .leftParen :: rest) :=
  ⟨_, rest, rfl, rfl, by simp⟩

theorem opensPrimary_suffixable {t : Expr}
    (h : t.takesSuffix = true → OpensPrimary t.startsParen (kinds t.pieces)) :
    OpensPrimary (!t.takesSuffix || t.startsParen)
      (kinds (parensIf (!t.takesSuffix) t.pieces)) := by
  cases ht : t.takesSuffix with
  | true => exact h ht
  | false =>
    rw [Bool.not_false, parensIf, if_pos rfl, kinds_inParens]
    exact opensPrimary_paren _

/-- An expression that takes suffixes starts with a name or a parenthesis. -/
theorem opensPrimary_pieces : ∀ {e : Expr}, e.takesSuffix = true →
    OpensPrimary e.startsParen (kinds e.pieces)
  | .name n, _ => ⟨.name n, [], rfl, rfl, by simp [startsParen]⟩
  | .member t k, _ => by
    rw [pieces, kinds_append]
    exact (opensPrimary_suffixable opensPrimary_pieces).append _
  | .index t k, _ => by
    rw [pieces, List.append_assoc, kinds_append]
    exact (opensPrimary_suffixable opensPrimary_pieces).append _
  | .call f args, _ => by
    rw [pieces, kinds_append]
    exact (opensPrimary_suffixable opensPrimary_pieces).append _
  | .methodCall o m args, _ => by
    rw [pieces, kinds_append]
    exact (opensPrimary_suffixable opensPrimary_pieces).append _
  | .paren e, _ => by
    rw [pieces, kinds_inParens]
    exact opensPrimary_paren _

end Expr

end LuaUnpack.Lua
