import LuaUnpack.Proofs.Lua.Kept
import LuaUnpack.Proofs.Lua.Reading

/-!
# The brackets and strings of what is read

A reader keeps every opening bracket and every string: those of the tokens that it takes are, in
their order, those of the pieces that its result is printed as (`Parser.takes`). All other tokens
may be lost, such as parentheses that are not needed, or may be added, such as the parentheses
around the argument of a call that is only a string. A reader that goes on with an expression has
taken the brackets of that expression before, so a step is told what was taken before it
(`Takes`).
-/

namespace LuaUnpack.Lua

namespace Piece

variable {pieces : List Piece}

@[simp]
theorem brackets_nil : brackets [] = [] := rfl

@[simp]
theorem brackets_append (left right : List Piece) :
    brackets (left ++ right) = brackets left ++ brackets right := by
  simp [brackets]

@[simp]
theorem brackets_sym (sign : Symbol) (rest : List Piece) :
    brackets (sym sign :: rest) =
      (if sign = .leftBracket then [TokenKind.symbol .leftBracket] else []) ++ brackets rest := by
  cases sign <;> rfl

@[simp]
theorem brackets_string (literal : Literal) (rest : List Piece) :
    brackets (token (.string literal) :: rest) = .string literal :: brackets rest := rfl

@[simp]
theorem brackets_kw (word : Keyword) (rest : List Piece) :
    brackets (kw word :: rest) = brackets rest := rfl

@[simp]
theorem brackets_ident (name : String) (rest : List Piece) :
    brackets (ident name :: rest) = brackets rest := rfl

@[simp]
theorem brackets_space (text : String) (rest : List Piece) :
    brackets (space text :: rest) = brackets rest := rfl

@[simp]
theorem brackets_blank (rest : List Piece) : brackets (blank :: rest) = brackets rest := rfl

@[simp]
theorem brackets_comma : brackets comma = [] := rfl

@[simp]
theorem brackets_inParens : brackets (inParens pieces) = brackets pieces := by
  simp [inParens]

@[simp]
theorem brackets_parensIf (condition : Bool) :
    brackets (parensIf condition pieces) = brackets pieces := by
  cases condition <;> simp [parensIf]

@[simp]
theorem brackets_line (indent : String) (level : Nat) :
    brackets (line indent level pieces) = brackets pieces := by
  simp [line]

@[simp]
theorem brackets_names : (names : List String) → brackets (Piece.names names) = []
  | [] => rfl
  | [_] => rfl
  | _ :: m :: names => brackets_names (m :: names)

@[simp]
theorem brackets_paramPieces (params : List String) (isVararg : Bool) :
    brackets (paramPieces params isVararg) = [] := by
  cases isVararg <;> cases params <;> simp [paramPieces]

@[simp]
theorem brackets_targetPieces (root : String) (path : List String) (method : Option String) :
    brackets (targetPieces root path method) = [] := by
  have hpath : brackets (path.flatMap fun n => [sym .dot, ident n]) = [] := by
    induction path with
    | nil => rfl
    | cons n path ih => simp [ih]
  cases method <;> simp [targetPieces, hpath]

@[simp]
theorem brackets_numberPieces (x : Float) : brackets (numberPieces x) = [] := by
  unfold numberPieces
  split
  · rfl
  · split <;> rfl
  · split <;> rfl

@[simp]
theorem brackets_operator (op : BinaryOp) (rest : List Piece) :
    brackets (op.piece :: rest) = brackets rest := by
  cases op <;> rfl

@[simp]
theorem brackets_unary (op : UnaryOp) : brackets op.pieces = [] := by
  cases op <;> rfl

@[simp]
theorem brackets_moreListPieces (es : List Expr) :
    brackets (moreListPieces es) = brackets (listPieces es) := by
  cases es <;> simp [moreListPieces, listPieces]

@[simp]
theorem brackets_moreFieldsPieces (fs : List Field) :
    brackets (moreFieldsPieces fs) = brackets (fieldsPieces fs) := by
  cases fs <;> simp [moreFieldsPieces, fieldsPieces]

end Piece

open Piece

namespace Parser

theorem bracketsOf_eq_of_head {tokens : List Token} (h : (head tokens).kind.isBracket = false) :
    bracketsOf tokens = bracketsOf tokens.tail := by
  cases tokens with
  | nil => rfl
  | cons token tokens => exact List.filter_cons_of_neg (Bool.eq_false_iff.1 h)

theorem bracketsOf_cons_of_head {tokens : List Token} {kind : TokenKind}
    (hkind : (head tokens).kind = kind) (h : kind.isBracket = true) :
    bracketsOf tokens = kind :: bracketsOf tokens.tail := by
  subst hkind
  cases tokens with
  | nil => cases h
  | cons token tokens => exact List.filter_cons_of_pos h

/-! ## Steps of readers -/

section

variable {α β : Type} {before : List TokenKind} {P : α → List TokenKind} {Q : β → List TokenKind}

/-- Whether what was taken before and what a reader takes of some tokens are the brackets of what
    it gives. -/
def TakesOf (tokens : List Token) (before : List TokenKind) (act : Parser α)
    (P : α → List TokenKind) : Prop :=
  ∀ a rest, act.run tokens = .ok (a, rest) → before ++ bracketsOf tokens = P a ++ bracketsOf rest

/-- Whether this is so for all tokens. -/
def Takes (before : List TokenKind) (act : Parser α) (P : α → List TokenKind) : Prop :=
  ∀ tokens, TakesOf tokens before act P

theorem TakesOf.of {tokens : List Token} {act : Parser α} (h : Takes before act P) :
    TakesOf tokens before act P := h tokens

theorem takes_pure {a : α} (h : before = P a) : Takes before (pure a) P := by
  rintro tokens _ _ ⟨⟩
  rw [h]

theorem takes_fail (error : ParseError) : Takes before (fail error) P := by
  rintro tokens _ _ ⟨⟩

/-- What was taken still earlier stays in front. -/
theorem Takes.after {act : Parser α} (h : Takes [] act P) (before : List TokenKind) :
    Takes before act fun a => before ++ P a := by
  intro tokens a rest hrun
  rw [List.append_assoc, ← h tokens a rest hrun, List.nil_append]

theorem Takes.bind {act : Parser α} {f : α → Parser β} (h : Takes before act P)
    (hf : ∀ a, Takes (P a) (f a) Q) : Takes before (act >>= f) Q := by
  intro tokens b rest hrun
  rw [StateT.run_bind] at hrun
  cases hact : act.run tokens with
  | error e =>
    rw [hact] at hrun
    cases hrun
  | ok result =>
    obtain ⟨a, middle⟩ := result
    rw [hact] at hrun
    rw [h tokens a middle hact]
    exact hf a middle b rest hrun

/-- A reader that is called when something was taken already. -/
theorem Takes.next {act : Parser α} {f : α → Parser β} (h : Takes [] act P)
    (hf : ∀ a, Takes (before ++ P a) (f a) Q) : Takes before (act >>= f) Q :=
  (h.after before).bind hf

theorem takes_peek {f : Token → Parser β}
    (h : ∀ tokens, TakesOf tokens before (f (head tokens)) Q) : Takes before (peek >>= f) Q := h

theorem takes_get {f : List Token → Parser β} (h : ∀ tokens, TakesOf tokens before (f tokens) Q) :
    Takes before (get >>= f) Q := h

theorem takesOf_advance {tokens : List Token} {f : Unit → Parser β}
    (hkind : (head tokens).kind.isBracket = false) (h : TakesOf tokens.tail before (f ()) Q) :
    TakesOf tokens before (advance >>= f) Q := by
  intro b rest hrun
  rw [bracketsOf_eq_of_head hkind]
  exact h b rest hrun

theorem takesOf_advance_bracket {tokens : List Token} {kind : TokenKind} {f : Unit → Parser β}
    (hkind : (head tokens).kind = kind) (hbracket : kind.isBracket = true)
    (h : Takes (before ++ [kind]) (f ()) Q) : TakesOf tokens before (advance >>= f) Q := by
  intro b rest hrun
  rw [bracketsOf_cons_of_head hkind hbracket, List.append_cons]
  exact h tokens.tail b rest hrun

theorem takes_accept {kind : TokenKind} {f : Bool → Parser β} (hkind : kind.isBracket = false)
    (h : ∀ taken, Takes before (f taken) Q) : Takes before (accept kind >>= f) Q := by
  intro tokens b rest hrun
  rw [StateT.run_bind] at hrun
  by_cases hhead : (head tokens).kind = kind
  · rw [run_accept_of_eq hhead] at hrun
    rw [bracketsOf_eq_of_head (hhead ▸ hkind)]
    exact h true tokens.tail b rest hrun
  · rw [run_accept_of_ne hhead] at hrun
    exact h false tokens b rest hrun

theorem takes_expect {kind : TokenKind} {what : String} {f : Unit → Parser β}
    (hkind : kind.isBracket = false) (h : Takes before (f ()) Q) :
    Takes before (expect kind what >>= f) Q := by
  rw [expect, bind_assoc]
  refine takes_accept hkind fun taken => ?_
  cases taken with
  | true => exact h
  | false =>
    change Takes before (expectedInstead what >>= f) Q
    rw [expectedInstead, bind_assoc]
    exact takes_peek fun tokens => .of ((takes_fail (P := fun _ => before) _).bind fun _ => h)

theorem takes_expectSymbol {sign : Symbol} {f : Unit → Parser β} (hsign : sign ≠ .leftBracket)
    (h : Takes before (f ()) Q) : Takes before (expectSymbol sign >>= f) Q :=
  takes_expect (by cases sign <;> first | rfl | exact absurd rfl hsign) h

theorem takes_expectKeyword {word : Keyword} {f : Unit → Parser β} (h : Takes before (f ()) Q) :
    Takes before (expectKeyword word >>= f) Q := takes_expect rfl h

theorem takes_expectName {f : String → Parser β} (h : ∀ name, Takes before (f name) Q) :
    Takes before (expectName >>= f) Q := by
  rw [expectName, bind_assoc]
  refine takes_peek fun tokens => ?_
  split
  · rename_i name hname
    rw [bind_assoc]
    refine takesOf_advance (by rw [hname]; rfl) ?_
    rw [pure_bind]
    exact .of (h name)
  · rw [expectedInstead, bind_assoc]
    exact .of (takes_peek fun tokens => .of ((takes_fail (P := fun _ => before) _).bind h))

theorem takes_unexpected : Takes before unexpected P := takes_peek fun _ => .of (takes_fail _)

/-! ## Names -/

theorem takes_namesAfter (separator : Symbol) (hseparator : separator ≠ .leftBracket)
    (depth : Nat) : Takes [] (namesAfter separator depth) fun _ => [] := by
  have hkind : (TokenKind.symbol separator).isBracket = false := by
    cases separator <;> first | rfl | exact absurd rfl hseparator
  induction depth with
  | zero => exact takes_fail _
  | succ depth ih =>
    rw [namesAfter]
    refine takes_accept hkind fun taken => ?_
    split
    · exact takes_expectName fun name => ih.bind fun names => takes_pure rfl
    · exact takes_pure rfl

theorem takes_params (depth : Nat) : Takes [] (params depth) fun _ => [] := by
  induction depth with
  | zero => exact takes_fail _
  | succ depth ih =>
    rw [params]
    refine takes_accept rfl fun taken => ?_
    split
    · exact takes_pure rfl
    refine takes_expectName fun name => takes_accept rfl fun taken => ?_
    split
    · exact ih.bind fun params => takes_pure rfl
    · exact takes_pure rfl

theorem takes_paramList (depth : Nat) : Takes [] (paramList depth) fun _ => [] := by
  rw [paramList]
  refine takes_expectSymbol (by decide) (takes_peek fun tokens => .of ?_)
  split
  · rw [pure_bind]
    exact takes_expectSymbol (by decide) (takes_pure rfl)
  · refine (takes_params depth).bind fun params => ?_
    exact takes_expectSymbol (by decide) (takes_pure rfl)

end

/-! ## The readers -/

/-- What all readers take at a depth. -/
structure TakesAll (depth : Nat) : Prop where
  block : ∀ level, Takes [] (block depth) fun b => brackets (blockPieces defaultIndent level b)
  statement : ∀ level, Takes [] (statement depth) fun s => brackets (s.pieces defaultIndent level)
  localStatement : ∀ level,
    Takes [] (localStatement depth) fun s => brackets (s.pieces defaultIndent level)
  functionStatement : ∀ level,
    Takes [] (functionStatement depth) fun s => brackets (s.pieces defaultIndent level)
  forStatement : ∀ level,
    Takes [] (forStatement depth) fun s => brackets (s.pieces defaultIndent level)
  expressionStatement : ∀ level,
    Takes [] (expressionStatement depth) fun s => brackets (s.pieces defaultIndent level)
  returnValues : ∀ level,
    Takes [] (returnValues depth) fun s => brackets (s.pieces defaultIndent level)
  funcBody : ∀ level,
    Takes [] (funcBody depth) fun f => brackets (blockPieces defaultIndent level f.body)
  clause : ∀ level, Takes [] (clause depth) fun c =>
    brackets c.1.pieces ++ brackets (blockPieces defaultIndent level c.2)
  elsePart : ∀ level, Takes [] (elsePart depth) fun o => brackets (o.pieces defaultIndent level)
  moreTargets : Takes [] (moreTargets depth) fun es => brackets (listPieces es)
  expressionList : Takes [] (expressionList depth) fun es => brackets (listPieces es)
  expression : Takes [] (expression depth) fun e => brackets e.pieces
  operand : ∀ limit, Takes [] (operand depth limit) fun e => brackets e.pieces
  chain : ∀ limit left, Takes (brackets left.pieces) (chain depth limit left) fun e =>
    brackets e.pieces
  simple : Takes [] (simple depth) fun e => brackets e.pieces
  primary : Takes [] (primary depth) fun e => brackets e.pieces
  suffixed : Takes [] (suffixed depth) fun e => brackets e.pieces
  suffixes : ∀ e, Takes (brackets e.pieces) (suffixes depth e) fun e => brackets e.pieces
  arguments : Takes [] (arguments depth) fun es => brackets (listPieces es)
  table : Takes [] (table depth) fun e => brackets e.pieces
  fields : Takes [] (fields depth) fun fs => brackets (fieldsPieces fs)
  field : Takes [] (field depth) fun f => brackets f.pieces

theorem takesAll_zero : TakesAll 0 := by
  constructor
  all_goals first
    | exact takes_fail _
    | exact fun _ => takes_fail _
    | exact fun _ _ => takes_fail _

section

variable {depth : Nat}

/-! ### Expressions -/

-- The layouts of which the brackets are taken.
attribute [local simp] listPieces moreListPieces fieldsPieces moreFieldsPieces blockPieces
  Expr.pieces Field.pieces Stmt.pieces Else.pieces

/-- A token that is an expression is a string, or has no brackets. -/
theorem brackets_atom {tokens : List Token} {e : Expr} {Q : Expr → List TokenKind}
    (hatom : atom? (head tokens).kind = some e)
    (hQ : Q e = brackets e.pieces) : TakesOf tokens [] (do advance; return e) Q := by
  generalize hkind : (head tokens).kind = kind at hatom
  unfold atom? at hatom
  split at hatom <;> cases hatom
  case h_5 literal =>
    exact takesOf_advance_bracket hkind rfl (takes_pure (by rw [hQ]; rfl))
  case h_4 x =>
    refine takesOf_advance (by rw [hkind]; rfl) (.of (takes_pure ?_))
    rw [hQ, Expr.pieces, brackets_numberPieces]
  all_goals exact takesOf_advance (by rw [hkind]; rfl) (.of (takes_pure (by rw [hQ]; rfl)))

theorem TakesAll.expressionList_succ (h : TakesAll depth) :
    Takes [] (Parser.expressionList (depth + 1)) fun es => brackets (listPieces es) := by
  rw [Parser.expressionList]
  refine h.expression.bind fun e => takes_accept rfl fun taken => ?_
  split
  · exact h.expressionList.next fun es => takes_pure (by simp)
  · exact takes_pure (by simp)

theorem TakesAll.moreTargets_succ (h : TakesAll depth) :
    Takes [] (Parser.moreTargets (depth + 1)) fun es => brackets (listPieces es) := by
  rw [Parser.moreTargets]
  refine takes_accept rfl fun taken => ?_
  split
  · exact h.suffixed.bind fun e => h.moreTargets.next fun es => takes_pure (by simp)
  · exact takes_pure rfl

theorem isBracket_of_unaryOp? {kind : TokenKind} {op : UnaryOp} (h : unaryOp? kind = some op) :
    kind.isBracket = false := by
  unfold unaryOp? at h
  split at h <;> first | rfl | cases h

theorem isBracket_of_binaryOp? {kind : TokenKind} {op : BinaryOp} (h : binaryOp? kind = some op) :
    kind.isBracket = false := by
  unfold binaryOp? at h
  split at h <;> first | rfl | cases h

theorem TakesAll.operand_succ (h : TakesAll depth) (limit : Nat) :
    Takes [] (Parser.operand (depth + 1) limit) fun e => brackets e.pieces := by
  rw [Parser.operand]
  refine takes_peek fun tokens => ?_
  split
  · rename_i op hop
    refine takesOf_advance (isBracket_of_unaryOp? hop) (.of ((h.operand _).bind fun e => ?_))
    have hunary : brackets (Expr.unary op e).pieces = brackets e.pieces := by simp
    rw [← hunary]
    exact h.chain _ _
  · exact .of (h.simple.bind fun e => h.chain _ _)

theorem TakesAll.chain_succ (h : TakesAll depth) (limit : Nat) (left : Expr) :
    Takes (brackets left.pieces) (Parser.chain (depth + 1) limit left) fun e =>
      brackets e.pieces := by
  rw [Parser.chain]
  refine takes_peek fun tokens => ?_
  split
  · rename_i op hop
    split
    · exact .of (takes_pure rfl)
    · refine takesOf_advance (isBracket_of_binaryOp? hop) (.of ((h.operand _).next fun e => ?_))
      have hbinary : brackets (Expr.binary op left e).pieces =
          brackets left.pieces ++ brackets e.pieces := by simp
      rw [← hbinary]
      exact h.chain _ _
  · exact .of (takes_pure rfl)

theorem TakesAll.simple_succ (h : TakesAll depth) :
    Takes [] (Parser.simple (depth + 1)) fun e => brackets e.pieces := by
  rw [Parser.simple]
  refine takes_peek fun tokens => ?_
  dsimp only
  split
  · rename_i e hatom
    exact brackets_atom hatom rfl
  · split
    · exact .of h.table
    · split
      · rename_i hkind
        refine takesOf_advance (by rw [hkind]; rfl) (.of ((h.funcBody 1).bind fun f => ?_))
        obtain ⟨params, isVararg, body⟩ := f
        exact takes_pure (by simp)
      · exact .of h.suffixed

theorem TakesAll.primary_succ (h : TakesAll depth) :
    Takes [] (Parser.primary (depth + 1)) fun e => brackets e.pieces := by
  rw [Parser.primary]
  refine takes_peek fun tokens => ?_
  split
  · rename_i text hkind
    exact takesOf_advance (by rw [hkind]; rfl) (.of (takes_pure rfl))
  · rename_i hkind
    refine takesOf_advance (by rw [hkind]; rfl) (.of (h.expression.bind fun e => ?_))
    refine takes_expectSymbol (by decide) (takes_pure ?_)
    rw [parenthesized]
    split <;> simp
  · exact .of takes_unexpected

theorem TakesAll.suffixed_succ (h : TakesAll depth) :
    Takes [] (Parser.suffixed (depth + 1)) fun e => brackets e.pieces := by
  rw [Parser.suffixed]
  exact h.primary.bind fun e => h.suffixes e

theorem TakesAll.suffixes_succ (h : TakesAll depth) (e : Expr) :
    Takes (brackets e.pieces) (Parser.suffixes (depth + 1) e) fun e => brackets e.pieces := by
  have hcall : Takes (brackets e.pieces)
      (Parser.arguments depth >>= fun args => Parser.suffixes depth (.call e args))
      fun e => brackets e.pieces := by
    refine h.arguments.next fun args => ?_
    have hargs : brackets (Expr.call e args).pieces =
        brackets e.pieces ++ brackets (listPieces args) := by simp
    rw [← hargs]
    exact h.suffixes _
  rw [Parser.suffixes]
  refine takes_peek fun tokens => ?_
  split
  · -- The bracket of an index counts itself; the other suffixes take brackets in their parts only.
    rename_i hkind
    refine takesOf_advance (by rw [hkind]; rfl) (.of (takes_expectName fun key => ?_))
    have hmember : brackets (Expr.member e key).pieces = brackets e.pieces := by
      simp
    rw [← hmember]
    exact h.suffixes _
  · rename_i hkind
    refine takesOf_advance_bracket hkind rfl (h.expression.next fun key => ?_)
    refine takes_expectSymbol (by decide) ?_
    have hindex : brackets (Expr.index e key).pieces =
        brackets e.pieces ++ [TokenKind.symbol .leftBracket] ++ brackets key.pieces := by
      simp
    rw [← hindex]
    exact h.suffixes _
  · rename_i hkind
    refine takesOf_advance (by rw [hkind]; rfl) (.of (takes_expectName fun method => ?_))
    refine h.arguments.next fun args => ?_
    have hmethod : brackets (Expr.methodCall e method args).pieces =
        brackets e.pieces ++ brackets (listPieces args) := by simp
    rw [← hmethod]
    exact h.suffixes _
  · exact .of hcall
  · exact .of hcall
  · exact .of hcall
  · exact .of (takes_pure rfl)

theorem TakesAll.arguments_succ (h : TakesAll depth) :
    Takes [] (Parser.arguments (depth + 1)) fun es => brackets (listPieces es) := by
  rw [Parser.arguments]
  refine takes_peek fun tokens => ?_
  split
  · rename_i literal hkind
    exact takesOf_advance_bracket hkind rfl (takes_pure rfl)
  · exact .of (h.table.bind fun e => takes_pure (by simp))
  · rename_i hkind
    refine takesOf_advance (by rw [hkind]; rfl) (.of (takes_accept rfl fun taken => ?_))
    split
    · exact takes_pure rfl
    · exact h.expressionList.bind fun es => takes_expectSymbol (by decide) (takes_pure rfl)
  · exact .of takes_unexpected

/-! ### Tables -/

theorem TakesAll.table_succ (h : TakesAll depth) :
    Takes [] (Parser.table (depth + 1)) fun e => brackets e.pieces := by
  rw [Parser.table]
  refine takes_expectSymbol (by decide) (h.fields.bind fun fs => ?_)
  exact takes_expectSymbol (by decide) (takes_pure (by simp))

theorem TakesAll.fields_succ (h : TakesAll depth) :
    Takes [] (Parser.fields (depth + 1)) fun fs => brackets (fieldsPieces fs) := by
  rw [Parser.fields]
  refine takes_peek fun tokens => .of ?_
  split
  · exact takes_pure rfl
  refine h.field.bind fun f => takes_accept rfl fun taken => ?_
  split
  · exact h.fields.next fun fs => takes_pure (by simp)
  refine takes_accept rfl fun taken => ?_
  split
  · exact h.fields.next fun fs => takes_pure (by simp)
  · exact takes_pure (by simp)

theorem TakesAll.field_succ (h : TakesAll depth) :
    Takes [] (Parser.field (depth + 1)) fun f => brackets f.pieces := by
  rw [Parser.field]
  refine takes_get fun tokens => ?_
  split
  · rename_i hkind
    refine takesOf_advance_bracket hkind rfl (h.expression.next fun key => ?_)
    refine takes_expectSymbol (by decide) (takes_expectSymbol (by decide) ?_)
    exact h.expression.next fun value => takes_pure (by simp)
  · rename_i text hkind hequal
    refine takesOf_advance (by rw [hkind]; rfl) (takesOf_advance (by rw [hequal]; rfl) (.of ?_))
    exact h.expression.bind fun value => takes_pure (by simp)
  · exact .of (h.expression.bind fun value => takes_pure (by simp))

/-! ### Statements -/

theorem TakesAll.block_succ (h : TakesAll depth) (level : Nat) :
    Takes [] (Parser.block (depth + 1)) fun b =>
      brackets (blockPieces defaultIndent level b) := by
  rw [Parser.block]
  refine takes_peek fun tokens => ?_
  dsimp only
  split
  · exact .of (takes_pure rfl)
  split
  · rename_i hkind
    exact takesOf_advance (by rw [hkind]; rfl) (.of (h.block level))
  split
  · rename_i hkind
    refine takesOf_advance (by rw [hkind]; rfl) (.of ((h.returnValues level).bind fun s => ?_))
    exact takes_pure (by simp)
  · refine .of ((h.statement level).bind fun s => (h.block level).next fun b => ?_)
    exact takes_pure (by simp)

theorem TakesAll.statement_succ (h : TakesAll depth) (level : Nat) :
    Takes [] (Parser.statement (depth + 1)) fun s =>
      brackets (s.pieces defaultIndent level) := by
  rw [Parser.statement]
  refine takes_peek fun tokens => ?_
  split <;> first | exact .of (h.expressionStatement level) | rename_i hkind
  -- The word that the statement starts with is no bracket.
  all_goals refine takesOf_advance (by rw [hkind]; rfl) (.of ?_)
  · exact h.localStatement level
  · exact h.functionStatement level
  · refine (h.clause (level + 1)).bind fun c => (h.elsePart level).next fun o => ?_
    exact takes_pure (by simp)
  · refine h.expression.bind fun c => takes_expectKeyword ((h.block (level + 1)).next fun b => ?_)
    exact takes_expectKeyword (takes_pure (by simp))
  · exact h.forStatement level
  · refine (h.block (level + 1)).bind fun b => takes_expectKeyword (h.expression.next fun c => ?_)
    exact takes_pure (by simp)
  · refine (h.block (level + 1)).bind fun b => takes_expectKeyword (takes_pure ?_)
    simp
  · exact takes_pure rfl
  · exact takes_expectName fun n => takes_pure rfl
  · exact takes_expectName fun n => takes_expectSymbol (by decide) (takes_pure rfl)

theorem TakesAll.localStatement_succ (h : TakesAll depth) (level : Nat) :
    Takes [] (Parser.localStatement (depth + 1)) fun s =>
      brackets (s.pieces defaultIndent level) := by
  rw [Parser.localStatement]
  refine takes_accept rfl fun taken => ?_
  split
  · refine takes_expectName fun n => (h.funcBody (level + 1)).bind fun f => ?_
    obtain ⟨params, isVararg, body⟩ := f
    exact takes_pure (by simp)
  refine takes_expectName fun n => (takes_namesAfter _ (by decide) _).bind fun names => ?_
  refine takes_accept rfl fun taken => ?_
  split
  · refine h.expressionList.bind fun es => takes_pure ?_
    cases es <;> simp
  · exact takes_pure (by simp)

theorem TakesAll.functionStatement_succ (h : TakesAll depth) (level : Nat) :
    Takes [] (Parser.functionStatement (depth + 1)) fun s =>
      brackets (s.pieces defaultIndent level) := by
  rw [Parser.functionStatement]
  refine takes_expectName fun root => (takes_namesAfter _ (by decide) _).bind fun path => ?_
  refine takes_accept rfl fun taken => ?_
  split
  · refine takes_expectName fun m => (h.funcBody (level + 1)).bind fun f => ?_
    exact takes_pure (by simp)
  · refine (h.funcBody (level + 1)).bind fun f => ?_
    obtain ⟨params, isVararg, body⟩ := f
    exact takes_pure (by simp)

theorem TakesAll.forStatement_succ (h : TakesAll depth) (level : Nat) :
    Takes [] (Parser.forStatement (depth + 1)) fun s =>
      brackets (s.pieces defaultIndent level) := by
  rw [Parser.forStatement]
  refine takes_expectName fun n => takes_accept rfl fun taken => ?_
  split
  · refine h.expression.bind fun start => takes_expectSymbol (by decide) ?_
    refine h.expression.next fun limit => takes_accept rfl fun taken => ?_
    split
    · -- The optional step is read within an action of its own, which is taken apart here.
      rw [map_eq_pure_bind, bind_assoc]
      refine h.expression.next fun step => ?_
      rw [pure_bind]
      refine takes_expectKeyword ((h.block (level + 1)).next fun b => ?_)
      exact takes_expectKeyword (takes_pure (by simp))
    · rw [pure_bind]
      refine takes_expectKeyword ((h.block (level + 1)).next fun b => ?_)
      exact takes_expectKeyword (takes_pure (by simp))
  · refine (takes_namesAfter _ (by decide) _).bind fun names => takes_expectKeyword ?_
    refine h.expressionList.bind fun es => takes_expectKeyword ?_
    refine (h.block (level + 1)).next fun b => takes_expectKeyword (takes_pure ?_)
    simp

theorem TakesAll.expressionStatement_succ (h : TakesAll depth) (level : Nat) :
    Takes [] (Parser.expressionStatement (depth + 1)) fun s =>
      brackets (s.pieces defaultIndent level) := by
  rw [Parser.expressionStatement]
  refine takes_peek fun _ => .of (h.suffixed.bind fun e => takes_peek fun _ => .of ?_)
  dsimp only
  split
  · refine h.moreTargets.next fun ts => takes_expectSymbol (by decide) ?_
    refine h.expressionList.next fun es => ?_
    split
    · exact takes_pure (by simp)
    · exact takes_fail _
  · split
    · exact takes_pure (by simp)
    · exact takes_fail _

theorem TakesAll.returnValues_succ (h : TakesAll depth) (level : Nat) :
    Takes [] (Parser.returnValues (depth + 1)) fun s =>
      brackets (s.pieces defaultIndent level) := by
  have hreturn : ∀ es, brackets (listPieces es) =
      brackets ((Stmt.ret es).pieces defaultIndent level) := by
    intro es
    cases es <;> simp
  rw [Parser.returnValues]
  refine takes_peek fun _ => .of ?_
  dsimp only
  split
  · rw [pure_bind]
    exact takes_accept rfl fun _ => takes_pure (hreturn [])
  · exact h.expressionList.bind fun es => takes_accept rfl fun _ => takes_pure (hreturn es)

theorem TakesAll.funcBody_succ (h : TakesAll depth) (level : Nat) :
    Takes [] (Parser.funcBody (depth + 1)) fun f =>
      brackets (blockPieces defaultIndent level f.body) := by
  rw [Parser.funcBody]
  refine (takes_paramList depth).bind fun params => (h.block level).bind fun b => ?_
  exact takes_expectKeyword (takes_pure rfl)

theorem TakesAll.clause_succ (h : TakesAll depth) (level : Nat) :
    Takes [] (Parser.clause (depth + 1)) fun c =>
      brackets c.1.pieces ++ brackets (blockPieces defaultIndent level c.2) := by
  rw [Parser.clause]
  refine h.expression.bind fun c => takes_expectKeyword ((h.block level).next fun b => ?_)
  exact takes_pure rfl

theorem TakesAll.elsePart_succ (h : TakesAll depth) (level : Nat) :
    Takes [] (Parser.elsePart (depth + 1)) fun o =>
      brackets (o.pieces defaultIndent level) := by
  rw [Parser.elsePart]
  refine takes_accept rfl fun taken => ?_
  split
  · refine (h.clause (level + 1)).bind fun c => (h.elsePart level).next fun o => ?_
    exact takes_pure (by simp)
  refine takes_accept rfl fun taken => ?_
  split
  · refine (h.block (level + 1)).bind fun b => takes_expectKeyword (takes_pure ?_)
    simp
  · exact takes_expectKeyword (takes_pure rfl)

end

theorem takesAll (depth : Nat) : TakesAll depth := by
  induction depth with
  | zero => exact takesAll_zero
  | succ depth ih =>
    exact
      { block := ih.block_succ
        statement := ih.statement_succ
        localStatement := ih.localStatement_succ
        functionStatement := ih.functionStatement_succ
        forStatement := ih.forStatement_succ
        expressionStatement := ih.expressionStatement_succ
        returnValues := ih.returnValues_succ
        funcBody := ih.funcBody_succ
        clause := ih.clause_succ
        elsePart := ih.elsePart_succ
        moreTargets := ih.moreTargets_succ
        expressionList := ih.expressionList_succ
        expression := ih.operand 0
        operand := ih.operand_succ
        chain := ih.chain_succ
        simple := ih.simple_succ
        primary := ih.primary_succ
        suffixed := ih.suffixed_succ
        suffixes := ih.suffixes_succ
        arguments := ih.arguments_succ
        table := ih.table_succ
        fields := ih.fields_succ
        field := ih.field_succ }

end Parser

end LuaUnpack.Lua
