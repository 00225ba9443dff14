import LuaUnpack.Proofs.Lua.RoundTrip

/-!
# Expressions written without parentheses

An expression of names, constants and operators can be written word by word, with no
parentheses (`Expr.flatText`). The words are then tokens as they stand, unless there is a
minus sign before another one: the two start a comment, and all that follows is lost
(`fits_or_comment`, `tokenize_render_comment`).
-/

namespace LuaUnpack.Lua

open Piece

/-! ## The text -/

namespace Expr

/-- Whether an expression is a single word that can be read, on one line. -/
def IsWord : Expr → Prop
  | .nil | .boolean _ => True
  | .number x => HasNumeral x
  | .string literal => literal.IsShort ∧ '\n' ∉ literal.raw.toList
  | .name n => isIdentifier n = true
  | _ => False

/-- Whether an expression consists of words and operators. -/
inductive IsPlain : Expr → Prop
  | word {e : Expr} (h : e.IsWord) : IsPlain e
  | unary (op : UnaryOp) {e : Expr} (h : IsPlain e) : IsPlain (.unary op e)
  | binary (op : BinaryOp) {l r : Expr} (hl : IsPlain l) (hr : IsPlain r) :
    IsPlain (.binary op l r)

/-- The pieces of an expression that is written without parentheses. -/
def flatPieces : Expr → List Piece
  | .binary op l r => l.flatPieces ++ blank :: op.piece :: blank :: r.flatPieces
  | .unary op e => op.pieces ++ e.flatPieces
  | e => e.pieces

/-- The text of an expression that is written without parentheses. -/
def flatText (e : Expr) : String := render e.flatPieces

/-- Whether an expression is a negation. -/
def isNegation : Expr → Bool
  | .unary .negate _ => true
  | _ => false

/-- Whether somewhere in an expression a negation is negated. -/
def hasDoubleMinus : Expr → Bool
  | .binary _ l r => l.hasDoubleMinus || r.hasDoubleMinus
  | .unary op e => (op == .negate && e.isNegation) || e.hasDoubleMinus
  | _ => false

variable {e l r : Expr} {next : Option Char}

theorem flatPieces_unary (op : UnaryOp) (e : Expr) :
    (unary op e).flatPieces = op.pieces ++ e.flatPieces := rfl

theorem flatPieces_binary (op : BinaryOp) (l r : Expr) :
    (binary op l r).flatPieces =
      l.flatPieces ++ blank :: op.piece :: blank :: r.flatPieces := rfl

theorem IsWord.flatPieces_eq (h : e.IsWord) : e.flatPieces = e.pieces := by
  cases e <;> first | rfl | cases h

theorem IsPlain.of_unary {op : UnaryOp} (h : (Expr.unary op e).IsPlain) : e.IsPlain := by
  cases h with
  | word h => cases h
  | unary _ h => exact h

theorem IsPlain.of_binary {op : BinaryOp} (h : (Expr.binary op l r).IsPlain) :
    l.IsPlain ∧ r.IsPlain := by
  cases h with
  | word h => cases h
  | binary _ hl hr => exact ⟨hl, hr⟩

theorem IsWord.isWritable (h : e.IsWord) : e.IsWritable := by
  have hwords {word : TokenKind} (hword : word.IsReadable) :
      ∀ word' ∈ [word], word'.IsReadable := List.forall_mem_singleton.2 hword
  cases e with
  | nil | boolean _ => exact Node.all_above_iff.2 ⟨⟨nofun, trivial, nofun⟩, Node.all_nil⟩
  | number x => exact Node.all_above_iff.2 ⟨⟨hwords h, trivial, nofun⟩, Node.all_nil⟩
  | string l => exact Node.all_above_iff.2 ⟨⟨hwords h.1, trivial, nofun⟩, Node.all_nil⟩
  | name n => exact Node.all_above_iff.2 ⟨⟨hwords h, trivial, nofun⟩, Node.all_nil⟩
  | _ => cases h

theorem IsWord.reach? (h : e.IsWord) : e.reach? = none := by
  cases e <;> first | rfl | cases h

/-! ## Where words end -/

/-- Whether pieces have a minus sign before another one, and what is before them can be
    read. -/
def StartsComment (pieces : List Piece) : Prop :=
  ∃ before rest, pieces = before ++ sym .minus :: sym .minus :: rest ∧
    Fits False (some '-') before ∧ ∀ next, lead next rest ≠ some '['

/-- A plain expression starts with no bracket, and with a minus sign only if that is a token
    of its own, after which there is no bracket either. -/
theorem IsPlain.lead (h : e.IsPlain) (next : Option Char) :
    ∃ c, lead next e.flatPieces = some c ∧ c ≠ '[' ∧ (c = '-' →
      ∃ rest, e.flatPieces = sym .minus :: rest ∧ ∀ next, Piece.lead next rest ≠ some '[') := by
  -- The first character of a binary expression is that of its left side, with a blank behind it.
  induction h generalizing next with
  | word h =>
    have hprinted : Printed False _ :=
      Node.All.mono h.isWritable fun _ hnode => hnode.mono fun _ hword => hword.isPrinted False
    obtain ⟨c, hc, hbracket, -, hminus⟩ :=
      (opens_pieces _).lead ((isFit hprinted).fits (show endsNumber none = true from rfl)) next
    rw [h.flatPieces_eq]
    exact ⟨c, hc, hbracket,
      fun h' => absurd (hminus h') (head?_ne_minus_of_reach? hprinted h.reach?)⟩
  | @unary op e h ih =>
    cases op with
    | negate =>
      refine ⟨'-', rfl, by decide, fun _ => ⟨e.flatPieces, rfl, fun next => ?_⟩⟩
      obtain ⟨c, hc, hbracket, -⟩ := ih next
      rw [hc]
      exact fun h => hbracket (Option.some.inj h)
    | not => exact ⟨'n', rfl, by decide, fun h => absurd h (by decide)⟩
    | length => exact ⟨'#', rfl, by decide, fun h => absurd h (by decide)⟩
  | binary op hl hr ihl ihr =>
    rw [flatPieces_binary, lead_append]
    obtain ⟨c, hc, hbracket, hminus⟩ := ihl (some ' ')
    refine ⟨c, hc, hbracket, fun h => ?_⟩
    obtain ⟨rest, hrest, hlead⟩ := hminus h
    refine ⟨rest ++ blank :: op.piece :: blank :: _, by rw [hrest, List.cons_append],
      fun next => ?_⟩
    rw [lead_append]
    exact hlead _

theorem fits_operator (op : BinaryOp) {pieces : List Piece} (h : Fits False next pieces) :
    Fits False next (blank :: op.piece :: blank :: pieces) := by
  rw [BinaryOp.piece_eq]
  exact fits_blank ⟨op.isSpelled_kind False, op.endsBefore_blank False, fits_blank h⟩

theorem fits_unaryOperator (op : UnaryOp) {pieces : List Piece} (h : Fits False next pieces)
    (hminus : op = .negate → Piece.lead next pieces ≠ some '-') :
    Fits False next (op.pieces ++ pieces) := by
  cases op with
  | negate => exact fits_sym (hminus rfl) h
  | not => exact fits_kw rfl (fits_blank h)
  | length => exact fits_sym trivial h

/-- What is written for a plain expression can be read word by word, or it starts a
    comment. -/
theorem IsPlain.fits_or_comment (h : e.IsPlain) (hnext : endsNumber next = true) :
    Fits False next e.flatPieces ∨ StartsComment e.flatPieces := by
  induction h generalizing next with
  | word h =>
    rw [h.flatPieces_eq]
    exact .inl ((isFit (Node.All.mono h.isWritable fun _ hnode =>
      hnode.mono fun _ hword => hword.isPrinted False)).fits hnext)
  | @unary op e h ih =>
    rw [flatPieces_unary]
    -- The only sign that can run together with what follows it is a minus.
    by_cases hdouble : op = .negate ∧ ∃ rest, e.flatPieces = sym .minus :: rest ∧
        ∀ next, Piece.lead next rest ≠ some '['
    · obtain ⟨rfl, rest, hrest, hlead⟩ := hdouble
      exact .inr ⟨[], rest, by rw [hrest]; rfl, trivial, hlead⟩
    · have hminus (next : Option Char) :
          op = .negate → Piece.lead next e.flatPieces ≠ some '-' := by
        rintro hop hlead
        obtain ⟨c, hc, -, hrest⟩ := h.lead next
        rw [hc] at hlead
        exact hdouble ⟨hop, hrest (Option.some.inj hlead)⟩
      rcases ih hnext with hfits | ⟨before, rest, hpieces, hbefore, hlead⟩
      · exact .inl (fits_unaryOperator op hfits (hminus next))
      · refine .inr ⟨op.pieces ++ before, rest, ?_, fits_unaryOperator op hbefore fun hop => ?_,
          hlead⟩
        · rw [hpieces, List.append_assoc]
        · have hfirst := hminus none hop
          rwa [hpieces, lead_append] at hfirst
  | binary op hl hr ihl ihr =>
    rw [flatPieces_binary]
    rcases @ihl (some ' ') rfl with hleft | ⟨before, rest, hpieces, hbefore, hlead⟩
    · rcases ihr hnext with hright | ⟨before, rest, hpieces, hbefore, hlead⟩
      · exact .inl (fits_append_iff.2 ⟨hleft, fits_operator op hright⟩)
      · rw [hpieces]
        exact .inr ⟨_ ++ blank :: op.piece :: blank :: before, rest,
          by rw [List.append_assoc]; rfl,
          fits_append_iff.2 ⟨hleft, fits_operator op hbefore⟩, hlead⟩
    · refine .inr ⟨before, rest ++ blank :: op.piece :: blank :: _,
        by rw [hpieces, List.append_assoc]; rfl, hbefore, fun next => ?_⟩
      rw [lead_append]
      exact hlead _

/-- A minus sign before another one cannot be read. -/
theorem not_fits_of_doubleMinus (before rest : List Piece) :
    ¬ Fits False next (before ++ sym .minus :: sym .minus :: rest) :=
  fun h => (fits_append_iff.1 h).2.2.1 rfl

/-- A negation of a negation is written with two minus signs. -/
theorem IsPlain.exists_doubleMinus (hplain : e.IsPlain) (h : e.hasDoubleMinus = true) :
    ∃ before rest, e.flatPieces = before ++ sym .minus :: sym .minus :: rest := by
  -- The double minus is at this node, or it is in one of its parts.
  induction hplain with
  | word hword => cases ‹Expr› <;> first | cases h | cases hword
  | @unary op e _ ih =>
    rcases Bool.or_eq_true_iff.1 h with h | h
    · obtain ⟨hop, hnegation⟩ := Bool.and_eq_true_iff.1 h
      obtain rfl := eq_of_beq hop
      cases e with
      | unary op e =>
        cases op with
        | negate => exact ⟨[], e.flatPieces, rfl⟩
        | not | length => cases hnegation
      | _ => cases hnegation
    · obtain ⟨before, rest, hpieces⟩ := ih h
      exact ⟨op.pieces ++ before, rest, by rw [flatPieces_unary, hpieces, List.append_assoc]⟩
  | @binary op l r _ _ ihl ihr =>
    rcases Bool.or_eq_true_iff.1 h with h | h
    · obtain ⟨before, rest, hpieces⟩ := ihl h
      exact ⟨before, rest ++ blank :: op.piece :: blank :: r.flatPieces,
        by rw [flatPieces_binary, hpieces, List.append_assoc]; rfl⟩
    · obtain ⟨before, rest, hpieces⟩ := ihr h
      exact ⟨l.flatPieces ++ blank :: op.piece :: blank :: before, rest,
        by rw [flatPieces_binary, hpieces, List.append_assoc]; rfl⟩

/-! ## Comments -/

theorem toList_render_append (left right : List Piece) :
    (render (left ++ right)).toList = (render left).toList ++ (render right).toList := by
  induction left with
  | nil => rfl
  | cons piece left ih =>
    rw [List.cons_append, toList_render_cons, toList_render_cons, ih, List.append_assoc]

theorem IsWord.not_mem_toList (h : e.IsWord) : '\n' ∉ (render e.pieces).toList := by
  cases e with
  | nil => decide
  | boolean value => cases value <;> decide
  | number x =>
    -- A numeral has digits and a point only.
    have hnumeral : HasNumeral x := h
    obtain ⟨first, rest, htext, hfirst, hrest, -⟩ := hnumeral.digits
    rw [pieces, hnumeral.pieces, toList_render_cons, htext]
    intro hline
    rcases List.mem_cons.1 ((List.mem_append.1 hline).resolve_right nofun) with rfl | hline
    · cases hfirst
    · obtain hline | hline := hrest _ hline <;> cases hline
  | string literal =>
    obtain ⟨⟨quote, hspelling, hquote, -⟩, hraw⟩ := h
    rw [pieces, toList_render_cons, Piece.text, hspelling]
    rcases hquote with ⟨rfl, -⟩ | ⟨rfl, -⟩ <;> simpa using ⟨hraw, nofun⟩
  | name n =>
    have hname : isIdentifier n = true := h
    rw [pieces, toList_render_cons]
    change '\n' ∉ n.toList ++ []
    rw [List.append_nil]
    rw [isIdentifier] at hname
    split at hname
    · cases hname
    · rename_i c cs htext
      simp only [Bool.and_eq_true, List.all_eq_true] at hname
      rw [htext]
      intro hline
      rcases List.mem_cons.1 hline with rfl | hline
      · cases hname.1.1
      · cases hname.1.2 _ hline
  | _ => cases h

/-- What is written for a plain expression is one line. -/
theorem IsPlain.not_mem_toList (h : e.IsPlain) : '\n' ∉ (render e.flatPieces).toList := by
  induction h with
  | word h =>
    rw [h.flatPieces_eq]
    exact h.not_mem_toList
  | unary op h ih =>
    rw [flatPieces_unary, toList_render_append, List.mem_append, not_or]
    exact ⟨by cases op <;> decide, ih⟩
  | binary op hl hr ihl ihr =>
    rw [flatPieces_binary, toList_render_append, List.mem_append, not_or, toList_render_cons,
      toList_render_cons, toList_render_cons, List.mem_append, List.mem_append, List.mem_append]
    have hop : '\n' ∉ op.piece.text.toList := by cases op <;> decide
    have hblank : '\n' ∉ blank.text.toList := by decide
    exact ⟨ihl, by simp [hop, hblank, ihr]⟩

end Expr

namespace Lexer

theorem head?_render_append (pieces : List Piece) (rest : List Char) :
    ((render pieces).toList ++ rest).head? = lead rest.head? pieces := by
  induction pieces with
  | nil => rfl
  | cons piece pieces ih =>
    rw [toList_render_cons, List.append_assoc, List.head?_append, ih, lead]

/-- Pieces that fit are read as their tokens, whatever follows is read as. -/
theorem tokensFrom_render_append {pieces : List Piece} {rest : List Char}
    {after : List TokenKind} (h : Fits False rest.head? pieces)
    (hrest : ∀ p, ∃ tokens, tokensFrom p rest = .ok tokens ∧ tokens.map Token.kind = after)
    (p : Position) :
    ∃ tokens, tokensFrom p ((render pieces).toList ++ rest) = .ok tokens ∧
      tokens.map Token.kind = kinds pieces ++ after := by
  -- Each piece is a blank, which only moves the position, or a token, which is one step.
  induction pieces generalizing p with
  | nil => exact hrest p
  | cons piece pieces ih =>
    rw [toList_render_cons, List.append_assoc]
    cases piece with
    | space text =>
      rw [Piece.text, tokensFrom_blanks h.1]
      exact ih h.2 _
    | token kind =>
      obtain ⟨hkind, hends, hfits⟩ := h
      rw [← head?_render_append] at hends
      obtain ⟨c, cs, htext⟩ := List.exists_cons_of_ne_nil (text_ne_nil hkind)
      have hstep := step_token hkind htext hends (hkind.keeps hends)
      obtain ⟨tokens, htokens, hkinds⟩ := ih hfits (p.after (c :: cs))
      refine ⟨⟨kind, p.line⟩ :: tokens, ?_, congrArg (List.cons kind) hkinds⟩
      rw [htext, List.cons_append]
      refine tokensFrom_token hstep ?_
      rw [List.take_left, List.drop_left]
      exact htokens

/-- A comment goes up to the end of the line. -/
theorem tokensFrom_comment {cs : List Char} (hline : '\n' ∉ cs) (hlead : cs.head? ≠ some '[')
    (p : Position) :
    ∃ tokens, tokensFrom p ('-' :: '-' :: cs) = .ok tokens ∧ tokens.map Token.kind = [.eof] := by
  have hlength : commentLength cs = .ok cs.length := by
    have htake : cs.takeWhile (· != '\n') = cs :=
      List.takeWhile_eq_self_iff.2 fun c hc => bne_iff_ne.2 fun h => hline (h ▸ hc)
    unfold commentLength
    rw [htake]
    split
    · exact absurd rfl hlead
    · rfl
  have hstep : step '-' ('-' :: cs) = .ok (none, cs.length + 1) := by
    change (commentLength cs).map _ = _
    rw [hlength]
    rfl
  rw [tokensFrom_skip hstep, List.drop_succ_cons, List.drop_length]
  exact ⟨_, by rw [tokensFrom], rfl⟩

end Lexer

/-- Of what starts a comment only the tokens before it are read. -/
theorem tokenize_render_comment {pieces : List Piece} (h : Expr.StartsComment pieces)
    (hline : '\n' ∉ (render pieces).toList) :
    ∃ tokens before rest, tokenize (render pieces) = .ok tokens ∧
      pieces = before ++ sym .minus :: sym .minus :: rest ∧
      tokens.map Token.kind = kinds before ++ [TokenKind.eof] := by
  obtain ⟨before, rest, rfl, hbefore, hlead⟩ := h
  have htext : (render (before ++ sym .minus :: sym .minus :: rest)).toList =
      (render before).toList ++ '-' :: '-' :: (render rest).toList := by
    rw [Expr.toList_render_append, toList_render_cons, toList_render_cons]
    rfl
  -- The two minus signs could only belong to an interpreter line if the text began with one.
  have hmark : ∀ cs, (render before).toList ++ '-' :: '-' :: (render rest).toList ≠
      '#' :: '!' :: cs := by
    intro cs hcs
    have hne := toList_render_ne_mark hbefore
    match hbefore : (render before).toList with
    | [] => rw [hbefore] at hcs; cases hcs
    | [c] => rw [hbefore] at hcs; cases hcs
    | c :: d :: ds =>
      rw [hbefore] at hcs
      cases hcs
      exact hne _ hbefore
  rw [htext] at hline
  have hrest : '\n' ∉ (render rest).toList := fun h => hline (by simp [h])
  have hfirst : (render rest).toList.head? ≠ some '[' := by
    rw [head?_render]
    exact hlead none
  have hfits : Fits False ('-' :: '-' :: (render rest).toList).head? before := hbefore
  obtain ⟨tokens, htokens, hkinds⟩ :=
    Lexer.tokensFrom_render_append hfits (Lexer.tokensFrom_comment hrest hfirst) {}
  refine ⟨tokens, before, rest, ?_, rfl, hkinds⟩
  unfold tokenize Lexer.dropInterpreterLine
  rw [htext]
  split
  · rename_i cs hcs
    exact absurd hcs (hmark cs)
  · exact htokens

end LuaUnpack.Lua
