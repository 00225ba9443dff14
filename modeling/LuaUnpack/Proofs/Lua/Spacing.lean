import LuaUnpack.Proofs.Lua.ReadBlock

/-!
# The spaces between tokens

A printed tree can be read token by token: every token ends before what is written after it
(`Expr.isFit`, `fits_blockPieces`). An expression is followed by a blank, a closing
bracket or a comma, and where accesses and calls may follow it, also by what they start with.
There are two places where signs could run together. Of two minus signs the second one stands in
parentheses; an opening bracket before a string in long brackets stands as it is, and `Fits`
admits it only where strings may be long ones.
-/

namespace LuaUnpack.Lua

open Piece

/-! ## Single pieces -/

/-- Whether a name ends before a character. -/
def endsName (next : Option Char) : Bool := next.all fun c => !isNameChar c

/-- Whether a number ends before a character. -/
def endsNumber (next : Option Char) : Bool := next.all fun c => !isNameChar c && c != '.'

section

variable {long : Prop} {next : Option Char} {pieces rest : List Piece} {name : String}

theorem endsName_of_endsNumber (h : endsNumber next = true) : endsName next = true := by
  cases next with
  | none => rfl
  | some c => exact (Bool.and_eq_true_iff.1 h).1

theorem endsBefore_of_endsName (h : endsName next = true) {c : Char} (hc : c ∈ next) :
    isNameChar c = false := by
  obtain rfl := Option.mem_def.1 hc
  exact (Bool.not_eq_eq_eq_not).1 h

theorem fits_ident (hname : isIdentifier name = true) (h : endsName (lead next rest) = true)
    (hrest : Fits long next rest) : Fits long next (ident name :: rest) :=
  ⟨hname, fun _ hc => endsBefore_of_endsName h hc, hrest⟩

theorem fits_kw {word : Keyword} (h : endsName (lead next rest) = true) (hrest : Fits long next rest) :
    Fits long next (kw word :: rest) :=
  ⟨trivial, fun _ hc => endsBefore_of_endsName h hc, hrest⟩

theorem fits_sym {sign : Symbol} (h : (TokenKind.symbol sign).EndsBefore long (lead next rest))
    (hrest : Fits long next rest) : Fits long next (sym sign :: rest) :=
  ⟨trivial, h, hrest⟩

theorem fits_blank (hrest : Fits long next rest) : Fits long next (blank :: rest) :=
  ⟨List.all_eq_true.1 rfl, hrest⟩

theorem fits_comma (hrest : Fits long next rest) : Fits long next (comma ++ rest) :=
  ⟨trivial, trivial, fits_blank hrest⟩

theorem fits_lineEnd (hrest : Fits long next rest) : Fits long next (space "\n" :: rest) :=
  ⟨List.all_eq_true.1 rfl, hrest⟩

theorem fits_inParens (h : Fits long (some ')') pieces) : Fits long next (inParens pieces) :=
  ⟨trivial, trivial, fits_append_iff.2 ⟨h, fits_sym trivial trivial⟩⟩

theorem fits_line (level : Nat) (h : Fits long (some '\n') pieces) :
    Fits long next (line defaultIndent level pieces) := by
  refine ⟨fun c hc => ?_, fits_append_iff.2 ⟨h, fits_lineEnd trivial⟩⟩
  have hindent : ∀ c ∈ defaultIndent.toList, Text.isBlank c = true := List.all_eq_true.1 rfl
  rw [Text.repeated, String.toList_join, List.mem_flatMap] at hc
  obtain ⟨text, htext, hc⟩ := hc
  rw [List.eq_of_mem_replicate htext] at hc
  exact hindent c hc

/-! ## The first character -/

theorem lead_ident (next : Option Char) (rest : List Piece) (hname : isIdentifier name = true) :
    ∃ c, lead next (ident name :: rest) = some c ∧ isNameStart c = true := by
  rw [isIdentifier] at hname
  cases htext : name.toList with
  | nil =>
    rw [htext] at hname
    cases hname
  | cons c cs =>
    rw [htext, Bool.and_eq_true, Bool.and_eq_true] at hname
    refine ⟨c, ?_, hname.1.1⟩
    rw [lead, ident, Piece.text, htext]
    rfl

theorem isNameStart_ne {c d : Char} (hc : isNameStart c = true) (hd : isNameStart d = false) :
    c ≠ d := by
  rintro rfl
  rw [hc] at hd
  cases hd

theorem fits_dot_ident (hname : isIdentifier name = true) (h : endsName (lead next rest) = true)
    (hrest : Fits long next rest) : Fits long next (sym .dot :: ident name :: rest) := by
  obtain ⟨c, hc, hstart⟩ := lead_ident next rest hname
  refine fits_sym ?_ (fits_ident hname h hrest)
  rw [hc]
  rintro _ ⟨⟩
  refine ⟨isNameStart_ne hstart rfl, Bool.eq_false_iff.2 fun hdigit => ?_⟩
  have hletter := Lexer.isNameStart_iff.1 hstart
  have hrange := Lexer.isDigit_iff.1 hdigit
  omega

theorem fits_colon_ident (hname : isIdentifier name = true) (h : endsName (lead next rest) = true)
    (hrest : Fits long next rest) : Fits long next (sym .colon :: ident name :: rest) := by
  obtain ⟨c, hc, hstart⟩ := lead_ident next rest hname
  refine fits_sym ?_ (fits_ident hname h hrest)
  rw [hc]
  exact fun h => isNameStart_ne hstart rfl (Option.some.inj h)

/-- An expression starts with no equals sign, with a bracket only if strings may be long ones,
    and with a minus sign only if that is a token of its own. -/
theorem Opens.lead (h : Opens pieces) {next' : Option Char} (hfits : Fits long next' pieces)
    (next : Option Char) : ∃ c, lead next pieces = some c ∧ (c = '[' → long) ∧ c ≠ '=' ∧
      (c = '-' → (kinds pieces).head? = some (.symbol .minus)) := by
  obtain ⟨kind, rest, rfl, hkind, _⟩ := h
  have hspelled : kind.IsSpelled long := hfits.1
  cases kind with
  | name n =>
    obtain ⟨c, hc, hstart⟩ := lead_ident next rest hspelled
    refine ⟨c, hc, fun h => absurd h (isNameStart_ne hstart rfl), isNameStart_ne hstart rfl, ?_⟩
    exact fun h => absurd h (isNameStart_ne hstart rfl)
  | number x =>
    obtain ⟨first, digits, htext, hdigit, -⟩ := hspelled.digits
    have hne : ∀ c, Text.isDigit c = false → first ≠ c := by
      rintro c hc rfl
      rw [hdigit] at hc
      cases hc
    refine ⟨first, ?_, fun h => absurd h (hne _ rfl), hne _ rfl, fun h => absurd h (hne _ rfl)⟩
    rw [Piece.lead, htext]
    rfl
  | string literal =>
    have hlead : Piece.lead next (token (.string literal) :: rest) =
        literal.spelling.toList.head?.or (Piece.lead next rest) := rfl
    obtain ⟨quote, htext, hquote, -⟩ | ⟨hlong, level, hlevel, -⟩ := hspelled
    · rw [htext] at hlead
      refine ⟨quote, hlead, ?_⟩
      rcases hquote with ⟨rfl, -⟩ | ⟨rfl, -⟩ <;>
        exact ⟨fun h => absurd h (by decide), by decide, fun h => absurd h (by decide)⟩
    · -- Only a long string starts with a bracket.
      rw [Lexer.toList_spelling_long hlevel] at hlead
      exact ⟨'[', hlead, fun _ => hlong, by decide, fun h => absurd h (by decide)⟩
  | keyword word =>
    cases word <;>
      exact ⟨_, rfl, fun h => absurd h (by decide), by decide, fun h => absurd h (by decide)⟩
  | symbol sign =>
    cases sign <;> first
      | (cases hkind; done)
      | exact ⟨_, rfl, fun h => absurd h (by decide), by decide, fun h => absurd h (by decide)⟩
      | exact ⟨_, rfl, fun h => absurd h (by decide), by decide, fun _ => rfl⟩
  | eof => cases hkind

end

/-! ## Operators -/

namespace BinaryOp

theorem isSpelled_kind (op : BinaryOp) (long : Prop) : op.kind.IsSpelled long := by
  cases op <;> trivial

theorem endsBefore_blank (op : BinaryOp) (long : Prop) : op.kind.EndsBefore long (some ' ') := by
  cases op with
  | and | or => exact fun _ hc => endsBefore_of_endsName rfl hc
  | concat => exact nofun
  | _ => first | trivial | exact nofun

end BinaryOp

/-! ## Expressions -/

/-- Whether a token of a tree is printed as itself, or, if it is an infinite number, as the name
    that stands for it. -/
def TokenKind.IsPrinted (long : Prop) : TokenKind → Prop
  | .number x => HasNumeral x ∨ numberPieces x = [ident "math", sym .dot, ident "huge"]
  | kind => kind.IsSpelled long

/-- Whether all of some nodes have the shape of ones that were read, and their words are printed
    in one of these ways. -/
abbrev Printed (long : Prop) (nodes : List Node) : Prop :=
  Node.All (Node.IsShaped (TokenKind.IsPrinted long)) nodes

namespace Expr

variable {long : Prop} {e : Expr} {next : Option Char}

/-- Whether an expression can be read before any character that may follow it. -/
def IsFit (long : Prop) (e : Expr) : Prop :=
  ∀ next, endsName next = true → (e.takesSuffix = false → endsNumber next = true) →
    Fits long next e.pieces

theorem IsFit.fits (h : e.IsFit long) (hnext : endsNumber next = true) : Fits long next e.pieces :=
  h next (endsName_of_endsNumber hnext) fun _ => hnext

theorem IsFit.parens (h : e.IsFit long) : Fits long next (inParens e.pieces) :=
  fits_inParens (h.fits rfl)

theorem IsFit.base (h : e.IsFit long) (hnext : endsName next = true) :
    Fits long next (parensIf (!e.takesSuffix) e.pieces) := by
  cases hsuffix : e.takesSuffix with
  | true => exact h next hnext fun h => by rw [hsuffix] at h; cases h
  | false => exact h.parens

theorem IsFit.parensIf (h : e.IsFit long) (condition : Bool) (hnext : endsNumber next = true) :
    Fits long next (parensIf condition e.pieces) := by
  cases condition with
  | true => exact h.parens
  | false => exact h.fits hnext

/-- What has no operator outside starts with no minus sign. -/
theorem head?_ne_minus_of_reach? (h : Printed long e.nodes) (hreach : e.reach? = none) :
    (kinds e.pieces).head? ≠ some (.symbol .minus) := by
  -- What takes suffixes starts with a name or a parenthesis; what is left is a single word.
  by_cases hsuffix : e.takesSuffix = true
  · obtain ⟨kind, rest, hkinds, hkind, -⟩ := opensPrimary_pieces hsuffix
    rw [hkinds]
    rintro ⟨⟩
    cases hkind
  · cases e with
    | boolean b => cases b <;> exact nofun
    | number x =>
      have hx : HasNumeral x ∨ _ := (Node.all_above_iff.1 h).1.words _ List.mem_cons_self
      rw [pieces]
      obtain hx | hx := hx
      · rw [hx.pieces]
        exact nofun
      · rw [hx]
        exact nofun
    | function f => cases f; exact nofun
    | binary => cases hreach
    | unary => cases hreach
    | nil | string | vararg | table => exact nofun
    | _ => exact absurd rfl hsuffix

/-- After a minus sign no operand without parentheses starts with another one. -/
theorem head?_ne_minus (h : Printed long e.nodes) (hparens : e.needsParensUnder .negate = false) :
    (kinds e.pieces).head? ≠ some (.symbol .minus) := by
  cases e with
  | unary op e =>
    cases op with
    | negate => cases hparens
    | not => exact nofun
    | length => exact nofun
  | binary op l r =>
    -- Only a power stands here, and to its left stands no operation without parentheses.
    have hpow : op = .pow := by
      have hlt := (strength_lt_of_needsParensUnder hparens).1
      revert hlt
      cases op <;> decide
    subst hpow
    have hl : Printed long l.nodes := (Node.all_append_iff.1 (Node.all_above_iff.1 h).2).1
    rw [pieces, kinds_append]
    cases hleft : l.needsParens .pow true with
    | true => exact nofun
    | false =>
      have hreach : l.reach? = none := by
        cases l with
        | binary op' l' r' =>
          have hnot : ¬ BinaryOp.Admits .pow true op' := by cases op' <;> decide
          exact absurd (needsParens_binary_eq_false_iff.1 hleft) hnot
        | unary op' l' =>
          exact absurd (needsParens_unary_eq_false_iff.1 hleft) (by decide)
        | _ => rfl
      obtain ⟨kind, rest, hpieces, -⟩ := l.opens_pieces
      have hne := head?_ne_minus_of_reach? hl hreach
      rw [hpieces] at hne
      rw [Lua.parensIf, if_neg Bool.false_ne_true, hpieces]
      exact hne
  | _ => exact head?_ne_minus_of_reach? h rfl

theorem isFit_member {t : Expr} {k : String} (ht : t.IsFit long) (hk : isIdentifier k = true) :
    (Expr.member t k).IsFit long := by
  intro next hnext _
  rw [pieces, fits_append_iff]
  exact ⟨ht.base rfl, fits_dot_ident hk hnext trivial⟩

/-- A bracket before an expression starts a long string only if the expression does. -/
theorem IsFit.endsBefore_leftBracket (h : e.IsFit long) (rest : List Piece) :
    (TokenKind.symbol .leftBracket).EndsBefore long (lead next (e.pieces ++ rest)) := by
  rw [lead_append]
  obtain ⟨c, hc, hbracket, hequal, -⟩ :=
    e.opens_pieces.lead (h.fits (show endsNumber none = true from rfl)) (lead next rest)
  rw [hc]
  exact ⟨fun h => hbracket (Option.some.inj h), fun h => hequal (Option.some.inj h)⟩

theorem isFit_index {t k : Expr} (ht : t.IsFit long) (hk : k.IsFit long) :
    (Expr.index t k).IsFit long := by
  intro next hnext _
  rw [pieces, List.append_assoc, fits_append_iff]
  refine ⟨ht.base rfl, fits_sym (hk.endsBefore_leftBracket _) ?_⟩
  exact fits_append_iff.2 ⟨hk.fits rfl, fits_sym trivial trivial⟩

end Expr

section

variable {long : Prop}

theorem fits_moreListPieces {es : List Expr} {next : Option Char} (h : ∀ e ∈ es, e.IsFit long)
    (hnext : endsNumber next = true) :
    Fits long next (moreListPieces es) ∧ endsNumber (lead next (moreListPieces es)) = true := by
  induction es with
  | nil => exact ⟨trivial, hnext⟩
  | cons e es ih =>
    obtain ⟨hes, hlead⟩ := ih fun e he => h e (List.mem_cons_of_mem _ he)
    rw [moreListPieces, List.append_assoc]
    refine ⟨fits_comma ?_, rfl⟩
    exact fits_append_iff.2 ⟨(h e List.mem_cons_self).fits hlead, hes⟩

theorem fits_listPieces {es : List Expr} {next : Option Char} (h : ∀ e ∈ es, e.IsFit long)
    (hnext : endsNumber next = true) : Fits long next (listPieces es) := by
  cases es with
  | nil => trivial
  | cons e es =>
    obtain ⟨hes, hlead⟩ := fits_moreListPieces (fun e he => h e (List.mem_cons_of_mem _ he)) hnext
    exact fits_append_iff.2 ⟨(h e List.mem_cons_self).fits hlead, hes⟩

theorem fits_moreFieldsPieces {fs : List Field} {next : Option Char}
    (h : ∀ f ∈ fs, ∀ next, endsNumber next = true → Fits long next f.pieces)
    (hnext : endsNumber next = true) :
    Fits long next (moreFieldsPieces fs) ∧ endsNumber (lead next (moreFieldsPieces fs)) = true := by
  induction fs with
  | nil => exact ⟨trivial, hnext⟩
  | cons f fs ih =>
    obtain ⟨hfs, hlead⟩ := ih fun f hf => h f (List.mem_cons_of_mem _ hf)
    rw [moreFieldsPieces, List.append_assoc]
    refine ⟨fits_comma ?_, rfl⟩
    exact fits_append_iff.2 ⟨h f List.mem_cons_self _ hlead, hfs⟩

theorem fits_fieldsPieces {fs : List Field} {next : Option Char}
    (h : ∀ f ∈ fs, ∀ next, endsNumber next = true → Fits long next f.pieces)
    (hnext : endsNumber next = true) : Fits long next (fieldsPieces fs) := by
  cases fs with
  | nil => trivial
  | cons f fs =>
    obtain ⟨hfs, hlead⟩ := fits_moreFieldsPieces (fun f hf => h f (List.mem_cons_of_mem _ hf)) hnext
    exact fits_append_iff.2 ⟨h f List.mem_cons_self _ hlead, hfs⟩

end

namespace Expr

variable {long : Prop}

theorem isFit_call {f : Expr} {args : List Expr} (hf : f.IsFit long) (h : ∀ e ∈ args, e.IsFit long) :
    (Expr.call f args).IsFit long := by
  intro next _ _
  rw [pieces, fits_append_iff]
  exact ⟨hf.base rfl, fits_inParens (fits_listPieces h rfl)⟩

theorem isFit_methodCall {o : Expr} {m : String} {args : List Expr} (ho : o.IsFit long)
    (hm : isIdentifier m = true) (h : ∀ e ∈ args, e.IsFit long) :
    (Expr.methodCall o m args).IsFit long := by
  intro next _ _
  rw [pieces, fits_append_iff]
  exact ⟨ho.base rfl, fits_colon_ident hm rfl (fits_inParens (fits_listPieces h rfl))⟩

theorem isFit_binary {op : BinaryOp} {l r : Expr} (hl : l.IsFit long) (hr : r.IsFit long) :
    (Expr.binary op l r).IsFit long := by
  intro next _ hnext
  rw [pieces, fits_append_iff]
  refine ⟨hl.parensIf _ rfl, fits_blank ?_⟩
  rw [BinaryOp.piece_eq]
  exact ⟨op.isSpelled_kind long, op.endsBefore_blank long, fits_blank (hr.parensIf _ (hnext rfl))⟩

theorem isFit_unary {op : UnaryOp} {e : Expr} (he : e.IsFit long) (hprinted : Printed long e.nodes) :
    (Expr.unary op e).IsFit long := by
  intro next _ hnext
  have hoperand := he.parensIf (e.needsParensUnder op) (hnext rfl)
  rw [pieces]
  cases op with
  | not => exact fits_kw rfl (fits_blank hoperand)
  | length => exact fits_sym trivial hoperand
  | negate =>
    refine fits_sym ?_ hoperand
    cases hparens : e.needsParensUnder .negate with
    | true => exact nofun
    | false =>
      obtain ⟨c, hc, -, -, hminus⟩ := e.opens_pieces.lead (he.fits (hnext rfl)) next
      intro h
      exact head?_ne_minus hprinted hparens (hminus (Option.some.inj (hc.symm.trans h)))

end Expr

/-! ## Names and parameters -/

section

variable {long : Prop} {next : Option Char} {names : List String} {isVararg : Bool}

theorem fits_names (h : ∀ n ∈ names, isIdentifier n = true) (hnext : endsName next = true) :
    Fits long next (Piece.names names) := by
  induction names with
  | nil => trivial
  | cons n names ih =>
    obtain ⟨hn, hnames⟩ := List.forall_mem_cons.1 h
    cases names with
    | nil => exact fits_ident hn hnext trivial
    | cons m names => exact fits_ident hn rfl (fits_comma (ih hnames))

theorem fits_paramPieces (h : ∀ n ∈ names, isIdentifier n = true) :
    Fits long (some ')') (paramPieces names isVararg) := by
  cases isVararg with
  | false => exact fits_append_iff.2 ⟨fits_names h rfl, trivial⟩
  | true =>
    have hellipsis : Fits long (some ')') [sym .ellipsis] := fits_sym trivial trivial
    cases names with
    | nil => exact hellipsis
    | cons n names =>
      exact fits_append_iff.2 ⟨fits_names h rfl, fits_comma hellipsis⟩

/-- The names of a path, each behind a dot. -/
theorem fits_path {path : List String} (hpath : ∀ n ∈ path, isIdentifier n = true)
    (hnext : endsName next = true) :
    Fits long next (path.flatMap fun n => [sym .dot, ident n]) ∧
      endsName (lead next (path.flatMap fun n => [sym .dot, ident n])) = true := by
  induction path with
  | nil => exact ⟨trivial, hnext⟩
  | cons n path ih =>
    obtain ⟨hn, hpath⟩ := List.forall_mem_cons.1 hpath
    obtain ⟨hfits, hlead⟩ := ih hpath
    exact ⟨fits_dot_ident hn hlead hfits, rfl⟩

theorem fits_targetPieces {root : String} {path : List String} {method : Option String}
    (hroot : isIdentifier root = true) (hpath : ∀ n ∈ path, isIdentifier n = true)
    (hmethod : ∀ m ∈ method, isIdentifier m = true) (hnext : endsName next = true) :
    Fits long next (targetPieces root path method) := by
  cases method with
  | none =>
    obtain ⟨hfits, hlead⟩ := fits_path hpath hnext
    unfold targetPieces
    rw [List.append_nil]
    exact fits_ident hroot hlead hfits
  | some m =>
    obtain ⟨hfits, hlead⟩ := fits_path hpath (show endsName (some ':') = true from rfl)
    unfold targetPieces
    rw [fits_append_iff]
    exact ⟨fits_ident hroot hlead hfits, fits_colon_ident (hmethod m rfl) hnext trivial⟩

end

/-! ## Trees -/

theorem isIdentifier_of_words {long : Prop} {names : List String}
    (h : ∀ word ∈ names.map TokenKind.name, word.IsPrinted long) :
    ∀ n ∈ names, isIdentifier n = true :=
  fun _ hn => h _ (List.mem_map_of_mem hn)

section

variable {long : Prop} {next : Option Char}

/-- A block and the line that ends it. -/
theorem fits_block_end (level : Nat) {block : List Piece}
    (h : Fits long (lead next (line defaultIndent level [kw .kwEnd])) block) :
    Fits long next (block ++ line defaultIndent level [kw .kwEnd]) :=
  fits_append_iff.2 ⟨h, fits_line level (fits_kw rfl trivial)⟩

/-- The start of a loop over numbers. -/
theorem fits_for {n : String} {rest : List Piece} (hn : isIdentifier n = true)
    (hrest : Fits long next rest) :
    Fits long next ([kw .kwFor, blank, ident n, blank, sym .equal, blank] ++ rest) :=
  fits_kw rfl (fits_blank (fits_ident hn rfl (fits_blank (fits_sym nofun (fits_blank hrest)))))

/-- A line with a condition between two keywords. -/
theorem fits_head_line (level : Nat) {e : Expr} {word word' : Keyword} (he : e.IsFit long) :
    Fits long next (line defaultIndent level (kw word :: blank :: e.pieces ++ [blank, kw word'])) :=
  fits_line level (fits_kw rfl (fits_blank
    (fits_append_iff.2 ⟨he.fits rfl, fits_blank (fits_kw rfl trivial)⟩)))

end

section

variable {long : Prop}

mutual

theorem Expr.isFit : ∀ {e : Expr}, Printed long e.nodes → e.IsFit long
  | .nil, _ => fun _ hnext _ => fits_kw hnext trivial
  | .boolean b, _ => fun _ hnext _ => fits_kw hnext trivial
  | .number x, h => by
    have hx : HasNumeral x ∨ _ := (Node.all_above_iff.1 h).1.words _ List.mem_cons_self
    intro next hname hnext
    rw [Expr.pieces]
    obtain hx | hx := hx
    · rw [hx.pieces]
      refine ⟨hx, fun c hc => ?_, trivial⟩
      obtain rfl := Option.mem_def.1 hc
      simpa [endsNumber] using hnext rfl
    · rw [hx]
      exact fits_ident rfl rfl (fits_dot_ident rfl hname trivial)
  | .string l, h => fun _ _ _ =>
    ⟨(Node.all_above_iff.1 h).1.words _ List.mem_cons_self, trivial, trivial⟩
  | .vararg, _ => fun _ _ _ => fits_sym trivial trivial
  | .name n, h => fun _ hnext _ =>
    fits_ident ((Node.all_above_iff.1 h).1.words _ List.mem_cons_self) hnext trivial
  -- The pieces of each part fit in what comes after them, by the lemma of the node.
  | .member t k, h => by
    obtain ⟨hnode, ht⟩ := Node.all_above_iff.1 h
    exact Expr.isFit_member (Expr.isFit ht) (hnode.words _ List.mem_cons_self)
  | .index t k, h => by
    obtain ⟨ht, hk⟩ := Node.all_append_iff.1 (Node.all_above_iff.1 h).2
    exact Expr.isFit_index (Expr.isFit ht) (Expr.isFit hk)
  | .call f args, h => by
    obtain ⟨hf, hargs⟩ := Node.all_append_iff.1 (Node.all_above_iff.1 h).2
    exact Expr.isFit_call (Expr.isFit hf) (exprs_isFit hargs)
  | .methodCall o m args, h => by
    obtain ⟨hnode, hparts⟩ := Node.all_above_iff.1 h
    obtain ⟨ho, hargs⟩ := Node.all_append_iff.1 hparts
    exact Expr.isFit_methodCall (Expr.isFit ho) (hnode.words _ List.mem_cons_self)
      (exprs_isFit hargs)
  | .function ⟨ps, v, b⟩, h => by
    obtain ⟨hnode, hb⟩ := Node.all_above_iff.1 h
    intro next hnext _
    rw [Expr.pieces, List.append_assoc]
    refine fits_kw rfl (fits_append_iff.2 ⟨?_, ?_⟩)
    · exact fits_inParens (fits_paramPieces (isIdentifier_of_words hnode.words))
    · exact fits_lineEnd (fits_append_iff.2 ⟨fits_blockPieces 1 hb _, fits_kw hnext trivial⟩)
  | .table fields, h => by
    obtain ⟨hnode, hfields⟩ := Node.all_above_iff.1 h
    have hnames := isIdentifier_of_words hnode.words
    intro next _ _
    refine fits_sym trivial (fits_append_iff.2 ⟨fits_fieldsPieces ?_ rfl, fits_sym trivial trivial⟩)
    exact fields_fit (fun f hf n hn => hnames n (List.mem_filterMap.2 ⟨f, hf, hn⟩)) hfields
  | .binary op l r, h => by
    obtain ⟨hl, hr⟩ := Node.all_append_iff.1 (Node.all_above_iff.1 h).2
    exact Expr.isFit_binary (Expr.isFit hl) (Expr.isFit hr)
  | .unary op e, h => by
    have he := (Node.all_above_iff.1 h).2
    exact Expr.isFit_unary (Expr.isFit he) he
  | .paren e, h => fun _ _ _ => (Expr.isFit (Node.all_above_iff.1 h).2).parens

theorem exprs_isFit : ∀ {es : List Expr}, Printed long (Node.ofExprs (fun _ => true) es) →
    ∀ e ∈ es, e.IsFit long
  | [], _ => fun _ he => absurd he List.not_mem_nil
  | e :: es, h => by
    obtain ⟨he, hes⟩ := Node.all_append_iff.1 h
    exact List.forall_mem_cons.2 ⟨Expr.isFit he, exprs_isFit hes⟩

theorem Field.fits_pieces : ∀ {f : Field}, (∀ n ∈ Node.fieldName? f, isIdentifier n = true) →
    Printed long (Node.ofField (fun _ => true) f) →
    ∀ next, endsNumber next = true → Fits long next f.pieces
  | .positional e, _, h => fun _ hnext => (Expr.isFit h).fits hnext
  | .named n e, hn, h => fun _ hnext =>
    fits_ident (hn n rfl) rfl (fits_blank (fits_sym nofun (fits_blank ((Expr.isFit h).fits hnext))))
  | .keyed k e, _, h => by
    obtain ⟨hk, he⟩ := Node.all_append_iff.1 h
    intro next hnext
    rw [Field.pieces, List.append_assoc]
    refine fits_sym ((Expr.isFit hk).endsBefore_leftBracket _)
      (fits_append_iff.2 ⟨(Expr.isFit hk).fits rfl, ?_⟩)
    exact fits_sym trivial
      (fits_blank (fits_sym nofun (fits_blank ((Expr.isFit he).fits hnext))))

theorem fields_fit : ∀ {fs : List Field},
    (∀ f ∈ fs, ∀ n ∈ Node.fieldName? f, isIdentifier n = true) →
    Printed long (Node.ofFields (fun _ => true) fs) →
    ∀ f ∈ fs, ∀ next, endsNumber next = true → Fits long next f.pieces
  | [], _, _ => fun _ hf => absurd hf List.not_mem_nil
  | f :: fs, hnames, h => by
    obtain ⟨hf, hfs⟩ := Node.all_append_iff.1 h
    obtain ⟨hn, hnames⟩ := List.forall_mem_cons.1 hnames
    exact List.forall_mem_cons.2 ⟨Field.fits_pieces hn hf, fields_fit hnames hfs⟩

theorem Stmt.fits_pieces (level : Nat) : ∀ {s : Stmt}, Printed long (Node.ofStmt (fun _ => true) s) →
    ∀ next, Fits long next (s.pieces defaultIndent level)
  | .localVars names values, h => by
    obtain ⟨hnode, hvalues⟩ := Node.all_above_iff.1 h
    have hnames := isIdentifier_of_words hnode.words
    intro next
    refine fits_line level (fits_kw rfl (fits_blank (fits_append_iff.2 ?_)))
    cases values with
    | nil => exact ⟨fits_names hnames rfl, trivial⟩
    | cons e values =>
      exact ⟨fits_names hnames rfl,
        fits_blank (fits_sym nofun (fits_blank (fits_listPieces (exprs_isFit hvalues) rfl)))⟩
  | .localFunction n ⟨ps, v, b⟩, h => by
    obtain ⟨hnode, hb⟩ := Node.all_above_iff.1 h
    obtain ⟨hn, hps⟩ := List.forall_mem_cons.1 (isIdentifier_of_words hnode.words)
    intro next
    rw [Stmt.pieces, List.append_assoc]
    refine fits_append_iff.2 ⟨fits_line level (fits_kw rfl (fits_blank (fits_kw rfl (fits_blank
      (fits_ident hn rfl (fits_inParens (fits_paramPieces hps))))))), ?_⟩
    exact fits_block_end level (fits_blockPieces (level + 1) hb _)
  -- Of a method `self` is not written, so the names are those that are left.
  | .functionDecl root path method ⟨ps, v, b⟩, h => by
    obtain ⟨hnode, hb⟩ := Node.all_above_iff.1 h
    have hnames := isIdentifier_of_words hnode.words
    simp only [List.cons_append, List.append_assoc, List.forall_mem_cons,
      List.forall_mem_append] at hnames
    obtain ⟨hroot, hpath, hmethod, hps⟩ := hnames
    have hwritten : ∀ n ∈ if method.isSome then ps.drop 1 else ps, isIdentifier n = true := by
      intro n hn
      split at hn
      · exact hps n (List.mem_of_mem_drop hn)
      · exact hps n hn
    intro next
    rw [Stmt.pieces, List.append_assoc]
    refine fits_append_iff.2 ⟨fits_line level (fits_kw rfl (fits_blank (fits_append_iff.2 ⟨?_,
      fits_inParens (fits_paramPieces hwritten)⟩))), ?_⟩
    · exact fits_targetPieces hroot hpath (fun m hm => hmethod m (Option.mem_toList.2 hm)) rfl
    · exact fits_block_end level (fits_blockPieces (level + 1) hb _)
  | .assign targets values, h => by
    obtain ⟨htargets, hvalues⟩ := Node.all_append_iff.1 (Node.all_above_iff.1 h).2
    intro next
    rw [Stmt.pieces, List.append_assoc]
    refine fits_line level (fits_append_iff.2 ⟨fits_listPieces (exprs_isFit htargets) rfl, ?_⟩)
    exact fits_blank (fits_sym nofun (fits_blank (fits_listPieces (exprs_isFit hvalues) rfl)))
  | .call e, h => fun _ => fits_line level ((Expr.isFit (Node.all_above_iff.1 h).2).fits rfl)
  | .block b, h => by
    intro next
    rw [Stmt.pieces, List.append_assoc]
    exact fits_append_iff.2 ⟨fits_line level (fits_kw rfl trivial),
      fits_block_end level (fits_blockPieces (level + 1) (Node.all_above_iff.1 h).2 _)⟩
  | .whileLoop c b, h => by
    obtain ⟨hc, hb⟩ := Node.all_append_iff.1 (Node.all_above_iff.1 h).2
    intro next
    rw [Stmt.pieces, List.append_assoc]
    exact fits_append_iff.2 ⟨fits_head_line level (Expr.isFit hc),
      fits_block_end level (fits_blockPieces (level + 1) hb _)⟩
  | .repeatLoop b c, h => by
    obtain ⟨hb, hc⟩ := Node.all_append_iff.1 (Node.all_above_iff.1 h).2
    intro next
    rw [Stmt.pieces, List.append_assoc]
    exact fits_append_iff.2 ⟨fits_line level (fits_kw rfl trivial),
      fits_append_iff.2 ⟨fits_blockPieces (level + 1) hb _,
        fits_line level (fits_kw rfl (fits_blank ((Expr.isFit hc).fits rfl)))⟩⟩
  | .ifThen c b o, h => by
    obtain ⟨hcb, ho⟩ := Node.all_append_iff.1 (Node.all_above_iff.1 h).2
    obtain ⟨hc, hb⟩ := Node.all_append_iff.1 hcb
    intro next
    rw [Stmt.pieces, List.append_assoc]
    exact fits_append_iff.2 ⟨fits_head_line level (Expr.isFit hc),
      fits_append_iff.2 ⟨fits_blockPieces (level + 1) hb _, Else.fits_pieces level ho next⟩⟩
  | .numericFor n start limit none b, h => by
    obtain ⟨hnode, hparts⟩ := Node.all_above_iff.1 h
    obtain ⟨hexprs, hb⟩ := Node.all_append_iff.1 hparts
    obtain ⟨hstart, hlimit⟩ := Node.all_append_iff.1 hexprs
    intro next
    simp only [Stmt.pieces, List.append_assoc]
    refine fits_append_iff.2 ⟨fits_line level (fits_for (hnode.words _ List.mem_cons_self) ?_),
      fits_block_end level (fits_blockPieces (level + 1) hb _)⟩
    refine fits_append_iff.2 ⟨(Expr.isFit hstart).fits rfl, fits_comma ?_⟩
    exact fits_append_iff.2 ⟨(Expr.isFit hlimit).fits rfl, fits_blank (fits_kw rfl trivial)⟩
  | .numericFor n start limit (some step) b, h => by
    obtain ⟨hnode, hparts⟩ := Node.all_above_iff.1 h
    obtain ⟨hexprs, hb⟩ := Node.all_append_iff.1 hparts
    obtain ⟨hexprs, hstep⟩ := Node.all_append_iff.1 hexprs
    obtain ⟨hstart, hlimit⟩ := Node.all_append_iff.1 hexprs
    intro next
    simp only [Stmt.pieces, List.append_assoc]
    refine fits_append_iff.2 ⟨fits_line level (fits_for (hnode.words _ List.mem_cons_self) ?_),
      fits_block_end level (fits_blockPieces (level + 1) hb _)⟩
    refine fits_append_iff.2 ⟨(Expr.isFit hstart).fits rfl, fits_comma ?_⟩
    refine fits_append_iff.2 ⟨(Expr.isFit hlimit).fits rfl, fits_comma ?_⟩
    exact fits_append_iff.2 ⟨(Expr.isFit hstep).fits rfl, fits_blank (fits_kw rfl trivial)⟩
  | .genericFor names exprs b, h => by
    obtain ⟨hnode, hparts⟩ := Node.all_above_iff.1 h
    obtain ⟨hexprs, hb⟩ := Node.all_append_iff.1 hparts
    have hnames := isIdentifier_of_words hnode.words
    intro next
    simp only [Stmt.pieces, List.append_assoc, List.cons_append, List.nil_append]
    refine fits_append_iff.2 ⟨fits_line level (fits_kw rfl (fits_blank ?_)),
      fits_block_end level (fits_blockPieces (level + 1) hb _)⟩
    refine fits_append_iff.2 ⟨fits_names hnames rfl, fits_blank (fits_kw rfl (fits_blank ?_))⟩
    exact fits_append_iff.2 ⟨fits_listPieces (exprs_isFit hexprs) rfl,
      fits_blank (fits_kw rfl trivial)⟩
  | .ret values, h => by
    have hvalues := (Node.all_above_iff.1 h).2
    intro next
    cases values with
    | nil => exact fits_line level (fits_kw rfl trivial)
    | cons e values =>
      exact fits_line level (fits_kw rfl (fits_blank (fits_listPieces (exprs_isFit hvalues) rfl)))
  | .exit, _ => fun _ => fits_line level (fits_kw rfl trivial)
  | .goto n, h => by
    have hn := (Node.all_above_iff.1 h).1.words _ List.mem_cons_self
    exact fun _ => fits_line level (fits_kw rfl (fits_blank (fits_ident hn rfl trivial)))
  | .label n, h => by
    have hn := (Node.all_above_iff.1 h).1.words _ List.mem_cons_self
    exact fun _ => fits_line level
      (fits_sym trivial (fits_ident hn rfl (fits_sym trivial trivial)))

theorem Else.fits_pieces (level : Nat) : ∀ {o : Else}, Printed long (Node.ofElse (fun _ => true) o) →
    ∀ next, Fits long next (o.pieces defaultIndent level)
  | .done, _ => fun _ => fits_line level (fits_kw rfl trivial)
  | .block b, h => by
    intro next
    rw [Else.pieces, List.append_assoc]
    exact fits_append_iff.2 ⟨fits_line level (fits_kw rfl trivial),
      fits_block_end level (fits_blockPieces (level + 1) h _)⟩
  | .elseIf c b o, h => by
    obtain ⟨hcb, ho⟩ := Node.all_append_iff.1 h
    obtain ⟨hc, hb⟩ := Node.all_append_iff.1 hcb
    intro next
    rw [Else.pieces, List.append_assoc]
    exact fits_append_iff.2 ⟨fits_head_line level (Expr.isFit hc),
      fits_append_iff.2 ⟨fits_blockPieces (level + 1) hb _, Else.fits_pieces level ho next⟩⟩

theorem fits_blockPieces (level : Nat) :
    ∀ {b : List Stmt}, Printed long (Node.ofStmts (fun _ => true) b) →
    ∀ next, Fits long next (blockPieces defaultIndent level b)
  | [], _ => fun _ => trivial
  | s :: b, h => by
    obtain ⟨hs, hb⟩ := Node.all_append_iff.1 h
    exact fun next => fits_append_iff.2 ⟨Stmt.fits_pieces level hs _, fits_blockPieces level hb next⟩

end

end

end LuaUnpack.Lua
