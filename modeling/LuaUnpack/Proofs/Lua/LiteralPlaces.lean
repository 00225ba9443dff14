import LuaUnpack.Proofs.Lua.Kept
import LuaUnpack.Proofs.Lua.Lexed
import LuaUnpack.Proofs.Lua.Spacing

/-!
# Strings as keys and as arguments

A string is printed with its delimiter, and what is read back from it depends on where it stands.
Between quotes it is read back everywhere. In long brackets it is not, if it is a key: the bracket
of the key and those of the string are read as one opening. As an argument it is read back, unless
it starts with a carriage return, since the printer puts a line end only before a string that
starts with a line feed (`kindsOf_print_literal_iff`).
-/

namespace LuaUnpack.Lua

open Piece

/-- The kinds of the tokens of a text. -/
def kindsOf (source : String) : Except ParseError (List TokenKind) :=
  (tokenize source).map (List.map Token.kind)

theorem kindsOf_eq_ok_iff {source : String} {kinds : List TokenKind} :
    kindsOf source = .ok kinds ↔ ∃ tokens, tokenize source = .ok tokens ∧
      tokens.map Token.kind = kinds := by
  rw [kindsOf]
  cases tokenize source with
  | error error => simp [Except.map]
  | ok tokens => simp [Except.map]

/-- Whether a literal is written in long brackets. -/
def Literal.isLong (literal : Literal) : Bool :=
  match literal.delimiter with
  | .long _ => true
  | _ => false

section

variable {literal : Literal} {x : String}

theorem Literal.IsShort.isLong_eq_false (h : literal.IsShort) : literal.isLong = false := by
  obtain ⟨quote, -, ⟨-, hdelimiter⟩ | ⟨-, hdelimiter⟩, -⟩ := h <;> rw [isLong, hdelimiter]

theorem Literal.IsLong.isLong_eq_true (h : literal.IsLong) : literal.isLong = true := by
  obtain ⟨level, hdelimiter, -⟩ := h
  rw [isLong, hdelimiter]

/-- A literal that was read is a short one just if it is not long. -/
theorem Literal.isShort_iff (h : literal.IsShort ∨ literal.IsLong) :
    literal.IsShort ↔ literal.isLong = false := by
  refine ⟨IsShort.isLong_eq_false, fun hnot => h.resolve_right fun hlong => ?_⟩
  rw [hlong.isLong_eq_true] at hnot
  cases hnot

/-- What a literal that was read starts with. -/
theorem Literal.head?_spelling (h : literal.IsShort ∨ literal.IsLong) :
    literal.spelling.toList.head? = some '[' ↔ ¬ literal.IsShort := by
  rw [isShort_iff h, Bool.not_eq_false]
  obtain hshort | hlong := h
  · rw [hshort.isLong_eq_false]
    obtain ⟨quote, hspelling, hquote, -⟩ := hshort
    rw [hspelling]
    rcases hquote with ⟨rfl, -⟩ | ⟨rfl, -⟩ <;> exact ⟨nofun, nofun⟩
  · rw [hlong.isLong_eq_true]
    obtain ⟨level, hdelimiter, -⟩ := hlong
    rw [Lexer.toList_spelling_long hdelimiter]
    exact ⟨fun _ => rfl, fun _ => rfl⟩

theorem kindsOf_print_iff {e : Expr} (h : e.IsFit True) :
    kindsOf e.print = .ok (kinds e.pieces ++ [TokenKind.eof]) ↔ Keeps none e.pieces :=
  kindsOf_eq_ok_iff.trans (tokenize_render_iff (h.fits (show endsNumber none = true from rfl)))

/-- A bracket before a literal and the literal are kept just if the literal is a short one. -/
theorem keeps_key_iff (h : literal.IsShort ∨ literal.IsLong) {next : Option Char}
    {rest : List Piece} : Keeps next (sym .leftBracket :: token (.string literal) :: rest) ↔
      literal.isLong = false ∧ Keeps next rest := by
  have hhead : literal.spelling.toList.head? ≠ none := by
    obtain hshort | hlong := h
    · obtain ⟨quote, hspelling, -⟩ := hshort
      rw [hspelling]
      exact nofun
    · obtain ⟨level, hdelimiter, -⟩ := hlong
      rw [Lexer.toList_spelling_long hdelimiter]
      exact nofun
  have hlead : lead next (token (.string literal) :: rest) = literal.spelling.toList.head? := by
    obtain ⟨c, hc⟩ := Option.ne_none_iff_exists'.1 hhead
    rw [lead, Piece.text, hc, Option.some_or]
  change lead next (token (.string literal) :: rest) ≠ some '[' ∧
    (literal.IsShort ∨ literal.startsReturn = false) ∧ Keeps next rest ↔ _
  rw [hlead, ne_eq, Literal.head?_spelling h, not_not, ← Literal.isShort_iff h]
  exact ⟨fun hkeeps => ⟨hkeeps.1, hkeeps.2.2⟩, fun hkeeps => ⟨hkeeps.1, .inl hkeeps.1, hkeeps.2⟩⟩

theorem isFit_name (hx : isIdentifier x = true) : (Expr.name x).IsFit True :=
  fun _ hnext _ => fits_ident hx hnext trivial

theorem isFit_string (h : literal.IsShort ∨ literal.IsLong) : (Expr.string literal).IsFit True :=
  fun _ _ _ => ⟨h.imp_right fun hlong => ⟨trivial, hlong⟩, trivial, trivial⟩

theorem kindsOf_print_index_iff (h : literal.IsShort ∨ literal.IsLong)
    (hx : isIdentifier x = true) :
    kindsOf (Expr.index (.name x) (.string literal)).print =
      .ok [.name x, .symbol .leftBracket, .string literal, .symbol .rightBracket, .eof] ↔
        literal.isLong = false := by
  have hfit := Expr.isFit_index (isFit_name hx) (isFit_string h)
  refine (kindsOf_print_iff hfit).trans ?_
  change True ∧ Keeps none (sym .leftBracket :: token (.string literal) :: [sym .rightBracket]) ↔ _
  rw [keeps_key_iff h]
  exact ⟨fun hkeeps => hkeeps.2.1, fun hshort => ⟨trivial, hshort, trivial, trivial⟩⟩

theorem kindsOf_print_table_iff (h : literal.IsShort ∨ literal.IsLong)
    (hx : isIdentifier x = true) :
    kindsOf (Expr.table [.keyed (.string literal) (.name x)]).print =
      .ok [.symbol .leftBrace, .symbol .leftBracket, .string literal, .symbol .rightBracket,
        .symbol .equal, .name x, .symbol .rightBrace, .eof] ↔ literal.isLong = false := by
  have hkey : ∀ next, (TokenKind.symbol .leftBracket).EndsBefore True
      (lead next ((Expr.string literal).pieces ++
        [sym .rightBracket, blank, sym .equal, blank, ident x, sym .rightBrace])) :=
    fun _ => (isFit_string h).endsBefore_leftBracket _
  have hfit : (Expr.table [.keyed (.string literal) (.name x)]).IsFit True := by
    intro next _ _
    refine fits_sym trivial (fits_sym (hkey next) ?_)
    exact ⟨h.imp_right fun hlong => ⟨trivial, hlong⟩, trivial, fits_sym trivial (fits_blank
      (fits_sym nofun (fits_blank (fits_ident hx rfl (fits_sym trivial trivial)))))⟩
  refine (kindsOf_print_iff hfit).trans ?_
  change True ∧ Keeps none (sym .leftBracket :: token (.string literal) ::
    [sym .rightBracket, blank, sym .equal, blank, ident x, sym .rightBrace]) ↔ _
  -- The bracket of the key and that of a long literal would be read together.
  rw [keeps_key_iff h]
  refine ⟨fun hkeeps => hkeeps.2.1, fun hshort => ⟨trivial, hshort, ?_⟩⟩
  exact ⟨trivial, trivial, trivial, trivial, trivial⟩

theorem kindsOf_print_call_iff (h : literal.IsShort ∨ literal.IsLong)
    (hx : isIdentifier x = true) :
    kindsOf (Expr.call (.name x) [.string literal]).print =
      .ok [.name x, .symbol .leftParen, .string literal, .symbol .rightParen, .eof] ↔
        (literal.isLong = true → literal.startsReturn = false) := by
  have hfit := Expr.isFit_call (isFit_name hx)
    (List.forall_mem_singleton.2 (isFit_string h))
  refine (kindsOf_print_iff hfit).trans ?_
  change True ∧ True ∧ (literal.IsShort ∨ literal.startsReturn = false) ∧ True ∧ True ↔ _
  rw [Literal.isShort_iff h]
  simp only [true_and, and_true]
  cases literal.isLong <;> simp

end

/-- A string that was read is read back from where it is a key just if it is written between
    quotes, and from where it is an argument just if it is, or does not start with a carriage
    return. -/
theorem kindsOf_print_literal_iff {source : String} {tokens : List Token} {literal : Literal}
    {line : Nat} (htokens : tokenize source = .ok tokens)
    (hliteral : ⟨.string literal, line⟩ ∈ tokens) {x f : String} (hx : isIdentifier x = true)
    (hf : isIdentifier f = true) :
    (kindsOf (Expr.index (.name x) (.string literal)).print =
      .ok [.name x, .symbol .leftBracket, .string literal, .symbol .rightBracket, .eof] ↔
        literal.isLong = false) ∧
    (kindsOf (Expr.table [.keyed (.string literal) (.name x)]).print =
      .ok [.symbol .leftBrace, .symbol .leftBracket, .string literal, .symbol .rightBracket,
        .symbol .equal, .name x, .symbol .rightBrace, .eof] ↔ literal.isLong = false) ∧
    (kindsOf (Expr.call (.name f) [.string literal]).print =
      .ok [.name f, .symbol .leftParen, .string literal, .symbol .rightParen, .eof] ↔
        (literal.isLong = true → literal.startsReturn = false)) := by
  have hlexed : literal.IsShort ∨ literal.IsLong := isLexed_tokenize htokens _ hliteral
  exact ⟨kindsOf_print_index_iff hlexed hx, kindsOf_print_table_iff hlexed hx,
    kindsOf_print_call_iff hlexed hf⟩

/-- A text with a string between quotes as an argument. -/
def quotedText : String := "f('a]]')"

theorem kindsOf_print_literal_iff_quotedText :
    tokenize quotedText = .ok (List.map (fun kind => ⟨kind, 1⟩)
      [.name "f", .symbol .leftParen, .string ⟨"a]]", .single⟩, .symbol .rightParen, .eof]) ∧
    kindsOf (Expr.index (.name "x") (.string ⟨"a]]", .single⟩)).print =
      .ok [.name "x", .symbol .leftBracket, .string ⟨"a]]", .single⟩, .symbol .rightBracket,
        .eof] ∧
    kindsOf (Expr.table [.keyed (.string ⟨"a]]", .single⟩) (.name "x")]).print =
      .ok [.symbol .leftBrace, .symbol .leftBracket, .string ⟨"a]]", .single⟩,
        .symbol .rightBracket, .symbol .equal, .name "x", .symbol .rightBrace, .eof] ∧
    kindsOf (Expr.call (.name "f") [.string ⟨"a]]", .single⟩]).print =
      .ok [.name "f", .symbol .leftParen, .string ⟨"a]]", .single⟩, .symbol .rightParen, .eof] := by
  have htokens : tokenize quotedText = .ok (List.map (fun kind => ⟨kind, 1⟩)
      [.name "f", .symbol .leftParen, .string ⟨"a]]", .single⟩, .symbol .rightParen, .eof]) := by
    decide +kernel
  have hliteral : (⟨.string ⟨"a]]", .single⟩, 1⟩ : Token) ∈ List.map (fun kind => ⟨kind, 1⟩)
      [.name "f", .symbol .leftParen, .string ⟨"a]]", .single⟩, .symbol .rightParen, .eof] := by
    decide
  obtain ⟨hindex, htable, hcall⟩ := kindsOf_print_literal_iff htokens hliteral
    (show isIdentifier "x" = true by decide) (show isIdentifier "f" = true by decide)
  exact ⟨htokens, hindex.2 rfl, htable.2 rfl, hcall.2 nofun⟩

/-- A text with a string in long brackets as a key. -/
def longKeyText : String := "y = x[ [[a]] ]"

/-- The bracket of the key and the first one of the string are read as the opening of another
    string, which also takes the second one. -/
theorem kindsOf_print_longKey :
    tokenize longKeyText = .ok (List.map (fun kind => ⟨kind, 1⟩)
      [.name "y", .symbol .equal, .name "x", .symbol .leftBracket, .string ⟨"a", .long 0⟩,
       .symbol .rightBracket, .eof]) ∧
    (Expr.index (.name "x") (.string ⟨"a", .long 0⟩)).print = "x[[[a]]]" ∧
    kindsOf (Expr.index (.name "x") (.string ⟨"a", .long 0⟩)).print =
      .ok [.name "x", .string ⟨"[a", .long 0⟩, .symbol .rightBracket, .eof] := by
  decide +kernel

end LuaUnpack.Lua
