import LuaUnpack.Lua.Lexer
import LuaUnpack.Lua.Printer
import Mathlib.Data.List.TakeWhile

/-!
# Reading back pieces

Printed pieces are read back as the tokens they are made of, if every token ends where the
next character begins. Whether it does depends on that character alone (`EndsBefore`): a
name must not go on with a letter, a minus sign must not be followed by another one, which
would start a comment. A list of pieces of which each one ends before what follows it
(`Fits`) is read back token by token (`tokensFrom_render`).
-/

namespace LuaUnpack.Lua

/-! ## Tokens and the characters after them -/

namespace TokenKind

/-- Whether a token ends if a character follows it, or the end of the text. An opening bracket
    does not end before another one, but where strings may be long ones that is left to
    `Keeps`. -/
def EndsBefore (long : Prop) (next : Option Char) : TokenKind → Prop
  | name _ | keyword _ => ∀ c ∈ next, isNameChar c = false
  | number _ => ∀ c ∈ next, isNameChar c = false ∧ c ≠ '.'
  | string _ => True
  | symbol .minus => next ≠ some '-'
  | symbol .less | symbol .greater | symbol .equal => next ≠ some '='
  | symbol .colon => next ≠ some ':'
  | symbol .dotDot => next ≠ some '.'
  | symbol .dot => ∀ c ∈ next, c ≠ '.' ∧ Text.isDigit c = false
  | symbol .leftBracket => (next = some '[' → long) ∧ next ≠ some '='
  | symbol _ => True
  | eof => False

end TokenKind

/-- Whether a literal is written between quotes, and they close it. -/
def Literal.IsShort (literal : Literal) : Prop :=
  ∃ quote, literal.spelling.toList = quote :: (literal.raw.toList ++ [quote]) ∧
    (quote = '\x22' ∧ literal.delimiter = .double ∨
      quote = '\x27' ∧ literal.delimiter = .single) ∧
    Lexer.shortLength? quote (literal.raw.toList ++ [quote]) = some literal.raw.toList.length

/-- Whether a literal is written in long brackets that close it. -/
def Literal.IsLong (literal : Literal) : Prop :=
  ∃ level, literal.delimiter = .long level ∧
    Lexer.longLength? level (literal.raw.toList ++ ']' :: Lexer.longClose level) =
      some literal.raw.toList.length

/-- Whether a literal starts with a carriage return. In long brackets that is taken for a part
    of the line end that is left out. -/
def Literal.startsReturn (literal : Literal) : Bool := literal.raw.toList.head? == some '\r'

/-- Whether a number is written as one token, with digits that read back as the number. -/
structure HasNumeral (x : Float) : Prop where
  pieces : numberPieces x = [.token (.number x)]
  digits : ∃ first rest, (Piece.text (.token (.number x))).toList = first :: rest ∧
    Text.isDigit first = true ∧ (∀ c ∈ rest, Text.isDigit c = true ∨ c = '.') ∧
    Decimal.read? (first :: rest) = some x

/-- Whether a token is one that can be read. -/
def TokenKind.IsReadable : TokenKind → Prop
  | name n => isIdentifier n = true
  | number x => HasNumeral x
  | string literal => literal.IsShort
  | keyword _ | symbol _ => True
  | eof => False

namespace TokenKind

/-- Whether a token has a spelling of its own: one that can be read, or, where strings may be
    long ones, a string in long brackets. -/
def IsSpelled (long : Prop) : TokenKind → Prop
  | string literal => literal.IsShort ∨ long ∧ literal.IsLong
  | kind => kind.IsReadable

/-- Whether a token is kept as it is although strings in long brackets may occur: such a string
    must not start with a carriage return, and an opening bracket must not stand before
    another one. -/
def Keeps (next : Option Char) : TokenKind → Prop
  | string literal => literal.IsShort ∨ literal.startsReturn = false
  | symbol .leftBracket => next ≠ some '['
  | _ => True

variable {long : Prop} {next : Option Char} {kind : TokenKind}

theorem IsReadable.isSpelled (h : kind.IsReadable) : kind.IsSpelled long := by
  cases kind with
  | string literal => exact .inl h
  | _ => exact h

/-- Without strings in long brackets a token that has a spelling can be read. -/
theorem IsSpelled.isReadable (h : kind.IsSpelled False) : kind.IsReadable := by
  cases kind with
  | string literal => exact h.resolve_right And.left
  | _ => exact h

/-- Without strings in long brackets every token is kept. -/
theorem IsSpelled.keeps (h : kind.IsSpelled False) (hends : kind.EndsBefore False next) :
    kind.Keeps next := by
  cases kind with
  | string literal => exact .inl (h.resolve_right And.left)
  | symbol sign =>
    cases sign with
    | leftBracket => exact hends.1
    | _ => trivial
  | _ => trivial

end TokenKind

namespace Lexer

variable {long : Prop} {c : Char} {cs rest : List Char}

theorem takeWhile_append_of_head? {p : Char → Bool} (hcs : ∀ d ∈ cs, p d = true)
    (hrest : ∀ d ∈ rest.head?, p d = false) : (cs ++ rest).takeWhile p = cs := by
  rw [List.takeWhile_append_of_pos hcs]
  cases rest with
  | nil => rw [List.takeWhile_nil, List.append_nil]
  | cons d rest =>
    rw [List.takeWhile_cons_of_neg (by simp [hrest d rfl]), List.append_nil]

/-! ## Characters -/

theorem isNameStart_iff : isNameStart c = true ↔
    97 ≤ c.toNat ∧ c.toNat ≤ 122 ∨ 65 ≤ c.toNat ∧ c.toNat ≤ 90 ∨ c.toNat = 95 := by
  have hunderscore : c = '_' ↔ c.toNat = 95 := by
    rw [← Char.toNat_inj]
    rfl
  simp only [isNameStart, Bool.or_eq_true, Bool.and_eq_true, decide_eq_true_eq, beq_iff_eq,
    hunderscore, or_assoc]
  rfl

theorem isDigit_iff : Text.isDigit c = true ↔ 48 ≤ c.toNat ∧ c.toNat ≤ 57 := by
  simp only [Text.isDigit, Bool.and_eq_true, decide_eq_true_eq]
  rfl

theorem isBlank_eq_false (hlow : 33 ≤ c.toNat) (hhigh : c.toNat ≤ 126) :
    Text.isBlank c = false := by
  simp only [Text.isBlank, Text.blankRanges, List.any_cons, List.any_nil, Bool.or_false,
    Bool.or_eq_false_iff, Bool.and_eq_false_iff, decide_eq_false_iff_not]
  omega

/-! ## Names and keywords -/

theorem step_word {text : String} (htext : text.toList = c :: cs) (hc : isNameStart c = true)
    (hcs : ∀ d ∈ cs, isNameChar d = true) (hrest : ∀ d ∈ rest.head?, isNameChar d = false) :
    step c (cs ++ rest) = .ok (some (word text), cs.length) := by
  have hrange := isNameStart_iff.1 hc
  have hblank : Text.isBlank c = false := isBlank_eq_false (by omega) (by omega)
  have hminus : (c == '-') = false := by
    rw [beq_eq_false_iff_ne]
    rintro rfl
    cases hc
  have htail : (cs ++ rest).takeWhile isNameChar = cs := takeWhile_append_of_head? hcs hrest
  rw [step, hblank, hminus, hc, readWord, htail, ← htext, String.ofList_toList]
  rfl

theorem step_name {n : String} (hn : isIdentifier n = true) (htext : n.toList = c :: cs)
    (hrest : ∀ d ∈ rest.head?, isNameChar d = false) :
    step c (cs ++ rest) = .ok (some (.name n), cs.length) := by
  rw [isIdentifier, htext] at hn
  simp only [Bool.and_eq_true, List.all_eq_true, Option.isNone_iff_eq_none] at hn
  obtain ⟨⟨hc, hcs⟩, hkeyword⟩ := hn
  rw [step_word htext hc hcs hrest, word, hkeyword]

/-- A keyword is written with letters, and is no other one. -/
theorem keyword_text (w : Keyword) :
    (w.text.toList.all isNameStart) = true ∧ Keyword.ofText? w.text = some w := by
  cases w <;> decide

theorem step_keyword {w : Keyword} (htext : w.text.toList = c :: cs)
    (hrest : ∀ d ∈ rest.head?, isNameChar d = false) :
    step c (cs ++ rest) = .ok (some (.keyword w), cs.length) := by
  obtain ⟨hletters, hword⟩ := keyword_text w
  rw [htext, List.all_cons, Bool.and_eq_true, List.all_eq_true] at hletters
  have hcs : ∀ d ∈ cs, isNameChar d = true := fun d hd => by
    rw [isNameChar, hletters.2 d hd, Bool.true_or]
  rw [step_word htext hletters.1 hcs hrest, word, hword]

/-! ## Symbols -/

theorem ofChars?_append {s : Symbol} (hrest : TokenKind.EndsBefore False rest.head? (.symbol s)) :
    Symbol.ofChars? (s.text.toList ++ rest) = some s := by
  cases rest with
  | nil => cases s <;> rfl
  | cons d rest =>
    cases s
    case minus | less | greater | equal | colon | dotDot =>
      have hd : _ ≠ d := fun h => hrest (congrArg some h.symm)
      simp [Symbol.ofChars?, Symbol.longestFirst, Symbol.text, hd]
    case dot =>
      have hd : '.' ≠ d := fun h => (hrest d rfl).1 h.symm
      simp [Symbol.ofChars?, Symbol.longestFirst, Symbol.text, hd]
    all_goals simp [Symbol.ofChars?, Symbol.longestFirst, Symbol.text]

/-- Three symbols start like something else: a comment, a number and a long string. -/
theorem step_eq_readSymbol {s : Symbol} (htext : s.text.toList = c :: cs)
    (hrest : TokenKind.EndsBefore False rest.head? (.symbol s)) :
    step c (cs ++ rest) = readSymbol c (cs ++ rest) := by
  cases s
  case minus =>
    obtain ⟨rfl, rfl⟩ := List.cons.inj (htext.symm : c :: cs = ['-'])
    have hminus : (rest.head? == some '-') = false := beq_false_of_ne hrest
    rw [List.nil_append, step, hminus]
    rfl
  case dot =>
    obtain ⟨rfl, rfl⟩ := List.cons.inj (htext.symm : c :: cs = ['.'])
    have hdigit : rest.head?.any Text.isDigit = false := by
      cases rest with
      | nil => rfl
      | cons d rest => exact (hrest d rfl).2
    rw [List.nil_append, step, startsNumber, hdigit]
    rfl
  case leftBracket =>
    obtain ⟨rfl, rfl⟩ := List.cons.inj (htext.symm : c :: cs = ['['])
    have hlong : longLevel? rest = none := by
      cases rest with
      | nil => rfl
      | cons d rest =>
        have hd : d ≠ '[' := fun h => hrest.1 (congrArg some h)
        have hd' : d ≠ '=' := fun h => hrest.2 (congrArg some h)
        simp [longLevel?, hd, hd']
    change readBracket rest = _
    rw [readBracket, hlong]
    rfl
  all_goals
    cases htext
    rfl

theorem step_symbol {s : Symbol} (htext : s.text.toList = c :: cs)
    (hrest : TokenKind.EndsBefore False rest.head? (.symbol s)) :
    step c (cs ++ rest) = .ok (some (.symbol s), cs.length) := by
  have hsign := ofChars?_append hrest
  rw [htext, List.cons_append] at hsign
  have hlength : s.text.length - 1 = cs.length := by
    rw [← String.length_toList, htext, List.length_cons, Nat.add_sub_cancel]
  rw [step_eq_readSymbol htext hrest, readSymbol, hsign, ← hlength]

/-! ## Strings -/

theorem shortLength?_cons {quote : Char} (hc : c ≠ '\\') (cs : List Char) :
    shortLength? quote (c :: cs) =
      if c == quote then some 0
      else if c == '\n' then none
      else (shortLength? quote cs).map (· + 1) := by
  cases cs <;> simp [shortLength?, hc]

theorem ne_of_no_escape (hend : c = '\\' → cs = [] → False)
    (hpair : ∀ d tail, c = '\\' → cs = d :: tail → False) : c ≠ '\\' := by
  intro hc
  cases cs with
  | nil => exact hend hc rfl
  | cons d tail => exact hpair d tail hc rfl

/-- What follows the closing quote does not matter. -/
theorem shortLength?_append {quote : Char} {n : Nat} (h : shortLength? quote cs = some n) :
    shortLength? quote (cs ++ rest) = some n := by
  -- The cases are an escape (3), the closing quote (4), a line end (5) and any other character (6).
  induction cs using shortLength?.induct quote generalizing n with
  | case1 => cases h
  | case2 => cases h
  | case3 d tail ih =>
    obtain ⟨k, hk, rfl⟩ := Option.map_eq_some_iff.1 h
    exact Option.map_eq_some_iff.2 ⟨k, ih hk, rfl⟩
  | case4 d tail hend hpair hquote =>
    have hd : d ≠ '\\' := ne_of_no_escape hend hpair
    rw [shortLength?_cons hd, if_pos hquote] at h
    rw [List.cons_append, shortLength?_cons hd, if_pos hquote, h]
  | case5 d tail hend hpair hquote hline =>
    have hd : d ≠ '\\' := ne_of_no_escape hend hpair
    rw [shortLength?_cons hd, if_neg hquote, if_pos hline] at h
    cases h
  | case6 d tail hend hpair hquote hline ih =>
    have hd : d ≠ '\\' := ne_of_no_escape hend hpair
    rw [shortLength?_cons hd, if_neg hquote, if_neg hline] at h
    obtain ⟨k, hk, rfl⟩ := Option.map_eq_some_iff.1 h
    rw [List.cons_append, shortLength?_cons hd, if_neg hquote, if_neg hline, ih hk,
      Option.map_some]

theorem step_string {literal : Literal} (hliteral : literal.IsShort)
    (htext : literal.spelling.toList = c :: cs) :
    step c (cs ++ rest) = .ok (some (.string literal), cs.length) := by
  obtain ⟨quote, hspelling, hquote, hlength⟩ := hliteral
  obtain ⟨rfl, rfl⟩ := List.cons.inj (htext.symm.trans hspelling)
  have hread : step c (literal.raw.toList ++ [c] ++ rest) =
      readShort c literal.delimiter (literal.raw.toList ++ [c] ++ rest) := by
    rcases hquote with ⟨rfl, hdelimiter⟩ | ⟨rfl, hdelimiter⟩
    · rw [hdelimiter]
      rfl
    · rw [hdelimiter]
      rfl
  have hraw : (literal.raw.toList ++ [c] ++ rest).take literal.raw.toList.length =
      literal.raw.toList := by rw [List.append_assoc, List.take_left]
  rw [hread, readShort, shortLength?_append hlength]
  simp only [hraw, String.ofList_toList, List.length_append, List.length_singleton]

/-! ### Strings in long brackets -/

theorem length_of_longLength? {level n : Nat} (h : longLength? level cs = some n) :
    n + level + 2 ≤ cs.length := by
  induction cs generalizing n with
  | nil => cases h
  | cons d cs ih =>
    rw [longLength?] at h
    split at h
    · -- The closing bracket is in the text, with all its equals signs.
      rename_i hclose
      obtain rfl := Option.some.inj h
      have hprefix := List.isPrefixOf_iff_prefix.1 (Bool.and_eq_true_iff.1 hclose).2
      have hlength := hprefix.length_le
      rw [longClose, List.length_append, List.length_replicate, List.length_singleton] at hlength
      rw [List.length_cons]
      omega
    · obtain ⟨k, hk, rfl⟩ := Option.map_eq_some_iff.1 h
      have := ih hk
      rw [List.length_cons]
      omega

/-- What follows the closing bracket does not matter. -/
theorem longLength?_append {level n : Nat} (h : longLength? level cs = some n) :
    longLength? level (cs ++ rest) = some n := by
  induction cs generalizing n with
  | nil => cases h
  | cons d cs ih =>
    rw [longLength?] at h
    rw [List.cons_append, longLength?]
    split at h
    · rename_i hclose
      obtain ⟨hd, hprefix⟩ := Bool.and_eq_true_iff.1 hclose
      rw [List.isPrefixOf_iff_prefix] at hprefix
      rw [if_pos, h]
      rw [hd, Bool.true_and, List.isPrefixOf_iff_prefix]
      exact hprefix.trans (List.prefix_append cs rest)
    · rename_i hopen
      obtain ⟨k, hk, rfl⟩ := Option.map_eq_some_iff.1 h
      rw [if_neg, ih hk, Option.map_some]
      -- The closing bracket is found later, so there is room for one here.
      intro hclose
      obtain ⟨hd, hprefix⟩ := Bool.and_eq_true_iff.1 hclose
      refine hopen (Bool.and_eq_true_iff.2 ⟨hd, List.isPrefixOf_iff_prefix.2 ?_⟩)
      refine List.prefix_of_prefix_length_le (List.isPrefixOf_iff_prefix.1 hprefix)
        (List.prefix_append cs rest) ?_
      have hroom := length_of_longLength? hk
      rw [longClose, List.length_append, List.length_replicate, List.length_singleton]
      omega

theorem longLevel?_bars (level : Nat) (rest : List Char) :
    longLevel? (List.replicate level '=' ++ '[' :: rest) = some level := by
  have hbars : ((List.replicate level '=' ++ '[' :: rest).takeWhile (· == '=')) =
      List.replicate level '=' :=
    takeWhile_append_of_head? (fun d hd => beq_iff_eq.2 (List.eq_of_mem_replicate hd)) (by simp)
  have hdrop : (List.replicate level '=' ++ '[' :: rest).drop level = '[' :: rest :=
    List.drop_left' List.length_replicate
  rw [longLevel?, hbars, List.length_replicate]
  simp only [hdrop]

/-- The line end that is written before the content of a long string. -/
def lineEndBefore (raw : List Char) : List Char := if raw.head? == some '\n' then ['\n'] else []

theorem toList_repeated_bars (level : Nat) :
    (Text.repeated level "=").toList = List.replicate level '=' := by
  rw [Text.repeated, String.toList_join]
  induction level with
  | zero => rfl
  | succ level ih => rw [List.replicate_succ, List.flatMap_cons, ih, List.replicate_succ]; rfl

theorem toList_spelling_long {literal : Literal} {level : Nat}
    (h : literal.delimiter = .long level) :
    literal.spelling.toList = '[' :: (List.replicate level '=' ++ '[' ::
      (lineEndBefore literal.raw.toList ++ (literal.raw.toList ++ ']' :: longClose level))) := by
  rw [Literal.spelling, h, lineEndBefore, longClose]
  dsimp only
  split <;> simp [toList_repeated_bars]

/-- The line end that was written is the one that is left out. -/
theorem leadingLineEnd_written {raw : List Char} (hraw : raw.head? ≠ some '\r') (close : List Char)
    (hclose : ∀ d ∈ close.head?, d = ']') :
    leadingLineEnd (lineEndBefore raw ++ (raw ++ close)) = (lineEndBefore raw).length := by
  cases raw with
  | nil =>
    cases close with
    | nil => rfl
    | cons d close =>
      obtain rfl : d = ']' := hclose d rfl
      rfl
  | cons d raw =>
    have hd : d ≠ '\r' := fun h => hraw (congrArg some h)
    -- A line feed is written twice, so that one is left.
    by_cases hline : d = '\n'
    · subst hline
      rfl
    · have hbefore : lineEndBefore (d :: raw) = [] := if_neg (by simpa using hline)
      rw [hbefore, List.nil_append, List.cons_append, List.length_nil]
      unfold leadingLineEnd
      split
      · rename_i heq
        exact absurd (List.cons.inj heq).1 hd
      · rename_i heq
        exact absurd (List.cons.inj heq).1 hd
      · rename_i heq
        exact absurd (List.cons.inj heq).1 hline
      · rfl

theorem step_bracket (rest : List Char) : step '[' rest = readBracket rest := rfl

/-- A long string that starts with no carriage return is read back. -/
theorem step_long {literal : Literal} (hliteral : literal.IsLong)
    (hreturn : literal.startsReturn = false) (htext : literal.spelling.toList = c :: cs) :
    step c (cs ++ rest) = .ok (some (.string literal), cs.length) := by
  obtain ⟨level, hdelimiter, hlength⟩ := hliteral
  obtain ⟨rfl, rfl⟩ := List.cons.inj (htext.symm.trans (toList_spelling_long hdelimiter))
  have hraw : literal.raw.toList.head? ≠ some '\r' := by simpa [Literal.startsReturn] using hreturn
  have hopened : (List.replicate level '=' ++ '[' :: (lineEndBefore literal.raw.toList ++
      (literal.raw.toList ++ ']' :: longClose level)) ++ rest).drop (level + 1) =
      lineEndBefore literal.raw.toList ++
        (literal.raw.toList ++ (']' :: longClose level ++ rest)) := by
    rw [List.append_assoc, List.drop_append, List.length_replicate, List.drop_eq_nil_of_le (by simp)]
    simp
  have hcontent : longLength? level (literal.raw.toList ++ ']' :: longClose level ++ rest) =
      some literal.raw.toList.length := longLength?_append hlength
  rw [List.append_assoc] at hcontent
  have hlevel : longLevel? (List.replicate level '=' ++ '[' :: (lineEndBefore literal.raw.toList ++
      (literal.raw.toList ++ ']' :: longClose level)) ++ rest) = some level := by
    rw [List.append_assoc, List.cons_append]
    exact longLevel?_bars level _
  rw [step_bracket, readBracket, hlevel]
  dsimp only
  rw [readLong, hopened, leadingLineEnd_written hraw _ (by rintro d ⟨⟩; rfl), List.drop_left,
    hcontent]
  simp only [Except.map, List.take_left, String.ofList_toList, ← hdelimiter]
  refine congrArg Except.ok (congrArg (Prod.mk _) ?_)
  simp [longClose]
  omega

/-! ## Numbers -/

theorem numberLength_append (hcs : ∀ d ∈ cs, Text.isDigit d = true ∨ d = '.')
    (hrest : ∀ d ∈ rest.head?, isNameChar d = false ∧ d ≠ '.') :
    numberLength .mantissa (cs ++ rest) = cs.length := by
  induction cs with
  | nil =>
    cases rest with
    | nil => rfl
    | cons d rest =>
      obtain ⟨hname, hdot⟩ := hrest d rfl
      have hdigit : Text.isDigit d = false := (Bool.or_eq_false_iff.1 hname).2
      -- Neither a letter nor a mark of an exponent follows, so the number ends.
      have hmark : d ≠ 'e' ∧ d ≠ 'E' := by
        constructor <;> rintro rfl <;> cases hname
      have hnext : NumberPart.next? .mantissa d = none := by
        simp [NumberPart.next?, hdigit, hdot, hmark]
      rw [List.nil_append, numberLength, hnext, List.length_nil]
  | cons d cs ih =>
    have hnext : NumberPart.next? .mantissa d = some .mantissa := by
      rw [NumberPart.next?, if_pos]
      simpa using hcs d List.mem_cons_self
    rw [List.cons_append, numberLength, hnext, List.length_cons]
    exact congrArg (· + 1) (ih fun e he => hcs e (List.mem_cons_of_mem d he))

theorem step_number {x : Float} (hx : HasNumeral x)
    (htext : (Piece.text (.token (.number x))).toList = c :: cs)
    (hrest : ∀ d ∈ rest.head?, isNameChar d = false ∧ d ≠ '.') :
    step c (cs ++ rest) = .ok (some (.number x), cs.length) := by
  obtain ⟨first, digits, hspelling, hfirst, hdigits, hvalue⟩ := hx.digits
  obtain ⟨rfl, rfl⟩ := List.cons.inj (htext.symm.trans hspelling)
  have hrange := isDigit_iff.1 hfirst
  have hblank : Text.isBlank c = false := isBlank_eq_false (by omega) (by omega)
  have hstart : isNameStart c = false := by
    rw [← Bool.not_eq_true, isNameStart_iff]
    omega
  have hminus : (c == '-') = false := by
    rw [beq_eq_false_iff_ne]
    rintro rfl
    cases hfirst
  have hnumber : startsNumber c (cs ++ rest) = true := by rw [startsNumber, hfirst, Bool.true_or]
  -- No `x` follows the first digit: in the numeral there is none, behind it no letter.
  have hhex : ∀ d ∈ (cs ++ rest).head?, d ≠ 'x' ∧ d ≠ 'X' := by
    cases cs with
    | nil =>
      intro d hd
      constructor <;> rintro rfl <;> cases (hrest _ hd).1
    | cons e cs =>
      intro d hd
      obtain rfl : e = d := Option.some.inj hd
      constructor <;> rintro rfl <;> rcases hdigits _ List.mem_cons_self with h | h <;> cases h
  have hdecimal : readNumber c (cs ++ rest) = readDecimal c (cs ++ rest) := by
    unfold readNumber
    split
    · rename_i heq
      rw [heq] at hhex
      exact absurd rfl (hhex 'x' rfl).1
    · rename_i heq
      rw [heq] at hhex
      exact absurd rfl (hhex 'X' rfl).2
    · rfl
  rw [step, hblank, hminus, hstart, hnumber]
  change readNumber c (cs ++ rest) = _
  rw [hdecimal, readDecimal, numberLength_append hdigits hrest, List.take_left, hvalue]

/-- What ends and is kept ends without regard to long strings. -/
theorem endsBefore_of_keeps {kind : TokenKind} {next : Option Char}
    (h : kind.EndsBefore long next) (hkeeps : kind.Keeps next) : kind.EndsBefore False next := by
  cases kind with
  | symbol sign =>
    cases sign with
    | leftBracket => exact ⟨hkeeps, h.2⟩
    | _ => exact h
  | _ => exact h

/-- A token that has a spelling is read back, if it ends before what follows and is kept. -/
theorem step_token {kind : TokenKind} (hkind : kind.IsSpelled long)
    (htext : (Piece.text (.token kind)).toList = c :: cs) (hrest : kind.EndsBefore long rest.head?)
    (hkeeps : kind.Keeps rest.head?) : step c (cs ++ rest) = .ok (some kind, cs.length) := by
  have hends := endsBefore_of_keeps hrest hkeeps
  cases kind with
  | name n => exact step_name hkind htext hends
  | number x => exact step_number hkind htext hends
  | string literal =>
    by_cases hshort : literal.IsShort
    · exact step_string hshort htext
    · exact step_long (hkind.resolve_left hshort).2 (hkeeps.resolve_left hshort) htext
  | keyword w => exact step_keyword htext hends
  | symbol s => exact step_symbol htext hends
  | eof => exact hkind.elim

end Lexer

/-! ## Pieces -/

namespace Piece

/-- The token that a piece is. -/
def kind? : Piece → Option TokenKind
  | token kind => some kind
  | space _ => none

/-- The tokens of pieces. -/
def kinds (pieces : List Piece) : List TokenKind := pieces.filterMap kind?

/-- The first character of pieces that are followed by another one. -/
def lead (next : Option Char) : List Piece → Option Char
  | [] => next
  | piece :: rest => piece.text.toList.head?.or (lead next rest)

/-- Whether pieces can be read where a character follows: every token ends before what comes
    after it, and between tokens there are only blanks. Whether strings in long brackets may
    occur is said by `long`; they can still change what is read (`Keeps`). -/
def Fits (long : Prop) (next : Option Char) : List Piece → Prop
  | [] => True
  | token kind :: rest =>
    kind.IsSpelled long ∧ kind.EndsBefore long (lead next rest) ∧ Fits long next rest
  | space text :: rest => (∀ c ∈ text.toList, Text.isBlank c = true) ∧ Fits long next rest

/-- Whether all tokens of pieces are kept where a character follows. -/
def Keeps (next : Option Char) : List Piece → Prop
  | [] => True
  | token kind :: rest => kind.Keeps (lead next rest) ∧ Keeps next rest
  | space _ :: rest => Keeps next rest

variable {long : Prop} {next : Option Char}

theorem Fits.keeps {pieces : List Piece} (h : Fits False next pieces) : Keeps next pieces := by
  induction pieces with
  | nil => trivial
  | cons piece pieces ih =>
    cases piece with
    | token kind => exact ⟨h.1.keeps h.2.1, ih h.2.2⟩
    | space text => exact ih h.2

@[simp]
theorem kinds_nil : kinds [] = [] := rfl

@[simp]
theorem kinds_token (kind : TokenKind) (rest : List Piece) :
    kinds (token kind :: rest) = kind :: kinds rest := rfl

@[simp]
theorem kinds_space (text : String) (rest : List Piece) :
    kinds (space text :: rest) = kinds rest := rfl

@[simp]
theorem kinds_sym (sign : Symbol) (rest : List Piece) :
    kinds (sym sign :: rest) = .symbol sign :: kinds rest := rfl

@[simp]
theorem kinds_kw (word : Keyword) (rest : List Piece) :
    kinds (kw word :: rest) = .keyword word :: kinds rest := rfl

@[simp]
theorem kinds_ident (name : String) (rest : List Piece) :
    kinds (ident name :: rest) = .name name :: kinds rest := rfl

@[simp]
theorem kinds_blank (rest : List Piece) : kinds (blank :: rest) = kinds rest := rfl

@[simp]
theorem kinds_append (left right : List Piece) :
    kinds (left ++ right) = kinds left ++ kinds right := List.filterMap_append ..

@[simp]
theorem kinds_inParens (pieces : List Piece) :
    kinds (inParens pieces) =
      TokenKind.symbol .leftParen :: (kinds pieces ++ [TokenKind.symbol .rightParen]) := by
  simp [inParens]

@[simp]
theorem kinds_comma : kinds comma = [.symbol .comma] := rfl

@[simp]
theorem kinds_line (indent : String) (level : Nat) (pieces : List Piece) :
    kinds (line indent level pieces) = kinds pieces := by
  simp [line]

@[simp]
theorem lead_append (left right : List Piece) :
    lead next (left ++ right) = lead (lead next right) left := by
  induction left with
  | nil => rfl
  | cons piece left ih => rw [List.cons_append, lead, lead, ih]

theorem fits_append_iff {left right : List Piece} :
    Fits long next (left ++ right) ↔ Fits long (lead next right) left ∧ Fits long next right := by
  induction left with
  | nil => exact ⟨fun h => ⟨trivial, h⟩, fun h => h.2⟩
  | cons piece left ih =>
    cases piece with
    | token kind => rw [List.cons_append, Fits, Fits, ih, lead_append, and_assoc, and_assoc]
    | space text => rw [List.cons_append, Fits, Fits, ih, and_assoc]

theorem toList_render_cons (piece : Piece) (rest : List Piece) :
    (render (piece :: rest)).toList = piece.text.toList ++ (render rest).toList := by
  simp only [render, String.toList_join, List.map_cons, List.flatMap_cons]

theorem head?_render (pieces : List Piece) : (render pieces).toList.head? = lead none pieces := by
  induction pieces with
  | nil => rfl
  | cons piece pieces ih => rw [toList_render_cons, List.head?_append, ih, lead]

end Piece

namespace Lexer

open Piece

theorem tokensFrom_skip {c : Char} {rest : List Char} {n : Nat}
    (h : step c rest = .ok (none, n)) (p : Position) :
    tokensFrom p (c :: rest) = tokensFrom (p.after (c :: rest.take n)) (rest.drop n) := by
  rw [tokensFrom, h]
  dsimp only
  split
  · rename_i error herror
    rw [herror]
  · rename_i tokens htokens
    rw [htokens]

theorem tokensFrom_token {c : Char} {rest : List Char} {kind : TokenKind} {n : Nat}
    {tokens : List Token} {p : Position} (h : step c rest = .ok (some kind, n))
    (htokens : tokensFrom (p.after (c :: rest.take n)) (rest.drop n) = .ok tokens) :
    tokensFrom p (c :: rest) = .ok (⟨kind, p.line⟩ :: tokens) := by
  rw [tokensFrom, h]
  dsimp only
  rw [htokens]

/-- Blanks are skipped. -/
theorem tokensFrom_blanks {text : List Char} (htext : ∀ c ∈ text, Text.isBlank c = true)
    (p : Position) (rest : List Char) :
    tokensFrom p (text ++ rest) = tokensFrom (p.after text) rest := by
  induction text generalizing p with
  | nil => rfl
  | cons c text ih =>
    have hstep : step c (text ++ rest) = .ok (none, 0) := by
      rw [step, if_pos (htext c List.mem_cons_self)]
    rw [List.cons_append, tokensFrom_skip hstep, List.take_zero, List.drop_zero,
      ih fun d hd => htext d (List.mem_cons_of_mem c hd)]
    rfl

theorem text_ne_nil {kind : TokenKind} (h : kind.IsSpelled long) :
    (Piece.text (.token kind)).toList ≠ [] := by
  cases kind with
  | name n =>
    intro hn
    have hname : isIdentifier n = true := h
    rw [isIdentifier, show n.toList = [] from hn] at hname
    cases hname
  | number x =>
    obtain ⟨first, rest, hspelling, -⟩ := h.digits
    rw [hspelling]
    exact List.cons_ne_nil _ _
  | string literal =>
    change literal.spelling.toList ≠ []
    obtain ⟨quote, hspelling, -⟩ | ⟨-, level, hlevel, -⟩ := h
    · rw [hspelling]
      exact List.cons_ne_nil _ _
    · rw [toList_spelling_long hlevel]
      exact List.cons_ne_nil _ _
  | keyword w => cases w <;> decide
  | symbol s => cases s <;> decide
  | eof => exact h.elim

/-- Pieces that fit are read back as their tokens, if all of these are kept. -/
theorem tokensFrom_render {pieces : List Piece} (h : Fits long none pieces)
    (hkeeps : Keeps none pieces) (p : Position) : ∃ tokens,
      tokensFrom p (render pieces).toList = .ok tokens ∧
        tokens.map Token.kind = kinds pieces ++ [TokenKind.eof] := by
  induction pieces generalizing p with
  | nil =>
    refine ⟨[⟨.eof, p.line⟩], ?_, rfl⟩
    change tokensFrom p [] = _
    rw [tokensFrom]
  | cons piece pieces ih =>
    rw [toList_render_cons]
    cases piece with
    | space text =>
      obtain ⟨htext, hfits⟩ := h
      rw [Piece.text, tokensFrom_blanks htext]
      exact ih hfits hkeeps _
    | token kind =>
      obtain ⟨hkind, hends, hfits⟩ := h
      obtain ⟨hkeep, hkeeps⟩ := hkeeps
      rw [← head?_render] at hends hkeep
      -- One step reads the token, and the induction hypothesis what comes after it.
      obtain ⟨c, cs, htext⟩ := List.exists_cons_of_ne_nil (text_ne_nil hkind)
      have hstep := step_token hkind htext hends hkeep
      obtain ⟨tokens, htokens, hkinds⟩ := ih hfits hkeeps (p.after (c :: cs))
      refine ⟨⟨kind, p.line⟩ :: tokens, ?_, congrArg (List.cons kind) hkinds⟩
      rw [htext, List.cons_append]
      refine tokensFrom_token hstep ?_
      rw [List.take_left, List.drop_left]
      exact htokens

end Lexer

section

variable {long : Prop}

open Piece

/-! ## Interpreter lines -/

theorem Lexer.ne_mark_of_text {kind : TokenKind} {c : Char} {cs : List Char}
    (hkind : kind.IsSpelled long) (htext : (Piece.text (.token kind)).toList = c :: cs) :
    c ≠ '!' ∧ (c = '#' → cs = []) := by
  have hletter (hc : isNameStart c = true) : c ≠ '!' ∧ (c = '#' → cs = []) := by
    refine ⟨?_, fun hhash => absurd hhash ?_⟩ <;> rintro rfl <;> cases hc
  cases kind with
  | name n =>
    have hname : isIdentifier n = true := hkind
    rw [isIdentifier, show n.toList = c :: cs from htext] at hname
    exact hletter (Bool.and_eq_true_iff.1 (Bool.and_eq_true_iff.1 hname).1).1
  | number x =>
    obtain ⟨first, rest, hspelling, hdigit, -⟩ := hkind.digits
    obtain ⟨rfl, -⟩ := List.cons.inj (htext.symm.trans hspelling)
    refine ⟨?_, fun hhash => absurd hhash ?_⟩ <;> rintro rfl <;> cases hdigit
  | string literal =>
    have htext : literal.spelling.toList = c :: cs := htext
    obtain ⟨quote, hspelling, hquote, -⟩ | ⟨-, level, hlevel, -⟩ := hkind
    · obtain ⟨rfl, -⟩ := List.cons.inj (htext.symm.trans hspelling)
      rcases hquote with ⟨rfl, -⟩ | ⟨rfl, -⟩ <;> exact ⟨by decide, fun h => absurd h (by decide)⟩
    · obtain ⟨rfl, -⟩ := List.cons.inj (htext.symm.trans (toList_spelling_long hlevel))
      exact ⟨by decide, fun h => absurd h (by decide)⟩
  | keyword w =>
    refine hletter (List.all_eq_true.1 (keyword_text w).1 c ?_)
    rw [show w.text.toList = c :: cs from htext]
    exact List.mem_cons_self
  | symbol s =>
    have hsigns : (s.text.toList.head? != some '!') = true ∧
        (s.text.toList.head? == some '#') = (s.text.toList == ['#']) := by cases s <;> decide
    rw [show s.text.toList = c :: cs from htext] at hsigns
    exact ⟨by simpa using hsigns.1, fun hc => by simpa [hc] using hsigns.2⟩
  | eof => exact hkind.elim

theorem lead_ne_mark {next : Option Char} {pieces : List Piece}
    (h : Fits long next pieces) : lead none pieces ≠ some '!' := by
  induction pieces with
  | nil => exact nofun
  | cons piece pieces ih =>
    rw [lead]
    -- The first piece that is not empty decides.
    cases htext : piece.text.toList with
    | nil =>
      rw [List.head?_nil, Option.none_or]
      cases piece with
      | token kind => exact ih h.2.2
      | space text => exact ih h.2
    | cons c cs =>
      rw [List.head?_cons, Option.some_or]
      rintro ⟨⟩
      cases piece with
      | token kind => exact (Lexer.ne_mark_of_text h.1 htext).1 rfl
      | space text =>
        cases h.1 '!' (by rw [show text.toList = '!' :: cs from htext]; exact List.mem_cons_self)

/-- Pieces start with no interpreter line. -/
theorem toList_render_ne_mark {next : Option Char} {pieces : List Piece}
    (h : Fits long next pieces) (rest : List Char) :
    (render pieces).toList ≠ '#' :: '!' :: rest := by
  induction pieces generalizing rest with
  | nil => exact nofun
  | cons piece pieces ih =>
    intro htext
    rw [toList_render_cons] at htext
    cases hpiece : piece.text.toList with
    | nil =>
      rw [hpiece, List.nil_append] at htext
      cases piece with
      | token kind => exact ih h.2.2 rest htext
      | space text => exact ih h.2 rest htext
    | cons c cs =>
      rw [hpiece, List.cons_append] at htext
      obtain ⟨rfl, htail⟩ := List.cons.inj htext
      cases piece with
      | token kind =>
        -- Only the length operator starts with `#`, and no token after it starts with `!`.
        obtain rfl := (Lexer.ne_mark_of_text h.1 hpiece).2 rfl
        refine lead_ne_mark h.2.2 ?_
        rw [← head?_render, show (render pieces).toList = _ from htail]
        rfl
      | space text =>
        cases h.1 '#' (by rw [show text.toList = '#' :: cs from hpiece]; exact List.mem_cons_self)

theorem tokenize_render_eq {pieces : List Piece} (h : Fits long none pieces) :
    tokenize (render pieces) = Lexer.tokensFrom {} (render pieces).toList := by
  unfold tokenize Lexer.dropInterpreterLine
  split
  · rename_i rest htext
    exact absurd htext (toList_render_ne_mark h rest)
  · rfl

/-- A text of pieces that fit is read back as their tokens, if all of these are kept. -/
theorem tokenize_render {pieces : List Piece} (h : Fits long none pieces)
    (hkeeps : Keeps none pieces) : ∃ tokens, tokenize (render pieces) = .ok tokens ∧
      tokens.map Token.kind = kinds pieces ++ [TokenKind.eof] := by
  rw [tokenize_render_eq h]
  exact Lexer.tokensFrom_render h hkeeps {}

end

end LuaUnpack.Lua
