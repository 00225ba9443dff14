import LuaUnpack.Decimal.Reader
import LuaUnpack.Lua.Token
import LuaUnpack.Text.Blank
import LuaUnpack.Width

/-!
# From text to tokens

One step looks at the first character and what follows it, and says which token
starts there, or that there is none (a blank or a comment), and how many of the
following characters belong to it. `tokenize` repeats this to the end of the text
and keeps the position, so that every token carries the line on which it starts.
-/

namespace LuaUnpack.Lua

/-- Why a text is no script. -/
inductive ParseError where
  | unexpectedCharacter (char : Char) (line column : Nat)
  | unterminatedString (line : Nat)
  | unterminatedLongBracket (line : Nat)
  | malformedNumber (text : String) (line : Nat)
  | expected (what found : String) (line : Nat)
  | unexpectedToken (text : String) (line : Nat)
  | nestedTooDeep
deriving DecidableEq, Repr

/-- The message for an error. -/
def ParseError.message : ParseError → String
  | unexpectedCharacter char line column =>
    s!"Unexpected character '{char}' at line {line}, column {column}"
  | unterminatedString line => s!"Unterminated string starting at line {line}"
  | unterminatedLongBracket line => s!"Unterminated long bracket starting at line {line}"
  | malformedNumber text line => s!"Malformed number '{text}' at line {line}"
  | expected what found line => s!"Expected {what} but found '{found}' at line {line}"
  | unexpectedToken text line => s!"Unexpected token '{text}' at line {line}"
  | nestedTooDeep => "Nesting too deep"

namespace Lexer

/-- A place in a text, counted from one. -/
structure Position where
  line : Nat := 1
  column : Nat := 1
deriving DecidableEq, Repr

/-- The place after a character. -/
def Position.next (p : Position) (c : Char) : Position :=
  if c == '\n' then ⟨p.line + 1, 1⟩ else ⟨p.line, p.column + 1⟩

/-- The place after some characters. -/
def Position.after (p : Position) (cs : List Char) : Position := cs.foldl Position.next p

/-- What can be wrong with the characters at one place. -/
inductive Fault where
  | unexpectedCharacter (char : Char)
  | unterminatedString
  | unterminatedLongBracket
  | malformedNumber (text : String)

/-- The error for a fault at a place. -/
def Fault.at (p : Position) : Fault → ParseError
  | unexpectedCharacter char => .unexpectedCharacter char p.line p.column
  | unterminatedString => .unterminatedString p.line
  | unterminatedLongBracket => .unterminatedLongBracket p.line
  | malformedNumber text => .malformedNumber text p.line

/-- A token, or none, with the number of characters after the first that belong
    to it. -/
abbrev Step := Except Fault (Option TokenKind × Nat)

/-! ## Names -/

/-- The keyword or name with a spelling. -/
def word (text : String) : TokenKind :=
  match Keyword.ofText? text with
  | some keyword => .keyword keyword
  | none => .name text

/-- The word that starts with `c`. -/
def readWord (c : Char) (rest : List Char) : Step :=
  let tail := rest.takeWhile isNameChar
  .ok (some (word (String.ofList (c :: tail))), tail.length)

/-! ## Numbers -/

/-- Where in a decimal a character stands: before the exponent, right after its
    mark, or behind that. -/
inductive NumberPart where
  | mantissa
  | mark
  | exponent

/-- The part after a character, if the character can stand in a number there. -/
def NumberPart.next? : NumberPart → Char → Option NumberPart
  | mantissa, c =>
    if Text.isDigit c || c == '.' then some mantissa
    else if c == 'e' || c == 'E' then some mark
    else none
  | mark, c =>
    if Text.isDigit c || c == '.' || c == '+' || c == '-' then some exponent else none
  | exponent, c => if Text.isDigit c || c == '.' then some exponent else none

/-- How many characters belong to a decimal. -/
def numberLength : NumberPart → List Char → Nat
  | _, [] => 0
  | part, c :: rest =>
    match part.next? c with
    | none => 0
    | some next => numberLength next rest + 1

/-- The decimal that starts with `c`. -/
def readDecimal (c : Char) (rest : List Char) : Step :=
  let n := numberLength .mantissa rest
  let text := c :: rest.take n
  match Decimal.read? text with
  | some value => .ok (some (.number value), n)
  | none => .error (.malformedNumber (String.ofList text))

/-- The hexadecimal number whose digits follow the mark `0x`; it has to fit in 64
    bits. -/
def readHexadecimal (rest : List Char) : Step :=
  let digits := rest.takeWhile Text.isHexDigit
  match Text.readNat? 16 (maxUnsigned 64) digits with
  | some value => .ok (some (.number (Decimal.nearest value 1)), digits.length + 1)
  | none => .error (.malformedNumber ("0x" ++ String.ofList digits))

/-- The number that starts with `c`. -/
def readNumber (c : Char) (rest : List Char) : Step :=
  match c, rest with
  | '0', 'x' :: digits => readHexadecimal digits
  | '0', 'X' :: digits => readHexadecimal digits
  | _, _ => readDecimal c rest

/-! ## Strings -/

/-- How many characters stand before the closing quote. A backslash keeps the
    next character from ending the string; a bare line end is not allowed. -/
def shortLength? (quote : Char) : List Char → Option Nat
  | [] => none
  | ['\\'] => none
  | '\\' :: _ :: rest => (shortLength? quote rest).map (· + 2)
  | c :: rest =>
    if c == quote then some 0
    else if c == '\n' then none
    else (shortLength? quote rest).map (· + 1)

/-- The string after an opening quote. -/
def readShort (quote : Char) (delimiter : Delimiter) (rest : List Char) : Step :=
  match shortLength? quote rest with
  | some n => .ok (some (.string ⟨String.ofList (rest.take n), delimiter⟩), n + 1)
  | none => .error .unterminatedString

/-- The level of a long bracket whose first `[` has been read. -/
def longLevel? (rest : List Char) : Option Nat :=
  let level := (rest.takeWhile (· == '=')).length
  match rest.drop level with
  | '[' :: _ => some level
  | _ => none

/-- The end of a long bracket after its first `]`. -/
def longClose (level : Nat) : List Char := List.replicate level '=' ++ [']']

/-- How many characters stand before the closing long bracket. -/
def longLength? (level : Nat) : List Char → Option Nat
  | [] => none
  | c :: rest =>
    if c == ']' && (longClose level).isPrefixOf rest then some 0
    else (longLength? level rest).map (· + 1)

/-- How many characters of a line end right after the opening bracket are left
    out. -/
def leadingLineEnd : List Char → Nat
  | '\r' :: '\n' :: _ => 2
  | '\r' :: _ => 1
  | '\n' :: _ => 1
  | _ => 0

/-- The content of a long bracket whose first `[` has been read, and the number of
    characters up to its end. -/
def readLong (level : Nat) (rest : List Char) : Except Fault (List Char × Nat) :=
  let opened := rest.drop (level + 1)
  let skipped := leadingLineEnd opened
  let content := opened.drop skipped
  match longLength? level content with
  | some n => .ok (content.take n, level + 1 + skipped + n + level + 2)
  | none => .error .unterminatedLongBracket

/-! ## Comments -/

/-- How many characters a comment has after its two dashes. -/
def commentLength (rest : List Char) : Except Fault Nat :=
  let toLineEnd := (rest.takeWhile (· != '\n')).length
  match rest with
  | '[' :: bracket =>
    match longLevel? bracket with
    | some level => (readLong level bracket).map fun content => content.2 + 1
    | none => .ok toLineEnd
  | _ => .ok toLineEnd

/-! ## The whole text -/

/-- The symbol that starts with `c`. -/
def readSymbol (c : Char) (rest : List Char) : Step :=
  match Symbol.ofChars? (c :: rest) with
  | some sign => .ok (some (.symbol sign), sign.text.length - 1)
  | none => .error (.unexpectedCharacter c)

/-- The string or symbol that starts with `[`. -/
def readBracket (rest : List Char) : Step :=
  match longLevel? rest with
  | some level =>
    (readLong level rest).map fun content =>
      (some (.string ⟨String.ofList content.1, .long level⟩), content.2)
  | none => readSymbol '[' rest

/-- Whether a number starts with `c`. -/
def startsNumber (c : Char) (rest : List Char) : Bool :=
  Text.isDigit c || (c == '.' && rest.head?.any Text.isDigit)

/-- What starts with `c`. -/
def step (c : Char) (rest : List Char) : Step :=
  if Text.isBlank c then .ok (none, 0)
  else if c == '-' && rest.head? == some '-' then
    (commentLength (rest.drop 1)).map fun n => (none, n + 1)
  else if isNameStart c then readWord c rest
  else if startsNumber c rest then readNumber c rest
  else if c == '\x22' then readShort c .double rest
  else if c == '\x27' then readShort c .single rest
  else if c == '[' then readBracket rest
  else readSymbol c rest

/-- The tokens of a text that starts at a place. -/
def tokensFrom (p : Position) : List Char → Except ParseError (List Token)
  | [] => .ok [⟨.eof, p.line⟩]
  | c :: rest =>
    match step c rest with
    | .error fault => .error (fault.at p)
    | .ok (kind, n) =>
      match tokensFrom (p.after (c :: rest.take n)) (rest.drop n) with
      | .error error => .error error
      | .ok tokens =>
        match kind with
        | none => .ok tokens
        | some kind => .ok (⟨kind, p.line⟩ :: tokens)
termination_by cs => cs.length
decreasing_by simp only [List.length_drop, List.length_cons]; omega

/-- A text without the interpreter line at its start. -/
def dropInterpreterLine : List Char → List Char
  | '#' :: '!' :: rest => rest.dropWhile (· != '\n')
  | cs => cs

end Lexer

/-- The tokens of a script, ending with the token for its end. -/
def tokenize (source : String) : Except ParseError (List Token) :=
  Lexer.tokensFrom {} (Lexer.dropInterpreterLine source.toList)

end LuaUnpack.Lua
