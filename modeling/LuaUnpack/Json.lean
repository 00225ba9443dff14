import LuaUnpack.Text.Blank
import LuaUnpack.Text.Numeral

/-!
# JSON

Reading and writing of JSON, as far as settings need it. A string keeps its escapes
when it is read, because an escape can be half of a character whose other half is
missing: such a string is correct where nobody asks for its text.
-/

namespace LuaUnpack

/-- A JSON value; numbers and strings as they are written, without quotes. -/
inductive Json where
  | null
  | boolean (value : Bool)
  | number (text : String)
  | string (raw : String)
  | array (items : List Json)
  | object (members : List (String × Json))

namespace Json

/-! ## Strings -/

/-- The characters that an escape of one letter stands for. -/
def plainEscapes : List (Char × Char) :=
  [('"', '"'), ('\\', '\\'), ('/', '/'), ('b', '\x08'), ('f', '\x0c'), ('n', '\n'), ('r', '\r'),
   ('t', '\t')]

/-- The value of four hexadecimal digits. -/
def unit? (a b c d : Char) : Option Nat := Text.readDigits? 16 0 [a, b, c, d]

/-- Whether a code unit is the first half of a character. -/
def isHighHalf (unit : Nat) : Bool := 0xD800 ≤ unit && unit < 0xDC00

/-- Whether a code unit is the second half of a character. -/
def isLowHalf (unit : Nat) : Bool := 0xDC00 ≤ unit && unit < 0xE000

/-- The character of two halves. -/
def joined (high low : Nat) : Char :=
  Char.ofNat (0x10000 + (high - 0xD800) * 0x400 + (low - 0xDC00))

/-- The text of a string; none if half of a character stands alone. -/
def unescape? : List Char → Option (List Char)
  | [] => some []
  | '\\' :: 'u' :: a :: b :: c :: d :: '\\' :: 'u' :: e :: f :: g :: h :: rest => do
    let first ← unit? a b c d
    let second ← unit? e f g h
    if isHighHalf first && isLowHalf second then
      return joined first second :: (← unescape? rest)
    else if isHighHalf first || isLowHalf first then
      none
    else
      return Char.ofNat first :: (← unescape? ('\\' :: 'u' :: e :: f :: g :: h :: rest))
  | '\\' :: 'u' :: a :: b :: c :: d :: rest => do
    let unit ← unit? a b c d
    if isHighHalf unit || isLowHalf unit then
      none
    else
      return Char.ofNat unit :: (← unescape? rest)
  | '\\' :: c :: rest => do return (← plainEscapes.lookup c) :: (← unescape? rest)
  | c :: rest => do return c :: (← unescape? rest)

/-- The characters up to the closing quote of a string, and what follows it. -/
def readRaw : List Char → Option (List Char × List Char)
  | [] => none
  | '"' :: rest => some ([], rest)
  | '\\' :: 'u' :: a :: b :: c :: d :: rest => do
    let _ ← unit? a b c d
    let (raw, rest) ← readRaw rest
    return ('\\' :: 'u' :: a :: b :: c :: d :: raw, rest)
  | '\\' :: c :: rest => do
    let _ ← plainEscapes.lookup c
    let (raw, rest) ← readRaw rest
    return ('\\' :: c :: raw, rest)
  | c :: rest =>
    if c < ' ' then none
    else do
      let (raw, rest) ← readRaw rest
      return (c :: raw, rest)

/-- A character as it is written in a string. -/
def escape (c : Char) : String :=
  match plainEscapes.find? fun pair => pair.2 == c && c != '/' with
  | some (letter, _) => String.ofList ['\\', letter]
  | none =>
    if c < ' ' then "\\u" ++ Text.padLeft '0' 4 (Text.digits 16 c.toNat)
    else String.ofList [c]

/-- A text as a string. -/
def quoted (text : String) : String := "\"" ++ String.join (text.toList.map escape) ++ "\""

/-! ## Numbers -/

/-- The digits at the start of a text, unless there are none. -/
def readDigitRun (text : List Char) : Option (List Char × List Char) :=
  match text.takeWhile Text.isDigit with
  | [] => none
  | run => some (run, text.dropWhile Text.isDigit)

/-- The digits before the point; a zero stands only alone. -/
def readWhole (text : List Char) : Option (List Char × List Char) := do
  let (run, rest) ← readDigitRun text
  if run.head? == some '0' && 1 < run.length then none else some (run, rest)

/-- The point and the digits after it, if there is a point. -/
def readFraction : List Char → Option (List Char × List Char)
  | '.' :: rest => do
    let (run, rest) ← readDigitRun rest
    return ('.' :: run, rest)
  | text => some ([], text)

/-- The sign at the start of a text, out of those allowed. -/
def readSign (allowed : List Char) : List Char → List Char × List Char
  | c :: rest => if allowed.contains c then ([c], rest) else ([], c :: rest)
  | [] => ([], [])

/-- The exponent, if there is one. -/
def readExponent : List Char → Option (List Char × List Char)
  | c :: rest =>
    if c == 'e' || c == 'E' then do
      let (sign, rest) := readSign ['+', '-'] rest
      let (run, rest) ← readDigitRun rest
      return (c :: sign ++ run, rest)
    else
      some ([], c :: rest)
  | [] => some ([], [])

/-- The number at the start of a text. -/
def readNumber (text : List Char) : Option (String × List Char) := do
  let (sign, rest) := readSign ['-'] text
  let (whole, rest) ← readWhole rest
  let (fraction, rest) ← readFraction rest
  let (exponent, rest) ← readExponent rest
  return (String.ofList (sign ++ whole ++ fraction ++ exponent), rest)

/-! ## Values -/

/-- A text without the blanks at its start. -/
def skipBlanks (text : List Char) : List Char :=
  text.dropWhile fun c => c == ' ' || c == '\t' || c == '\n' || c == '\r'

/-- The words that are values. -/
def words : List (String × Json) :=
  [("null", null), ("true", boolean true), ("false", boolean false)]

/-- The word or the number at the start of a text. -/
def readPlain (text : List Char) : Option (Json × List Char) :=
  match words.find? fun word => word.1.toList.isPrefixOf text with
  | some (word, value) => some (value, text.drop word.length)
  | none => (readNumber text).map fun (digits, rest) => (.number digits, rest)

/-- The key at the start of a text, with the colon after it. -/
def readKey (text : List Char) : Option (String × List Char) :=
  match skipBlanks text with
  | '"' :: rest => do
    let (raw, rest) ← readRaw rest
    match skipBlanks rest with
    | ':' :: rest => some (String.ofList raw, rest)
    | _ => none
  | _ => none

mutual

/-- The value at the start of a text. -/
def readValue : (depth : Nat) → List Char → Option (Json × List Char)
  | 0, _ => none
  | depth + 1, text =>
    match skipBlanks text with
    | '"' :: rest => (readRaw rest).map fun (raw, rest) => (.string (String.ofList raw), rest)
    | '[' :: rest =>
      match skipBlanks rest with
      | ']' :: rest => some (.array [], rest)
      | rest => (readItems depth rest).map fun (items, rest) => (.array items, rest)
    | '\x7b' :: rest =>
      match skipBlanks rest with
      | '\x7d' :: rest => some (.object [], rest)
      | rest => (readMembers depth rest).map fun (members, rest) => (.object members, rest)
    | rest => readPlain rest

/-- The items up to the end of an array, at least one. -/
def readItems : (depth : Nat) → List Char → Option (List Json × List Char)
  | 0, _ => none
  | depth + 1, text => do
    let (item, rest) ← readValue depth text
    match skipBlanks rest with
    | ',' :: rest => do
      let (items, rest) ← readItems depth rest
      return (item :: items, rest)
    | ']' :: rest => return ([item], rest)
    | _ => none

/-- The members up to the end of an object, at least one. -/
def readMembers : (depth : Nat) → List Char → Option (List (String × Json) × List Char)
  | 0, _ => none
  | depth + 1, text => do
    let (key, rest) ← readKey text
    let (value, rest) ← readValue depth rest
    match skipBlanks rest with
    | ',' :: rest => do
      let (members, rest) ← readMembers depth rest
      return ((key, value) :: members, rest)
    | '\x7d' :: rest => return ([(key, value)], rest)
    | _ => none

end

/-- The value that a text consists of. Every two steps of reading take at least one
    character, so that the depth allowed is never reached. -/
def parse? (text : String) : Option Json := do
  let (value, rest) ← readValue (2 * text.length + 2) text.toList
  if (skipBlanks rest).isEmpty then some value else none

/-! ## What a value holds -/

/-- The text of a string. -/
def asText? : Json → Option String
  | string raw => (unescape? raw.toList).map String.ofList
  | _ => none

/-- The value of a word for truth. -/
def asBool? : Json → Option Bool
  | boolean value => some value
  | _ => none

/-- The value of a number without sign, point and exponent, up to a limit. -/
def asNat? (limit : Nat) : Json → Option Nat
  | number text =>
    if text.toList.all Text.isDigit then Text.readNat? 10 limit text.toList else none
  | _ => none

end Json

end LuaUnpack
