import LuaUnpack.Decimal.Shortest
import LuaUnpack.Lua.Literal

/-!
# Tokens

The words of a script. Keywords and symbols have one spelling each; names, numbers
and strings carry their content. A token remembers the line on which it starts.
-/

namespace LuaUnpack.Lua

/-- A reserved word. -/
inductive Keyword where
  | kwAnd | kwBreak | kwDo | kwElse | kwElseIf | kwEnd | kwFalse | kwFor | kwFunction
  | kwGoto | kwIf | kwIn | kwLocal | kwNil | kwNot | kwOr | kwRepeat | kwReturn
  | kwThen | kwTrue | kwUntil | kwWhile
deriving DecidableEq, Repr

namespace Keyword

/-- The spelling of a keyword. -/
def text : Keyword → String
  | kwAnd => "and"
  | kwBreak => "break"
  | kwDo => "do"
  | kwElse => "else"
  | kwElseIf => "elseif"
  | kwEnd => "end"
  | kwFalse => "false"
  | kwFor => "for"
  | kwFunction => "function"
  | kwGoto => "goto"
  | kwIf => "if"
  | kwIn => "in"
  | kwLocal => "local"
  | kwNil => "nil"
  | kwNot => "not"
  | kwOr => "or"
  | kwRepeat => "repeat"
  | kwReturn => "return"
  | kwThen => "then"
  | kwTrue => "true"
  | kwUntil => "until"
  | kwWhile => "while"

/-- Every keyword. -/
def all : List Keyword :=
  [kwAnd, kwBreak, kwDo, kwElse, kwElseIf, kwEnd, kwFalse, kwFor, kwFunction, kwGoto, kwIf,
   kwIn, kwLocal, kwNil, kwNot, kwOr, kwRepeat, kwReturn, kwThen, kwTrue, kwUntil, kwWhile]

/-- The keyword with a spelling. -/
def ofText? (word : String) : Option Keyword := all.find? (·.text == word)

end Keyword

/-- An operator sign or a punctuation mark. -/
inductive Symbol where
  | plus | minus | star | slash | percent | caret | hash
  | equalEqual | tildeEqual | lessEqual | greaterEqual | less | greater | equal
  | leftParen | rightParen | leftBrace | rightBrace | leftBracket | rightBracket
  | doubleColon | semicolon | colon | comma | dot | dotDot | ellipsis
deriving DecidableEq, Repr

namespace Symbol

/-- The spelling of a symbol. -/
def text : Symbol → String
  | plus => "+"
  | minus => "-"
  | star => "*"
  | slash => "/"
  | percent => "%"
  | caret => "^"
  | hash => "#"
  | equalEqual => "=="
  | tildeEqual => "~="
  | lessEqual => "<="
  | greaterEqual => ">="
  | less => "<"
  | greater => ">"
  | equal => "="
  | leftParen => "("
  | rightParen => ")"
  | leftBrace => "\x7b"
  | rightBrace => "\x7d"
  | leftBracket => "["
  | rightBracket => "]"
  | doubleColon => "::"
  | semicolon => ";"
  | colon => ":"
  | comma => ","
  | dot => "."
  | dotDot => ".."
  | ellipsis => "..."

/-- Every symbol, a longer one before those it starts with. -/
def longestFirst : List Symbol :=
  [ellipsis, equalEqual, tildeEqual, lessEqual, greaterEqual, doubleColon, dotDot,
   plus, minus, star, slash, percent, caret, hash, less, greater, equal,
   leftParen, rightParen, leftBrace, rightBrace, leftBracket, rightBracket,
   semicolon, colon, comma, dot]

/-- The longest symbol at the start of a text. -/
def ofChars? (cs : List Char) : Option Symbol :=
  longestFirst.find? fun s => s.text.toList.isPrefixOf cs

end Symbol

/-- What a token is. -/
inductive TokenKind where
  | name (text : String)
  | number (value : Float)
  | string (literal : Literal)
  | keyword (word : Keyword)
  | symbol (sign : Symbol)
  | eof
deriving DecidableEq

/-- A token and the line on which it starts. -/
structure Token where
  kind : TokenKind
  line : Nat
deriving DecidableEq

namespace TokenKind

/-- How a token is shown in messages: every string in double quotes. -/
def describe : TokenKind → String
  | name text => text
  | number value => Decimal.text value
  | string literal => "\"" ++ literal.raw ++ "\""
  | keyword word => word.text
  | symbol sign => sign.text
  | eof => "<eof>"

end TokenKind

/-- Whether a character can start a name. -/
def isNameStart (c : Char) : Bool :=
  ('a' ≤ c && c ≤ 'z') || ('A' ≤ c && c ≤ 'Z') || c == '_'

/-- Whether a character can stand inside a name. -/
def isNameChar (c : Char) : Bool := isNameStart c || Text.isDigit c

/-- Whether a text can be written as a name: letters, digits and underscores, not
    starting with a digit, and no keyword. -/
def isIdentifier (text : String) : Bool :=
  match text.toList with
  | [] => false
  | c :: rest => isNameStart c && rest.all isNameChar && (Keyword.ofText? text).isNone

end LuaUnpack.Lua
