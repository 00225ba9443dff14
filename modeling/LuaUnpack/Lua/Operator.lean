/-!
# Operators

The operators of the language with their spelling and their binding strength. A
binary operator has a strength towards each side; it groups to the right when it
binds its right operand more weakly than its left one.
-/

namespace LuaUnpack.Lua

/-- An operator between two operands. -/
inductive BinaryOp where
  | add | sub | mul | div | mod | pow | concat
  | eq | ne | lt | le | gt | ge
  | and | or
deriving DecidableEq, Repr

/-- An operator before its operand. -/
inductive UnaryOp where
  | negate | not | length
deriving DecidableEq, Repr

namespace BinaryOp

/-- The spelling of an operator. -/
def symbol : BinaryOp → String
  | add => "+"
  | sub => "-"
  | mul => "*"
  | div => "/"
  | mod => "%"
  | pow => "^"
  | concat => ".."
  | eq => "=="
  | ne => "~="
  | lt => "<"
  | le => "<="
  | gt => ">"
  | ge => ">="
  | and => "and"
  | or => "or"

/-- How strongly the left operand is bound. -/
def leftStrength : BinaryOp → Nat
  | or => 1
  | and => 2
  | eq | ne | lt | le | gt | ge => 3
  | concat => 5
  | add | sub => 6
  | mul | div | mod => 7
  | pow => 10

/-- How strongly the right operand is bound. -/
def rightStrength : BinaryOp → Nat
  | concat => 4
  | pow => 9
  | op => op.leftStrength

/-- Whether a chain of the operator groups to the right. -/
def groupsRight (op : BinaryOp) : Bool := op.rightStrength < op.leftStrength

/-- Whether the operator compares its operands. -/
def isComparison : BinaryOp → Bool
  | eq | ne | lt | le | gt | ge => true
  | _ => false

/-- The operator that says the same with its operands exchanged. -/
def exchanged : BinaryOp → BinaryOp
  | lt => gt
  | gt => lt
  | le => ge
  | ge => le
  | op => op

/-- Every binary operator. -/
def all : List BinaryOp :=
  [add, sub, mul, div, mod, pow, concat, eq, ne, lt, le, gt, ge, and, or]

/-- The operator with a spelling. -/
def ofSymbol? (text : String) : Option BinaryOp := all.find? (·.symbol == text)

end BinaryOp

namespace UnaryOp

/-- The spelling of an operator, with the blank that a word needs after it. -/
def symbol : UnaryOp → String
  | negate => "-"
  | not => "not "
  | length => "#"

/-- How strongly a unary operator binds its operand. -/
def strength : Nat := 8

end UnaryOp

end LuaUnpack.Lua
