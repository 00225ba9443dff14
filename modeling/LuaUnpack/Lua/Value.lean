import LuaUnpack.Decimal.Reader
import LuaUnpack.Lua.Printer
import LuaUnpack.Text.Blank
import LuaUnpack.Width

/-!
# Values

The values that an expression over literals can have, with the conversions that
the language applies to them by itself.
-/

namespace LuaUnpack.Lua

/-- A value; strings are bytes and tables have only a list part. -/
inductive Value where
  | nil
  | boolean (value : Bool)
  | number (value : Float)
  | string (bytes : List UInt8)
  | table (items : List Value)

namespace Value

/-- Whether a value counts as true: all but `nil` and `false` do. -/
def isTruthy : Value → Bool
  | nil | boolean false => false
  | _ => true

/-- The name of the type of a value. -/
def typeName : Value → String
  | nil => "nil"
  | boolean _ => "boolean"
  | number _ => "number"
  | string _ => "string"
  | table _ => "table"

mutual

/-- Whether two values are equal: numbers as numbers, tables entry by entry. -/
def same : Value → Value → Bool
  | nil, nil => true
  | boolean a, boolean b => a == b
  | number a, number b => a == b
  | string a, string b => a == b
  | table a, table b => sameItems a b
  | _, _ => false

/-- Whether two lists have equal values at every place. -/
def sameItems : List Value → List Value → Bool
  | [], [] => true
  | a :: as, b :: bs => same a b && sameItems as bs
  | _, _ => false

end

/-- Reads the number that a text stands for, in decimal or after `0x`. -/
def readNumber? (text : String) : Option Float :=
  match (Text.trim text).toList with
  | '0' :: 'x' :: digits | '0' :: 'X' :: digits =>
    (Text.readNat? 16 (maxUnsigned 64) digits).map fun n => Decimal.nearest n 1
  | cs => Decimal.read? cs

/-- The number that a value stands for. -/
def toNumber? : Value → Option Float
  | number x => some x
  | string bytes => readNumber? (Text.ofBytes bytes)
  | _ => none

/-- The bytes that a value stands for in a string. -/
def toBytes? : Value → Option (List UInt8)
  | string bytes => some bytes
  | number x => some (Text.toBytes (numberText x))
  | _ => none

/-- The order of two byte strings. -/
def compareBytes : List UInt8 → List UInt8 → Ordering
  | [], [] => .eq
  | [], _ :: _ => .lt
  | _ :: _, [] => .gt
  | a :: as, b :: bs => if a < b then .lt else if b < a then .gt else compareBytes as bs

/-- The order of two numbers, unless one of them is no number. -/
def compareNumbers? (a b : Float) : Option Ordering :=
  if a < b then some .lt
  else if a == b then some .eq
  else if b < a then some .gt
  else none

/-- The order of two values of one ordered type. -/
def compare? : Value → Value → Option Ordering
  | number a, number b => compareNumbers? a b
  | string a, string b => some (compareBytes a b)
  | _, _ => none

end Value

end LuaUnpack.Lua
