import LuaUnpack.Decimal.Binary64
import LuaUnpack.Lua.Parser
import LuaUnpack.Lua.Value
import LuaUnpack.Width

/-!
# Evaluating literals

Expressions without variables are evaluated with a handful of functions of the
standard library that have no effects. Everything else is refused. A call can give
several values; all but the last argument of a call, and everything outside of
arguments, are cut to one.
-/

namespace LuaUnpack.Lua

/-- Why an expression has no value. -/
inductive EvalError where
  | unsupported (text : String)
  | unknownFunction (name : String)
  | badArgument (what : String)
  | notANumber (text : String)
  | parse (error : ParseError)
  | baseOutOfRange (base : Nat)
deriving DecidableEq, Repr

/-- The message for an error. -/
def EvalError.message : EvalError → String
  | unsupported text => s!"Unsupported expression: {text}"
  | unknownFunction name => s!"Unknown function: {name}"
  | badArgument what => s!"Bad argument to {what}"
  | notANumber text => s!"Expression did not evaluate to a number: {text}"
  | parse error => error.message
  | baseOutOfRange base => s!"Base {base} is not between 2 and 36"

namespace Eval

/-! ## Operators -/

/-- The result of a unary operator; `expr` is the whole expression. -/
def unary (op : UnaryOp) (value : Value) (expr : Expr) : Except EvalError Value :=
  match op with
  | .not => .ok (.boolean !value.isTruthy)
  | .negate =>
    match value.toNumber? with
    | some x => .ok (.number (-x))
    | none => .error (.notANumber expr.print)
  | .length =>
    match value with
    | .string bytes => .ok (.number (Decimal.nearest bytes.length 1))
    | .table items => .ok (.number (Decimal.nearest items.length 1))
    | other => .error (.badArgument s!"# on {other.typeName}")

/-- Two values joined as strings. -/
def concat (left right : Value) : Except EvalError Value :=
  match left.toBytes?, right.toBytes? with
  | some a, some b => .ok (.string (a ++ b))
  | none, _ => .error (.badArgument s!"concatenate {left.typeName}")
  | some _, none => .error (.badArgument s!"concatenate {right.typeName}")

/-- Whether an order is one that a comparison asks for. -/
def accepts : BinaryOp → Ordering → Bool
  | .lt, order => order.isLT
  | .le, order => order.isLE
  | .gt, order => order.isGT
  | _, order => order.isGE

/-- The result of an arithmetic operator. -/
def arithmetic? (op : BinaryOp) (a b : Float) : Option Float :=
  match op with
  | .add => some (a + b)
  | .sub => some (a - b)
  | .mul => some (a * b)
  | .div => some (a / b)
  | .mod => some (a - (a / b).floor * b)
  | .pow => some (a.pow b)
  | _ => none

/-- The result of a binary operator that needs both operands; `expr` is the whole
    expression. -/
def binary (op : BinaryOp) (left right : Value) (expr : Expr) : Except EvalError Value :=
  match op with
  | .concat => concat left right
  | .eq => .ok (.boolean (left.same right))
  | .ne => .ok (.boolean !(left.same right))
  | _ =>
    if op.isComparison then
      match left.compare? right with
      | some order => .ok (.boolean (accepts op order))
      | none => .error (.badArgument s!"compare {left.typeName} with {right.typeName}")
    else
      match left.toNumber?, right.toNumber? with
      | some a, some b =>
        match arithmetic? op a b with
        | some x => .ok (.number x)
        | none => .error (.unsupported expr.print)
      | _, _ => .error (.notANumber expr.print)

/-! ## Functions of the standard library -/

/-- The error for an argument that a function does not take. -/
def badArgument (position : Nat) (function : String) : EvalError :=
  .badArgument s!"#{position} to '{function}'"

/-- The first argument as a number. -/
def numberArg (function : String) (args : List Value) : Except EvalError Float :=
  match args.head?.bind Value.toNumber? with
  | some x => .ok x
  | none => .error (badArgument 1 function)

/-- The first argument as a string. -/
def stringArg (function : String) (args : List Value) : Except EvalError (List UInt8) :=
  match args.head?.bind Value.toBytes? with
  | some bytes => .ok bytes
  | none => .error (badArgument 1 function)

/-- The range of signed 64-bit integers. -/
def int64Range : Int × Int := (minSigned 64, maxSigned 64)

/-- The number of a text in a base, or `nil`. -/
def tonumberIn (base : Nat) (bytes : List UInt8) : Except EvalError Value :=
  if 2 ≤ base ∧ base ≤ 36 then
    let text := Text.trim (Text.ofBytes bytes)
    match Text.readInt? base int64Range.1 int64Range.2 text.toList with
    | some n => .ok (.number (Decimal.nearestInt n))
    | none => .ok .nil
  else
    .error (.baseOutOfRange base)

/-- `tonumber`: a base counts only for a string. -/
def tonumber : List Value → Except EvalError Value
  | .string bytes :: base :: _ =>
    let base := (base.toNumber?.map fun x => (Decimal.Binary64.toUInt32 x).toNat).getD 10
    tonumberIn base bytes
  | value :: _ =>
    match value.toNumber? with
    | some x => .ok (.number x)
    | none => .ok .nil
  | [] => .error (badArgument 1 "tonumber")

/-- The integer part of a number in the range of 64 bits. -/
def toInteger (x : Float) : Int :=
  Decimal.Binary64.toIntIn int64Range.1 int64Range.2 x

/-- An index from the end of a sequence of `count` items, if it is negative. -/
def fromEnd (count : Nat) (i : Int) : Int := if i < 0 then count + i + 1 else i

/-- `string.byte`: the bytes from a first to a last index, counted from one. -/
def stringByte (args : List Value) : Except EvalError (List Value) := do
  let bytes ← stringArg "string.byte" args
  let start := (args[1]?.bind Value.toNumber?).map toInteger |>.getD 1
  let stop := (args[2]?.bind Value.toNumber?).map toInteger |>.getD start
  let first := max 1 (fromEnd bytes.length start)
  let last := min (bytes.length : Int) (fromEnd bytes.length stop)
  let taken := (bytes.drop (first - 1).toNat).take (last - first + 1).toNat
  return taken.map fun b => .number (Decimal.nearest b.toNat 1)

/-- `select`: the arguments from an index on, or their number. -/
def select (args : List Value) : Except EvalError (List Value) := do
  match args with
  | [] => throw (badArgument 1 "select")
  | selector :: rest =>
    if selector.same (.string [0x23]) then
      return [.number (Decimal.nearest rest.length 1)]
    let x ← numberArg "select" args
    let index := if x < 0 then rest.length + toInteger x + 1 else toInteger x
    if index < 1 then
      throw (badArgument 1 "select")
    return args.drop index.toNat

/-- A call of a function of the standard library. -/
def callFunction (name : String) (args : List Value) : Except EvalError (List Value) :=
  match name with
  | "tonumber" => return [← tonumber args]
  | "math.floor" => return [.number (← numberArg name args).floor]
  | "math.abs" => return [.number (← numberArg name args).abs]
  | "string.len" => return [.number (Decimal.nearest (← stringArg name args).length 1)]
  | "string.byte" => stringByte args
  | "select" => select args
  | _ => throw (.unknownFunction name)

/-- The name of a called function, with the library before it. -/
def functionName? : Expr → Option String
  | .name n => some n
  | .member (.name lib) key => some (lib ++ "." ++ key)
  | .paren inner => functionName? inner
  | _ => none

/-! ## Expressions -/

/-- The first of several values. -/
def firstValue : List Value → Value
  | [] => .nil
  | value :: _ => value

mutual

/-- All values of an expression. -/
def values : Expr → Except EvalError (List Value)
  | .nil => .ok [.nil]
  | .boolean b => .ok [.boolean b]
  | .number x => .ok [.number x]
  | .string literal => .ok [.string literal.bytes]
  | .paren inner => do return [firstValue (← values inner)]
  | .table fields => do
    match ← items fields with
    | some items => return [.table items]
    | none => throw (.unsupported (Expr.table fields).print)
  | .unary op operand => do
    return [← unary op (firstValue (← values operand)) (.unary op operand)]
  | .binary .and left right => do
    let value := firstValue (← values left)
    if value.isTruthy then
      return [firstValue (← values right)]
    else
      return [value]
  | .binary .or left right => do
    let value := firstValue (← values left)
    if value.isTruthy then
      return [value]
    else
      return [firstValue (← values right)]
  | .binary op left right => do
    let a := firstValue (← values left)
    let b := firstValue (← values right)
    return [← binary op a b (.binary op left right)]
  | .call callee args =>
    match functionName? callee with
    | none => .error (.unsupported callee.print)
    | some name => do callFunction name (← argValues args)
  | .methodCall object method args => do
    match firstValue (← values object) with
    | .string bytes => callFunction ("string." ++ method) (.string bytes :: (← argValues args))
    | _ => throw (.unsupported (Expr.methodCall object method args).print)
  | expr => .error (.unsupported expr.print)

/-- The values of arguments: all values of the last one, one of each other. -/
def argValues : List Expr → Except EvalError (List Value)
  | [] => .ok []
  | [last] => values last
  | arg :: rest => do
    let value := firstValue (← values arg)
    return value :: (← argValues rest)

/-- The entries of a table, unless one of them has a key. -/
def items : List Field → Except EvalError (Option (List Value))
  | [] => .ok (some [])
  | .positional value :: rest => do
    let first := firstValue (← values value)
    return (← items rest).map (first :: ·)
  | _ :: _ => .ok none

end

/-- The value of an expression. -/
def value (expr : Expr) : Except EvalError Value := do return firstValue (← values expr)

/-- The number that an expression evaluates to. -/
def number (expr : Expr) : Except EvalError Float := do
  match (← value expr).toNumber? with
  | some x => return x
  | none => throw (.notANumber expr.print)

/-- The number that a text evaluates to; `return` may stand before it. -/
def sourceNumber (source : String) : Except EvalError Float := do
  let text := Text.trim source
  let body := (Text.dropLead? "return" text).getD text
  match parseExpr body with
  | .ok expr => number expr
  | .error error => throw (.parse error)

end Eval

end LuaUnpack.Lua
