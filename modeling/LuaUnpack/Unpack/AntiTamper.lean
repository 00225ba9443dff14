import LuaUnpack.Unpack.Keys

/-!
# Scripts inside scripts

A script can be wrapped in one that checks it has not been changed. The outer script
then has further statements, which hold the data of the inner script and the inner
script itself. The program of the outer script has the key of the latter.
-/

namespace LuaUnpack.Unpack

open LuaUnpack.Lua LuaUnpack.Chunk LuaUnpack.Script

/-- A script with more statements than this one has another one inside. -/
def plainStatements : Nat := 3

/-- Whether a script has another one inside. -/
def isWrapped (root : Block) : Bool := plainStatements < root.length

/-- The place of the data of the inner script among the statements. -/
def payloadIndex : Nat := 2

/-- The place of the inner script among the statements. -/
def scriptIndex : Nat := 3

/-- A script from inside another one, and the data for it. -/
structure Inner where
  payload : String
  script : String
deriving DecidableEq, Repr

/-- The first value that a statement gives to variables. -/
def firstValue? : Stmt → Option Expr
  | .assign _ values => values.head?
  | .localVars _ values => values.head?
  | _ => none

/-- The string that a statement gives to a variable, with its escapes. -/
def assignedString (root : Block) (index : Nat) : Except Error String :=
  match root[index]?.bind firstValue? with
  | some (.string literal) => .ok literal.raw
  | _ =>
    .error (.unsupportedVariant
      s!"anti-tamper statement {index + 1} is not a string assignment")

/-- Whether only the second operand of an instruction is a constant. -/
def isCarrier (i : Instruction) : Bool := !i.flags.ka && i.flags.kb && !i.flags.kc

/-- The instruction that refers to the key of the inner script: the last but one of
    those it can be. -/
def keyCarrier (outer : Prototype) : Except Error Instruction :=
  let candidates := outer.instructions.filter isCarrier
  match candidates.reverse with
  | _ :: carrier :: _ => .ok carrier
  | _ =>
    .error (.unsupportedVariant
      (s!"anti-tamper layer has {candidates.length} constant-B instruction(s), " ++
        "expected at least 2"))

/-- The key of the inner script. -/
def innerKey (outer : Prototype) : Except Error Int64 := do
  let carrier ← keyCarrier outer
  let index := carrier.b - 1
  match (outer.constant? index).bind Constant.asNumber? with
  | some x => return Decimal.Binary64.roundToInt64 x
  | none =>
    throw (.unsupportedVariant s!"anti-tamper key constant {index.toInt} is not a number")

/-- Takes the inner script out of a script. -/
def unwrap (root : Block) (context : Context) : Except Error Inner := do
  let outer ← readData (← solveKeys context)
  let key ← innerKey outer
  let payload ← assignedString root payloadIndex
  let encoded ← assignedString root scriptIndex
  let script ← (Transport.decode encoded key).mapError .transport
  return ⟨payload, Text.ofBytes script⟩

end LuaUnpack.Unpack
