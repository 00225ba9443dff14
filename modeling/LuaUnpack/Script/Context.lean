import LuaUnpack.Chunk.Packed
import LuaUnpack.Error

/-!
# What a script says about its data

The facts that the loader of a packed script gives away: the format of the data, the
data itself, the expressions for its keys, and which variables of the machine play
which role. They are collected one by one and are complete when the necessary ones
have been found.
-/

namespace LuaUnpack.Script

open LuaUnpack.Lua LuaUnpack.Chunk

/-- Everything that is needed to read the data of a script. -/
structure Context where
  format : Format
  bytecodeKey : Int64 := 0
  /-- Roles by name. -/
  names : Dict String String
  /-- The expressions for keys in source order. -/
  keys : List Expr
  payload : String
  /-- The number of the machine among the local functions. -/
  wrapper : Nat

/-- The context with other keys. -/
def Context.withKeys (context : Context) (constantKey bytecodeKey : Int64) : Context :=
  { context with
    format := { context.format with constantKey }
    bytecodeKey }

/-- What has been found so far. -/
structure Findings where
  sections : List Section := []
  /-- The kinds of constants by tag, in ascending order. -/
  constantTags : Dict UInt8 ConstantKind := []
  names : Dict String String := []
  keys : List Expr := []
  payload : Option String := none
  /-- Whether the payload was given from outside and stays as it is. -/
  fixedPayload : Bool := false
  wrapper : Option Nat := none

namespace Findings

/-- Gives a payload from outside. -/
def withPayload (f : Findings) (payload : String) : Findings :=
  { f with payload := some payload, fixedPayload := true }

/-- Whether there is a payload. -/
def hasPayload (f : Findings) : Bool := f.payload.isSome

/-- Notes the next section of a prototype. -/
def addSection (f : Findings) (part : Section) : Findings :=
  { f with sections := f.sections ++ [part] }

/-- Notes the tag of a kind of constants. -/
def setTag (f : Findings) (tag : UInt8) (kind : ConstantKind) : Findings :=
  { f with constantTags := f.constantTags.putSorted tag kind }

/-- Notes the role of a name. -/
def identify (f : Findings) (name role : String) : Findings :=
  { f with names := f.names.put name role }

/-- Notes an expression for a key. -/
def addKey (f : Findings) (key : Expr) : Findings := { f with keys := f.keys ++ [key] }

/-- Notes a payload; a later one counts more, but none counts more than one from
    outside. -/
def setPayload (f : Findings) (payload : String) : Findings :=
  if f.fixedPayload then f else { f with payload := some payload }

/-- Notes the number of the machine among the local functions. -/
def setWrapper (f : Findings) (ordinal : Nat) : Findings := { f with wrapper := some ordinal }

/-- The context, if everything necessary has been found. -/
def build (f : Findings) : Except Error Context := do
  if f.sections.isEmpty then
    throw (.missing "bytecode layout function")
  let some wrapper := f.wrapper | throw (.missing "VM wrapper function")
  let some payload := f.payload | throw (.missing "bytecode payload")
  if f.keys.isEmpty then
    throw (.missing "bytecode key expression")
  return {
    format := { sections := f.sections, constantTags := f.constantTags }
    names := f.names
    keys := f.keys
    payload
    wrapper }

end Findings

end LuaUnpack.Script
