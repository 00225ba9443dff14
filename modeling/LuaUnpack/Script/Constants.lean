import LuaUnpack.Decimal.Binary64
import LuaUnpack.Decimal.Nearest
import LuaUnpack.Lua.Mapper
import LuaUnpack.Lua.Node
import LuaUnpack.Transport
import LuaUnpack.Width

/-!
# Constants hidden in strings

A script carries its constants in encoded strings and refers to them by key, as in
`t.KEY`. The strings are found and decoded, and each such reference is replaced by
the number or the name that it stands for.
-/

namespace LuaUnpack.Script

open LuaUnpack.Lua

/-- An encoded table of constants in a script. -/
inductive EncodedTable where
  | keyed (key : Int64) (data : String)
  | escaped (data : String)
deriving DecidableEq, Repr

namespace EncodedTable

/-- How an escaped table starts. -/
def escapedLead : String := "\\4\\8"

/-- The encoded table that an expression could be: a call with a number and a
    string, or a short string that starts as an escaped table does. -/
def ofExpr? : Expr → Option EncodedTable
  | .call _ [.number key, .string data] =>
    some (keyed (Decimal.Binary64.toInt64 key) data.raw)
  | .string ⟨raw, .double⟩ | .string ⟨raw, .single⟩ =>
    if escapedLead.toList.isPrefixOf raw.toList then some (escaped raw) else none
  | _ => none

/-- The constants of an encoded table. -/
def decode : EncodedTable → Except Transport.Error Transport.ConstantTable
  | keyed key data => do Transport.decodeConstants (← Transport.decode data key)
  | escaped data => do Transport.decodeConstants (← Transport.decodeEscape data)

end EncodedTable

/-- The encoded tables that a script could hold, in source order. -/
def encodedTables (block : Block) : List EncodedTable :=
  block.expressions.filterMap EncodedTable.ofExpr?

/-- The constants of all encoded tables of a script. What cannot be decoded is no
    table. -/
def stringConstants (block : Block) : Transport.ConstantTable :=
  (encodedTables block).foldl (fun merged table =>
    match table.decode with
    | .ok decoded => Dict.putAll merged decoded
    | .error _ => merged) []

/-- Why strings of a script that could be encoded tables are none. -/
def skippedTables (block : Block) : List Transport.Error :=
  (encodedTables block).filterMap fun table =>
    match table.decode with
    | .ok _ => none
    | .error error => some error

/-- The expression that a constant stands for: a number if its first text is a
    32-bit integer, a name or a path of two names otherwise. -/
def constantExpr (entry : Transport.Entry) : Expr :=
  match Text.readInt? 10 (minSigned 32) (maxSigned 32) entry.first.toList with
  | some n => .number (Decimal.nearestInt n)
  | none =>
    match entry.second with
    | some key => .member (.name entry.first) key
    | none => .name entry.first

/-- Replaces references to constants, from the outside, and counts them. -/
def constantMapper (constants : Transport.ConstantTable) : Mapper (StateM Nat) where
  expr
    | .member _ key, inner =>
      match constants.get? key with
      | some entry => do
        modify (· + 1)
        return constantExpr entry
      | none => inner
    | _, inner => inner

/-- Replaces the references to constants in a script; the second result counts
    them. -/
def replaceConstants (constants : Transport.ConstantTable) (block : Block) : Block × Nat :=
  ((constantMapper constants).onBlock block).run 0

end LuaUnpack.Script
