import LuaUnpack.Decimal.Nearest
import LuaUnpack.Lua.Mapper

/-!
# Folding constants

Three small steps, taken from the inside to the outside: the length of a table of
literals becomes a number, the negation of a number becomes a negative number, and
a comparison with a number on its left is turned around.
-/

namespace LuaUnpack.Script

open LuaUnpack.Lua

namespace Fold

/-- Whether a table entry is a literal other than `nil`, without a key. -/
def isConstantEntry : Field → Bool
  | .positional value => value.isValueLiteral
  | _ => false

/-- The step that applies to an expression whose parts are folded. -/
def step? : Expr → Option Expr
  | .unary .length (.table fields) =>
    if fields.all isConstantEntry then some (.number (Decimal.nearest fields.length 1)) else none
  | .unary .negate (.number x) => some (.number (-x))
  | .binary op (.number x) right =>
    if op.isComparison && !right.isNumber then some (.binary op.exchanged right (.number x))
    else none
  | _ => none

/-- Takes the step at every expression, and counts the steps. -/
def mapper : Mapper (StateM Nat) where
  expr _ inner := do
    let expr ← inner
    match step? expr with
    | some folded =>
      modify (· + 1)
      return folded
    | none => return expr

end Fold

/-- Folds the constants of a block; the second result counts the steps. -/
def foldConstants (block : Block) : Block × Nat := (Fold.mapper.onBlock block).run 0

end LuaUnpack.Script
