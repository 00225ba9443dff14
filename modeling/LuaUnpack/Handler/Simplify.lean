import LuaUnpack.Lua.Mapper
import LuaUnpack.Lua.Symbols
import LuaUnpack.Script.Rename

/-!
# Simplifying windows

Equal handlers are written in different ways, with different helper variables. To
give them one form, helpers that only pass on a value are replaced by it, the first
assignment to a helper becomes its declaration, and declarations that nobody reads
are dropped. Passes over the window repeat until one changes nothing.
-/

namespace LuaUnpack.Handler

open LuaUnpack.Lua LuaUnpack.Script

namespace Simplify

/-- The number of the next statement, and how much has been changed. -/
structure Progress where
  ordinal : Nat := 0
  changes : Nat := 0

/-- A computation that numbers statements and counts changes. -/
abbrev Pass := StateM Progress

/-- Counts a change. -/
def changed : Pass Unit := modify fun p => { p with changes := p.changes + 1 }

/-- Takes the number for a statement that is entered. -/
def enter : Pass Nat := modifyGet fun p => (p.ordinal, { p with ordinal := p.ordinal + 1 })

section

variable (symbols : SymbolTable)

/-- What is known about an expression that is an invented name. -/
def helper? : Expr → Option SymbolInfo
  | .name n => if isInvented n then symbols.get? n else none
  | _ => none

/-- The name that a helper passes on. -/
def nameValue? (e : Expr) : Option Expr := do
  let info ← helper? symbols e
  match info.value with
  | some (.name n) => some (.name n)
  | _ => none

/-- The element of a table that a helper passes on, if it is read once. -/
def elementValue? (e : Expr) : Option Expr := do
  let info ← helper? symbols e
  match info.value with
  | some (.index (.name t) (.name k)) =>
    if info.reads == 1 then some (.index (.name t) (.name k)) else none
  | _ => none

/-- The result of a binary operator that a helper passes on, if it is read once and
    never changed. -/
def binaryValue? (e : Expr) : Option Expr := do
  let info ← helper? symbols e
  match info.value with
  | some (.binary op l r) =>
    if info.reads == 1 && info.assignments == 0 then some (.binary op l r) else none
  | _ => none

/-- Replaces one expression. -/
def replaceOne (value? : Expr → Option Expr) (e : Expr) : Pass Expr := do
  match value? e with
  | some value => do
    changed
    return value
  | none => return e

/-- Replaces each of two expressions, which counts as one change, or gives nothing
    if neither can be replaced. -/
def replaceTwo (value? : Expr → Option Expr) (a b : Expr) : Pass (Option (Expr × Expr)) := do
  match value? a, value? b with
  | none, none => return none
  | va, vb => do
    changed
    return some (va.getD a, vb.getD b)

/-- Simplifies an expression whose parts are simplified. -/
def onExpr : Expr → Pass Expr
  | .call (.name "stk") [.name a, .name b] => do
    match ← replaceTwo (elementValue? symbols) (.name a) (.name b) with
    | some (a, b) => return .call (.name "stk") [a, b]
    | none => return .call (.name "stk") [.name a, .name b]
  | .index t k => do
    match ← replaceTwo (nameValue? symbols) t k with
    | some (t, k) => return .index t k
    | none => return .index t (← replaceOne (elementValue? symbols) k)
  | .binary op l r => do
    match ← replaceTwo (elementValue? symbols) l r with
    | some (l, r) => return .binary op l r
    | none =>
      match ← replaceTwo (nameValue? symbols) l r with
      | some (l, r) => return .binary op l r
      | none => return .binary op l r
  | e => return e

/-- Whether an expression is a helper that the statement with a number binds
    first. -/
def isDeclaredBy (ordinal : Nat) : Expr → Bool
  | .name n => isInvented n && (symbols.get? n).bind (·.declaration) == some ordinal
  | _ => false

/-- Simplifies a statement whose parts are simplified. -/
def onStmt (ordinal : Nat) : Stmt → Pass Stmt
  | .assign targets values => do
    if targets.all (isDeclaredBy symbols ordinal) then
      changed
      return .localVars (targets.filterMap Expr.asName?) values
    else
      match targets, values with
      | [.index t k], [.name n] =>
        return .assign [.index t k] [← replaceOne (elementValue? symbols) (.name n)]
      | [.name t], [.name n] =>
        return .assign [.name t] [← replaceOne (binaryValue? symbols) (.name n)]
      | _, _ => return .assign targets values
  | s => return s

/-- Whether a statement declares only what nobody reads, or declares without a
    value. -/
def isUnused : Stmt → Bool
  | .localVars names values => values.isEmpty || names.all fun n => symbols.reads n == 0
  | _ => false

/-- Drops the unused declarations of a block, which counts as one change. -/
def onBlock (block : Block) : Pass Block := do
  let kept := block.filter fun s => !isUnused symbols s
  if kept.length != block.length then
    changed
  return kept

/-- Simplifies from the inside to the outside, by what was known before. -/
def mapper : Mapper Pass where
  expr _ inner := do onExpr symbols (← inner)
  stmt _ inner := do
    let ordinal ← enter
    onStmt symbols ordinal (← inner)
  block inner := do onBlock symbols (← inner)

end

/-- One pass over a block, and the number of its changes. -/
def pass (block : Block) : Block × Nat :=
  let (block, progress) := ((mapper (SymbolTable.ofBlock block)).onBlock block).run {}
  (block, progress.changes)

end Simplify

/-- Repeats passes until one changes nothing, at most `limit` times; the second
    result counts those that changed something. -/
def simplifyWithin : (limit : Nat) → Block → Block × Nat
  | 0, block => (block, 0)
  | limit + 1, block =>
    let (next, changes) := Simplify.pass block
    if changes = 0 then (next, 0)
    else
      let (last, count) := simplifyWithin limit next
      (last, count + 1)

/-- Simplifies a block with at most `limit` passes, but at least one. -/
def simplify (limit : Nat) (block : Block) : Block × Nat := simplifyWithin (max 1 limit) block

/-- The number of passes after which simplifying stops if nothing else is said. -/
def defaultPasses : Nat := 64

end LuaUnpack.Handler
