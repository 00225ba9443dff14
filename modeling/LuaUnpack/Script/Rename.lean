import LuaUnpack.Dict
import LuaUnpack.Lua.Tree
import LuaUnpack.Text.Blank

/-!
# Renaming locals

Every declared local (variable, parameter, loop variable, local function) gets a
new name: the name of its role if one is known for the old name, and otherwise
`_L` with the number of the declaration. A use of a name is renamed as the
declaration it refers to; a name that is nowhere declared is left alone.

A scope is a list from old to new names, newest first. It is passed to what it
encloses, so leaving a block is going on with the list from before.
-/

namespace LuaUnpack.Script

open LuaUnpack.Lua

/-- How every invented name starts. -/
def inventedLead : String := "_L"

/-- Whether a name is one that renaming invents. -/
def isInvented (name : String) : Bool := inventedLead.toList.isPrefixOf name.toList

namespace Rename

/-- The new names of the declarations in sight, newest first. -/
abbrev Scope := List (String × String)

/-- The new name for a use of a name. -/
def resolve (scope : Scope) (name : String) : String := (scope.lookup name).getD name

section

variable (roles : Dict String String)

/-- Declares a name: its new name, and the scope in which it is in sight. -/
def declare (scope : Scope) (name : String) : StateM Nat (String × Scope) := do
  let k ← modifyGet fun k => (k, k + 1)
  let fresh := (roles.get? name).getD (inventedLead ++ Text.digits 10 k)
  return (fresh, (name, fresh) :: scope)

/-- Declares names one after the other. -/
def declareAll (scope : Scope) : List String → StateM Nat (List String × Scope)
  | [] => pure ([], scope)
  | name :: rest => do
    let (fresh, inner) ← declare roles scope name
    let (more, innermost) ← declareAll inner rest
    return (fresh :: more, innermost)

mutual

/-- Renames in an expression. -/
def onExpr (scope : Scope) : Expr → StateM Nat Expr
  | .nil => pure .nil
  | .boolean b => pure (.boolean b)
  | .number x => pure (.number x)
  | .string l => pure (.string l)
  | .vararg => pure .vararg
  | .name n => pure (.name (resolve scope n))
  | .member t k => return .member (← onExpr scope t) k
  | .index t k => return .index (← onExpr scope t) (← onExpr scope k)
  | .call f args => return .call (← onExpr scope f) (← onExprs scope args)
  | .methodCall o m args => return .methodCall (← onExpr scope o) m (← onExprs scope args)
  | .function ⟨params, isVararg, body⟩ => do
    let (params, inner) ← declareAll roles scope params
    return .function ⟨params, isVararg, (← onStmts inner body).1⟩
  | .table fields => return .table (← onFields scope fields)
  | .binary op l r => return .binary op (← onExpr scope l) (← onExpr scope r)
  | .unary op e => return .unary op (← onExpr scope e)
  | .paren e => return .paren (← onExpr scope e)

/-- Renames in expressions. -/
def onExprs (scope : Scope) : List Expr → StateM Nat (List Expr)
  | [] => pure []
  | e :: rest => return (← onExpr scope e) :: (← onExprs scope rest)

/-- Renames in a table entry. -/
def onField (scope : Scope) : Field → StateM Nat Field
  | .positional e => return .positional (← onExpr scope e)
  | .named n e => return .named n (← onExpr scope e)
  | .keyed k e => return .keyed (← onExpr scope k) (← onExpr scope e)

/-- Renames in table entries. -/
def onFields (scope : Scope) : List Field → StateM Nat (List Field)
  | [] => pure []
  | f :: rest => return (← onField scope f) :: (← onFields scope rest)

/-- Renames in a statement; the second result is the scope of what follows it. The
    values of an assignment come before its targets, and the condition of a
    `repeat` sees the locals of its block. -/
def onStmt (scope : Scope) : Stmt → StateM Nat (Stmt × Scope)
  | .localVars names values => do
    let values ← onExprs scope values
    let (names, inner) ← declareAll roles scope names
    return (.localVars names values, inner)
  | .localFunction name ⟨params, isVararg, body⟩ => do
    let (name, outer) ← declare roles scope name
    let (params, inner) ← declareAll roles outer params
    let body := (← onStmts inner body).1
    return (.localFunction name ⟨params, isVararg, body⟩, outer)
  | .functionDecl root path method ⟨params, isVararg, body⟩ => do
    let (params, inner) ← declareAll roles scope params
    let body := (← onStmts inner body).1
    return (.functionDecl (resolve scope root) path method ⟨params, isVararg, body⟩, scope)
  | .assign targets values => do
    let values ← onExprs scope values
    let targets ← onExprs scope targets
    return (.assign targets values, scope)
  | .call e => return (.call (← onExpr scope e), scope)
  | .block body => return (.block (← onStmts scope body).1, scope)
  | .whileLoop c body => do
    let c ← onExpr scope c
    return (.whileLoop c (← onStmts scope body).1, scope)
  | .repeatLoop body c => do
    let (body, inner) ← onStmts scope body
    return (.repeatLoop body (← onExpr inner c), scope)
  | .ifThen c body otherwise => do
    let c ← onExpr scope c
    let body := (← onStmts scope body).1
    return (.ifThen c body (← onElse scope otherwise), scope)
  | .numericFor var start limit none body => do
    let start ← onExpr scope start
    let limit ← onExpr scope limit
    let (var, inner) ← declare roles scope var
    return (.numericFor var start limit none (← onStmts inner body).1, scope)
  | .numericFor var start limit (some step) body => do
    let start ← onExpr scope start
    let limit ← onExpr scope limit
    let step ← onExpr scope step
    let (var, inner) ← declare roles scope var
    return (.numericFor var start limit (some step) (← onStmts inner body).1, scope)
  | .genericFor names exprs body => do
    let exprs ← onExprs scope exprs
    let (names, inner) ← declareAll roles scope names
    return (.genericFor names exprs (← onStmts inner body).1, scope)
  | .ret values => return (.ret (← onExprs scope values), scope)
  | .exit => pure (.exit, scope)
  | .goto l => pure (.goto l, scope)
  | .label l => pure (.label l, scope)

/-- Renames after the first block of an `if`. -/
def onElse (scope : Scope) : Else → StateM Nat Else
  | .done => pure .done
  | .block body => return .block (← onStmts scope body).1
  | .elseIf c body otherwise => do
    let c ← onExpr scope c
    let body := (← onStmts scope body).1
    return .elseIf c body (← onElse scope otherwise)

/-- Renames in statements, each in the scope that the one before leaves. -/
def onStmts (scope : Scope) : List Stmt → StateM Nat (List Stmt × Scope)
  | [] => pure ([], scope)
  | s :: rest => do
    let (s, inner) ← onStmt scope s
    let (rest, last) ← onStmts inner rest
    return (s :: rest, last)

end

end

end Rename

/-- Renames all locals of a block; the second result counts the declarations. -/
def renameWith (roles : Dict String String) (block : Block) : Block × Nat :=
  let ((block, _), count) := (Rename.onStmts roles [] block).run 0
  (block, count)

/-- Renames all locals of a block to invented names. -/
def rename (block : Block) : Block × Nat := renameWith [] block

end LuaUnpack.Script
