import LuaUnpack.Handler.Simplify
import LuaUnpack.Lua.Node
import Mathlib.Data.List.Basic

/-!
# What a pass sees of a window

Whether a pass changes something, and how long passes can go on, depends on a few things that can
be counted: which names are read and bound, to which values, which of the reads are operands, how
many statements and functions there are. They are collected here by going once through the tree.
-/

namespace LuaUnpack.Handler.Simplify

open LuaUnpack.Lua LuaUnpack.Script

/-- What a pass sees of a part of a window. -/
@[ext]
structure Summary where
  /-- The number of statements, where an assignment counts twice. -/
  weight : Nat := 0
  functions : Nat := 0
  /-- The names that are operands of an index or of a binary operator. -/
  operands : List String := []
  reads : List String := []
  binds : List (String × Option Expr) := []

namespace Summary

instance : Zero Summary := ⟨{}⟩

instance : Add Summary where
  add a b :=
    ⟨a.weight + b.weight, a.functions + b.functions, a.operands ++ b.operands, a.reads ++ b.reads,
      a.binds ++ b.binds⟩

section

variable (a b : Summary)

@[simp] theorem weight_add : (a + b).weight = a.weight + b.weight := rfl
@[simp] theorem functions_add : (a + b).functions = a.functions + b.functions := rfl
@[simp] theorem operands_add : (a + b).operands = a.operands ++ b.operands := rfl
@[simp] theorem reads_add : (a + b).reads = a.reads ++ b.reads := rfl
@[simp] theorem binds_add : (a + b).binds = a.binds ++ b.binds := rfl
@[simp] theorem weight_zero : (0 : Summary).weight = 0 := rfl
@[simp] theorem functions_zero : (0 : Summary).functions = 0 := rfl
@[simp] theorem operands_zero : (0 : Summary).operands = [] := rfl
@[simp] theorem reads_zero : (0 : Summary).reads = [] := rfl
@[simp] theorem binds_zero : (0 : Summary).binds = [] := rfl

theorem zero_add : 0 + a = a := by
  ext1 <;> simp

theorem add_zero : a + 0 = a := by
  ext1 <;> simp

theorem add_assoc (c : Summary) : a + b + c = a + (b + c) := by
  ext1 <;> simp [Nat.add_assoc]

end

/-- Names bound to the values at their places, where a place may have no name. -/
def bindTo : List (Option String) → List Expr → List (String × Option Expr)
  | [], _ => []
  | none :: names, values => bindTo names values.tail
  | some n :: names, values => (n, values.head?) :: bindTo names values.tail

/-- Names bound to no known value. -/
def bindAll (names : List String) : Summary := { binds := names.map (·, none) }

/-- An operand: it is noted if it is a name. -/
def operand (e : Expr) (summary : Summary) : Summary :=
  { summary with operands := e.asName?.toList ++ summary.operands }

mutual

/-- What a pass sees of an expression. -/
def ofExpr : Expr → Summary
  | .nil | .boolean _ | .number _ | .string _ | .vararg => 0
  | .name n => { reads := [n] }
  | .member t _ => ofExpr t
  | .index t k => operand t (ofExpr t) + operand k (ofExpr k)
  | .call f args => ofExpr f + ofExprs args
  | .methodCall o _ args => ofExpr o + ofExprs args
  | .function ⟨params, _, body⟩ => { functions := 1 } + (bindAll params + ofStmts body)
  | .table fields => ofFields fields
  | .binary _ l r => operand l (ofExpr l) + operand r (ofExpr r)
  | .unary _ e => ofExpr e
  | .paren e => ofExpr e

/-- What a pass sees of expressions. -/
def ofExprs : List Expr → Summary
  | [] => 0
  | e :: rest => ofExpr e + ofExprs rest

/-- What a pass sees of the targets of an assignment: the names are not read. -/
def ofTargets : List Expr → Summary
  | [] => 0
  | .name _ :: rest => ofTargets rest
  | e :: rest => ofExpr e + ofTargets rest

/-- What a pass sees of a table entry. -/
def ofField : Field → Summary
  | .positional e => ofExpr e
  | .named _ e => ofExpr e
  | .keyed k e => ofExpr k + ofExpr e

/-- What a pass sees of table entries. -/
def ofFields : List Field → Summary
  | [] => 0
  | f :: rest => ofField f + ofFields rest

/-- What a pass sees of a statement. -/
def ofStmt : Stmt → Summary
  | .localVars names values =>
    { weight := 1 } + (ofExprs values + { binds := bindTo (names.map some) values })
  | .localFunction name ⟨params, isVararg, body⟩ =>
    { weight := 1, binds := [(name, some (.function ⟨params, isVararg, body⟩))] }
      + (bindAll params + ofStmts body)
  | .functionDecl _ _ _ ⟨params, _, body⟩ => { weight := 1 } + (bindAll params + ofStmts body)
  | .assign targets values =>
    { weight := 2 } + (ofTargets targets
      + (ofExprs values + { binds := bindTo (targets.map Expr.asName?) values }))
  | .call e => { weight := 1 } + ofExpr e
  | .block body => { weight := 1 } + ofStmts body
  | .whileLoop c body => { weight := 1 } + (ofExpr c + ofStmts body)
  | .repeatLoop body c => { weight := 1 } + (ofStmts body + ofExpr c)
  | .ifThen c body otherwise => { weight := 1 } + (ofExpr c + (ofStmts body + ofElse otherwise))
  | .numericFor var start limit none body =>
    { weight := 1 } + (ofExpr start + (ofExpr limit + (bindAll [var] + ofStmts body)))
  | .numericFor var start limit (some step) body =>
    { weight := 1 }
      + (ofExpr start + (ofExpr limit + (ofExpr step + (bindAll [var] + ofStmts body))))
  | .genericFor names exprs body =>
    { weight := 1 } + (ofExprs exprs + (bindAll names + ofStmts body))
  | .ret values => { weight := 1 } + ofExprs values
  | .exit | .goto _ | .label _ => { weight := 1 }

/-- What a pass sees after the first block of an `if`. -/
def ofElse : Else → Summary
  | .done => 0
  | .block body => ofStmts body
  | .elseIf c body otherwise => ofExpr c + (ofStmts body + ofElse otherwise)

/-- What a pass sees of statements. -/
def ofStmts : List Stmt → Summary
  | [] => 0
  | s :: rest => ofStmt s + ofStmts rest

end

end Summary

end LuaUnpack.Handler.Simplify
