import LuaUnpack.Lua.Tree

/-!
# Changing a tree from within

A mapper says what happens at each expression, statement and block. It is given
the node together with the action that maps what the node is made of and puts it
together again, so it can act before, after, or instead of that action. Parts are
mapped from left to right, a callee before its arguments and targets before values.
-/

namespace LuaUnpack.Lua

/-- What happens at the nodes of a tree, in a monad `m`. -/
structure Mapper (m : Type → Type) where
  expr : Expr → m Expr → m Expr := fun _ inner => inner
  stmt : Stmt → m Stmt → m Stmt := fun _ inner => inner
  block : m Block → m Block := fun inner => inner

namespace Mapper

section

variable {m : Type → Type} [Monad m] (f : Mapper m)

mutual

/-- Maps an expression. -/
def onExpr : Expr → m Expr
  | .nil => f.expr .nil (pure .nil)
  | .boolean b => f.expr (.boolean b) (pure (.boolean b))
  | .number x => f.expr (.number x) (pure (.number x))
  | .string l => f.expr (.string l) (pure (.string l))
  | .vararg => f.expr .vararg (pure .vararg)
  | .name n => f.expr (.name n) (pure (.name n))
  | .member t k => f.expr (.member t k) do
    return .member (← onExpr t) k
  | .index t k => f.expr (.index t k) do
    let t' ← onExpr t
    return .index t' (← onExpr k)
  | .call c args => f.expr (.call c args) do
    let c' ← onExpr c
    return .call c' (← onExprs args)
  | .methodCall o n args => f.expr (.methodCall o n args) do
    let o' ← onExpr o
    return .methodCall o' n (← onExprs args)
  | .function ⟨ps, v, b⟩ => f.expr (.function ⟨ps, v, b⟩) do
    return .function ⟨ps, v, ← f.block (onStmts b)⟩
  | .table fields => f.expr (.table fields) do
    return .table (← onFields fields)
  | .binary op l r => f.expr (.binary op l r) do
    let l' ← onExpr l
    return .binary op l' (← onExpr r)
  | .unary op e => f.expr (.unary op e) do
    return .unary op (← onExpr e)
  | .paren e => f.expr (.paren e) do
    return .paren (← onExpr e)

/-- Maps expressions. -/
def onExprs : List Expr → m (List Expr)
  | [] => pure []
  | e :: rest => do
    let e' ← onExpr e
    return e' :: (← onExprs rest)

/-- Maps a table entry. -/
def onField : Field → m Field
  | .positional e => do return .positional (← onExpr e)
  | .named n e => do return .named n (← onExpr e)
  | .keyed k e => do
    let k' ← onExpr k
    return .keyed k' (← onExpr e)

/-- Maps table entries. -/
def onFields : List Field → m (List Field)
  | [] => pure []
  | e :: rest => do
    let e' ← onField e
    return e' :: (← onFields rest)

/-- Maps a statement. -/
def onStmt : Stmt → m Stmt
  | .localVars ns vs => f.stmt (.localVars ns vs) do
    return .localVars ns (← onExprs vs)
  | .localFunction n ⟨ps, v, b⟩ => f.stmt (.localFunction n ⟨ps, v, b⟩) do
    return .localFunction n ⟨ps, v, ← f.block (onStmts b)⟩
  | .functionDecl r p n ⟨ps, v, b⟩ => f.stmt (.functionDecl r p n ⟨ps, v, b⟩) do
    return .functionDecl r p n ⟨ps, v, ← f.block (onStmts b)⟩
  | .assign ts vs => f.stmt (.assign ts vs) do
    let ts' ← onExprs ts
    return .assign ts' (← onExprs vs)
  | .call e => f.stmt (.call e) do
    return .call (← onExpr e)
  | .block b => f.stmt (.block b) do
    return .block (← f.block (onStmts b))
  | .whileLoop c b => f.stmt (.whileLoop c b) do
    let c' ← onExpr c
    return .whileLoop c' (← f.block (onStmts b))
  | .repeatLoop b c => f.stmt (.repeatLoop b c) do
    let b' ← f.block (onStmts b)
    return .repeatLoop b' (← onExpr c)
  | .ifThen c b o => f.stmt (.ifThen c b o) do
    let c' ← onExpr c
    let b' ← f.block (onStmts b)
    return .ifThen c' b' (← onElse o)
  | .numericFor n s l none b => f.stmt (.numericFor n s l none b) do
    let s' ← onExpr s
    let l' ← onExpr l
    return .numericFor n s' l' none (← f.block (onStmts b))
  | .numericFor n s l (some t) b => f.stmt (.numericFor n s l (some t) b) do
    let s' ← onExpr s
    let l' ← onExpr l
    let t' ← onExpr t
    return .numericFor n s' l' (some t') (← f.block (onStmts b))
  | .genericFor ns es b => f.stmt (.genericFor ns es b) do
    let es' ← onExprs es
    return .genericFor ns es' (← f.block (onStmts b))
  | .ret vs => f.stmt (.ret vs) do
    return .ret (← onExprs vs)
  | .exit => f.stmt .exit (pure .exit)
  | .goto l => f.stmt (.goto l) (pure (.goto l))
  | .label l => f.stmt (.label l) (pure (.label l))

/-- Maps what follows the first block of an `if`. -/
def onElse : Else → m Else
  | .done => pure .done
  | .block b => do return .block (← f.block (onStmts b))
  | .elseIf c b o => do
    let c' ← onExpr c
    let b' ← f.block (onStmts b)
    return .elseIf c' b' (← onElse o)

/-- Maps the statements of a block. -/
def onStmts : List Stmt → m (List Stmt)
  | [] => pure []
  | s :: rest => do
    let s' ← onStmt s
    return s' :: (← onStmts rest)

end

/-- Maps a block. -/
def onBlock (block : Block) : m Block := f.block (onStmts f block)

end

end Mapper

end LuaUnpack.Lua
