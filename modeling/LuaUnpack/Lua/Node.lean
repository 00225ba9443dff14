import LuaUnpack.Lua.Tree

/-!
# The nodes of a tree

All statements and expressions of a block in the order in which they are met when
reading it from left to right, a node before what it is made of. A walk can be told
not to look into some nodes.
-/

namespace LuaUnpack.Lua

/-- A statement or an expression of a tree. -/
inductive Node where
  | stmt (stmt : Stmt)
  | expr (expr : Expr)

namespace Node

/-- The statement that a node is. -/
def asStmt? : Node → Option Stmt
  | stmt s => some s
  | expr _ => none

/-- The expression that a node is. -/
def asExpr? : Node → Option Expr
  | stmt _ => none
  | expr e => some e

/-- A node and, if the walk looks into it, the nodes below it. -/
def above (enters : Node → Bool) (node : Node) (below : List Node) : List Node :=
  node :: if enters node then below else []

section

variable (enters : Node → Bool)

mutual

/-- The nodes of an expression. -/
def ofExpr : Expr → List Node
  | .nil => above enters (.expr .nil) []
  | .boolean b => above enters (.expr (.boolean b)) []
  | .number x => above enters (.expr (.number x)) []
  | .string l => above enters (.expr (.string l)) []
  | .vararg => above enters (.expr .vararg) []
  | .name n => above enters (.expr (.name n)) []
  | .member t k => above enters (.expr (.member t k)) (ofExpr t)
  | .index t k => above enters (.expr (.index t k)) (ofExpr t ++ ofExpr k)
  | .call f args => above enters (.expr (.call f args)) (ofExpr f ++ ofExprs args)
  | .methodCall o m args =>
    above enters (.expr (.methodCall o m args)) (ofExpr o ++ ofExprs args)
  | .function ⟨ps, v, b⟩ => above enters (.expr (.function ⟨ps, v, b⟩)) (ofStmts b)
  | .table fields => above enters (.expr (.table fields)) (ofFields fields)
  | .binary op l r => above enters (.expr (.binary op l r)) (ofExpr l ++ ofExpr r)
  | .unary op e => above enters (.expr (.unary op e)) (ofExpr e)
  | .paren e => above enters (.expr (.paren e)) (ofExpr e)

/-- The nodes of expressions. -/
def ofExprs : List Expr → List Node
  | [] => []
  | e :: rest => ofExpr e ++ ofExprs rest

/-- The nodes of a table entry, its key before its value. -/
def ofField : Field → List Node
  | .positional e => ofExpr e
  | .named _ e => ofExpr e
  | .keyed k e => ofExpr k ++ ofExpr e

/-- The nodes of table entries. -/
def ofFields : List Field → List Node
  | [] => []
  | f :: rest => ofField f ++ ofFields rest

/-- The nodes of a statement. -/
def ofStmt : Stmt → List Node
  | .localVars ns vs => above enters (.stmt (.localVars ns vs)) (ofExprs vs)
  | .localFunction n ⟨ps, v, b⟩ =>
    above enters (.stmt (.localFunction n ⟨ps, v, b⟩)) (ofStmts b)
  | .functionDecl r p m ⟨ps, v, b⟩ =>
    above enters (.stmt (.functionDecl r p m ⟨ps, v, b⟩)) (ofStmts b)
  | .assign ts vs => above enters (.stmt (.assign ts vs)) (ofExprs ts ++ ofExprs vs)
  | .call e => above enters (.stmt (.call e)) (ofExpr e)
  | .block b => above enters (.stmt (.block b)) (ofStmts b)
  | .whileLoop c b => above enters (.stmt (.whileLoop c b)) (ofExpr c ++ ofStmts b)
  | .repeatLoop b c => above enters (.stmt (.repeatLoop b c)) (ofStmts b ++ ofExpr c)
  | .ifThen c b o => above enters (.stmt (.ifThen c b o)) (ofExpr c ++ ofStmts b ++ ofElse o)
  | .numericFor n s l none b =>
    above enters (.stmt (.numericFor n s l none b)) (ofExpr s ++ ofExpr l ++ ofStmts b)
  | .numericFor n s l (some t) b =>
    above enters (.stmt (.numericFor n s l (some t) b))
      (ofExpr s ++ ofExpr l ++ ofExpr t ++ ofStmts b)
  | .genericFor ns es b => above enters (.stmt (.genericFor ns es b)) (ofExprs es ++ ofStmts b)
  | .ret vs => above enters (.stmt (.ret vs)) (ofExprs vs)
  | .exit => above enters (.stmt .exit) []
  | .goto l => above enters (.stmt (.goto l)) []
  | .label l => above enters (.stmt (.label l)) []

/-- The nodes after the first block of an `if`. -/
def ofElse : Else → List Node
  | .done => []
  | .block b => ofStmts b
  | .elseIf c b o => ofExpr c ++ ofStmts b ++ ofElse o

/-- The nodes of statements. -/
def ofStmts : List Stmt → List Node
  | [] => []
  | s :: rest => ofStmt s ++ ofStmts rest

end

end

end Node

/-- Every node of a block. -/
def Block.nodes (block : Block) : List Node := Node.ofStmts (fun _ => true) block

/-- The nodes of a block that a walk meets which does not look into all of them. -/
def Block.nodesWhere (enters : Node → Bool) (block : Block) : List Node :=
  Node.ofStmts enters block

/-- Every statement of a block, at any depth. -/
def Block.statements (block : Block) : List Stmt := block.nodes.filterMap Node.asStmt?

/-- Every expression of a block, at any depth. -/
def Block.expressions (block : Block) : List Expr := block.nodes.filterMap Node.asExpr?

end LuaUnpack.Lua
