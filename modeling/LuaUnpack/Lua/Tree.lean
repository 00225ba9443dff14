import LuaUnpack.Lua.Literal
import LuaUnpack.Lua.Operator

/-!
# Scripts as trees

The expressions and statements of a script. A block is a list of statements. An
`if` holds its first condition and block; what follows is an `Else`, which is
either nothing, a last block, or one more condition with its block. Parentheses
are kept only around a call or `...`, where they cut the values to one.
-/

namespace LuaUnpack.Lua

mutual

/-- An expression. -/
inductive Expr where
  | nil
  | boolean (value : Bool)
  | number (value : Float)
  | string (literal : Literal)
  | vararg
  | name (name : String)
  | member (table : Expr) (key : String)
  | index (table key : Expr)
  | call (callee : Expr) (args : List Expr)
  | methodCall (object : Expr) (method : String) (args : List Expr)
  | function (function : FuncBody)
  | table (fields : List Field)
  | binary (op : BinaryOp) (left right : Expr)
  | unary (op : UnaryOp) (operand : Expr)
  | paren (inner : Expr)

/-- An entry of a table constructor. -/
inductive Field where
  | positional (value : Expr)
  | named (name : String) (value : Expr)
  | keyed (key value : Expr)

/-- The parameters and the block of a function; a method has `self` as its first
    parameter. -/
structure FuncBody where
  params : List String
  isVararg : Bool
  body : List Stmt

/-- A statement. -/
inductive Stmt where
  | localVars (names : List String) (values : List Expr)
  | localFunction (name : String) (function : FuncBody)
  | functionDecl (root : String) (path : List String) (method : Option String)
      (function : FuncBody)
  | assign (targets values : List Expr)
  | call (call : Expr)
  | block (body : List Stmt)
  | whileLoop (condition : Expr) (body : List Stmt)
  | repeatLoop (body : List Stmt) (condition : Expr)
  | ifThen (condition : Expr) (body : List Stmt) (otherwise : Else)
  | numericFor (var : String) (start limit : Expr) (step : Option Expr) (body : List Stmt)
  | genericFor (names : List String) (exprs : List Expr) (body : List Stmt)
  | ret (values : List Expr)
  | exit
  | goto (label : String)
  | label (name : String)

/-- What follows the first block of an `if`. -/
inductive Else where
  | done
  | block (body : List Stmt)
  | elseIf (condition : Expr) (body : List Stmt) (otherwise : Else)

end

/-- A sequence of statements. -/
abbrev Block := List Stmt

namespace Expr

/-- The name that an expression consists of. -/
def asName? : Expr → Option String
  | name n => some n
  | _ => none

/-- The number that an expression consists of. -/
def asNumber? : Expr → Option Float
  | number x => some x
  | _ => none

/-- Whether an expression is a given name. -/
def isName (expected : String) : Expr → Bool
  | name n => n == expected
  | _ => false

/-- Whether an expression is some name. -/
def isAnyName : Expr → Bool
  | name _ => true
  | _ => false

/-- Whether an expression is a number literal. -/
def isNumber : Expr → Bool
  | number _ => true
  | _ => false

/-- Whether an expression is a literal other than `nil`. -/
def isValueLiteral : Expr → Bool
  | boolean _ | number _ | string _ => true
  | _ => false

/-- Whether an expression is a call. -/
def isCall : Expr → Bool
  | call .. | methodCall .. => true
  | _ => false

/-- Whether an expression can stand for several values. -/
def isMultiple : Expr → Bool
  | call .. | methodCall .. | vararg => true
  | _ => false

/-- Whether an expression can be assigned to. -/
def isAssignable : Expr → Bool
  | name _ | member .. | index .. => true
  | _ => false

end Expr

namespace Stmt

/-- The name of the kind of a statement. -/
def kindName : Stmt → String
  | localVars .. => "local"
  | localFunction .. => "local function"
  | functionDecl .. => "function"
  | assign .. => "assign"
  | call _ => "call"
  | block _ => "do"
  | whileLoop .. => "while"
  | repeatLoop .. => "repeat"
  | ifThen .. => "if"
  | numericFor .. => "numeric for"
  | genericFor .. => "generic for"
  | ret _ => "return"
  | exit => "break"
  | goto _ => "goto"
  | label _ => "label"

end Stmt

namespace Else

/-- The number of `elseif` parts. -/
def elseIfCount : Else → Nat
  | elseIf _ _ otherwise => otherwise.elseIfCount + 1
  | _ => 0

/-- Whether a last block closes the `if`. -/
def hasBlock : Else → Bool
  | done => false
  | block _ => true
  | elseIf _ _ otherwise => otherwise.hasBlock

end Else

end LuaUnpack.Lua
