import LuaUnpack.Lua.Tree

/-!
# The uses of names

How often a name is read and written in a block, and where it is first bound. A
block is taken for one in which every local has a name of its own, so scopes play
no part. Statements are numbered as they are entered, from the outside to the
inside and from left to right; a binding carries the number of the statement that
makes it.
-/

namespace LuaUnpack.Lua

/-- A place where a name is used. -/
inductive Use where
  | read (name : String)
  | bind (name : String) (value : Option Expr) (ordinal : Nat)

namespace Use

/-- The name that is used. -/
def name : Use → String
  | read n => n
  | bind n _ _ => n

/-- Whether a name is read. -/
def isRead (expected : String) : Use → Bool
  | read n => n == expected
  | _ => false

/-- The bound value and the number of the binding statement, if a name is bound. -/
def binding? (expected : String) : Use → Option (Option Expr × Nat)
  | bind n value ordinal => if n == expected then some (value, ordinal) else none
  | _ => none

/-- Takes the number for a statement that is entered. -/
def enter : StateM Nat Nat := modifyGet fun k => (k, k + 1)

/-- Names bound to the values at their places. -/
def bindEach (ordinal : Nat) : List String → List Expr → List Use
  | [], _ => []
  | n :: names, [] => bind n none ordinal :: bindEach ordinal names []
  | n :: names, v :: values => bind n (some v) ordinal :: bindEach ordinal names values

/-- Names bound to no known value. -/
def bindAll (ordinal : Nat) (names : List String) : List Use :=
  names.map fun n => bind n none ordinal

/-- The targets of an assignment that are names, bound to the values at their
    places. -/
def bindTargets (ordinal : Nat) : List Expr → List Expr → List Use
  | [], _ => []
  | .name n :: targets, [] => bind n none ordinal :: bindTargets ordinal targets []
  | _ :: targets, [] => bindTargets ordinal targets []
  | .name n :: targets, v :: values => bind n (some v) ordinal :: bindTargets ordinal targets values
  | _ :: targets, _ :: values => bindTargets ordinal targets values

mutual

/-- The uses in an expression. The parameters of a function are bound by the
    statement entered last. -/
def ofExpr : Expr → StateM Nat (List Use)
  | .nil | .boolean _ | .number _ | .string _ | .vararg => pure []
  | .name n => pure [read n]
  | .member t _ => ofExpr t
  | .index t k => return (← ofExpr t) ++ (← ofExpr k)
  | .call f args => return (← ofExpr f) ++ (← ofExprs args)
  | .methodCall o _ args => return (← ofExpr o) ++ (← ofExprs args)
  | .function ⟨params, _, body⟩ => do
    let ordinal := (← get) - 1
    return bindAll ordinal params ++ (← ofStmts body)
  | .table fields => ofFields fields
  | .binary _ l r => return (← ofExpr l) ++ (← ofExpr r)
  | .unary _ e => ofExpr e
  | .paren e => ofExpr e

/-- The uses in expressions. -/
def ofExprs : List Expr → StateM Nat (List Use)
  | [] => pure []
  | e :: rest => return (← ofExpr e) ++ (← ofExprs rest)

/-- The uses in the targets of an assignment that are no names. -/
def ofTargets : List Expr → StateM Nat (List Use)
  | [] => pure []
  | .name _ :: rest => ofTargets rest
  | e :: rest => return (← ofExpr e) ++ (← ofTargets rest)

/-- The uses in a table entry. -/
def ofField : Field → StateM Nat (List Use)
  | .positional e => ofExpr e
  | .named _ e => ofExpr e
  | .keyed k e => return (← ofExpr k) ++ (← ofExpr e)

/-- The uses in table entries. -/
def ofFields : List Field → StateM Nat (List Use)
  | [] => pure []
  | f :: rest => return (← ofField f) ++ (← ofFields rest)

/-- The uses in a statement. -/
def ofStmt : Stmt → StateM Nat (List Use)
  | .localVars names values => do
    let ordinal ← enter
    return (← ofExprs values) ++ bindEach ordinal names values
  | .localFunction name ⟨params, isVararg, body⟩ => do
    let ordinal ← enter
    return bind name (some (.function ⟨params, isVararg, body⟩)) ordinal
      :: bindAll ordinal params ++ (← ofStmts body)
  | .functionDecl _ _ _ ⟨params, _, body⟩ => do
    let ordinal ← enter
    return bindAll ordinal params ++ (← ofStmts body)
  | .assign targets values => do
    let ordinal ← enter
    return (← ofTargets targets) ++ (← ofExprs values) ++ bindTargets ordinal targets values
  | .call e => do
    let _ ← enter
    ofExpr e
  | .block body => do
    let _ ← enter
    ofStmts body
  | .whileLoop c body => do
    let _ ← enter
    return (← ofExpr c) ++ (← ofStmts body)
  | .repeatLoop body c => do
    let _ ← enter
    return (← ofStmts body) ++ (← ofExpr c)
  | .ifThen c body otherwise => do
    let _ ← enter
    return (← ofExpr c) ++ (← ofStmts body) ++ (← ofElse otherwise)
  | .numericFor var start limit none body => do
    let ordinal ← enter
    return (← ofExpr start) ++ (← ofExpr limit) ++ bind var none ordinal :: (← ofStmts body)
  | .numericFor var start limit (some step) body => do
    let ordinal ← enter
    return (← ofExpr start) ++ (← ofExpr limit) ++ (← ofExpr step)
      ++ bind var none ordinal :: (← ofStmts body)
  | .genericFor names exprs body => do
    let ordinal ← enter
    return (← ofExprs exprs) ++ bindAll ordinal names ++ (← ofStmts body)
  | .ret values => do
    let _ ← enter
    ofExprs values
  | .exit | .goto _ | .label _ => do
    let _ ← enter
    return []

/-- The uses after the first block of an `if`. -/
def ofElse : Else → StateM Nat (List Use)
  | .done => pure []
  | .block body => ofStmts body
  | .elseIf c body otherwise =>
    return (← ofExpr c) ++ (← ofStmts body) ++ (← ofElse otherwise)

/-- The uses in statements. -/
def ofStmts : List Stmt → StateM Nat (List Use)
  | [] => pure []
  | s :: rest => return (← ofStmt s) ++ (← ofStmts rest)

end

end Use

/-- What is known about a name. -/
structure SymbolInfo where
  /-- The value it is first bound to. -/
  value : Option Expr
  reads : Nat
  /-- The bindings after the first one. -/
  assignments : Nat
  /-- The number of the statement that binds it first. -/
  declaration : Option Nat

/-- All uses of names in a block, in the order in which they are met. -/
structure SymbolTable where
  uses : List Use

namespace SymbolTable

/-- The uses of the names of a block. -/
def ofBlock (block : Block) : SymbolTable := ⟨((Use.ofStmts block).run 0).1⟩

/-- How often a name is read. -/
def reads (table : SymbolTable) (name : String) : Nat :=
  table.uses.countP (Use.isRead name)

/-- What is known about a name that is used. -/
def get? (table : SymbolTable) (name : String) : Option SymbolInfo :=
  if table.uses.any (·.name == name) then
    let bindings := table.uses.filterMap (Use.binding? name)
    some {
      value := bindings.head?.bind (·.1)
      reads := table.reads name
      assignments := bindings.length - 1
      declaration := bindings.head?.map (·.2) }
  else
    none

/-- The names that are used. -/
def names (table : SymbolTable) : List String := (table.uses.map Use.name).eraseDups

end SymbolTable

end LuaUnpack.Lua
