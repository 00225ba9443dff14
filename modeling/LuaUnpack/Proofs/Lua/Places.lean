import LuaUnpack.Lua.Tree

/-!
# Places in a tree

Equal statements can stand at several places of a tree, so that a statement does not say which one
it is; its place does (`Part.at?`). The statements of a block with their places, in the order in
which they stand in the text and each before those inside it, are `Located.ofStmts`. Every one of
them is found at its place (`Located.isAt_ofStmts`).
-/

namespace LuaUnpack.Lua

/-- A part of a tree. -/
inductive Part where
  | expr (expr : Expr)
  | exprs (exprs : List Expr)
  | field (field : Field)
  | fields (fields : List Field)
  | stmt (stmt : Stmt)
  | stmts (stmts : List Stmt)
  | otherwise (otherwise : Else)

namespace Part

/-- What a part is made of, as it stands in the text. A list is made of its first member and of
    the rest. -/
def parts : Part → List Part
  | expr (.member t _) => [expr t]
  | expr (.index t k) => [expr t, expr k]
  | expr (.call f args) => [expr f, exprs args]
  | expr (.methodCall o _ args) => [expr o, exprs args]
  | expr (.function f) => [stmts f.body]
  | expr (.table entries) => [fields entries]
  | expr (.binary _ l r) => [expr l, expr r]
  | expr (.unary _ e) => [expr e]
  | expr (.paren e) => [expr e]
  | expr _ => []
  | exprs [] => []
  | exprs (e :: rest) => [expr e, exprs rest]
  | field (.positional e) => [expr e]
  | field (.named _ e) => [expr e]
  | field (.keyed k e) => [expr k, expr e]
  | fields [] => []
  | fields (f :: rest) => [field f, fields rest]
  | stmt (.localVars _ values) => [exprs values]
  | stmt (.localFunction _ f) => [stmts f.body]
  | stmt (.functionDecl _ _ _ f) => [stmts f.body]
  | stmt (.assign targets values) => [exprs targets, exprs values]
  | stmt (.call e) => [expr e]
  | stmt (.block body) => [stmts body]
  | stmt (.whileLoop c body) => [expr c, stmts body]
  | stmt (.repeatLoop body c) => [stmts body, expr c]
  | stmt (.ifThen c body o) => [expr c, stmts body, otherwise o]
  | stmt (.numericFor _ start limit none body) => [expr start, expr limit, stmts body]
  | stmt (.numericFor _ start limit (some step) body) =>
    [expr start, expr limit, expr step, stmts body]
  | stmt (.genericFor _ es body) => [exprs es, stmts body]
  | stmt (.ret values) => [exprs values]
  | stmt _ => []
  | stmts [] => []
  | stmts (s :: rest) => [stmt s, stmts rest]
  | otherwise .done => []
  | otherwise (.block body) => [stmts body]
  | otherwise (.elseIf c body o) => [expr c, stmts body, otherwise o]

/-- The part at a place: each number of the place says which of its parts to go into. -/
def at? : Part → List Nat → Option Part
  | part, [] => some part
  | part, i :: place => part.parts[i]?.bind (·.at? place)

theorem at?_append (part : Part) (place below : List Nat) :
    part.at? (place ++ below) = (part.at? place).bind (·.at? below) := by
  induction place generalizing part with
  | nil => rfl
  | cons i place ih =>
    rw [List.cons_append, at?, at?]
    cases part.parts[i]? with
    | none => rfl
    | some child => exact ih child

/-- One step further down. -/
theorem at?_concat {root part child : Part} {place : List Nat} {i : Nat}
    (h : root.at? place = some part) (hchild : part.parts[i]? = some child) :
    root.at? (place ++ [i]) = some child := by
  rw [at?_append, h, Option.bind_some, at?, hchild]
  rfl

end Part

/-- A statement and its place. -/
structure Located where
  place : List Nat
  stmt : Stmt

namespace Located

mutual

/-- The statements in an expression at a place. -/
def ofExpr (place : List Nat) : Expr → List Located
  | .nil | .boolean _ | .number _ | .string _ | .vararg | .name _ => []
  | .member t _ => ofExpr (place ++ [0]) t
  | .index t k => ofExpr (place ++ [0]) t ++ ofExpr (place ++ [1]) k
  | .call f args => ofExpr (place ++ [0]) f ++ ofExprs (place ++ [1]) args
  | .methodCall o _ args => ofExpr (place ++ [0]) o ++ ofExprs (place ++ [1]) args
  | .function ⟨_, _, body⟩ => ofStmts (place ++ [0]) body
  | .table fields => ofFields (place ++ [0]) fields
  | .binary _ l r => ofExpr (place ++ [0]) l ++ ofExpr (place ++ [1]) r
  | .unary _ e => ofExpr (place ++ [0]) e
  | .paren e => ofExpr (place ++ [0]) e

/-- The statements in expressions. -/
def ofExprs (place : List Nat) : List Expr → List Located
  | [] => []
  | e :: rest => ofExpr (place ++ [0]) e ++ ofExprs (place ++ [1]) rest

/-- The statements in a table entry. -/
def ofField (place : List Nat) : Field → List Located
  | .positional e => ofExpr (place ++ [0]) e
  | .named _ e => ofExpr (place ++ [0]) e
  | .keyed k e => ofExpr (place ++ [0]) k ++ ofExpr (place ++ [1]) e

/-- The statements in table entries. -/
def ofFields (place : List Nat) : List Field → List Located
  | [] => []
  | f :: rest => ofField (place ++ [0]) f ++ ofFields (place ++ [1]) rest

/-- The statements inside a statement. -/
def belowStmt (place : List Nat) : Stmt → List Located
  | .localVars _ values => ofExprs (place ++ [0]) values
  | .localFunction _ ⟨_, _, body⟩ => ofStmts (place ++ [0]) body
  | .functionDecl _ _ _ ⟨_, _, body⟩ => ofStmts (place ++ [0]) body
  | .assign targets values => ofExprs (place ++ [0]) targets ++ ofExprs (place ++ [1]) values
  | .call e => ofExpr (place ++ [0]) e
  | .block body => ofStmts (place ++ [0]) body
  | .whileLoop c body => ofExpr (place ++ [0]) c ++ ofStmts (place ++ [1]) body
  | .repeatLoop body c => ofStmts (place ++ [0]) body ++ ofExpr (place ++ [1]) c
  | .ifThen c body otherwise =>
    ofExpr (place ++ [0]) c ++ (ofStmts (place ++ [1]) body ++ ofElse (place ++ [2]) otherwise)
  | .numericFor _ start limit none body =>
    ofExpr (place ++ [0]) start ++ (ofExpr (place ++ [1]) limit ++ ofStmts (place ++ [2]) body)
  | .numericFor _ start limit (some step) body =>
    ofExpr (place ++ [0]) start ++ (ofExpr (place ++ [1]) limit
      ++ (ofExpr (place ++ [2]) step ++ ofStmts (place ++ [3]) body))
  | .genericFor _ exprs body => ofExprs (place ++ [0]) exprs ++ ofStmts (place ++ [1]) body
  | .ret values => ofExprs (place ++ [0]) values
  | .exit | .goto _ | .label _ => []

/-- The statements after the first block of an `if`. -/
def ofElse (place : List Nat) : Else → List Located
  | .done => []
  | .block body => ofStmts (place ++ [0]) body
  | .elseIf c body otherwise =>
    ofExpr (place ++ [0]) c ++ (ofStmts (place ++ [1]) body ++ ofElse (place ++ [2]) otherwise)

/-- The statements of a block, each before those inside it. -/
def ofStmts (place : List Nat) : List Stmt → List Located
  | [] => []
  | s :: rest =>
    (⟨place ++ [0], s⟩ :: belowStmt (place ++ [0]) s) ++ ofStmts (place ++ [1]) rest

end

/-! ## Every statement is at its place -/

/-- Whether a statement is found at its place. -/
def IsAt (root : Part) (entry : Located) : Prop := root.at? entry.place = some (.stmt entry.stmt)

section

variable {root : Part} {place : List Nat}

theorem forall_append {left right : List Located} (hleft : ∀ entry ∈ left, entry.IsAt root)
    (hright : ∀ entry ∈ right, entry.IsAt root) : ∀ entry ∈ left ++ right, entry.IsAt root :=
  List.forall_mem_append.2 ⟨hleft, hright⟩

mutual

theorem isAt_ofExpr (place : List Nat) : ∀ e, root.at? place = some (.expr e) →
    ∀ entry ∈ ofExpr place e, entry.IsAt root
  | .nil, _ | .boolean _, _ | .number _, _ | .string _, _ | .vararg, _ | .name _, _ => nofun
  | .member t _, h => isAt_ofExpr _ t (Part.at?_concat h rfl)
  | .index t k, h => forall_append (isAt_ofExpr _ t (Part.at?_concat h rfl))
      (isAt_ofExpr _ k (Part.at?_concat h rfl))
  | .call f args, h => forall_append (isAt_ofExpr _ f (Part.at?_concat h rfl))
      (isAt_ofExprs _ args (Part.at?_concat h rfl))
  | .methodCall o _ args, h => forall_append (isAt_ofExpr _ o (Part.at?_concat h rfl))
      (isAt_ofExprs _ args (Part.at?_concat h rfl))
  | .function ⟨_, _, body⟩, h => isAt_ofStmts _ body (Part.at?_concat h rfl)
  | .table fields, h => isAt_ofFields _ fields (Part.at?_concat h rfl)
  | .binary _ l r, h => forall_append (isAt_ofExpr _ l (Part.at?_concat h rfl))
      (isAt_ofExpr _ r (Part.at?_concat h rfl))
  | .unary _ e, h => isAt_ofExpr _ e (Part.at?_concat h rfl)
  | .paren e, h => isAt_ofExpr _ e (Part.at?_concat h rfl)

theorem isAt_ofExprs (place : List Nat) : ∀ es, root.at? place = some (.exprs es) →
    ∀ entry ∈ ofExprs place es, entry.IsAt root
  | [], _ => nofun
  | e :: rest, h => forall_append (isAt_ofExpr _ e (Part.at?_concat h rfl))
      (isAt_ofExprs _ rest (Part.at?_concat h rfl))

theorem isAt_ofField (place : List Nat) : ∀ f, root.at? place = some (.field f) →
    ∀ entry ∈ ofField place f, entry.IsAt root
  | .positional e, h => isAt_ofExpr _ e (Part.at?_concat h rfl)
  | .named _ e, h => isAt_ofExpr _ e (Part.at?_concat h rfl)
  | .keyed k e, h => forall_append (isAt_ofExpr _ k (Part.at?_concat h rfl))
      (isAt_ofExpr _ e (Part.at?_concat h rfl))

theorem isAt_ofFields (place : List Nat) : ∀ fs, root.at? place = some (.fields fs) →
    ∀ entry ∈ ofFields place fs, entry.IsAt root
  | [], _ => nofun
  | f :: rest, h => forall_append (isAt_ofField _ f (Part.at?_concat h rfl))
      (isAt_ofFields _ rest (Part.at?_concat h rfl))

theorem isAt_belowStmt (place : List Nat) : ∀ s, root.at? place = some (.stmt s) →
    ∀ entry ∈ belowStmt place s, entry.IsAt root
  -- A part of the statement is one step of the path further down.
  | .localVars _ values, h => isAt_ofExprs _ values (Part.at?_concat h rfl)
  | .localFunction _ ⟨_, _, body⟩, h => isAt_ofStmts _ body (Part.at?_concat h rfl)
  | .functionDecl _ _ _ ⟨_, _, body⟩, h => isAt_ofStmts _ body (Part.at?_concat h rfl)
  | .assign targets values, h => forall_append (isAt_ofExprs _ targets (Part.at?_concat h rfl))
      (isAt_ofExprs _ values (Part.at?_concat h rfl))
  | .call e, h => isAt_ofExpr _ e (Part.at?_concat h rfl)
  | .block body, h => isAt_ofStmts _ body (Part.at?_concat h rfl)
  | .whileLoop c body, h => forall_append (isAt_ofExpr _ c (Part.at?_concat h rfl))
      (isAt_ofStmts _ body (Part.at?_concat h rfl))
  | .repeatLoop body c, h => forall_append (isAt_ofStmts _ body (Part.at?_concat h rfl))
      (isAt_ofExpr _ c (Part.at?_concat h rfl))
  | .ifThen c body otherwise, h => forall_append (isAt_ofExpr _ c (Part.at?_concat h rfl))
      (forall_append (isAt_ofStmts _ body (Part.at?_concat h rfl))
        (isAt_ofElse _ otherwise (Part.at?_concat h rfl)))
  | .numericFor _ start limit none body, h =>
    forall_append (isAt_ofExpr _ start (Part.at?_concat h rfl))
      (forall_append (isAt_ofExpr _ limit (Part.at?_concat h rfl))
        (isAt_ofStmts _ body (Part.at?_concat h rfl)))
  | .numericFor _ start limit (some step) body, h =>
    forall_append (isAt_ofExpr _ start (Part.at?_concat h rfl))
      (forall_append (isAt_ofExpr _ limit (Part.at?_concat h rfl))
        (forall_append (isAt_ofExpr _ step (Part.at?_concat h rfl))
          (isAt_ofStmts _ body (Part.at?_concat h rfl))))
  | .genericFor _ exprs body, h => forall_append (isAt_ofExprs _ exprs (Part.at?_concat h rfl))
      (isAt_ofStmts _ body (Part.at?_concat h rfl))
  | .ret values, h => isAt_ofExprs _ values (Part.at?_concat h rfl)
  | .exit, _ | .goto _, _ | .label _, _ => nofun

theorem isAt_ofElse (place : List Nat) : ∀ o, root.at? place = some (.otherwise o) →
    ∀ entry ∈ ofElse place o, entry.IsAt root
  | .done, _ => nofun
  | .block body, h => isAt_ofStmts _ body (Part.at?_concat h rfl)
  | .elseIf c body otherwise, h => forall_append (isAt_ofExpr _ c (Part.at?_concat h rfl))
      (forall_append (isAt_ofStmts _ body (Part.at?_concat h rfl))
        (isAt_ofElse _ otherwise (Part.at?_concat h rfl)))

theorem isAt_ofStmts (place : List Nat) : ∀ ss, root.at? place = some (.stmts ss) →
    ∀ entry ∈ ofStmts place ss, entry.IsAt root
  | [], _ => nofun
  | s :: rest, h =>
    forall_append (List.forall_mem_cons.2 ⟨Part.at?_concat h rfl,
      isAt_belowStmt _ s (Part.at?_concat h rfl)⟩) (isAt_ofStmts _ rest (Part.at?_concat h rfl))

end

end

end Located

end LuaUnpack.Lua
