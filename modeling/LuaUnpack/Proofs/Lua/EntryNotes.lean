import LuaUnpack.Lua.Symbols
import LuaUnpack.Proofs.Lua.Places

/-!
# Statements noted as they are entered

The walk that looks for the uses of names numbers statements, but it only keeps the numbers of
those that bind a name. The same walk with places (`Noting.ofStmts`) notes every statement that it
enters, and what it finds is what the plain walk finds. The notes are the statements of the block
in the order of the text, numbered from the first number on (`Noting.collected_eq`).
-/

namespace LuaUnpack.Lua

/-- Statements that were entered, with the numbers taken for them. -/
abbrev Notes := List (Located × Nat)

/-- A computation that notes the statements it enters. -/
abbrev Noting (m : Type → Type) := StateT Notes m

/-- Enters a statement and notes it. -/
def note {m : Type → Type} [Monad m] (entry : Located) (enter : m Nat) : Noting m Nat := do
  let ordinal ← enter
  modify (· ++ [(entry, ordinal)])
  return ordinal

/-! ## What a computation notes -/

section

variable {σ α β : Type}

/-- Whether a computation does what a plain one does, and notes some statements with the numbers
    that come next. The plain one takes a number for each of them. -/
structure Enters (next : σ → Nat) (noting : Noting (StateM σ) α) (plain : StateM σ α)
    (entries : List Located) : Prop where
  run_eq : ∀ notes s, (noting.run notes).run s =
    (((plain.run s).1, notes ++ entries.zipIdx (next s)), (plain.run s).2)
  next_eq : ∀ s, next (plain.run s).2 = next s + entries.length

variable {next : σ → Nat} {noting : Noting (StateM σ) α} {plain : StateM σ α}
  {entries left right : List Located}

theorem enters_pure (a : α) : Enters next (pure a) (pure a) [] where
  run_eq notes s := by
    rw [List.zipIdx_nil, List.append_nil]
    rfl
  next_eq _ := rfl

/-- A step that takes no number. -/
theorem enters_lift (h : ∀ s, next (plain.run s).2 = next s) :
    Enters next (liftM plain) plain [] where
  run_eq notes s := by
    rw [List.zipIdx_nil, List.append_nil]
    rfl
  next_eq := h

theorem enters_note {enter : StateM σ Nat} (hordinal : ∀ s, (enter.run s).1 = next s)
    (hnext : ∀ s, next (enter.run s).2 = next s + 1) (entry : Located) :
    Enters next (note entry enter) enter [entry] where
  run_eq notes s := by
    rw [List.zipIdx_singleton, ← hordinal s]
    rfl
  next_eq := hnext

theorem Enters.bind {noting' : α → Noting (StateM σ) β} {plain' : α → StateM σ β}
    (h : Enters next noting plain left) (h' : ∀ a, Enters next (noting' a) (plain' a) right) :
    Enters next (noting >>= noting') (plain >>= plain') (left ++ right) where
  run_eq notes s := by
    rw [StateT.run_bind, StateT.run_bind, h.run_eq]
    refine ((h' _).run_eq _ _).trans ?_
    -- The second part numbers on from where the first one has stopped.
    rw [h.next_eq, List.append_assoc, ← List.zipIdx_append]
    rfl
  next_eq s := by
    rw [List.length_append, ← Nat.add_assoc, ← h.next_eq s]
    exact (h' _).next_eq _

theorem Enters.map (make : α → β) (h : Enters next noting plain entries) :
    Enters next (noting >>= fun a => pure (make a)) (plain >>= fun a => pure (make a)) entries :=
  List.append_nil entries ▸ h.bind fun a => enters_pure (make a)

end

/-! ## The walk that looks for the uses of names -/

namespace Noting

open Use

mutual

/-- The uses in an expression at a place. -/
def ofExpr (place : List Nat) : Expr → Noting (StateM Nat) (List Use)
  | .nil | .boolean _ | .number _ | .string _ | .vararg => pure []
  | .name n => pure [read n]
  | .member t _ => ofExpr (place ++ [0]) t
  | .index t k => return (← ofExpr (place ++ [0]) t) ++ (← ofExpr (place ++ [1]) k)
  | .call f args => return (← ofExpr (place ++ [0]) f) ++ (← ofExprs (place ++ [1]) args)
  | .methodCall o _ args => return (← ofExpr (place ++ [0]) o) ++ (← ofExprs (place ++ [1]) args)
  | .function ⟨params, _, body⟩ => do
    let ordinal := (← (get : StateM Nat Nat)) - 1
    return bindAll ordinal params ++ (← ofStmts (place ++ [0]) body)
  | .table fields => ofFields (place ++ [0]) fields
  | .binary _ l r => return (← ofExpr (place ++ [0]) l) ++ (← ofExpr (place ++ [1]) r)
  | .unary _ e => ofExpr (place ++ [0]) e
  | .paren e => ofExpr (place ++ [0]) e

/-- The uses in expressions. -/
def ofExprs (place : List Nat) : List Expr → Noting (StateM Nat) (List Use)
  | [] => pure []
  | e :: rest => return (← ofExpr (place ++ [0]) e) ++ (← ofExprs (place ++ [1]) rest)

/-- The uses in the targets of an assignment that are no names. -/
def ofTargets (place : List Nat) : List Expr → Noting (StateM Nat) (List Use)
  | [] => pure []
  | .name _ :: rest => ofTargets (place ++ [1]) rest
  | e :: rest => return (← ofExpr (place ++ [0]) e) ++ (← ofTargets (place ++ [1]) rest)

/-- The uses in a table entry. -/
def ofField (place : List Nat) : Field → Noting (StateM Nat) (List Use)
  | .positional e => ofExpr (place ++ [0]) e
  | .named _ e => ofExpr (place ++ [0]) e
  | .keyed k e => return (← ofExpr (place ++ [0]) k) ++ (← ofExpr (place ++ [1]) e)

/-- The uses in table entries. -/
def ofFields (place : List Nat) : List Field → Noting (StateM Nat) (List Use)
  | [] => pure []
  | f :: rest => return (← ofField (place ++ [0]) f) ++ (← ofFields (place ++ [1]) rest)

/-- The uses in a statement that was entered. -/
def belowStmt (place : List Nat) (ordinal : Nat) : Stmt → Noting (StateM Nat) (List Use)
  | .localVars names values =>
    return (← ofExprs (place ++ [0]) values) ++ bindEach ordinal names values
  | .localFunction name ⟨params, isVararg, body⟩ =>
    return bind name (some (.function ⟨params, isVararg, body⟩)) ordinal
      :: bindAll ordinal params ++ (← ofStmts (place ++ [0]) body)
  | .functionDecl _ _ _ ⟨params, _, body⟩ =>
    return bindAll ordinal params ++ (← ofStmts (place ++ [0]) body)
  | .assign targets values =>
    return (← ofTargets (place ++ [0]) targets) ++ (← ofExprs (place ++ [1]) values)
      ++ bindTargets ordinal targets values
  | .call e => ofExpr (place ++ [0]) e
  | .block body => ofStmts (place ++ [0]) body
  | .whileLoop c body => return (← ofExpr (place ++ [0]) c) ++ (← ofStmts (place ++ [1]) body)
  | .repeatLoop body c => return (← ofStmts (place ++ [0]) body) ++ (← ofExpr (place ++ [1]) c)
  | .ifThen c body otherwise =>
    return (← ofExpr (place ++ [0]) c) ++ (← ofStmts (place ++ [1]) body)
      ++ (← ofElse (place ++ [2]) otherwise)
  | .numericFor var start limit none body =>
    return (← ofExpr (place ++ [0]) start) ++ (← ofExpr (place ++ [1]) limit)
      ++ bind var none ordinal :: (← ofStmts (place ++ [2]) body)
  | .numericFor var start limit (some step) body =>
    return (← ofExpr (place ++ [0]) start) ++ (← ofExpr (place ++ [1]) limit)
      ++ (← ofExpr (place ++ [2]) step) ++ bind var none ordinal :: (← ofStmts (place ++ [3]) body)
  | .genericFor names exprs body =>
    return (← ofExprs (place ++ [0]) exprs) ++ bindAll ordinal names
      ++ (← ofStmts (place ++ [1]) body)
  | .ret values => ofExprs (place ++ [0]) values
  | .exit | .goto _ | .label _ => pure []

/-- The uses after the first block of an `if`. -/
def ofElse (place : List Nat) : Else → Noting (StateM Nat) (List Use)
  | .done => pure []
  | .block body => ofStmts (place ++ [0]) body
  | .elseIf c body otherwise =>
    return (← ofExpr (place ++ [0]) c) ++ (← ofStmts (place ++ [1]) body)
      ++ (← ofElse (place ++ [2]) otherwise)

/-- The uses in statements, each of which is noted before what is in it. -/
def ofStmts (place : List Nat) : List Stmt → Noting (StateM Nat) (List Use)
  | [] => pure []
  | s :: rest => do
    let uses ← do
      let ordinal ← note ⟨place ++ [0], s⟩ enter
      belowStmt (place ++ [0]) ordinal s
    return uses ++ (← ofStmts (place ++ [1]) rest)

end

/-! ### Its notes -/

/-- Entering a statement of which `below` is the rest. -/
theorem enters_cons {below : Nat → Noting (StateM Nat) (List Use)}
    {plain : Nat → StateM Nat (List Use)} {entries : List Located} (entry : Located)
    (h : ∀ ordinal, Enters id (below ordinal) (plain ordinal) entries) :
    Enters id (note entry enter >>= below) (enter >>= plain) (entry :: entries) := by
  have hnote : Enters id (note entry enter) enter [entry] := by
    refine enters_note ?_ ?_ entry <;> exact fun _ => rfl
  exact hnote.bind h

mutual

theorem enters_ofExpr (place : List Nat) :
    ∀ e, Enters id (ofExpr place e) (Use.ofExpr e) (Located.ofExpr place e)
  | .nil | .boolean _ | .number _ | .string _ | .vararg | .name _ => enters_pure _
  | .member t _ | .unary _ t | .paren t => enters_ofExpr _ t
  | .index t k => (enters_ofExpr _ t).bind fun _ => (enters_ofExpr _ k).map _
  | .call f args => (enters_ofExpr _ f).bind fun _ => (enters_ofExprs _ args).map _
  | .methodCall o _ args => (enters_ofExpr _ o).bind fun _ => (enters_ofExprs _ args).map _
  | .function ⟨_, _, body⟩ => (enters_lift fun _ => rfl).bind fun _ => (enters_ofStmts _ body).map _
  | .table fields => enters_ofFields _ fields
  | .binary _ l r => (enters_ofExpr _ l).bind fun _ => (enters_ofExpr _ r).map _

theorem enters_ofExprs (place : List Nat) :
    ∀ es, Enters id (ofExprs place es) (Use.ofExprs es) (Located.ofExprs place es)
  | [] => enters_pure _
  | e :: rest => (enters_ofExpr _ e).bind fun _ => (enters_ofExprs _ rest).map _

theorem enters_ofTargets (place : List Nat) :
    ∀ es, Enters id (ofTargets place es) (Use.ofTargets es) (Located.ofExprs place es)
  | [] => enters_pure _
  | e :: rest => by
    have he := enters_ofExpr (place ++ [0]) e
    have hrest := enters_ofTargets (place ++ [1]) rest
    cases e with
    -- The walk passes over a name. There is no statement in it, so nothing is missed.
    | name n => exact hrest
    | _ => exact he.bind fun _ => hrest.map _

theorem enters_ofField (place : List Nat) :
    ∀ f, Enters id (ofField place f) (Use.ofField f) (Located.ofField place f)
  | .positional e | .named _ e => enters_ofExpr _ e
  | .keyed k e => (enters_ofExpr _ k).bind fun _ => (enters_ofExpr _ e).map _

theorem enters_ofFields (place : List Nat) :
    ∀ fs, Enters id (ofFields place fs) (Use.ofFields fs) (Located.ofFields place fs)
  | [] => enters_pure _
  | f :: rest => (enters_ofField _ f).bind fun _ => (enters_ofFields _ rest).map _

theorem enters_ofStmt (place : List Nat) :
    ∀ s, Enters id (note ⟨place, s⟩ enter >>= fun ordinal => belowStmt place ordinal s)
      (Use.ofStmt s) (⟨place, s⟩ :: Located.belowStmt place s)
  -- The statement is entered first; what follows is noted in the order of the walk.
  | .localVars _ values => enters_cons _ fun _ => (enters_ofExprs _ values).map _
  | .localFunction _ ⟨_, _, body⟩ => enters_cons _ fun _ => (enters_ofStmts _ body).map _
  | .functionDecl _ _ _ ⟨_, _, body⟩ => enters_cons _ fun _ => (enters_ofStmts _ body).map _
  | .assign targets values => enters_cons _ fun _ =>
    (enters_ofTargets _ targets).bind fun _ => (enters_ofExprs _ values).map _
  | .call e => enters_cons _ fun _ => enters_ofExpr _ e
  | .block body => enters_cons _ fun _ => enters_ofStmts _ body
  | .whileLoop c body => enters_cons _ fun _ =>
    (enters_ofExpr _ c).bind fun _ => (enters_ofStmts _ body).map _
  | .repeatLoop body c => enters_cons _ fun _ =>
    (enters_ofStmts _ body).bind fun _ => (enters_ofExpr _ c).map _
  | .ifThen c body otherwise => enters_cons _ fun _ =>
    (enters_ofExpr _ c).bind fun _ => (enters_ofStmts _ body).bind fun _ =>
      (enters_ofElse _ otherwise).map _
  | .numericFor _ start limit none body => enters_cons _ fun _ =>
    (enters_ofExpr _ start).bind fun _ => (enters_ofExpr _ limit).bind fun _ =>
      (enters_ofStmts _ body).map _
  | .numericFor _ start limit (some step) body => enters_cons _ fun _ =>
    (enters_ofExpr _ start).bind fun _ => (enters_ofExpr _ limit).bind fun _ =>
      (enters_ofExpr _ step).bind fun _ => (enters_ofStmts _ body).map _
  | .genericFor _ exprs body => enters_cons _ fun _ =>
    (enters_ofExprs _ exprs).bind fun _ => (enters_ofStmts _ body).map _
  | .ret values => enters_cons _ fun _ => enters_ofExprs _ values
  | .exit | .goto _ | .label _ => enters_cons _ fun _ => enters_pure _

theorem enters_ofElse (place : List Nat) :
    ∀ o, Enters id (ofElse place o) (Use.ofElse o) (Located.ofElse place o)
  | .done => enters_pure _
  | .block body => enters_ofStmts _ body
  | .elseIf c body otherwise =>
    (enters_ofExpr _ c).bind fun _ => (enters_ofStmts _ body).bind fun _ =>
      (enters_ofElse _ otherwise).map _

theorem enters_ofStmts (place : List Nat) :
    ∀ ss, Enters id (ofStmts place ss) (Use.ofStmts ss) (Located.ofStmts place ss)
  | [] => enters_pure _
  | s :: rest => (enters_ofStmt _ s).bind fun _ => (enters_ofStmts _ rest).map _

end

/-- The uses of names in a block, and the statements that are entered to find them. -/
def collected (block : Block) : List Use × Notes := (((ofStmts [] block).run []).run 0).1

theorem collected_eq (block : Block) :
    collected block = ((SymbolTable.ofBlock block).uses, (Located.ofStmts [] block).zipIdx) :=
  congrArg Prod.fst ((enters_ofStmts [] block).run_eq [] 0)

example : (collected [.assign [.index (.name "t") (.function ⟨[], false, [.ret []]⟩)]
      [.function ⟨[], false, [.exit]⟩]]).2.map (fun noted => (noted.1.place, noted.2)) =
    [([0], 0), ([0, 0, 0, 1, 0, 0], 1), ([0, 1, 0, 0, 0], 2)] := by
  decide

end Noting

end LuaUnpack.Lua
