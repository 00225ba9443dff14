import LuaUnpack.Handler.Simplify
import LuaUnpack.Proofs.Lua.EntryNotes

/-!
# Statements noted in a pass

A pass finds the statement that declares a helper by its number, so it has to number statements as
the walk that noted the declaration did. A pass changes the tree while it goes through it, but only
what it has gone through: it changes an expression or a statement after its parts, and it drops
statements of a block after the last one. What it enters next is therefore still at its place. The
pass with places (`onBlock`) does what the plain pass does, and it enters the same statements in
the same order as the walk that looks for the uses of names (`numbered_alike`).
-/

namespace LuaUnpack.Handler.Simplify.Noting

open LuaUnpack.Lua LuaUnpack.Lua.Noting

section

variable (symbols : SymbolTable)

/-! ## The pass with places -/

/-- Simplifies an expression after its parts. -/
def closeExpr (inner : Noting Pass Expr) : Noting Pass Expr := do
  Simplify.onExpr symbols (← inner)

/-- Enters a statement, and simplifies it after its parts. -/
def closeStmt (entry : Located) (inner : Noting Pass Stmt) : Noting Pass Stmt := do
  let ordinal ← note entry enter
  Simplify.onStmt symbols ordinal (← inner)

/-- Drops the unused declarations of a block after its last statement. -/
def closeBlock (inner : Noting Pass Block) : Noting Pass Block := do
  Simplify.onBlock symbols (← inner)

mutual

/-- Simplifies an expression at a place. -/
def onExpr (place : List Nat) : Expr → Noting Pass Expr
  | .nil => closeExpr symbols (pure .nil)
  | .boolean b => closeExpr symbols (pure (.boolean b))
  | .number x => closeExpr symbols (pure (.number x))
  | .string l => closeExpr symbols (pure (.string l))
  | .vararg => closeExpr symbols (pure .vararg)
  | .name n => closeExpr symbols (pure (.name n))
  | .member t k => closeExpr symbols do
    return .member (← onExpr (place ++ [0]) t) k
  | .index t k => closeExpr symbols do
    let t' ← onExpr (place ++ [0]) t
    return .index t' (← onExpr (place ++ [1]) k)
  | .call c args => closeExpr symbols do
    let c' ← onExpr (place ++ [0]) c
    return .call c' (← onExprs (place ++ [1]) args)
  | .methodCall o n args => closeExpr symbols do
    let o' ← onExpr (place ++ [0]) o
    return .methodCall o' n (← onExprs (place ++ [1]) args)
  | .function ⟨ps, v, b⟩ => closeExpr symbols do
    return .function ⟨ps, v, ← closeBlock symbols (onStmts (place ++ [0]) b)⟩
  | .table fields => closeExpr symbols do
    return .table (← onFields (place ++ [0]) fields)
  | .binary op l r => closeExpr symbols do
    let l' ← onExpr (place ++ [0]) l
    return .binary op l' (← onExpr (place ++ [1]) r)
  | .unary op e => closeExpr symbols do
    return .unary op (← onExpr (place ++ [0]) e)
  | .paren e => closeExpr symbols do
    return .paren (← onExpr (place ++ [0]) e)

/-- Simplifies expressions. -/
def onExprs (place : List Nat) : List Expr → Noting Pass (List Expr)
  | [] => pure []
  | e :: rest => do
    let e' ← onExpr (place ++ [0]) e
    return e' :: (← onExprs (place ++ [1]) rest)

/-- Simplifies a table entry. -/
def onField (place : List Nat) : Field → Noting Pass Field
  | .positional e => do return .positional (← onExpr (place ++ [0]) e)
  | .named n e => do return .named n (← onExpr (place ++ [0]) e)
  | .keyed k e => do
    let k' ← onExpr (place ++ [0]) k
    return .keyed k' (← onExpr (place ++ [1]) e)

/-- Simplifies table entries. -/
def onFields (place : List Nat) : List Field → Noting Pass (List Field)
  | [] => pure []
  | e :: rest => do
    let e' ← onField (place ++ [0]) e
    return e' :: (← onFields (place ++ [1]) rest)

/-- Simplifies the parts of a statement. -/
def belowStmt (place : List Nat) : Stmt → Noting Pass Stmt
  | .localVars ns vs => return .localVars ns (← onExprs (place ++ [0]) vs)
  | .localFunction n ⟨ps, v, b⟩ =>
    return .localFunction n ⟨ps, v, ← closeBlock symbols (onStmts (place ++ [0]) b)⟩
  | .functionDecl r p n ⟨ps, v, b⟩ =>
    return .functionDecl r p n ⟨ps, v, ← closeBlock symbols (onStmts (place ++ [0]) b)⟩
  | .assign ts vs => do
    let ts' ← onExprs (place ++ [0]) ts
    return .assign ts' (← onExprs (place ++ [1]) vs)
  | .call e => return .call (← onExpr (place ++ [0]) e)
  | .block b => return .block (← closeBlock symbols (onStmts (place ++ [0]) b))
  | .whileLoop c b => do
    let c' ← onExpr (place ++ [0]) c
    return .whileLoop c' (← closeBlock symbols (onStmts (place ++ [1]) b))
  | .repeatLoop b c => do
    let b' ← closeBlock symbols (onStmts (place ++ [0]) b)
    return .repeatLoop b' (← onExpr (place ++ [1]) c)
  | .ifThen c b o => do
    let c' ← onExpr (place ++ [0]) c
    let b' ← closeBlock symbols (onStmts (place ++ [1]) b)
    return .ifThen c' b' (← onElse (place ++ [2]) o)
  | .numericFor n s l none b => do
    let s' ← onExpr (place ++ [0]) s
    let l' ← onExpr (place ++ [1]) l
    return .numericFor n s' l' none (← closeBlock symbols (onStmts (place ++ [2]) b))
  | .numericFor n s l (some t) b => do
    let s' ← onExpr (place ++ [0]) s
    let l' ← onExpr (place ++ [1]) l
    let t' ← onExpr (place ++ [2]) t
    return .numericFor n s' l' (some t') (← closeBlock symbols (onStmts (place ++ [3]) b))
  | .genericFor ns es b => do
    let es' ← onExprs (place ++ [0]) es
    return .genericFor ns es' (← closeBlock symbols (onStmts (place ++ [1]) b))
  | .ret vs => return .ret (← onExprs (place ++ [0]) vs)
  | .exit => pure .exit
  | .goto l => pure (.goto l)
  | .label l => pure (.label l)

/-- Simplifies what follows the first block of an `if`. -/
def onElse (place : List Nat) : Else → Noting Pass Else
  | .done => pure .done
  | .block b => do return .block (← closeBlock symbols (onStmts (place ++ [0]) b))
  | .elseIf c b o => do
    let c' ← onExpr (place ++ [0]) c
    let b' ← closeBlock symbols (onStmts (place ++ [1]) b)
    return .elseIf c' b' (← onElse (place ++ [2]) o)

/-- Simplifies the statements of a block. -/
def onStmts (place : List Nat) : List Stmt → Noting Pass (List Stmt)
  | [] => pure []
  | s :: rest => do
    let s' ← closeStmt symbols ⟨place ++ [0], s⟩ (belowStmt (place ++ [0]) s)
    return s' :: (← onStmts (place ++ [1]) rest)

end

/-- Simplifies a block. -/
def onBlock (block : Block) : Noting Pass Block := closeBlock symbols (onStmts symbols [] block)

end

/-! ## Changes take no numbers -/

section

variable {symbols : SymbolTable} {α β : Type}

/-- Whether a step takes no number. -/
def TakesNone (step : Pass α) : Prop := ∀ p, (step.run p).2.ordinal = p.ordinal

theorem takesNone_pure (a : α) : TakesNone (pure a) := fun _ => rfl

theorem takesNone_changed : TakesNone changed := fun _ => rfl

theorem TakesNone.bind {step : Pass α} {after : α → Pass β} (h : TakesNone step)
    (h' : ∀ a, TakesNone (after a)) : TakesNone (step >>= after) :=
  fun p => (h' _ _).trans (h p)

theorem TakesNone.map {step : Pass α} (make : α → β) (h : TakesNone step) :
    TakesNone (step >>= fun a => pure (make a)) :=
  h.bind fun a => takesNone_pure (make a)

theorem takesNone_replaceOne (value? : Expr → Option Expr) (e : Expr) :
    TakesNone (replaceOne value? e) := by
  unfold replaceOne
  cases value? e with
  | none => exact takesNone_pure e
  | some value => exact takesNone_changed.map fun _ => value

theorem takesNone_replaceTwo (value? : Expr → Option Expr) (a b : Expr) :
    TakesNone (replaceTwo value? a b) := by
  unfold replaceTwo
  split
  · exact takesNone_pure none
  · exact takesNone_changed.map fun _ => _

theorem takesNone_onExpr (e : Expr) : TakesNone (Simplify.onExpr symbols e) := by
  unfold Simplify.onExpr
  split
  case h_1 => exact (takesNone_replaceTwo _ _ _).bind fun | none | some _ => takesNone_pure _
  case h_2 =>
    refine (takesNone_replaceTwo _ _ _).bind fun
      | none => (takesNone_replaceOne _ _).map _
      | some _ => takesNone_pure _
  case h_3 =>
    refine (takesNone_replaceTwo _ _ _).bind fun
      | none => (takesNone_replaceTwo _ _ _).bind fun | none | some _ => takesNone_pure _
      | some _ => takesNone_pure _
  case h_4 => exact takesNone_pure _

theorem takesNone_onStmt (ordinal : Nat) (s : Stmt) :
    TakesNone (Simplify.onStmt symbols ordinal s) := by
  unfold Simplify.onStmt
  split
  case h_1 targets values =>
    split
    · exact takesNone_changed.map fun _ => _
    · split
      · exact (takesNone_replaceOne _ _).map _
      · exact (takesNone_replaceOne _ _).map _
      · exact takesNone_pure _
  case h_2 => exact takesNone_pure _

theorem takesNone_onBlock (block : Block) : TakesNone (Simplify.onBlock symbols block) := by
  dsimp only [Simplify.onBlock]
  split
  · exact takesNone_changed.map fun _ => _
  · exact takesNone_pure _

/-! ## Its notes -/

variable {entries : List Located}

theorem enters_closeExpr {inner : Noting Pass Expr} {plain : Pass Expr} (e : Expr)
    (h : Enters Progress.ordinal inner plain entries) :
    Enters Progress.ordinal (closeExpr symbols inner) ((mapper symbols).expr e plain) entries :=
  List.append_nil entries ▸ h.bind fun e' => enters_lift (takesNone_onExpr e')

theorem enters_closeStmt {inner : Noting Pass Stmt} {plain : Pass Stmt} (place : List Nat)
    (s : Stmt) (h : Enters Progress.ordinal inner plain entries) :
    Enters Progress.ordinal (closeStmt symbols ⟨place, s⟩ inner) ((mapper symbols).stmt s plain)
      (⟨place, s⟩ :: entries) := by
  have hnote : Enters Progress.ordinal (note ⟨place, s⟩ enter) enter [⟨place, s⟩] := by
    refine enters_note ?_ ?_ _ <;> exact fun _ => rfl
  have hclose : ∀ ordinal, Enters Progress.ordinal
      (inner >>= fun s' => liftM (Simplify.onStmt symbols ordinal s'))
      (plain >>= Simplify.onStmt symbols ordinal) (entries ++ []) :=
    fun ordinal => h.bind fun s' => enters_lift (takesNone_onStmt ordinal s')
  rw [List.append_nil] at hclose
  -- The number is taken before the parts are simplified, although it is used after them.
  exact hnote.bind hclose

theorem enters_closeBlock {inner : Noting Pass Block} {plain : Pass Block}
    (h : Enters Progress.ordinal inner plain entries) :
    Enters Progress.ordinal (closeBlock symbols inner) ((mapper symbols).block plain) entries :=
  List.append_nil entries ▸ h.bind fun block => enters_lift (takesNone_onBlock block)

mutual

theorem enters_onExpr (place : List Nat) :
    ∀ e, Enters Progress.ordinal (onExpr symbols place e) ((mapper symbols).onExpr e)
      (Located.ofExpr place e)
  | .nil | .boolean _ | .number _ | .string _ | .vararg | .name _ =>
    enters_closeExpr _ (enters_pure _)
  | .member t _ | .unary _ t | .paren t => enters_closeExpr _ ((enters_onExpr _ t).map _)
  | .index t k => enters_closeExpr _
    ((enters_onExpr _ t).bind fun _ => (enters_onExpr _ k).map _)
  | .call c args => enters_closeExpr _
    ((enters_onExpr _ c).bind fun _ => (enters_onExprs _ args).map _)
  | .methodCall o _ args => enters_closeExpr _
    ((enters_onExpr _ o).bind fun _ => (enters_onExprs _ args).map _)
  | .function ⟨_, _, b⟩ => enters_closeExpr _ ((enters_closeBlock (enters_onStmts _ b)).map _)
  | .table fields => enters_closeExpr _ ((enters_onFields _ fields).map _)
  | .binary _ l r => enters_closeExpr _
    ((enters_onExpr _ l).bind fun _ => (enters_onExpr _ r).map _)

theorem enters_onExprs (place : List Nat) :
    ∀ es, Enters Progress.ordinal (onExprs symbols place es) ((mapper symbols).onExprs es)
      (Located.ofExprs place es)
  | [] => enters_pure _
  | e :: rest => (enters_onExpr _ e).bind fun _ => (enters_onExprs _ rest).map _

theorem enters_onField (place : List Nat) :
    ∀ f, Enters Progress.ordinal (onField symbols place f) ((mapper symbols).onField f)
      (Located.ofField place f)
  | .positional e | .named _ e => (enters_onExpr _ e).map _
  | .keyed k e => (enters_onExpr _ k).bind fun _ => (enters_onExpr _ e).map _

theorem enters_onFields (place : List Nat) :
    ∀ fs, Enters Progress.ordinal (onFields symbols place fs) ((mapper symbols).onFields fs)
      (Located.ofFields place fs)
  | [] => enters_pure _
  | f :: rest => (enters_onField _ f).bind fun _ => (enters_onFields _ rest).map _

theorem enters_onStmt (place : List Nat) :
    ∀ s, Enters Progress.ordinal (closeStmt symbols ⟨place, s⟩ (belowStmt symbols place s))
      ((mapper symbols).onStmt s) (⟨place, s⟩ :: Located.belowStmt place s)
  | .localVars _ vs => enters_closeStmt _ _ ((enters_onExprs _ vs).map _)
  | .localFunction _ ⟨_, _, b⟩ =>
    enters_closeStmt _ _ ((enters_closeBlock (enters_onStmts _ b)).map _)
  | .functionDecl _ _ _ ⟨_, _, b⟩ =>
    enters_closeStmt _ _ ((enters_closeBlock (enters_onStmts _ b)).map _)
  | .assign ts vs => enters_closeStmt _ _
    ((enters_onExprs _ ts).bind fun _ => (enters_onExprs _ vs).map _)
  | .call e => enters_closeStmt _ _ ((enters_onExpr _ e).map _)
  | .block b => enters_closeStmt _ _ ((enters_closeBlock (enters_onStmts _ b)).map _)
  | .whileLoop c b => enters_closeStmt _ _
    ((enters_onExpr _ c).bind fun _ => (enters_closeBlock (enters_onStmts _ b)).map _)
  | .repeatLoop b c => enters_closeStmt _ _
    ((enters_closeBlock (enters_onStmts _ b)).bind fun _ => (enters_onExpr _ c).map _)
  | .ifThen c b o => enters_closeStmt _ _
    ((enters_onExpr _ c).bind fun _ => (enters_closeBlock (enters_onStmts _ b)).bind fun _ =>
      (enters_onElse _ o).map _)
  | .numericFor _ s l none b => enters_closeStmt _ _
    ((enters_onExpr _ s).bind fun _ => (enters_onExpr _ l).bind fun _ =>
      (enters_closeBlock (enters_onStmts _ b)).map _)
  | .numericFor _ s l (some t) b => enters_closeStmt _ _
    ((enters_onExpr _ s).bind fun _ => (enters_onExpr _ l).bind fun _ =>
      (enters_onExpr _ t).bind fun _ => (enters_closeBlock (enters_onStmts _ b)).map _)
  | .genericFor _ es b => enters_closeStmt _ _
    ((enters_onExprs _ es).bind fun _ => (enters_closeBlock (enters_onStmts _ b)).map _)
  | .ret vs => enters_closeStmt _ _ ((enters_onExprs _ vs).map _)
  | .exit | .goto _ | .label _ => enters_closeStmt _ _ (enters_pure _)

theorem enters_onElse (place : List Nat) :
    ∀ o, Enters Progress.ordinal (onElse symbols place o) ((mapper symbols).onElse o)
      (Located.ofElse place o)
  | .done => enters_pure _
  | .block b => (enters_closeBlock (enters_onStmts _ b)).map _
  | .elseIf c b o =>
    (enters_onExpr _ c).bind fun _ => (enters_closeBlock (enters_onStmts _ b)).bind fun _ =>
      (enters_onElse _ o).map _

theorem enters_onStmts (place : List Nat) :
    ∀ ss, Enters Progress.ordinal (onStmts symbols place ss) ((mapper symbols).onStmts ss)
      (Located.ofStmts place ss)
  | [] => enters_pure _
  | s :: rest => (enters_onStmt _ s).bind fun _ => (enters_onStmts _ rest).map _

end

theorem enters_onBlock (block : Block) :
    Enters Progress.ordinal (onBlock symbols block) ((mapper symbols).onBlock block)
      (Located.ofStmts [] block) :=
  enters_closeBlock (enters_onStmts [] block)

/-- The block that a pass leaves and the statements that are entered on the way, and the progress
    after the pass. -/
def passed (symbols : SymbolTable) (block : Block) : (Block × Notes) × Progress :=
  ((onBlock symbols block).run []).run {}

theorem passed_eq (symbols : SymbolTable) (block : Block) :
    passed symbols block =
      (((((mapper symbols).onBlock block).run {}).1, (Located.ofStmts [] block).zipIdx),
        (((mapper symbols).onBlock block).run {}).2) :=
  (enters_onBlock block).run_eq [] {}

/-- Every number that a pass takes is noted. -/
theorem ordinal_passed (symbols : SymbolTable) (block : Block) :
    (passed symbols block).2.ordinal = (passed symbols block).1.2.length := by
  rw [passed_eq, List.length_zipIdx]
  exact ((enters_onBlock block).next_eq {}).trans (Nat.zero_add _)

/-- A pass numbers the statements of a block as the walk for the uses of names does: the `k`-th
    statement that the walk enters takes the number `k`, and it is the one, at the same place, that
    takes this number in the pass. But for the notes, both are the plain ones. -/
theorem numbered_alike (symbols : SymbolTable) (block : Block) :
    (collected block).1 = (SymbolTable.ofBlock block).uses ∧
    ((passed symbols block).1.1, (passed symbols block).2) =
      ((mapper symbols).onBlock block).run {} ∧
    (∀ k ordinal entry, (collected block).2[k]? = some (entry, ordinal) ↔
      ordinal = k ∧ (entry, k) ∈ (passed symbols block).1.2) ∧
    ∀ noted ∈ (passed symbols block).1.2, noted.1.IsAt (.stmts block) := by
  rw [collected_eq, passed_eq]
  refine ⟨rfl, rfl, fun k ordinal entry => ?_, fun noted h => ?_⟩
  · rw [List.getElem?_zipIdx, List.mk_mem_zipIdx_iff_getElem?, Option.map_eq_some_iff]
    constructor
    · rintro ⟨_, h, heq⟩
      cases heq
      exact ⟨Nat.zero_add k, h⟩
    · rintro ⟨rfl, h⟩
      exact ⟨entry, h, by rw [Nat.zero_add]⟩
  · have hentry : noted.1 ∈ Located.ofStmts [] block := List.fst_mem_of_mem_zipIdx h
    exact Located.isAt_ofStmts [] block rfl noted.1 hentry

-- A statement that is dropped keeps its number.
example : (passed (SymbolTable.ofBlock [.localVars ["_L1"] [], .ret []])
      [.localVars ["_L1"] [], .ret []]).1 =
    ([.ret []], [(⟨[0], .localVars ["_L1"] []⟩, 0), (⟨[1, 0], .ret []⟩, 1)]) := rfl

end

end LuaUnpack.Handler.Simplify.Noting
