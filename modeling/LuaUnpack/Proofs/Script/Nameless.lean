import LuaUnpack.Proofs.Lua.Follow
import LuaUnpack.Proofs.Lua.Shape
import LuaUnpack.Proofs.Lua.Walks
import LuaUnpack.Proofs.Script.Renaming

/-!
# What does not depend on names

A tree without names (`Rename.nameless`) still tells how the tree is printed and read back: which
operands stand in parentheses, which statements can be read as parts of others, and which shape
its nodes have. So two trees that are the same without names agree in all of this
(`Node.IsShaped.of_bare`, `Node.isSeparated_iff_of_bare`). The one exception are the parameters of
a method, since the first one has to be called `self`.
-/

namespace LuaUnpack.Script

open LuaUnpack.Lua

namespace Rename

/-! ## Expressions -/

@[simp]
theorem takesSuffix_nameless (e : Expr) : (nameless.onExpr e).takesSuffix = e.takesSuffix := by
  cases e with
  | function f => cases f; rfl
  | _ => rfl

@[simp]
theorem isMultiple_nameless (e : Expr) : (nameless.onExpr e).isMultiple = e.isMultiple := by
  cases e with
  | function f => cases f; rfl
  | _ => rfl

@[simp]
theorem isCall_nameless (e : Expr) : (nameless.onExpr e).isCall = e.isCall := by
  cases e with
  | function f => cases f; rfl
  | _ => rfl

@[simp]
theorem isAssignable_nameless (e : Expr) : (nameless.onExpr e).isAssignable = e.isAssignable := by
  cases e with
  | function f => cases f; rfl
  | _ => rfl

@[simp]
theorem nameless_eq_vararg_iff {e : Expr} : nameless.onExpr e = .vararg ↔ e = .vararg := by
  cases e with
  | vararg => exact ⟨fun _ => rfl, fun _ => rfl⟩
  | function f => cases f; exact ⟨nofun, nofun⟩
  | _ => exact ⟨nofun, nofun⟩

@[simp]
theorem needsParens_nameless (op : BinaryOp) (isLeft : Bool) (e : Expr) :
    (nameless.onExpr e).needsParens op isLeft = e.needsParens op isLeft := by
  cases e with
  | function f => cases f; rfl
  | _ => rfl

@[simp]
theorem needsParensUnder_nameless (op : UnaryOp) (e : Expr) :
    (nameless.onExpr e).needsParensUnder op = e.needsParensUnder op := by
  cases e with
  | function f => cases f; rfl
  | unary op' e => cases op' <;> rfl
  | _ => rfl

@[simp]
theorem endsOpen_nameless : (e : Expr) → (nameless.onExpr e).endsOpen = e.endsOpen
  | .unary op e => congrArg₂ or (needsParensUnder_nameless op e) (endsOpen_nameless e)
  | .binary op _ r => congrArg₂ or (needsParens_nameless op false r) (endsOpen_nameless r)
  | .function ⟨_, _, _⟩ => rfl
  | .nil | .boolean _ | .number _ | .string _ | .vararg | .name _ | .member _ _ | .index _ _
  | .call _ _ | .methodCall _ _ _ | .table _ | .paren _ => rfl

@[simp]
theorem startsParen_nameless : (e : Expr) → (nameless.onExpr e).startsParen = e.startsParen
  | .member t _ | .index t _ | .call t _ | .methodCall t _ _ =>
    congrArg₂ or (congrArg not (takesSuffix_nameless t)) (startsParen_nameless t)
  | .function ⟨_, _, _⟩ => rfl
  | .nil | .boolean _ | .number _ | .string _ | .vararg | .name _ | .table _ | .binary _ _ _
  | .unary _ _ | .paren _ => rfl

@[simp]
theorem nameless_onExprs (es : List Expr) : nameless.onExprs es = es.map nameless.onExpr := by
  induction es with
  | nil => rfl
  | cons e es ih => exact congrArg (List.cons _) ih

theorem onExprs_eq_nil_iff {es : List Expr} : nameless.onExprs es = [] ↔ es = [] := by
  rw [nameless_onExprs]
  exact List.map_eq_nil_iff

theorem isAssignable_onExprs (es : List Expr) :
    (∀ e ∈ es.map nameless.onExpr, Expr.isAssignable e = true) ↔
      ∀ e ∈ es, e.isAssignable = true := by
  rw [List.forall_mem_map]
  simp only [isAssignable_nameless]

/-! ## Statements and blocks -/

theorem getLast?_any_nameless (es : List Expr) :
    (nameless.onExprs es).getLast?.any Expr.endsOpen = es.getLast?.any Expr.endsOpen := by
  rw [nameless_onExprs, List.getLast?_map]
  cases es.getLast? with
  | none => rfl
  | some e => exact endsOpen_nameless e

@[simp]
theorem stmt_endsOpen_nameless (s : Stmt) : (nameless.onStmt s).endsOpen = s.endsOpen := by
  rcases s with ⟨_, es⟩ | ⟨_, _, _, _⟩ | ⟨_, _, _, _, _, _⟩ | ⟨_, es⟩ | e | _ | _ | ⟨_, e⟩ | _ |
    ⟨_, _, _, step, _⟩ | _ | _ | _ | _ | _
  case localVars => exact getLast?_any_nameless es
  case assign => exact getLast?_any_nameless es
  case call => exact endsOpen_nameless e
  case repeatLoop => exact endsOpen_nameless e
  case numericFor => cases step <;> rfl
  all_goals rfl

@[simp]
theorem stmt_startsParen_nameless (s : Stmt) : (nameless.onStmt s).startsParen = s.startsParen := by
  rcases s with _ | ⟨_, _, _, _⟩ | ⟨_, _, _, _, _, _⟩ | ⟨ts, _⟩ | e | _ | _ | _ | _ |
    ⟨_, _, _, step, _⟩ | _ | _ | _ | _ | _
  case assign =>
    cases ts with
    | nil => rfl
    | cons t ts => exact startsParen_nameless t
  case call => exact startsParen_nameless e
  case numericFor => cases step <;> rfl
  all_goals rfl

@[simp]
theorem isReturn_nameless (s : Stmt) : (nameless.onStmt s).isReturn = s.isReturn := by
  rcases s with _ | ⟨_, _, _, _⟩ | ⟨_, _, _, _, _, _⟩ | _ | _ | _ | _ | _ | _ |
    ⟨_, _, _, step, _⟩ | _ | _ | _ | _ | _
  case numericFor => cases step <;> rfl
  all_goals rfl

@[simp]
theorem nameless_onStmts (b : List Stmt) : nameless.onStmts b = b.map nameless.onStmt := by
  induction b with
  | nil => rfl
  | cons s b ih => exact congrArg (List.cons _) ih

theorem isSeparated_nameless (b : Block) :
    Block.IsSeparated (nameless.onStmts b) ↔ b.IsSeparated := by
  rw [Block.IsSeparated, nameless_onStmts, List.isChain_map]
  simp only [Stmt.Joins, stmt_endsOpen_nameless, stmt_startsParen_nameless]
  rfl

theorem returnsLast_nameless (b : Block) :
    Block.ReturnsLast (nameless.onStmts b) ↔ b.ReturnsLast := by
  rw [Block.ReturnsLast, nameless_onStmts, ← List.map_dropLast, List.forall_mem_map]
  simp only [isReturn_nameless]
  rfl

theorem bodies_nameless (o : Else) :
    (nameless.onElse o).bodies = o.bodies.map nameless.onStmts := by
  cases o with
  | done => rfl
  | block b => rfl
  | elseIf c b o => exact congrArg (List.cons _) (bodies_nameless o)

/-! ## Nodes -/

/-- A node without names. -/
def bare : Node → Node
  | .expr e => .expr (nameless.onExpr e)
  | .stmt s => .stmt (nameless.onStmt s)

end Rename

namespace Node

open Rename LuaUnpack.Lua.Node

/-- Whether a node declares a method. -/
def isMethod : Node → Bool
  | .stmt (.functionDecl _ _ (some _) _) => true
  | _ => false

variable {node node' : Node}

theorem isMethod_bare (node : Node) : isMethod (bare node) = isMethod node := by
  rcases node with (_ | ⟨_, _, _, _⟩ | ⟨_, _, _ | _, _, _, _⟩ | _ | _ | _ | _ | _ | _ |
    ⟨_, _, _, step, _⟩ | _ | _ | _ | _ | _) | e
  case stmt.numericFor => cases step <;> rfl
  all_goals rfl

theorem bodies_bare (node : Node) : (bare node).bodies = node.bodies.map nameless.onStmts := by
  rcases node with (_ | ⟨_, _, _, _⟩ | ⟨_, _, _, _, _, _⟩ | _ | _ | _ | _ | _ | ⟨_, _, o⟩ |
    ⟨_, _, _, step, _⟩ | _ | _ | _ | _ | _) | e
  case stmt.ifThen => exact congrArg (List.cons _) (bodies_nameless o)
  case stmt.numericFor => cases step <;> rfl
  case expr =>
    cases e with
    | function f => cases f; rfl
    | _ => rfl
  all_goals rfl

theorem hasParts_bare (h : isMethod node = false) : (bare node).HasParts ↔ node.HasParts := by
  rcases node with (⟨names, _⟩ | ⟨_, _, _, _⟩ | ⟨_, _, method, _, _, _⟩ | ⟨ts, vs⟩ | e | _ | _ | _ |
    _ | ⟨_, _, _, step, _⟩ | ⟨names, es, _⟩ | _ | _ | _ | _) | e
  -- Taking out names keeps how many there are and what kind of node each part is.
  case stmt.localVars => exact not_congr List.map_eq_nil_iff
  case stmt.functionDecl =>
    cases method with
    | none => exact Iff.rfl
    | some m => cases h
  case stmt.assign =>
    refine and_congr (not_congr onExprs_eq_nil_iff) (and_congr (not_congr onExprs_eq_nil_iff) ?_)
    have htargets := isAssignable_onExprs ts
    rw [← nameless_onExprs] at htargets
    exact htargets
  case stmt.call => exact Bool.eq_iff_iff.1 (isCall_nameless e)
  case stmt.numericFor => cases step <;> exact Iff.rfl
  case stmt.genericFor =>
    exact and_congr (not_congr List.map_eq_nil_iff) (not_congr onExprs_eq_nil_iff)
  case expr =>
    cases e with
    | function f => cases f; exact Iff.rfl
    | member t _ => exact not_congr nameless_eq_vararg_iff
    | index t _ => exact not_congr nameless_eq_vararg_iff
    | call t _ => exact not_congr nameless_eq_vararg_iff
    | methodCall t _ _ => exact not_congr nameless_eq_vararg_iff
    | paren e => exact Bool.eq_iff_iff.1 (isMultiple_nameless e)
    | _ => exact Iff.rfl
  all_goals exact Iff.rfl

/-- The words of a node that can be declared: those that `bare` takes out. -/
def names : Node → List String
  | .expr (.name n) => [n]
  | .expr (.function f) => f.params
  | .stmt (.localVars names _) | .stmt (.genericFor names _ _) => names
  | .stmt (.localFunction n f) | .stmt (.functionDecl n _ _ f) => n :: f.params
  | .stmt (.numericFor n _ _ _ _) => [n]
  | _ => []

/-- The words of a node that cannot be declared. -/
def fixedWords : Node → List TokenKind
  | .expr (.number x) => [.number x]
  | .expr (.string literal) => [.string literal]
  | .expr (.member _ n) | .expr (.methodCall _ n _) => [.name n]
  | .expr (.table fields) => (fields.filterMap fieldName?).map .name
  | .stmt (.functionDecl _ path method _) => (path ++ method.toList).map .name
  | .stmt (.goto n) | .stmt (.label n) => [.name n]
  | _ => []

theorem mem_words_iff {word : TokenKind} :
    word ∈ node.words ↔ word ∈ fixedWords node ∨ word ∈ (names node).map .name := by
  rcases node with s | e
  · cases s with
    | functionDecl root path method f =>
      rw [words, fixedWords, names, ← List.mem_append, ← List.map_append]
      simp only [List.mem_map, List.mem_append, List.mem_cons]
      grind
    | _ => simp [words, fixedWords, names]
  · cases e <;> simp [words, fixedWords, names]

theorem fieldNames_nameless (fields : List Field) :
    (nameless.onFields fields : List Field).filterMap fieldName? =
      fields.filterMap fieldName? := by
  induction fields with
  | nil => rfl
  | cons f fields ih =>
    cases f with
    | named n e => exact congrArg (List.cons n) ih
    | _ => exact ih

theorem fixedWords_bare (node : Node) : fixedWords (bare node) = fixedWords node := by
  rcases node with (_ | ⟨_, _, _, _⟩ | ⟨_, _, _, _, _, _⟩ | _ | _ | _ | _ | _ | _ |
    ⟨_, _, _, step, _⟩ | _ | _ | _ | _ | _) | e
  case stmt.numericFor => cases step <;> rfl
  case expr =>
    cases e with
    | function f => cases f; rfl
    | table fields => exact congrArg (List.map TokenKind.name) (fieldNames_nameless fields)
    | _ => rfl
  all_goals rfl

/-- A node other than a method keeps its shape with other names. -/
theorem IsShaped.of_bare {W : TokenKind → Prop} (h : node.IsShaped W)
    (hmethod : isMethod node = false) (heq : bare node' = bare node)
    (hnames : ∀ n ∈ names node', W (.name n)) : node'.IsShaped W where
  words word hword := by
    -- A word is one that `bare` keeps, or a name that can be declared.
    obtain hfixed | hname := mem_words_iff.1 hword
    · rw [← fixedWords_bare, heq, fixedWords_bare] at hfixed
      exact h.words word (mem_words_iff.2 (.inl hfixed))
    · obtain ⟨n, hn, rfl⟩ := List.mem_map.1 hname
      exact hnames n hn
  parts := by
    have hmethod' : isMethod node' = false := by rw [← isMethod_bare, heq, isMethod_bare, hmethod]
    rw [← hasParts_bare hmethod', heq, hasParts_bare hmethod]
    exact h.parts
  bodies := by
    have hbodies := congrArg Node.bodies heq
    rw [bodies_bare, bodies_bare] at hbodies
    intro body hbody
    obtain ⟨old, hold, heq'⟩ := List.mem_map.1 (hbodies ▸ List.mem_map_of_mem hbody)
    rw [← returnsLast_nameless, ← heq', returnsLast_nameless]
    exact h.bodies old hold

theorem isSeparated_iff_of_bare (heq : bare node' = bare node) :
    node'.IsSeparated ↔ node.IsSeparated := by
  have hbare : ∀ node : Node, (bare node).IsSeparated ↔ node.IsSeparated := by
    intro node
    rw [Node.IsSeparated, bodies_bare, List.forall_mem_map]
    simp only [isSeparated_nameless]
    rfl
  rw [← hbare, heq, hbare]

/-- The names that are taken out at an expression are not below it. -/
theorem tail_ofExpr_nameless (e e' : Expr) :
    (ofExpr (fun _ => true) (nameless.expr e e')).tail = (ofExpr (fun _ => true) e').tail := by
  cases e' with
  | function f =>
    obtain ⟨_, _, _⟩ := f
    rfl
  | _ => rfl

theorem tail_ofStmt_nameless (s s' : Stmt) :
    (ofStmt (fun _ => true) (nameless.stmt s s')).tail = (ofStmt (fun _ => true) s').tail := by
  cases s' with
  | localFunction n f | functionDecl r p m f =>
    obtain ⟨_, _, _⟩ := f
    rfl
  | numericFor n start limit step b => cases step <;> rfl
  | _ => rfl

theorem carries_bare :
    Mapper.Carries (fun _ : Unit => nameless) nameless
      (fun _ _ _ old new => new = old.map bare) where
  pure _ := rfl
  bind {_ _ _ _ a _ _ _ _ _} _ _ hleft hright := by rw [hleft, hright a, List.map_append]
  expr {_ e e'} heq h := by
    rw [ofExpr_eq_cons (nameless.expr e e'), tail_ofExpr_nameless, h, ofExpr_eq_cons e, ← heq]
    rfl
  stmt {_ s s'} heq h := by
    rw [ofStmt_eq_cons (nameless.stmt s s'), tail_ofStmt_nameless, h, ofStmt_eq_cons s, ← heq]
    rfl
  block h := h

/-- The nodes of statements without names are those of the statements, each without names. -/
theorem ofStmts_nameless (ss : List Stmt) :
    ofStmts (fun _ => true) (nameless.onStmts ss) = (ofStmts (fun _ => true) ss).map bare :=
  carries_bare.onStmts ss

end Node

end LuaUnpack.Script
