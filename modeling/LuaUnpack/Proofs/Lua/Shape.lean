import LuaUnpack.Lua.Node
import LuaUnpack.Lua.Printer
import Mathlib.Data.List.Chain

/-!
# The shape of trees

What can be said of a tree node by node. A tree that was read has a certain shape
(`Node.IsShaped`): parentheses stand only around what has several values, a `return` is the
last statement of its block, a list that must not be empty is not. Whether a tree is read
back as it is depends on its blocks: a statement that can go on with a parenthesis must not
be followed by one that starts with it, since nothing stands between the two
(`Node.IsSeparated`).
-/

namespace LuaUnpack.Lua

/-! ## Parts of a node -/

namespace Node

/-- Whether all of some nodes have a property. -/
def All (P : Node → Prop) (nodes : List Node) : Prop := ∀ node ∈ nodes, P node

section

variable {P Q : Node → Prop} {node : Node} {below left right : List Node}

theorem all_nil : All P [] := fun _ h => absurd h List.not_mem_nil

theorem all_above_iff :
    All P (above (fun _ => true) node below) ↔ P node ∧ All P below :=
  List.forall_mem_cons

theorem all_append_iff : All P (left ++ right) ↔ All P left ∧ All P right :=
  List.forall_mem_append

theorem All.mono (h : All P below) (hPQ : ∀ node, P node → Q node) : All Q below :=
  fun node hnode => hPQ node (h node hnode)

end

/-- The name of a table entry. -/
def fieldName? : Field → Option String
  | .named name _ => some name
  | _ => none

/-- The names, numbers and strings of a node itself. -/
def words : Node → List TokenKind
  | .expr (.number x) => [.number x]
  | .expr (.string literal) => [.string literal]
  | .expr (.name n) | .expr (.member _ n) | .expr (.methodCall _ n _) => [.name n]
  | .expr (.function f) => f.params.map .name
  | .expr (.table fields) => (fields.filterMap fieldName?).map .name
  | .stmt (.localVars names _) | .stmt (.genericFor names _ _) => names.map .name
  | .stmt (.localFunction n f) => (n :: f.params).map .name
  | .stmt (.functionDecl root path method f) =>
    (root :: path ++ method.toList ++ f.params).map .name
  | .stmt (.numericFor n _ _ _ _) | .stmt (.goto n) | .stmt (.label n) => [.name n]
  | _ => []

end Node

/-! ## Expressions inside a tree -/

namespace Node

/-- Whether nodes hold, with an expression, all nodes of it. -/
def HoldsWhole (nodes : List Node) : Prop :=
  ∀ e, .expr e ∈ nodes → ofExpr (fun _ => true) e ⊆ nodes

section

variable {left right below : List Node}

theorem holdsWhole_nil : HoldsWhole [] := fun _ h => absurd h List.not_mem_nil

theorem HoldsWhole.append (hl : HoldsWhole left) (hr : HoldsWhole right) :
    HoldsWhole (left ++ right) := by
  intro e he
  rcases List.mem_append.1 he with he | he
  · exact List.subset_append_of_subset_left right (hl e he)
  · exact List.subset_append_of_subset_right left (hr e he)

theorem HoldsWhole.underStmt {s : Stmt} (h : HoldsWhole below) :
    HoldsWhole (above (fun _ => true) (.stmt s) below) := by
  intro e he
  rcases List.mem_cons.1 he with he | he
  · cases he
  · exact List.subset_cons_of_subset _ (h e he)

theorem HoldsWhole.underExpr {e : Expr} (h : HoldsWhole below)
    (hnodes : ofExpr (fun _ => true) e = .expr e :: below) :
    HoldsWhole (ofExpr (fun _ => true) e) := by
  intro e' he'
  rw [hnodes] at he'
  rcases List.mem_cons.1 he' with he' | he'
  · cases he'
    exact List.Subset.refl _
  · rw [hnodes]
    exact List.subset_cons_of_subset _ (h e' he')

end

mutual

theorem holdsWhole_ofExpr : (e : Expr) → HoldsWhole (ofExpr (fun _ => true) e)
  | .nil | .boolean _ | .number _ | .string _ | .vararg | .name _ => holdsWhole_nil.underExpr rfl
  | .member t _ | .unary _ t | .paren t => (holdsWhole_ofExpr t).underExpr rfl
  | .index t k | .binary _ t k => ((holdsWhole_ofExpr t).append (holdsWhole_ofExpr k)).underExpr rfl
  | .call t args | .methodCall t _ args =>
    ((holdsWhole_ofExpr t).append (holdsWhole_ofExprs args)).underExpr rfl
  | .function ⟨_, _, b⟩ => (holdsWhole_ofStmts b).underExpr rfl
  | .table fields => (holdsWhole_ofFields fields).underExpr rfl

theorem holdsWhole_ofExprs : (es : List Expr) → HoldsWhole (ofExprs (fun _ => true) es)
  | [] => holdsWhole_nil
  | e :: es => (holdsWhole_ofExpr e).append (holdsWhole_ofExprs es)

theorem holdsWhole_ofField : (f : Field) → HoldsWhole (ofField (fun _ => true) f)
  | .positional e | .named _ e => holdsWhole_ofExpr e
  | .keyed k e => (holdsWhole_ofExpr k).append (holdsWhole_ofExpr e)

theorem holdsWhole_ofFields : (fs : List Field) → HoldsWhole (ofFields (fun _ => true) fs)
  | [] => holdsWhole_nil
  | f :: fs => (holdsWhole_ofField f).append (holdsWhole_ofFields fs)

theorem holdsWhole_ofStmt : (s : Stmt) → HoldsWhole (ofStmt (fun _ => true) s)
  | .localVars _ es | .ret es => (holdsWhole_ofExprs es).underStmt
  | .localFunction _ ⟨_, _, b⟩ | .functionDecl _ _ _ ⟨_, _, b⟩ | .block b =>
    (holdsWhole_ofStmts b).underStmt
  | .assign ts vs => ((holdsWhole_ofExprs ts).append (holdsWhole_ofExprs vs)).underStmt
  | .call e => (holdsWhole_ofExpr e).underStmt
  | .whileLoop c b => ((holdsWhole_ofExpr c).append (holdsWhole_ofStmts b)).underStmt
  | .repeatLoop b c => ((holdsWhole_ofStmts b).append (holdsWhole_ofExpr c)).underStmt
  | .ifThen c b o =>
    (((holdsWhole_ofExpr c).append (holdsWhole_ofStmts b)).append (holdsWhole_ofElse o)).underStmt
  | .numericFor _ s l none b =>
    (((holdsWhole_ofExpr s).append (holdsWhole_ofExpr l)).append (holdsWhole_ofStmts b)).underStmt
  | .numericFor _ s l (some t) b =>
    ((((holdsWhole_ofExpr s).append (holdsWhole_ofExpr l)).append (holdsWhole_ofExpr t)).append
      (holdsWhole_ofStmts b)).underStmt
  | .genericFor _ es b => ((holdsWhole_ofExprs es).append (holdsWhole_ofStmts b)).underStmt
  | .exit | .goto _ | .label _ => holdsWhole_nil.underStmt

theorem holdsWhole_ofElse : (o : Else) → HoldsWhole (ofElse (fun _ => true) o)
  | .done => holdsWhole_nil
  | .block b => holdsWhole_ofStmts b
  | .elseIf c b o =>
    ((holdsWhole_ofExpr c).append (holdsWhole_ofStmts b)).append (holdsWhole_ofElse o)

theorem holdsWhole_ofStmts : (ss : List Stmt) → HoldsWhole (ofStmts (fun _ => true) ss)
  | [] => holdsWhole_nil
  | s :: ss => (holdsWhole_ofStmt s).append (holdsWhole_ofStmts ss)

end

end Node

theorem Block.mem_expressions_iff {block : Block} {e : Expr} :
    e ∈ block.expressions ↔ .expr e ∈ block.nodes := by
  rw [Block.expressions, List.mem_filterMap]
  constructor
  · rintro ⟨node, hnode, he⟩
    cases node with
    | stmt s => cases he
    | expr e' =>
      cases he
      exact hnode
  · intro h
    exact ⟨_, h, rfl⟩

/-! ## Blocks of a node -/

/-- The blocks after the first one of an `if`. -/
def Else.bodies : Else → List Block
  | .done => []
  | .block b => [b]
  | .elseIf _ b o => b :: o.bodies

/-- The blocks of a node itself. -/
def Node.bodies : Node → List Block
  | .expr (.function f) | .stmt (.localFunction _ f) | .stmt (.functionDecl _ _ _ f) => [f.body]
  | .stmt (.block b) | .stmt (.whileLoop _ b) | .stmt (.repeatLoop b _)
  | .stmt (.numericFor _ _ _ _ b) | .stmt (.genericFor _ _ b) => [b]
  | .stmt (.ifThen _ b o) => b :: o.bodies
  | _ => []

/-! ## The shape -/

/-- Whether a statement is a `return`. -/
def Stmt.isReturn : Stmt → Bool
  | .ret _ => true
  | _ => false

/-- Whether a `return` can only be the last statement of a block. -/
def Block.ReturnsLast (block : Block) : Prop := ∀ s ∈ block.dropLast, s.isReturn = false

/-- Whether the parts of a node are of the kinds that can be read there. -/
def Node.HasParts : Node → Prop
  | .expr (.member t _) | .expr (.index t _) | .expr (.call t _) | .expr (.methodCall t _ _) =>
    t ≠ .vararg
  | .expr (.paren e) => e.isMultiple = true
  | .stmt (.localVars names _) => names ≠ []
  | .stmt (.functionDecl _ _ (some _) f) => f.params.head? = some "self"
  | .stmt (.assign targets values) =>
    targets ≠ [] ∧ values ≠ [] ∧ ∀ t ∈ targets, t.isAssignable = true
  | .stmt (.call e) => e.isCall = true
  | .stmt (.genericFor names exprs _) => names ≠ [] ∧ exprs ≠ []
  | _ => True

/-- Whether a node has the shape of one that was read, from tokens of which the words have a
    property. -/
structure Node.IsShaped (W : TokenKind → Prop) (node : Node) : Prop where
  words : ∀ word ∈ node.words, W word
  parts : node.HasParts
  bodies : ∀ body ∈ node.bodies, body.ReturnsLast

/-! ## What can be read on -/

/-- Whether an expression ends with something after which a parenthesis is read as the
    arguments of a call. -/
def Expr.endsOpen : Expr → Bool
  | .unary op e => e.needsParensUnder op || e.endsOpen
  | .binary op _ r => r.needsParens op false || r.endsOpen
  | e => e.takesSuffix

/-- Whether an expression is written with a parenthesis first. -/
def Expr.startsParen : Expr → Bool
  | .member t _ | .index t _ | .call t _ | .methodCall t _ _ => !t.takesSuffix || t.startsParen
  | .paren _ => true
  | _ => false

/-- Whether a statement ends with something after which a parenthesis is read as the
    arguments of a call. -/
def Stmt.endsOpen : Stmt → Bool
  | .localVars _ values | .assign _ values => values.getLast?.any Expr.endsOpen
  | .call e | .repeatLoop _ e => e.endsOpen
  | _ => false

/-- Whether a statement is written with a parenthesis first. -/
def Stmt.startsParen : Stmt → Bool
  | .assign (t :: _) _ => t.startsParen
  | .call e => e.startsParen
  | _ => false

/-- Whether the second of two statements would be read as a part of the first. -/
def Stmt.Joins (s t : Stmt) : Prop := s.endsOpen = true ∧ t.startsParen = true

instance (s t : Stmt) : Decidable (s.Joins t) := inferInstanceAs (Decidable (_ ∧ _))

/-- Whether no statement of a block would be read as a part of the one before. -/
def Block.IsSeparated (block : Block) : Prop := block.IsChain fun s t => ¬ s.Joins t

instance (block : Block) : Decidable block.IsSeparated :=
  inferInstanceAs (Decidable (List.IsChain _ _))

/-- Whether the blocks of a node itself are separated. -/
def Node.IsSeparated (node : Node) : Prop := ∀ body ∈ node.bodies, body.IsSeparated

instance (node : Node) : Decidable node.IsSeparated :=
  inferInstanceAs (Decidable (∀ body ∈ node.bodies, body.IsSeparated))

/-- Whether all blocks of a script are separated, at any depth. -/
def Block.AllSeparated (block : Block) : Prop :=
  block.IsSeparated ∧ Node.All Node.IsSeparated block.nodes

instance (block : Block) : Decidable block.AllSeparated :=
  inferInstanceAs (Decidable (_ ∧ ∀ node ∈ block.nodes, node.IsSeparated))

end LuaUnpack.Lua
