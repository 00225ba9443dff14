import LuaUnpack.Lua.Node

/-!
# What a walk meets

A walk over a tree that does not look into some nodes leaves out all nodes below them. In
the list of all nodes these follow the node itself, so the walk can be told on the list:
at a node that it does not enter it skips as many nodes as there are below it (`visits`).
This keeps every node at its place, whether the walk meets it or not, and the nodes that it
meets are those that the walk over the tree collects (`metNodes_visits`).
-/

namespace LuaUnpack.Lua

/-- A node of a tree, and whether a walk meets it. -/
structure Visit where
  node : Node
  met : Bool

/-- The nodes that are met. -/
def metNodes (visits : List Visit) : List Node := (visits.filter Visit.met).map Visit.node

@[simp]
theorem metNodes_append (left right : List Visit) :
    metNodes (left ++ right) = metNodes left ++ metNodes right := by
  rw [metNodes, List.filter_append, List.map_append, metNodes, metNodes]

namespace Node

/-- The number of nodes below a node. -/
def below : Node → Nat
  | stmt s => (ofStmt (fun _ => true) s).length - 1
  | expr e => (ofExpr (fun _ => true) e).length - 1

section

variable (enters : Node → Bool)

/-- The visits of a walk along nodes, of which it still has to skip some. -/
def visits : Nat → List Node → List Visit
  | _, [] => []
  | 0, node :: rest => ⟨node, true⟩ :: visits (if enters node then 0 else node.below) rest
  | skip + 1, node :: rest => ⟨node, false⟩ :: visits skip rest

theorem map_node_visits (skip : Nat) (nodes : List Node) :
    (visits enters skip nodes).map Visit.node = nodes := by
  induction nodes generalizing skip with
  | nil => rfl
  | cons node nodes ih =>
    cases skip with
    | zero => exact congrArg (List.cons node) (ih _)
    | succ skip => exact congrArg (List.cons node) (ih skip)

theorem visits_length_append (part rest : List Node) :
    visits enters part.length (part ++ rest) =
      part.map (⟨·, false⟩) ++ visits enters 0 rest := by
  induction part with
  | nil => rfl
  | cons node part ih => exact congrArg (List.cons _) ih

theorem metNodes_skipped (part : List Node) : metNodes (part.map (⟨·, false⟩)) = [] := by
  rw [metNodes, List.filter_map, List.filter_eq_nil_iff.2 (by simp), List.map_nil, List.map_nil]

/-- Whether nodes are whole trees, of which the walk meets some. -/
structure Covers (all met : List Node) : Prop where
  visits_append : ∀ rest, visits enters 0 (all ++ rest) = visits enters 0 all ++ visits enters 0 rest
  metNodes_eq : metNodes (visits enters 0 all) = met

end

section

variable {enters : Node → Bool} {all met all₁ all₂ met₁ met₂ : List Node}

theorem covers_nil : Covers enters [] [] := ⟨fun _ => rfl, rfl⟩

theorem Covers.append (h₁ : Covers enters all₁ met₁) (h₂ : Covers enters all₂ met₂) :
    Covers enters (all₁ ++ all₂) (met₁ ++ met₂) where
  visits_append rest := by
    rw [List.append_assoc, h₁.visits_append, h₂.visits_append, h₁.visits_append,
      List.append_assoc]
  metNodes_eq := by
    rw [h₁.visits_append, metNodes_append, h₁.metNodes_eq, h₂.metNodes_eq]

/-- A node with whole trees below it is a whole tree, whether the walk enters it or not. -/
theorem Covers.under {node : Node} (h : Covers enters all met) (hbelow : node.below = all.length) :
    Covers enters (above (fun _ => true) node all) (above enters node met) := by
  have hvisits : ∀ rest, visits enters 0 (above (fun _ => true) node all ++ rest) =
      ⟨node, true⟩ :: (if enters node then visits enters 0 all else all.map (⟨·, false⟩)) ++
        visits enters 0 rest := by
    intro rest
    rw [Node.above, if_pos rfl, List.cons_append, visits, hbelow]
    split
    · rw [h.visits_append, List.cons_append]
    · rw [visits_length_append, List.cons_append]
  have hall := hvisits []
  rw [List.append_nil, visits, List.append_nil] at hall
  refine ⟨fun rest => by rw [hvisits, hall], ?_⟩
  rw [hall, Node.above]
  split
  · exact congrArg (List.cons node) h.metNodes_eq
  · exact congrArg (List.cons node) (metNodes_skipped all)

end

section

variable (enters : Node → Bool)

mutual

theorem covers_ofExpr : ∀ e, Covers enters (ofExpr (fun _ => true) e) (ofExpr enters e)
  | .nil => covers_nil.under rfl
  | .boolean _ => covers_nil.under rfl
  | .number _ => covers_nil.under rfl
  | .string _ => covers_nil.under rfl
  | .vararg => covers_nil.under rfl
  | .name _ => covers_nil.under rfl
  | .member t _ => (covers_ofExpr t).under rfl
  | .index t k => ((covers_ofExpr t).append (covers_ofExpr k)).under rfl
  | .call f args => ((covers_ofExpr f).append (covers_ofExprs args)).under rfl
  | .methodCall o _ args => ((covers_ofExpr o).append (covers_ofExprs args)).under rfl
  | .function ⟨_, _, b⟩ => (covers_ofStmts b).under rfl
  | .table fields => (covers_ofFields fields).under rfl
  | .binary _ l r => ((covers_ofExpr l).append (covers_ofExpr r)).under rfl
  | .unary _ e => (covers_ofExpr e).under rfl
  | .paren e => (covers_ofExpr e).under rfl

theorem covers_ofExprs : ∀ es, Covers enters (ofExprs (fun _ => true) es) (ofExprs enters es)
  | [] => covers_nil
  | e :: rest => (covers_ofExpr e).append (covers_ofExprs rest)

theorem covers_ofField : ∀ f, Covers enters (ofField (fun _ => true) f) (ofField enters f)
  | .positional e => covers_ofExpr e
  | .named _ e => covers_ofExpr e
  | .keyed k e => (covers_ofExpr k).append (covers_ofExpr e)

theorem covers_ofFields : ∀ fs, Covers enters (ofFields (fun _ => true) fs) (ofFields enters fs)
  | [] => covers_nil
  | f :: rest => (covers_ofField f).append (covers_ofFields rest)

theorem covers_ofStmt : ∀ s, Covers enters (ofStmt (fun _ => true) s) (ofStmt enters s)
  | .localVars _ vs => (covers_ofExprs vs).under rfl
  | .localFunction _ ⟨_, _, b⟩ => (covers_ofStmts b).under rfl
  | .functionDecl _ _ _ ⟨_, _, b⟩ => (covers_ofStmts b).under rfl
  | .assign ts vs => ((covers_ofExprs ts).append (covers_ofExprs vs)).under rfl
  | .call e => (covers_ofExpr e).under rfl
  | .block b => (covers_ofStmts b).under rfl
  | .whileLoop c b => ((covers_ofExpr c).append (covers_ofStmts b)).under rfl
  | .repeatLoop b c => ((covers_ofStmts b).append (covers_ofExpr c)).under rfl
  | .ifThen c b o =>
    (((covers_ofExpr c).append (covers_ofStmts b)).append (covers_ofElse o)).under rfl
  | .numericFor _ s l none b =>
    (((covers_ofExpr s).append (covers_ofExpr l)).append (covers_ofStmts b)).under rfl
  | .numericFor _ s l (some t) b =>
    ((((covers_ofExpr s).append (covers_ofExpr l)).append (covers_ofExpr t)).append
      (covers_ofStmts b)).under rfl
  | .genericFor _ es b => ((covers_ofExprs es).append (covers_ofStmts b)).under rfl
  | .ret vs => (covers_ofExprs vs).under rfl
  | .exit => covers_nil.under rfl
  | .goto _ => covers_nil.under rfl
  | .label _ => covers_nil.under rfl

theorem covers_ofElse : ∀ o, Covers enters (ofElse (fun _ => true) o) (ofElse enters o)
  | .done => covers_nil
  | .block b => covers_ofStmts b
  | .elseIf c b o => ((covers_ofExpr c).append (covers_ofStmts b)).append (covers_ofElse o)

theorem covers_ofStmts : ∀ ss, Covers enters (ofStmts (fun _ => true) ss) (ofStmts enters ss)
  | [] => covers_nil
  | s :: rest => (covers_ofStmt s).append (covers_ofStmts rest)

end

end

end Node

/-- The visits of a walk over a block. -/
def Block.visits (enters : Node → Bool) (block : Block) : List Visit :=
  Node.visits enters 0 block.nodes

theorem map_node_visits (enters : Node → Bool) (block : Block) :
    (block.visits enters).map Visit.node = block.nodes :=
  Node.map_node_visits enters 0 block.nodes

theorem metNodes_visits (enters : Node → Bool) (block : Block) :
    metNodes (block.visits enters) = block.nodesWhere enters :=
  (Node.covers_ofStmts enters block).metNodes_eq

end LuaUnpack.Lua
