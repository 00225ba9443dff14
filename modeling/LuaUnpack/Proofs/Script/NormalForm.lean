import LuaUnpack.Proofs.Dispatch.Soundness
import LuaUnpack.Proofs.Script.Straightening

/-!
# What is left of a straightened script

In a straightened script nothing follows the end of a block, and no statement is a loop over a
state. Both are said of all blocks and statements of the script, those in the bodies of
functions included.

The walk establishes this from the inside to the outside. When a statement has been walked
through, all that lies below it is in this form (`IsNormalBelow`); the statement itself may still
be a loop over a state, until its block is unfolded. What replaces a statement is made of parts
that lie below it: a choice has beginnings of its blocks (`IsNormalBelow.straighten`), the code of
a state is a block of the dispatch or a single statement of it (`yields_unfold`).
-/

namespace LuaUnpack.Lua

/-! ## The blocks of a tree -/

/-- The blocks after the first block of an `if`. -/
def Else.blocks : Else → List Block
  | .done => []
  | .block b => [b]
  | .elseIf _ b o => b :: o.blocks

/-- The blocks that a statement is made of. -/
def Stmt.blocks : Stmt → List Block
  | .localFunction _ f | .functionDecl _ _ _ f => [f.body]
  | .block b | .whileLoop _ b | .repeatLoop b _ | .numericFor _ _ _ _ b | .genericFor _ _ b => [b]
  | .ifThen _ b o => b :: o.blocks
  | _ => []

/-- The blocks that a node is made of. -/
def Node.blocks : Node → List Block
  | .stmt s => s.blocks
  | .expr (.function f) => [f.body]
  | .expr _ => []

/-- A block and every block in it, at any depth. -/
def Block.blocks (block : Block) : List Block := block :: block.nodes.flatMap Node.blocks

/-- The nodes of a block after the first block of an `if` are nodes of what follows that block. -/
theorem Else.ofStmts_subset_ofElse {b : Block} : (o : Else) → b ∈ o.blocks →
    Node.ofStmts (fun _ => true) b ⊆ Node.ofElse (fun _ => true) o
  | .done, h => absurd h List.not_mem_nil
  | .block _, h => by
    obtain rfl := List.mem_singleton.1 h
    exact List.Subset.refl _
  | .elseIf c b' o, h => by
    rcases List.mem_cons.1 h with rfl | h
    · exact List.subset_append_of_subset_left _ (List.subset_append_right ..)
    · exact List.subset_append_of_subset_right _ (Else.ofStmts_subset_ofElse o h)

/-- The nodes of a block of a statement lie below the statement. -/
theorem Stmt.ofStmts_subset_tail {b : Block} {s : Stmt} (h : b ∈ s.blocks) :
    Node.ofStmts (fun _ => true) b ⊆ (Node.ofStmt (fun _ => true) s).tail := by
  -- Where a block stands among the parts of the statement.
  cases s with
  | ifThen c b' o => exact Else.ofStmts_subset_ofElse (.elseIf c b' o) h
  | localFunction n f | functionDecl r p m f =>
    obtain rfl := List.mem_singleton.1 h
    obtain ⟨_, _, _⟩ := f
    exact List.Subset.refl _
  | block b' =>
    obtain rfl := List.mem_singleton.1 h
    exact List.Subset.refl _
  | repeatLoop b' c =>
    obtain rfl := List.mem_singleton.1 h
    exact List.subset_append_left ..
  | numericFor n start limit step b' =>
    obtain rfl := List.mem_singleton.1 h
    cases step <;> exact List.subset_append_right ..
  | whileLoop | genericFor =>
    obtain rfl := List.mem_singleton.1 h
    exact List.subset_append_right ..
  | _ => exact absurd h List.not_mem_nil

end LuaUnpack.Lua

namespace LuaUnpack.Dispatch

namespace Cascade

open LuaUnpack.Lua

/-! ## The code of a state -/

mutual

/-- The code that a state is led to stands in the block that the cascade was read from. -/
theorem subset_of_ofBlock {name : String} (state : Int) : (body : List Stmt) →
    {cascade : Cascade} → ofBlock name body = .ok cascade →
    Node.ofStmts (fun _ => true) (cascade.follow state) ⊆ Node.ofStmts (fun _ => true) body
  | [], _, h => by
    cases h
    exact List.Subset.refl _
  | [stmt], _, h => List.subset_append_of_subset_left _ (subset_of_ofOnly state stmt h)
  | _ :: _ :: _, _, h => by
    cases h
    exact List.Subset.refl _

theorem subset_of_ofOnly {name : String} (state : Int) : (stmt : Stmt) →
    {cascade : Cascade} → ofOnly name stmt = .ok cascade →
    Node.ofStmts (fun _ => true) (cascade.follow state) ⊆ Node.ofStmt (fun _ => true) stmt
  | .ifThen condition body otherwise, _, h => by
    rw [ofOnly] at h
    -- An `if` on the state is a part of the dispatch, anything else is a leaf of it.
    split at h
    · exact List.subset_cons_of_subset _
        (subset_of_ofElse state (.elseIf condition body otherwise) h)
    · cases h
      exact List.append_subset.2 ⟨List.Subset.refl _, List.nil_subset _⟩
  | .localVars .., _, h | .localFunction .., _, h | .functionDecl .., _, h | .assign .., _, h
  | .call .., _, h | .block .., _, h | .whileLoop .., _, h | .repeatLoop .., _, h
  | .numericFor .., _, h | .genericFor .., _, h | .ret .., _, h | .exit, _, h | .goto .., _, h
  | .label .., _, h => by
    cases h
    exact List.append_subset.2 ⟨List.Subset.refl _, List.nil_subset _⟩

theorem subset_of_ofElse {name : String} (state : Int) : (otherwise : Else) →
    {cascade : Cascade} → ofElse name otherwise = .ok cascade →
    Node.ofStmts (fun _ => true) (cascade.follow state) ⊆ Node.ofElse (fun _ => true) otherwise
  | .done, _, h => by
    cases h
    exact List.Subset.refl _
  | .block body, _, h => subset_of_ofBlock state body h
  | .elseIf condition body otherwise, _, h => by
    obtain ⟨test, yes, no, -, hyes, hno, rfl⟩ := branch_eq_ok h
    rw [follow]
    split
    · exact List.subset_append_of_subset_left _
        (List.subset_append_of_subset_right _ (subset_of_ofBlock state body hyes))
    · exact List.subset_append_of_subset_right _ (subset_of_ofElse state otherwise hno)

end

end Cascade

open LuaUnpack.Lua in
/-- The bodies of a solved dispatch stand in it. -/
theorem subset_of_solve {name : String} {stmt : Stmt} {dict : Dict Int Block} {state : Int}
    {body : Block} (h : solve name stmt = .ok dict) (hmem : (state, body) ∈ dict) :
    Node.ofStmts (fun _ => true) body ⊆ Node.ofStmt (fun _ => true) stmt := by
  obtain ⟨cascade, hread, hleaves⟩ := solve_eq_ok h
  have hsolves := solves_of_solveLeaves cascade.pairwise_apart_leaves hleaves
  obtain ⟨leaf, hleaf, hstate, rfl⟩ := (hsolves.mem_iff state body).1 hmem
  rw [← Cascade.follow_of_mem_leaves hleaf (Leaf.passes_of_state? hstate)]
  cases stmt with
  | ifThen condition body otherwise =>
    exact List.subset_cons_of_subset _
      (Cascade.subset_of_ofElse state (.elseIf condition body otherwise) hread)
  | _ => cases hread

end LuaUnpack.Dispatch

namespace LuaUnpack.Script

open LuaUnpack.Lua

namespace Flow

/-! ## Normal form -/

/-- Whether nothing follows a statement that ends its block. -/
def EndsLast (b : Block) : Prop :=
  ∀ before s after, b = before ++ s :: after → endsBlock s = true → after = []

/-- A loop over a state: a `while` that compares a name with -1 and whose body is not empty, or a
    counting loop between two numbers whose body is an `if`. -/
inductive IsStateLoop : Stmt → Prop
  | whileLoop (op : BinaryOp) (state : String) {x : Float} (hx : (x == -1) = true) (s : Stmt)
      (rest : Block) : IsStateLoop (.whileLoop (.binary op (.name state) (.number x)) (s :: rest))
  | numericFor (var : String) (x y : Float) (step : Option Expr) (c : Expr) (b : Block) (o : Else) :
      IsStateLoop (.numericFor var (.number x) (.number y) step [.ifThen c b o])

theorem stateMachine?_eq_none_iff (s : Stmt) : stateMachine? s = none ↔ ¬IsStateLoop s := by
  constructor
  · intro hnone hloop
    cases hloop with
    | whileLoop op state hx s rest =>
      rw [stateMachine?, if_pos hx] at hnone
      cases hnone
    | numericFor => cases hnone
  · intro hloop
    unfold stateMachine?
    split
    · rw [if_neg fun hx => hloop (.whileLoop _ _ hx _ _)]
    · exact absurd (.numericFor ..) hloop
    · rfl

/-- Whether a node is no loop over a state, and nothing follows the ends of its blocks. -/
structure IsNormalNode (node : Node) : Prop where
  endsLast : ∀ b ∈ node.blocks, EndsLast b
  noLoop : ∀ s, node = .stmt s → stateMachine? s = none

/-- Whether nodes are in normal form. -/
def AllNormal (nodes : List Node) : Prop := ∀ node ∈ nodes, IsNormalNode node

/-- Whether a block is in normal form, with all that lies in it. -/
structure IsNormalBlock (b : Block) : Prop where
  endsLast : EndsLast b
  nodes : AllNormal (Node.ofStmts (fun _ => true) b)

/-- Whether what follows the first block of an `if` is in normal form. -/
structure IsNormalElse (o : Else) : Prop where
  endsLast : ∀ b ∈ o.blocks, EndsLast b
  nodes : AllNormal (Node.ofElse (fun _ => true) o)

/-- Whether all that lies below a statement is in normal form. -/
structure IsNormalBelow (s : Stmt) : Prop where
  endsLast : ∀ b ∈ s.blocks, EndsLast b
  nodes : AllNormal (Node.ofStmt (fun _ => true) s).tail

section

variable {s : Stmt} {b c : Block} {nodes nodes₁ nodes₂ : List Node}

theorem endsLast_nil : EndsLast [] := fun before _ _ h => by
  cases before <;> cases h

theorem EndsLast.of_isInfix (h : EndsLast b) (hc : c <:+: b) : EndsLast c := by
  obtain ⟨front, back, rfl⟩ := hc
  rintro before s after rfl hs
  have hback := h (front ++ before) s (after ++ back) (by simp) hs
  exact (List.append_eq_nil_iff.1 hback).1

theorem cutUnreachable_isPrefix : (b : Block) → cutUnreachable b <+: b
  | [] => List.prefix_rfl
  | s :: b => by
    rw [cutUnreachable]
    split
    · exact List.prefix_append [s] b
    · exact List.prefix_cons_inj s |>.2 (cutUnreachable_isPrefix b)

theorem beforeJump_isPrefix (b : Block) : beforeJump b <+: b := List.takeWhile_prefix _

theorem endsLast_cutUnreachable : (b : Block) → EndsLast (cutUnreachable b)
  | [] => endsLast_nil
  | s :: b => by
    rw [cutUnreachable]
    -- Either `s` itself is the statement in question, or it lies further on, where `s` was kept.
    rintro (_ | ⟨t, before⟩) u after hb hu
    · split at hb
      · cases hb
        rfl
      · rename_i hs
        cases hb
        exact absurd hu hs
    · split at hb
      · cases before <;> cases hb
      · obtain ⟨-, hb⟩ := List.cons.inj hb
        exact endsLast_cutUnreachable b before u after hb hu

theorem allNormal_nil : AllNormal [] := fun _ h => absurd h List.not_mem_nil

theorem allNormal_append :
    AllNormal (nodes₁ ++ nodes₂) ↔ AllNormal nodes₁ ∧ AllNormal nodes₂ := List.forall_mem_append

theorem AllNormal.of_subset (h : AllNormal nodes₁) (hsubset : nodes₂ ⊆ nodes₁) :
    AllNormal nodes₂ := fun node hnode => h node (hsubset hnode)

theorem AllNormal.underExpr {e : Expr} (h : AllNormal nodes)
    (hblocks : ∀ b ∈ (Node.expr e).blocks, EndsLast b) :
    AllNormal (Node.above (fun _ => true) (.expr e) nodes) :=
  List.forall_mem_cons.2 ⟨⟨hblocks, nofun⟩, h⟩

/-- A statement is in normal form just if it is no loop over a state and all below it is. -/
theorem allNormal_ofStmt_iff :
    AllNormal (Node.ofStmt (fun _ => true) s) ↔ stateMachine? s = none ∧ IsNormalBelow s := by
  rw [Node.ofStmt_eq_cons, AllNormal, List.forall_mem_cons]
  constructor
  · rintro ⟨⟨hends, hloop⟩, hbelow⟩
    exact ⟨hloop s rfl, hends, hbelow⟩
  · rintro ⟨hloop, hends, hbelow⟩
    refine ⟨⟨hends, ?_⟩, hbelow⟩
    rintro _ ⟨⟩
    exact hloop

theorem allNormal_ofStmts_iff : AllNormal (Node.ofStmts (fun _ => true) b) ↔
    ∀ s ∈ b, AllNormal (Node.ofStmt (fun _ => true) s) := by
  induction b with
  | nil => simp [AllNormal, Node.ofStmts]
  | cons s b ih => rw [Node.ofStmts, allNormal_append, ih, List.forall_mem_cons]

/-- A part of a block in normal form is in normal form. -/
theorem IsNormalBlock.of_isInfix (h : IsNormalBlock b) (hc : c <:+: b) : IsNormalBlock c where
  endsLast := h.endsLast.of_isInfix hc
  nodes := allNormal_ofStmts_iff.2 fun s hs => allNormal_ofStmts_iff.1 h.nodes s (hc.subset hs)

theorem IsNormalBlock.isNormalBelow (h : IsNormalBlock b) (hs : s ∈ b) : IsNormalBelow s :=
  (allNormal_ofStmt_iff.1 (allNormal_ofStmts_iff.1 h.nodes s hs)).2

/-- The blocks below a statement are in normal form if all that lies below it is. -/
theorem IsNormalBelow.isNormalBlock (h : IsNormalBelow s) (hb : b ∈ s.blocks) : IsNormalBlock b :=
  ⟨h.endsLast b hb, h.nodes.of_subset (Stmt.ofStmts_subset_tail hb)⟩

/-! ## Choices -/

theorem mem_blocks_of_choiceBlock? (h : choiceBlock? s = some b) : b ∈ s.blocks := by
  unfold choiceBlock? at h
  split at h
  · cases h
    exact List.mem_singleton_self _
  · split at h
    · cases h
      exact List.mem_singleton_self _
    · cases h
  · split at h
    · cases h
      exact List.mem_cons_self
    · cases h
  · cases h

/-- A choice is made of beginnings of the blocks that it is read from. -/
theorem IsNormalBlock.choice? (h : IsNormalBlock b) (hs : choice? b = some s) :
    IsNormalBelow s := by
  unfold Flow.choice? at hs
  split at hs
  · rename_i condition body otherwise rest
    cases hs
    have hif : IsNormalBelow (.ifThen condition body otherwise) :=
      h.isNormalBelow List.mem_cons_self
    have hcondition : AllNormal (Node.ofExpr (fun _ => true) condition) :=
      (allNormal_append.1 (allNormal_append.1 hif.nodes).1).1
    have hbody : IsNormalBlock (beforeJump body) :=
      (hif.isNormalBlock List.mem_cons_self).of_isInfix (beforeJump_isPrefix body).isInfix
    -- What follows the `if` is a part of the block, and so is its beginning.
    have hrest : IsNormalBlock (beforeJump rest) :=
      h.of_isInfix ((beforeJump_isPrefix rest).isInfix.trans (List.suffix_cons _ rest).isInfix)
    refine ⟨?_, allNormal_append.2 ⟨allNormal_append.2 ⟨hcondition, hbody.nodes⟩, hrest.nodes⟩⟩
    exact List.forall_mem_cons.2 ⟨hbody.endsLast, List.forall_mem_singleton.2 hrest.endsLast⟩
  · cases hs

theorem IsNormalBelow.straighten (h : IsNormalBelow s) : IsNormalBelow (straighten s) := by
  rw [Flow.straighten]
  rcases hchoice : (choiceBlock? s).bind Flow.choice? with _ | t
  · exact h
  · obtain ⟨b, hb, ht⟩ := Option.bind_eq_some_iff.1 hchoice
    exact (h.isNormalBlock (mem_blocks_of_choiceBlock? hb)).choice? ht

end

/-! ## Results of the walk -/

/-- Whether every result of an action has a property. -/
def Yields {α : Type} (act : Solving α) (P : α → Prop) : Prop :=
  ∀ k a k', act.run k = .ok (a, k') → P a

section

variable {α β : Type} {act : Solving α} {P : α → Prop} {Q : β → Prop}

theorem yields_pure {a : α} (h : P a) : Yields (pure a) P := by
  rintro k _ _ ⟨⟩
  exact h

theorem Yields.bind {next : α → Solving β} (h : Yields act P)
    (hnext : ∀ a, P a → Yields (next a) Q) : Yields (act >>= next) Q := by
  intro k b k' hrun
  rw [StateT.run_bind] at hrun
  obtain ⟨⟨a, k₁⟩, hact, hb⟩ := bind_eq_ok_iff.1 hrun
  exact hnext a (h k a k₁ hact) k₁ b k' hb

theorem Yields.map (h : Yields act P) (make : α → β) (hmake : ∀ a, P a → Q (make a)) :
    Yields (act >>= fun a => pure (make a)) Q :=
  h.bind fun a ha => yields_pure (hmake a ha)

theorem Yields.stmt {act : Solving Stmt} {s : Stmt} (h : Yields act IsNormalBelow) :
    Yields (mapper.stmt s act) IsNormalBelow :=
  h.map straighten fun _ hs => hs.straighten

/-- The first statement of a loop over a state is its dispatch. -/
theorem exists_of_stateMachine? {s tree : Stmt} {state : String}
    (h : stateMachine? s = some (state, tree)) : ∃ b ∈ s.blocks, tree ∈ b := by
  unfold stateMachine? at h
  split at h
  · split at h
    · cases h
      exact ⟨_, List.mem_singleton_self _, List.mem_cons_self⟩
    · cases h
  · cases h
    exact ⟨_, List.mem_singleton_self _, List.mem_cons_self⟩
  · cases h

/-- What a statement stands for is in normal form if all below the statement is. -/
theorem yields_unfold {s : Stmt} (h : IsNormalBelow s) :
    Yields (unfold s) fun b => ∀ t ∈ b, AllNormal (Node.ofStmt (fun _ => true) t) := by
  rcases hs : stateMachine? s with _ | ⟨state, tree⟩
  · rw [unfold_of_none hs]
    exact yields_pure (List.forall_mem_singleton.2 (allNormal_ofStmt_iff.2 ⟨hs, h⟩))
  · intro k code k' hrun
    rw [run_unfold hs] at hrun
    rcases hsolve : Dispatch.solve state tree with e | dict
    · rw [hsolve] at hrun
      cases hrun
    · rw [hsolve] at hrun
      cases hrun
      -- The dispatch lies below the loop, and the code of each state lies in the dispatch.
      obtain ⟨b, hb, htree⟩ := exists_of_stateMachine? hs
      have htree := allNormal_ofStmts_iff.1 (h.isNormalBlock hb).nodes tree htree
      intro t ht
      obtain ⟨⟨key, body⟩, hmem, ht⟩ := List.mem_flatMap.1 ht
      have hbody := htree.of_subset (Dispatch.subset_of_solve hsolve hmem)
      exact allNormal_ofStmts_iff.1 hbody t ht

theorem yields_unfoldAll : {b : Block} → (∀ s ∈ b, IsNormalBelow s) →
    Yields (unfoldAll b) fun b => ∀ t ∈ b, AllNormal (Node.ofStmt (fun _ => true) t)
  | [], _ => yields_pure nofun
  | s :: b, h => by
    obtain ⟨hs, hb⟩ := List.forall_mem_cons.1 h
    exact (yields_unfold hs).bind fun first hfirst =>
      (yields_unfoldAll hb).map (first ++ ·) fun _ hrest => List.forall_mem_append.2 ⟨hfirst, hrest⟩

theorem Yields.block {act : Solving Block} (h : Yields act fun b => ∀ s ∈ b, IsNormalBelow s) :
    Yields (mapper.block act) IsNormalBlock :=
  h.bind fun _ hb => (yields_unfoldAll hb).map cutUnreachable fun b hb =>
    ⟨endsLast_cutUnreachable b,
      allNormal_ofStmts_iff.2 fun s hs => hb s ((cutUnreachable_isPrefix b).subset hs)⟩

end

mutual

theorem yields_onExpr : (e : Expr) →
    Yields (mapper.onExpr e) fun e => AllNormal (Node.ofExpr (fun _ => true) e)
  | .nil | .boolean _ | .number _ | .string _ | .vararg | .name _ =>
    yields_pure (allNormal_nil.underExpr nofun)
  | .member t k => (yields_onExpr t).map (Expr.member · k) fun _ ht => ht.underExpr nofun
  | .index t k =>
    (yields_onExpr t).bind fun t ht => (yields_onExpr k).map (Expr.index t) fun _ hk =>
      (allNormal_append.2 ⟨ht, hk⟩).underExpr nofun
  | .call f args =>
    (yields_onExpr f).bind fun f hf => (yields_onExprs args).map (Expr.call f) fun _ hargs =>
      (allNormal_append.2 ⟨hf, hargs⟩).underExpr nofun
  | .methodCall o m args =>
    (yields_onExpr o).bind fun o ho => (yields_onExprs args).map (Expr.methodCall o m)
      fun _ hargs => (allNormal_append.2 ⟨ho, hargs⟩).underExpr nofun
  | .function ⟨ps, v, b⟩ =>
    (yields_onStmts b).block.map (fun b => Expr.function ⟨ps, v, b⟩) fun _ hb =>
      hb.nodes.underExpr (List.forall_mem_singleton.2 hb.endsLast)
  | .table fields => (yields_onFields fields).map Expr.table fun _ h => h.underExpr nofun
  | .binary op l r =>
    (yields_onExpr l).bind fun l hl => (yields_onExpr r).map (Expr.binary op l) fun _ hr =>
      (allNormal_append.2 ⟨hl, hr⟩).underExpr nofun
  | .unary op e => (yields_onExpr e).map (Expr.unary op) fun _ h => h.underExpr nofun
  | .paren e => (yields_onExpr e).map Expr.paren fun _ h => h.underExpr nofun

theorem yields_onExprs : (es : List Expr) →
    Yields (mapper.onExprs es) fun es => AllNormal (Node.ofExprs (fun _ => true) es)
  | [] => yields_pure allNormal_nil
  | e :: rest =>
    (yields_onExpr e).bind fun e he => (yields_onExprs rest).map (List.cons e) fun _ hrest =>
      allNormal_append.2 ⟨he, hrest⟩

theorem yields_onField : (f : Field) →
    Yields (mapper.onField f) fun f => AllNormal (Node.ofField (fun _ => true) f)
  | .positional e => (yields_onExpr e).map Field.positional fun _ h => h
  | .named n e => (yields_onExpr e).map (Field.named n) fun _ h => h
  | .keyed k e =>
    (yields_onExpr k).bind fun k hk => (yields_onExpr e).map (Field.keyed k) fun _ he =>
      allNormal_append.2 ⟨hk, he⟩

theorem yields_onFields : (fs : List Field) →
    Yields (mapper.onFields fs) fun fs => AllNormal (Node.ofFields (fun _ => true) fs)
  | [] => yields_pure allNormal_nil
  | f :: rest =>
    (yields_onField f).bind fun f hf => (yields_onFields rest).map (List.cons f) fun _ hrest =>
      allNormal_append.2 ⟨hf, hrest⟩

theorem yields_onStmt : (s : Stmt) → Yields (mapper.onStmt s) IsNormalBelow
  | .localVars ns vs =>
    ((yields_onExprs vs).map (Stmt.localVars ns) fun _ h => ⟨nofun, h⟩).stmt
  | .localFunction n ⟨ps, v, b⟩ =>
    ((yields_onStmts b).block.map (fun b => Stmt.localFunction n ⟨ps, v, b⟩) fun _ hb =>
      ⟨List.forall_mem_singleton.2 hb.endsLast, hb.nodes⟩).stmt
  | .functionDecl r p m ⟨ps, v, b⟩ =>
    ((yields_onStmts b).block.map (fun b => Stmt.functionDecl r p m ⟨ps, v, b⟩) fun _ hb =>
      ⟨List.forall_mem_singleton.2 hb.endsLast, hb.nodes⟩).stmt
  | .assign ts vs =>
    ((yields_onExprs ts).bind fun ts hts => (yields_onExprs vs).map (Stmt.assign ts) fun _ hvs =>
      ⟨nofun, allNormal_append.2 ⟨hts, hvs⟩⟩).stmt
  | .call e => ((yields_onExpr e).map Stmt.call fun _ h => ⟨nofun, h⟩).stmt
  | .block b =>
    ((yields_onStmts b).block.map Stmt.block fun _ hb =>
      ⟨List.forall_mem_singleton.2 hb.endsLast, hb.nodes⟩).stmt
  | .whileLoop c b =>
    ((yields_onExpr c).bind fun c hc => (yields_onStmts b).block.map (Stmt.whileLoop c) fun _ hb =>
      ⟨List.forall_mem_singleton.2 hb.endsLast, allNormal_append.2 ⟨hc, hb.nodes⟩⟩).stmt
  | .repeatLoop b c =>
    ((yields_onStmts b).block.bind fun b hb => (yields_onExpr c).map (Stmt.repeatLoop b) fun _ hc =>
      ⟨List.forall_mem_singleton.2 hb.endsLast, allNormal_append.2 ⟨hb.nodes, hc⟩⟩).stmt
  | .ifThen c b o =>
    ((yields_onExpr c).bind fun c hc => (yields_onStmts b).block.bind fun b hb =>
      (yields_onElse o).map (Stmt.ifThen c b) fun _ ho =>
        ⟨List.forall_mem_cons.2 ⟨hb.endsLast, ho.endsLast⟩,
          allNormal_append.2 ⟨allNormal_append.2 ⟨hc, hb.nodes⟩, ho.nodes⟩⟩).stmt
  | .numericFor n s l none b =>
    ((yields_onExpr s).bind fun s hs => (yields_onExpr l).bind fun l hl =>
      (yields_onStmts b).block.map (Stmt.numericFor n s l none) fun _ hb =>
        ⟨List.forall_mem_singleton.2 hb.endsLast,
          allNormal_append.2 ⟨allNormal_append.2 ⟨hs, hl⟩, hb.nodes⟩⟩).stmt
  | .numericFor n s l (some t) b =>
    ((yields_onExpr s).bind fun s hs => (yields_onExpr l).bind fun l hl =>
      (yields_onExpr t).bind fun t ht =>
        (yields_onStmts b).block.map (Stmt.numericFor n s l (some t)) fun _ hb =>
          ⟨List.forall_mem_singleton.2 hb.endsLast,
            allNormal_append.2
              ⟨allNormal_append.2 ⟨allNormal_append.2 ⟨hs, hl⟩, ht⟩, hb.nodes⟩⟩).stmt
  | .genericFor ns es b =>
    ((yields_onExprs es).bind fun es hes =>
      (yields_onStmts b).block.map (Stmt.genericFor ns es) fun _ hb =>
        ⟨List.forall_mem_singleton.2 hb.endsLast, allNormal_append.2 ⟨hes, hb.nodes⟩⟩).stmt
  | .ret vs => ((yields_onExprs vs).map Stmt.ret fun _ h => ⟨nofun, h⟩).stmt
  | .exit | .goto _ | .label _ => (yields_pure ⟨nofun, nofun⟩).stmt

theorem yields_onElse : (o : Else) → Yields (mapper.onElse o) IsNormalElse
  | .done => yields_pure ⟨nofun, nofun⟩
  | .block b =>
    (yields_onStmts b).block.map Else.block fun _ hb =>
      ⟨List.forall_mem_singleton.2 hb.endsLast, hb.nodes⟩
  | .elseIf c b o =>
    (yields_onExpr c).bind fun c hc => (yields_onStmts b).block.bind fun b hb =>
      (yields_onElse o).map (Else.elseIf c b) fun _ ho =>
        ⟨List.forall_mem_cons.2 ⟨hb.endsLast, ho.endsLast⟩,
          allNormal_append.2 ⟨allNormal_append.2 ⟨hc, hb.nodes⟩, ho.nodes⟩⟩

theorem yields_onStmts : (ss : List Stmt) →
    Yields (mapper.onStmts ss) fun ss => ∀ s ∈ ss, IsNormalBelow s
  | [] => yields_pure nofun
  | s :: rest =>
    (yields_onStmt s).bind fun s hs => (yields_onStmts rest).map (List.cons s) fun _ hrest =>
      List.forall_mem_cons.2 ⟨hs, hrest⟩

end

theorem yields_body (b : List Stmt) :
    Yields (mapper.block (mapper.onStmts b)) IsNormalBlock := (yields_onStmts b).block

end Flow

open LuaUnpack.Script.Flow in
/-- In a straightened script nothing follows the end of a block, and no statement is a loop over
    a state, at any depth and in the bodies of functions. -/
theorem straightenFlow_isNormal {block out : Block} {n : Nat}
    (h : straightenFlow block = .ok (out, n)) :
    (∀ b ∈ out.blocks, EndsLast b) ∧
      ∀ s ∈ out.statements, stateMachine? s = none ∧ ¬IsStateLoop s := by
  have hout : IsNormalBlock out := yields_body block 0 out n h
  constructor
  · intro b hb
    rcases List.mem_cons.1 hb with rfl | hb
    · exact hout.endsLast
    · obtain ⟨node, hnode, hb⟩ := List.mem_flatMap.1 hb
      exact (hout.nodes node hnode).endsLast b hb
  · intro s hs
    obtain ⟨node, hnode, hs⟩ := List.mem_filterMap.1 hs
    -- Each statement was rewritten after its parts, so it is no loop over a state.
    have hnone : stateMachine? s = none := by
      cases node with
      | stmt t =>
        cases hs
        exact (hout.nodes _ hnode).noLoop s rfl
      | expr e => cases hs
    exact ⟨hnone, (stateMachine?_eq_none_iff s).1 hnone⟩

/-- A function whose body is a loop over two states, with a block and a call after it. -/
def flattenedFunction : Block :=
  [.localFunction "f" ⟨[], false,
    [.numericFor "s" (.number 1) (.number 2) none
      [.ifThen (Dispatch.comparison .lt 2) (Dispatch.marker "a") (.block (Dispatch.marker "b"))],
      .block (Dispatch.marker "c"), .call (.call (.name "d") [])]⟩]

/-- The function with the code of the two states in its place, up to the block. -/
def straightenedFunction : Block :=
  [.localFunction "f" ⟨[], false,
    Dispatch.marker "a" ++ Dispatch.marker "b" ++ [.block (Dispatch.marker "c")]⟩]

theorem straightenFlow_flattenedFunction :
    straightenFlow flattenedFunction = .ok (straightenedFunction, 1) := rfl

open LuaUnpack.Script.Flow in
theorem straightenFlow_flattenedFunction_isNormal :
    straightenFlow flattenedFunction = .ok (straightenedFunction, 1) ∧
      (∀ b ∈ straightenedFunction.blocks, EndsLast b) ∧
      ∀ s ∈ straightenedFunction.statements, stateMachine? s = none ∧ ¬IsStateLoop s :=
  ⟨straightenFlow_flattenedFunction, straightenFlow_isNormal straightenFlow_flattenedFunction⟩

end LuaUnpack.Script
