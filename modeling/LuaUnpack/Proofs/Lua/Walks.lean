import LuaUnpack.Lua.Mapper
import LuaUnpack.Lua.Node

/-!
# Walks with a mapper

A walk visits a tree part by part. What it does can be compared with what a mapper without
effects makes of the same part: a relation that holds of a part without nodes, that is kept
when one part comes after another, and that each hook of the mapper keeps, holds of every
tree (`Mapper.Carries.onStmts`).
-/

namespace LuaUnpack.Lua

namespace Node

theorem ofExpr_eq_cons (e : Expr) :
    ofExpr (fun _ => true) e = .expr e :: (ofExpr (fun _ => true) e).tail := by
  cases e with
  | function f =>
    obtain ⟨_, _, _⟩ := f
    rfl
  | _ => rfl

theorem ofStmt_eq_cons (s : Stmt) :
    ofStmt (fun _ => true) s = .stmt s :: (ofStmt (fun _ => true) s).tail := by
  cases s with
  | localFunction n f | functionDecl r p m f =>
    obtain ⟨_, _, _⟩ := f
    rfl
  | numericFor n start limit step b => cases step <;> rfl
  | _ => rfl

end Node

namespace Mapper

/-- Whether a walk carries a relation along. The relation is between the actions of a family
    of mappers on a part of a tree, the part, what `g` makes of it, and the nodes of both. -/
structure Carries {ι : Type} {m : Type → Type} [Monad m] (f : ι → Mapper m) (g : Mapper Id)
    (P : ∀ {α : Type}, (ι → m α) → α → α → List Node → List Node → Prop) : Prop where
  pure : ∀ {α : Type} (a : α), P (fun _ => pure a) a a [] []
  bind : ∀ {α β : Type} {act : ι → m α} {next : ι → α → m β} {a a' : α}
    {old₁ old₂ new₁ new₂ : List Node} (make make' : α → β), P act a a' old₁ new₁ →
    (∀ x, P (next · x) (make x) (make' x) old₂ new₂) →
      P (fun i => act i >>= next i) (make a) (make' a') (old₁ ++ old₂) (new₁ ++ new₂)
  expr : ∀ {act : ι → m Expr} {e e' : Expr}, g.onExpr e = g.expr e e' →
    P act e e' (Node.ofExpr (fun _ => true) e).tail (Node.ofExpr (fun _ => true) e').tail →
      P (fun i => (f i).expr e (act i)) e (g.expr e e') (Node.ofExpr (fun _ => true) e)
        (Node.ofExpr (fun _ => true) (g.expr e e'))
  stmt : ∀ {act : ι → m Stmt} {s s' : Stmt}, g.onStmt s = g.stmt s s' →
    P act s s' (Node.ofStmt (fun _ => true) s).tail (Node.ofStmt (fun _ => true) s').tail →
      P (fun i => (f i).stmt s (act i)) s (g.stmt s s') (Node.ofStmt (fun _ => true) s)
        (Node.ofStmt (fun _ => true) (g.stmt s s'))
  block : ∀ {act : ι → m Block} {b b' : Block},
    P act b b' (Node.ofStmts (fun _ => true) b) (Node.ofStmts (fun _ => true) b') →
      P (fun i => (f i).block (act i)) b (g.block b') (Node.ofStmts (fun _ => true) b)
        (Node.ofStmts (fun _ => true) (g.block b'))

namespace Carries

variable {ι : Type} {m : Type → Type} [Monad m] {f : ι → Mapper m} {g : Mapper Id}
  {P : ∀ {α : Type}, (ι → m α) → α → α → List Node → List Node → Prop}

section

variable {α β γ δ ε : Type} {act₁ : ι → m α} {act₂ : ι → m β} {act₃ : ι → m γ} {act₄ : ι → m δ}
  {a a' : α} {b b' : β} {c c' : γ} {d d' : δ} {old₁ old₂ old₃ old₄ new₁ new₂ new₃ new₄ : List Node}

theorem map (h : Carries f g P) (make : α → ε) (h₁ : P act₁ a a' old₁ new₁) :
    P (fun i => act₁ i >>= fun x => Pure.pure (make x)) (make a) (make a') old₁ new₁ := by
  have hbind := h.bind make make h₁ fun x => h.pure (make x)
  rwa [List.append_nil, List.append_nil] at hbind

theorem map₂ (h : Carries f g P) (make : α → β → ε) (h₁ : P act₁ a a' old₁ new₁)
    (h₂ : P act₂ b b' old₂ new₂) :
    P (fun i => act₁ i >>= fun x => act₂ i >>= fun y => Pure.pure (make x y)) (make a b)
      (make a' b') (old₁ ++ old₂) (new₁ ++ new₂) :=
  h.bind (make · b) (make · b') h₁ fun x => h.map (make x) h₂

theorem map₃ (h : Carries f g P) (make : α → β → γ → ε) (h₁ : P act₁ a a' old₁ new₁)
    (h₂ : P act₂ b b' old₂ new₂) (h₃ : P act₃ c c' old₃ new₃) :
    P (fun i => act₁ i >>= fun x => act₂ i >>= fun y => act₃ i >>= fun z =>
      Pure.pure (make x y z)) (make a b c) (make a' b' c') (old₁ ++ old₂ ++ old₃)
      (new₁ ++ new₂ ++ new₃) := by
  rw [List.append_assoc, List.append_assoc]
  exact h.bind (make · b c) (make · b' c') h₁ fun x => h.map₂ (make x) h₂ h₃

theorem map₄ (h : Carries f g P) (make : α → β → γ → δ → ε) (h₁ : P act₁ a a' old₁ new₁)
    (h₂ : P act₂ b b' old₂ new₂) (h₃ : P act₃ c c' old₃ new₃) (h₄ : P act₄ d d' old₄ new₄) :
    P (fun i => act₁ i >>= fun x => act₂ i >>= fun y => act₃ i >>= fun z => act₄ i >>= fun u =>
      Pure.pure (make x y z u)) (make a b c d) (make a' b' c' d') (old₁ ++ old₂ ++ old₃ ++ old₄)
      (new₁ ++ new₂ ++ new₃ ++ new₄) := by
  rw [List.append_assoc, List.append_assoc, List.append_assoc, List.append_assoc,
    ← List.append_assoc old₂, ← List.append_assoc new₂]
  exact h.bind (make · b c d) (make · b' c' d') h₁ fun x => h.map₃ (make x) h₂ h₃ h₄

end

mutual

theorem onExpr (h : Carries f g P) : (e : Expr) → P (fun i => (f i).onExpr e) e (g.onExpr e)
    (Node.ofExpr (fun _ => true) e) (Node.ofExpr (fun _ => true) (g.onExpr e))
  -- By induction on the expression: its parts in their order, then the hook at itself.
  | .nil => h.expr rfl (h.pure _)
  | .boolean _ => h.expr rfl (h.pure _)
  | .number _ => h.expr rfl (h.pure _)
  | .string _ => h.expr rfl (h.pure _)
  | .vararg => h.expr rfl (h.pure _)
  | .name _ => h.expr rfl (h.pure _)
  | .member t k => h.expr rfl (h.map (Expr.member · k) (h.onExpr t))
  | .index t k => h.expr rfl (h.map₂ Expr.index (h.onExpr t) (h.onExpr k))
  | .call c args => h.expr rfl (h.map₂ Expr.call (h.onExpr c) (h.onExprs args))
  | .methodCall o n args =>
    h.expr rfl (h.map₂ (Expr.methodCall · n ·) (h.onExpr o) (h.onExprs args))
  | .function ⟨ps, v, b⟩ =>
    h.expr rfl (h.map (fun b => Expr.function ⟨ps, v, b⟩) (h.block (h.onStmts b)))
  | .table fields => h.expr rfl (h.map Expr.table (h.onFields fields))
  | .binary op l r => h.expr rfl (h.map₂ (Expr.binary op) (h.onExpr l) (h.onExpr r))
  | .unary op e => h.expr rfl (h.map (Expr.unary op) (h.onExpr e))
  | .paren e => h.expr rfl (h.map Expr.paren (h.onExpr e))

theorem onExprs (h : Carries f g P) : (es : List Expr) →
    P (fun i => (f i).onExprs es) es (g.onExprs es)
      (Node.ofExprs (fun _ => true) es) (Node.ofExprs (fun _ => true) (g.onExprs es))
  | [] => h.pure _
  | e :: rest => h.map₂ List.cons (h.onExpr e) (h.onExprs rest)

theorem onField (h : Carries f g P) : (fd : Field) →
    P (fun i => (f i).onField fd) fd (g.onField fd)
      (Node.ofField (fun _ => true) fd) (Node.ofField (fun _ => true) (g.onField fd))
  | .positional e => h.map Field.positional (h.onExpr e)
  | .named n e => h.map (Field.named n) (h.onExpr e)
  | .keyed k e => h.map₂ Field.keyed (h.onExpr k) (h.onExpr e)

theorem onFields (h : Carries f g P) : (fs : List Field) →
    P (fun i => (f i).onFields fs) fs (g.onFields fs)
      (Node.ofFields (fun _ => true) fs) (Node.ofFields (fun _ => true) (g.onFields fs))
  | [] => h.pure _
  | fd :: rest => h.map₂ List.cons (h.onField fd) (h.onFields rest)

theorem onStmt (h : Carries f g P) : (s : Stmt) → P (fun i => (f i).onStmt s) s (g.onStmt s)
    (Node.ofStmt (fun _ => true) s) (Node.ofStmt (fun _ => true) (g.onStmt s))
  | .localVars ns vs => h.stmt rfl (h.map (Stmt.localVars ns) (h.onExprs vs))
  | .localFunction n ⟨ps, v, b⟩ =>
    h.stmt rfl (h.map (fun b => Stmt.localFunction n ⟨ps, v, b⟩) (h.block (h.onStmts b)))
  | .functionDecl r p n ⟨ps, v, b⟩ =>
    h.stmt rfl (h.map (fun b => Stmt.functionDecl r p n ⟨ps, v, b⟩) (h.block (h.onStmts b)))
  | .assign ts vs => h.stmt rfl (h.map₂ Stmt.assign (h.onExprs ts) (h.onExprs vs))
  | .call e => h.stmt rfl (h.map Stmt.call (h.onExpr e))
  | .block b => h.stmt rfl (h.map Stmt.block (h.block (h.onStmts b)))
  | .whileLoop c b => h.stmt rfl (h.map₂ Stmt.whileLoop (h.onExpr c) (h.block (h.onStmts b)))
  | .repeatLoop b c => h.stmt rfl (h.map₂ Stmt.repeatLoop (h.block (h.onStmts b)) (h.onExpr c))
  | .ifThen c b o =>
    h.stmt rfl (h.map₃ Stmt.ifThen (h.onExpr c) (h.block (h.onStmts b)) (h.onElse o))
  | .numericFor n s l none b =>
    h.stmt rfl (h.map₃ (Stmt.numericFor n · · none) (h.onExpr s) (h.onExpr l)
      (h.block (h.onStmts b)))
  | .numericFor n s l (some t) b =>
    h.stmt rfl (h.map₄ (fun s l t => Stmt.numericFor n s l (some t)) (h.onExpr s) (h.onExpr l)
      (h.onExpr t) (h.block (h.onStmts b)))
  | .genericFor ns es b =>
    h.stmt rfl (h.map₂ (Stmt.genericFor ns) (h.onExprs es) (h.block (h.onStmts b)))
  | .ret vs => h.stmt rfl (h.map Stmt.ret (h.onExprs vs))
  | .exit => h.stmt rfl (h.pure _)
  | .goto _ => h.stmt rfl (h.pure _)
  | .label _ => h.stmt rfl (h.pure _)

theorem onElse (h : Carries f g P) : (o : Else) → P (fun i => (f i).onElse o) o (g.onElse o)
    (Node.ofElse (fun _ => true) o) (Node.ofElse (fun _ => true) (g.onElse o))
  | .done => h.pure _
  | .block b => h.map Else.block (h.block (h.onStmts b))
  | .elseIf c b o =>
    h.map₃ Else.elseIf (h.onExpr c) (h.block (h.onStmts b)) (h.onElse o)

theorem onStmts (h : Carries f g P) : (b : List Stmt) →
    P (fun i => (f i).onStmts b) b (g.onStmts b)
      (Node.ofStmts (fun _ => true) b) (Node.ofStmts (fun _ => true) (g.onStmts b))
  | [] => h.pure _
  | s :: rest => h.map₂ List.cons (h.onStmt s) (h.onStmts rest)

end

/-- The hook of a block comes after its statements. -/
theorem onBody (h : Carries f g P) (b : List Stmt) :
    P (fun i => (f i).block ((f i).onStmts b)) b (g.block (g.onStmts b))
      (Node.ofStmts (fun _ => true) b) (Node.ofStmts (fun _ => true) (g.block (g.onStmts b))) :=
  h.block (h.onStmts b)

end Carries

end Mapper

end LuaUnpack.Lua
