import LuaUnpack.Proofs.Lua.Shape
import LuaUnpack.Proofs.Lua.Walks
import LuaUnpack.Proofs.Outcome
import LuaUnpack.Script.Flow

/-!
# Straightening block by block

The walk that straightens a script counts the loops that it solves, and nothing else depends
on the count (`Counts`). Statements that neither leave a block nor repeat one stay as they are
(`Straightens.keeps`). So two blocks one after the other are straightened one after the other,
unless the first is left on the way (`straightenFlow_append`).
-/

namespace LuaUnpack.Script

open LuaUnpack.Lua

namespace Flow

/-! ## Counting -/

/-- Whether an action only adds to the count. -/
def Counts {α : Type} (act : Solving α) : Prop :=
  ∀ k, act.run k = (act.run 0).map fun p => (p.1, k + p.2)

section

variable {α β : Type} {act : Solving α}

theorem counts_pure (a : α) : Counts (pure a) := fun _ => rfl

theorem Counts.bind {next : α → Solving β} (h : Counts act) (hnext : ∀ a, Counts (next a)) :
    Counts (act >>= next) := by
  intro k
  rw [StateT.run_bind, StateT.run_bind, h k]
  rcases act.run 0 with e | ⟨a, n⟩
  · rfl
  · -- What comes next starts from the count `k + n` on one side, from `n` on the other.
    change (next a).run (k + n) = ((next a).run n).map _
    rw [hnext a (k + n), hnext a n]
    rcases (next a).run 0 with e | ⟨b, m⟩
    · rfl
    · exact congrArg (fun count => Except.ok (b, count)) (Nat.add_assoc k n m)

theorem unfold_of_none {s : Stmt} (h : stateMachine? s = none) : unfold s = pure [s] := by
  rw [unfold, h]

/-- A loop over a state is replaced by the bodies of its states. -/
theorem run_unfold {s tree : Stmt} {state : String} (h : stateMachine? s = some (state, tree))
    (k : Nat) : (unfold s).run k =
      (Dispatch.solve state tree).map fun dict => (dict.flatMap (·.2), k + 1) := by
  rw [unfold, h]
  rcases hsolve : Dispatch.solve state tree with e | dict
  · simp only [hsolve]
    rfl
  · simp only [hsolve]
    rfl

theorem counts_unfold (s : Stmt) : Counts (unfold s) := by
  rcases h : stateMachine? s with _ | ⟨state, tree⟩
  · rw [unfold_of_none h]
    exact counts_pure [s]
  · intro k
    rw [run_unfold h, run_unfold h]
    cases Dispatch.solve state tree <;> rfl

theorem counts_unfoldAll : (b : Block) → Counts (unfoldAll b)
  | [] => counts_pure []
  | s :: rest =>
    (counts_unfold s).bind fun _ => (counts_unfoldAll rest).bind fun _ => counts_pure _

/-! ## What is kept -/

/-- Whether a statement neither leaves a block nor repeats one, and is no block itself. -/
def isStraight : Stmt → Bool
  | .localVars .. | .localFunction .. | .functionDecl .. | .assign .. | .call _ | .ifThen .. => true
  | _ => false

theorem stateMachine?_of_isStraight {s : Stmt} (h : isStraight s = true) :
    stateMachine? s = none := by
  cases s <;> first | rfl | cases h

theorem endsBlock_of_isStraight {s : Stmt} (h : isStraight s = true) : endsBlock s = false := by
  cases s <;> first | rfl | cases h

theorem cutUnreachable_eq_self {b : Block} (h : ∀ s ∈ b, endsBlock s = false) :
    cutUnreachable b = b := by
  induction b with
  | nil => rfl
  | cons s b ih =>
    obtain ⟨hs, hb⟩ := List.forall_mem_cons.1 h
    rw [cutUnreachable, hs, if_neg Bool.false_ne_true, ih hb]

theorem unfoldAll_eq_self {b : Block} (h : ∀ s ∈ b, stateMachine? s = none) :
    unfoldAll b = pure b := by
  induction b with
  | nil => rfl
  | cons s b ih =>
    obtain ⟨hs, hb⟩ := List.forall_mem_cons.1 h
    rw [unfoldAll, unfold_of_none hs, pure_bind, ih hb, pure_bind]
    rfl

/-- An `if` is kept if no label ends its first block. -/
theorem straighten_ifThen {b : Block} (h : ∀ name, .label name ∉ b) (c : Expr) (o : Else) :
    straighten (.ifThen c b o) = .ifThen c b o := by
  have hjump : isGuardedJump b = false := by
    unfold isGuardedJump
    split
    · split
      · rename_i hlast
        exact absurd (List.mem_cons_of_mem _ (List.mem_of_getLast? hlast)) (h _)
      · rfl
    · rfl
  rw [straighten, choiceBlock?, hjump, if_neg Bool.false_ne_true]
  rfl

theorem straighten_of_isStraight {s : Stmt} (h : isStraight s = true)
    (hbody : ∀ c b o, s = .ifThen c b o → ∀ t ∈ b, isStraight t = true) : straighten s = s := by
  cases s with
  | ifThen c b o =>
    refine straighten_ifThen (fun name hname => ?_) c o
    cases hbody c b o rfl _ hname
  | _ => first | rfl | cases h

/-- What straightening does to a part of a tree: it adds to the count, and keeps a part of
    which all statements are straight. -/
structure Straightens (act : Solving α) (same : α) (nodes : List Node) : Prop where
  counts : Counts act
  keeps : (∀ s, .stmt s ∈ nodes → isStraight s = true) → act.run 0 = .ok (same, 0)

variable {a : α} {nodes nodes₁ nodes₂ : List Node}

theorem straightens_pure (a : α) : Straightens (pure a) a [] := ⟨counts_pure a, fun _ => rfl⟩

theorem Straightens.bind {next : α → Solving β} {make : α → β} (h₁ : Straightens act a nodes₁)
    (h₂ : ∀ x, Straightens (next x) (make x) nodes₂) :
    Straightens (act >>= next) (make a) (nodes₁ ++ nodes₂) where
  counts := h₁.counts.bind fun x => (h₂ x).counts
  keeps h := by
    rw [StateT.run_bind, h₁.keeps fun s hs => h s (List.mem_append_left _ hs)]
    exact (h₂ a).keeps fun s hs => h s (List.mem_append_right _ hs)

theorem Straightens.map (make : α → β) (h : Straightens act a nodes) :
    Straightens (act >>= fun x => pure (make x)) (make a) nodes :=
  List.append_nil nodes ▸ h.bind fun x => straightens_pure (make x)

theorem Straightens.underExpr {e : Expr} (h : Straightens act a nodes) :
    Straightens act a (.expr e :: nodes) :=
  ⟨h.counts, fun hnodes => h.keeps fun s hs => hnodes s (List.mem_cons_of_mem _ hs)⟩

theorem Straightens.underStmt {act : Solving Stmt} {s : Stmt} (h : Straightens act s nodes)
    (hbody : ∀ c b o, s = .ifThen c b o → ∀ t ∈ b, .stmt t ∈ nodes) :
    Straightens (mapper.stmt s act) s (.stmt s :: nodes) where
  counts := h.counts.bind fun _ => counts_pure _
  keeps hnodes := by
    have hbelow (t : Stmt) (ht : .stmt t ∈ nodes) := hnodes t (List.mem_cons_of_mem _ ht)
    have hkept : straighten s = s := straighten_of_isStraight (hnodes s List.mem_cons_self)
      fun c b o hs t ht => hbelow t (hbody c b o hs t ht)
    change (act >>= fun s => pure (straighten s)).run 0 = _
    rw [StateT.run_bind, h.keeps hbelow]
    exact congrArg (fun s => Except.ok (s, 0)) hkept

theorem Straightens.block {act : Solving Block} {b : Block} (h : Straightens act b nodes)
    (hmem : ∀ s ∈ b, .stmt s ∈ nodes) : Straightens (mapper.block act) b nodes where
  counts := h.counts.bind fun _ => (counts_unfoldAll _).bind fun _ => counts_pure _
  keeps hnodes := by
    have hstraight (s : Stmt) (hs : s ∈ b) := hnodes s (hmem s hs)
    change (act >>= fun b => unfoldAll b >>= fun b => pure (cutUnreachable b)).run 0 = _
    rw [StateT.run_bind, h.keeps hnodes]
    change (unfoldAll b >>= fun b => pure (cutUnreachable b)).run 0 = _
    rw [unfoldAll_eq_self fun s hs => stateMachine?_of_isStraight (hstraight s hs)]
    exact congrArg (fun b => Except.ok (b, 0))
      (cutUnreachable_eq_self fun s hs => endsBlock_of_isStraight (hstraight s hs))

end

/-! ## The walk -/

theorem mem_ofStmt (s : Stmt) : .stmt s ∈ Node.ofStmt (fun _ => true) s := by
  rw [Node.ofStmt_eq_cons]
  exact List.mem_cons_self

theorem mem_ofStmts {b : Block} {s : Stmt} (h : s ∈ b) :
    .stmt s ∈ Node.ofStmts (fun _ => true) b := by
  induction b with
  | nil => cases h
  | cons t b ih =>
    rcases List.mem_cons.1 h with rfl | h
    · exact List.mem_append_left _ (mem_ofStmt s)
    · exact List.mem_append_right _ (ih h)

theorem carries_straightens : Mapper.Carries (fun _ : Unit => mapper) {}
    (fun act a a' old _ => a' = a ∧ Straightens (act ()) a old) where
  pure a := ⟨rfl, straightens_pure a⟩
  bind make make' h₁ h₂ := by
    obtain ⟨rfl, h₁⟩ := h₁
    exact ⟨(h₂ _).1, h₁.bind fun x => (h₂ x).2⟩
  expr _ h := ⟨h.1, by
    rw [Node.ofExpr_eq_cons]
    exact h.2.underExpr⟩
  stmt _ h := ⟨h.1, by
    rw [Node.ofStmt_eq_cons]
    refine h.2.underStmt ?_
    -- Whether an `if` is kept depends on the last statement of its first block.
    rintro _ _ _ rfl t ht
    exact List.mem_append_left _ (List.mem_append_right _ (mem_ofStmts ht))⟩
  block h := ⟨h.1, h.2.block fun _ => mem_ofStmts⟩

theorem straightens_onExpr (e : Expr) :
    Straightens (mapper.onExpr e) e (Node.ofExpr (fun _ => true) e) :=
  (carries_straightens.onExpr e).2

theorem straightens_onStmts (ss : List Stmt) :
    Straightens (mapper.onStmts ss) ss (Node.ofStmts (fun _ => true) ss) :=
  (carries_straightens.onStmts ss).2

/-- A block is straightened after its statements. -/
theorem straightens_body (b : List Stmt) :
    Straightens (mapper.block (mapper.onStmts b)) b (Node.ofStmts (fun _ => true) b) :=
  (carries_straightens.onBody b).2

/-! ## One block after the other -/

theorem onStmts_append (b₁ b₂ : Block) : mapper.onStmts (b₁ ++ b₂) = do
    let c₁ ← mapper.onStmts b₁
    let c₂ ← mapper.onStmts b₂
    return c₁ ++ c₂ := by
  induction b₁ with
  | nil => simp [Mapper.onStmts]
  | cons s b₁ ih => simp [Mapper.onStmts, ih]

theorem unfoldAll_append (b₁ b₂ : Block) : unfoldAll (b₁ ++ b₂) = do
    let c₁ ← unfoldAll b₁
    let c₂ ← unfoldAll b₂
    return c₁ ++ c₂ := by
  induction b₁ with
  | nil => simp [unfoldAll]
  | cons s b₁ ih => simp [unfoldAll, ih, ← List.append_assoc]

theorem cutUnreachable_append {b₁ : Block} (h : ∀ s ∈ b₁, endsBlock s = false) (b₂ : Block) :
    cutUnreachable (b₁ ++ b₂) = b₁ ++ cutUnreachable b₂ := by
  induction b₁ with
  | nil => rfl
  | cons s b₁ ih =>
    obtain ⟨hs, hb⟩ := List.forall_mem_cons.1 h
    rw [List.cons_append, cutUnreachable, hs, if_neg Bool.false_ne_true, ih hb, List.cons_append]

/-- What is left of a block is left by no statement before its last only if nothing was cut. -/
theorem eq_of_cutUnreachable {b : Block} (h : ∀ s ∈ cutUnreachable b, endsBlock s = false) :
    cutUnreachable b = b := by
  induction b with
  | nil => rfl
  | cons s b ih =>
    rw [cutUnreachable] at h ⊢
    split at h
    · rename_i hs
      rw [h s List.mem_cons_self] at hs
      cases hs
    · rename_i hs
      rw [if_neg hs, ih (List.forall_mem_cons.1 h).2]

/-- What comes after an action with a result only adds to the count of that action. -/
theorem Counts.run_append {act₁ act₂ : Solving Block} {c₁ : Block} {n₁ : Nat}
    (h₁ : act₁.run 0 = .ok (c₁, n₁)) (h₂ : Counts act₂) :
    (do return (← act₁) ++ (← act₂) : Solving Block).run 0 =
      (act₂.run 0).map fun p => (c₁ ++ p.1, n₁ + p.2) := by
  rw [StateT.run_bind, h₁]
  change (act₂ >>= fun c₂ => pure (c₁ ++ c₂)).run n₁ = _
  rw [StateT.run_bind, h₂ n₁]
  cases act₂.run 0 <;> rfl

/-- A block is straightened in two passes over its statements. -/
theorem straightenFlow_eq (b : Block) : straightenFlow b = do
    let p ← (mapper.onStmts b).run 0
    let q ← (unfoldAll p.1).run 0
    return (cutUnreachable q.1, p.2 + q.2) := by
  change ((mapper.onStmts b).run 0 >>= fun p =>
    (unfoldAll p.1 >>= fun c => pure (cutUnreachable c)).run p.2) = _
  refine bind_congr fun p => ?_
  rw [StateT.run_bind, counts_unfoldAll p.1 p.2]
  cases (unfoldAll p.1).run 0 <;> rfl

end Flow

open LuaUnpack.Script.Flow in
/-- Two blocks are straightened one after the other, unless the first is left. -/
theorem straightenFlow_append {b₁ b₁' : Block} {n : Nat} (h : straightenFlow b₁ = .ok (b₁', n))
    (hends : ∀ s ∈ b₁', endsBlock s = false) (b₂ : Block) :
    straightenFlow (b₁ ++ b₂) = (straightenFlow b₂).map fun p => (b₁' ++ p.1, n + p.2) := by
  rw [straightenFlow_eq] at h
  simp only [bind_eq_ok_iff, pure_eq_ok_iff] at h
  obtain ⟨⟨c₁, n₁⟩, hstmts, ⟨d₁, m₁⟩, hunfold, h⟩ := h
  obtain ⟨rfl, rfl⟩ := Prod.mk.inj h
  -- Nothing was cut off the first block, so that the second one is reached.
  have hkept := eq_of_cutUnreachable hends
  rw [hkept] at hends ⊢
  rw [straightenFlow_eq, straightenFlow_eq, onStmts_append,
    Counts.run_append hstmts (straightens_onStmts b₂).counts]
  rcases (mapper.onStmts b₂).run 0 with e | ⟨c₂, n₂⟩
  · rfl
  · change (do
        let q ← (unfoldAll (c₁ ++ c₂)).run 0
        return (cutUnreachable q.1, n₁ + n₂ + q.2)) =
      Except.map _ (do
        let q ← (unfoldAll c₂).run 0
        return (cutUnreachable q.1, n₂ + q.2))
    rw [unfoldAll_append, Counts.run_append hunfold (counts_unfoldAll c₂)]
    rcases (unfoldAll c₂).run 0 with e | ⟨d₂, m₂⟩
    · rfl
    · change Except.ok (cutUnreachable (d₁ ++ d₂), n₁ + n₂ + (m₁ + m₂)) =
        Except.ok (d₁ ++ cutUnreachable d₂, n₁ + m₁ + (n₂ + m₂))
      rw [cutUnreachable_append hends, Nat.add_add_add_comm]

open LuaUnpack.Script.Flow in
/-- A statement that the walk keeps is replaced by what it stands for. -/
theorem straightenFlow_cons {s : Stmt} {after after' : Block} {m : Nat}
    (hkept : (mapper.onStmts [s]).run 0 = .ok ([s], 0))
    (hends : ∀ p, (unfold s).run 0 = .ok p → ∀ t ∈ p.1, endsBlock t = false)
    (hafter : straightenFlow after = .ok (after', m)) :
    straightenFlow (s :: after) = ((unfold s).run 0).map fun p => (p.1 ++ after', p.2 + m) := by
  rw [straightenFlow_eq] at hafter
  simp only [bind_eq_ok_iff, pure_eq_ok_iff] at hafter
  obtain ⟨⟨c, n⟩, hstmts, ⟨d, k⟩, hunfold, h⟩ := hafter
  obtain ⟨rfl, rfl⟩ := Prod.mk.inj h
  rw [straightenFlow_eq, ← List.singleton_append, onStmts_append,
    Counts.run_append hkept (straightens_onStmts after).counts, hstmts]
  change (do
    let q ← (unfold s >>= fun first => return first ++ (← unfoldAll c)).run 0
    return (cutUnreachable q.1, 0 + n + q.2)) = _
  rcases hs : (unfold s).run 0 with e | ⟨code, count⟩
  · -- The statements after it are not unfolded.
    rw [StateT.run_bind, hs]
    rfl
  · rw [Counts.run_append hs (counts_unfoldAll c), hunfold]
    change Except.ok (cutUnreachable (code ++ d), 0 + n + (count + k)) =
      Except.ok (code ++ cutUnreachable d, count + (n + k))
    rw [cutUnreachable_append (hends _ hs), Nat.zero_add, Nat.add_left_comm]

end LuaUnpack.Script
