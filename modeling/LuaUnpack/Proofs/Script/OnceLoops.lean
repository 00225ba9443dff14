import LuaUnpack.Proofs.Dispatch.Soundness
import LuaUnpack.Proofs.Script.Course
import LuaUnpack.Proofs.Script.Straightening

/-!
# Loops that run once

A `repeat` loop that runs once is replaced by a choice if it starts with an `if`: the first block
of the `if` on one side, what follows the `if` on the other. This is what the loop does if the first
block leaves the loop and the `if` has no further parts, but neither is looked at.

So a first block that comes to its end loses what follows the `if`, and the further parts of the
`if` are always lost. The loop and its replacement make the same calls just if nothing that is lost
makes a difference (`onStmt_onceLoop`).
-/

namespace LuaUnpack.Script

open LuaUnpack.Lua

namespace Flow

/-! ## Plain blocks -/

/-- Whether straightening has nothing to do inside an expression. -/
def IsOpaque (e : Expr) : Prop :=
  ∀ s, .stmt s ∈ Node.ofExpr (fun _ => true) e → isStraight s = true

mutual

/-- Whether a statement is a call, a `break`, or an `if` of such statements. -/
def IsPlainStmt : Stmt → Prop
  | .call e => IsOpaque e
  | .exit => True
  | .ifThen c b o => IsOpaque c ∧ IsPlainBlock b ∧ IsPlainElse o
  | _ => False

/-- Whether what follows the first block of an `if` is made of plain blocks. -/
def IsPlainElse : Else → Prop
  | .done => True
  | .block b => IsPlainBlock b
  | .elseIf c b o => IsOpaque c ∧ IsPlainBlock b ∧ IsPlainElse o

/-- Whether a block is made of calls, `if`s and `break`s. -/
def IsPlainBlock : List Stmt → Prop
  | [] => True
  | s :: rest => IsPlainStmt s ∧ IsPlainBlock rest

end

section

variable {s : Stmt} {b : Block}

theorem isPlainBlock_iff : IsPlainBlock b ↔ ∀ s ∈ b, IsPlainStmt s := by
  induction b with
  | nil => simp [IsPlainBlock]
  | cons s b ih => rw [IsPlainBlock, ih, List.forall_mem_cons]

theorem IsPlainStmt.stateMachine?_eq_none (h : IsPlainStmt s) : stateMachine? s = none := by
  cases s <;> first | rfl | exact h.elim

theorem IsPlainStmt.eq_exit (h : IsPlainStmt s) (hends : endsBlock s = true) : s = .exit := by
  cases s <;> first | rfl | exact h.elim | cases hends

theorem IsPlainStmt.isJump_eq_endsBlock (h : IsPlainStmt s) : isJump s = endsBlock s := by
  cases s <;> first | rfl | exact h.elim

theorem IsPlainBlock.label_not_mem (h : IsPlainBlock b) (name : String) : .label name ∉ b :=
  isPlainBlock_iff.1 h _

/-- What is cut off a plain block is not run. -/
theorem IsPlainBlock.cutUnreachable (h : IsPlainBlock b) :
    IsPlainBlock (cutUnreachable b) ∧ Course.ofBlock (cutUnreachable b) = Course.ofBlock b := by
  induction b with
  | nil => exact ⟨trivial, rfl⟩
  | cons s b ih =>
    obtain ⟨hs, hb⟩ := h
    rw [Flow.cutUnreachable]
    split
    · rename_i hends
      obtain rfl := hs.eq_exit hends
      exact ⟨⟨hs, trivial⟩, rfl⟩
    · exact ⟨⟨hs, (ih hb).1⟩, by rw [Course.ofBlock, Course.ofBlock, (ih hb).2]⟩

/-- A plain block up to where it is left does what the block does. -/
theorem IsPlainBlock.enclosed_beforeJump (h : IsPlainBlock b) :
    (Course.ofBlock (beforeJump b)).enclosed = (Course.ofBlock b).enclosed := by
  induction b with
  | nil => rfl
  | cons s b ih =>
    obtain ⟨hs, hb⟩ := h
    rw [beforeJump, List.takeWhile_cons, hs.isJump_eq_endsBlock]
    cases hends : endsBlock s with
    | true =>
      obtain rfl := hs.eq_exit hends
      rfl
    | false => exact Course.enclosed_andThen_congr _ (ih hb)

end

/-! ## The walk over a plain block -/

/-- Whether an action solves no loop, and its result has a property. -/
def Gives {α : Type} (act : Solving α) (P : α → Prop) : Prop :=
  ∃ a, (∀ k, act.run k = .ok (a, k)) ∧ P a

section

variable {α β : Type} {act : Solving α} {P : α → Prop} {Q : β → Prop}

theorem gives_pure {a : α} (h : P a) : Gives (pure a) P := ⟨a, fun _ => rfl, h⟩

theorem Gives.bind {next : α → Solving β} (h : Gives act P)
    (hnext : ∀ a, P a → Gives (next a) Q) : Gives (act >>= next) Q := by
  obtain ⟨a, hact, ha⟩ := h
  obtain ⟨b, hb, hQ⟩ := hnext a ha
  refine ⟨b, fun k => ?_, hQ⟩
  rw [StateT.run_bind, hact]
  exact hb k

theorem Gives.map (h : Gives act P) (make : α → β) (hmake : ∀ a, P a → Q (make a)) :
    Gives (act >>= fun a => pure (make a)) Q :=
  h.bind fun a ha => gives_pure (hmake a ha)

theorem gives_onExpr {e : Expr} (h : IsOpaque e) : Gives (mapper.onExpr e) (· = e) := by
  refine ⟨e, fun k => ?_, rfl⟩
  rw [(straightens_onExpr e).counts k, (straightens_onExpr e).keeps h]
  rfl

end

/-- Whether a block is plain and takes the course of another one. -/
def IsPlainLike (b b' : Block) : Prop :=
  IsPlainBlock b' ∧ Course.ofBlock b' = Course.ofBlock b

/-- The block of plain statements is cut off where it is left, and that is all. -/
theorem Gives.block {act : Solving Block} {P Q : Block → Prop} (h : Gives act P)
    (hplain : ∀ b, P b → IsPlainBlock b) (hcut : ∀ b, P b → Q (cutUnreachable b)) :
    Gives (mapper.block act) Q :=
  h.bind fun b hb => by
    have hnone (s : Stmt) (hs : s ∈ b) :=
      (isPlainBlock_iff.1 (hplain b hb) s hs).stateMachine?_eq_none
    rw [unfoldAll_eq_self hnone, pure_bind]
    exact gives_pure (hcut b hb)

theorem IsPlainLike.cutUnreachable {b b' : Block} (h : IsPlainLike b b') :
    IsPlainLike b (cutUnreachable b') :=
  have hcut := h.1.cutUnreachable
  ⟨hcut.1, hcut.2.trans h.2⟩

/-- An `if` is walked through part by part. -/
theorem gives_ifThen {c : Expr} {b : Block} {o : Else} (hc : IsOpaque c)
    (hb : Gives (mapper.block (mapper.onStmts b)) (IsPlainLike b))
    (ho : Gives (mapper.onElse o) fun o' => IsPlainElse o' ∧ Course.ofElse o' = Course.ofElse o) :
    Gives (mapper.onStmt (.ifThen c b o)) fun s => ∃ b' o', s = .ifThen c b' o' ∧
      IsPlainLike b b' ∧ IsPlainElse o' ∧ Course.ofElse o' = Course.ofElse o := by
  have hparts : Gives (do
      let c' ← mapper.onExpr c
      let b' ← mapper.block (mapper.onStmts b)
      return Stmt.ifThen c' b' (← mapper.onElse o)) fun s => ∃ b' o', s = .ifThen c b' o' ∧
        IsPlainLike b b' ∧ IsPlainElse o' ∧ Course.ofElse o' = Course.ofElse o :=
    (gives_onExpr hc).bind fun c' hc' => hb.bind fun b' hb' =>
      ho.map (Stmt.ifThen c' b') fun o' ho' => ⟨b', o', by rw [hc'], hb', ho'⟩
  refine hparts.map straighten ?_
  rintro _ ⟨b', o', rfl, hb', ho'⟩
  exact ⟨b', o', straighten_ifThen hb'.1.label_not_mem c o', hb', ho'⟩

mutual

theorem gives_onStmt : (s : Stmt) → IsPlainStmt s →
    Gives (mapper.onStmt s) fun s' => IsPlainStmt s' ∧ Course.ofStmt s' = Course.ofStmt s
  | .call e, h =>
    ((gives_onExpr h).map (Q := (· = .call e)) Stmt.call fun _ he => congrArg Stmt.call he).map
      straighten fun _ hs => by
        subst hs
        exact ⟨h, rfl⟩
  | .exit, _ => gives_pure ⟨trivial, rfl⟩
  | .ifThen c b o, ⟨hc, hb, ho⟩ => by
    obtain ⟨_, hrun, b', o', rfl, hb', ho'⟩ :=
      gives_ifThen hc (gives_body b hb) (gives_onElse o ho)
    exact ⟨_, hrun, ⟨hc, hb'.1, ho'.1⟩, by rw [Course.ofStmt, Course.ofStmt, hb'.2, ho'.2]⟩
  | .localVars .., h | .localFunction .., h | .functionDecl .., h | .assign .., h | .block .., h
  | .whileLoop .., h | .repeatLoop .., h | .numericFor .., h | .genericFor .., h | .ret .., h
  | .goto .., h | .label .., h => h.elim

theorem gives_onElse : (o : Else) → IsPlainElse o →
    Gives (mapper.onElse o) fun o' => IsPlainElse o' ∧ Course.ofElse o' = Course.ofElse o
  | .done, _ => gives_pure ⟨trivial, rfl⟩
  | .block b, h => (gives_body b h).map Else.block fun _ hb => hb
  | .elseIf c b o, ⟨hc, hb, ho⟩ =>
    (gives_onExpr hc).bind fun c' hc' => (gives_body b hb).bind fun b' hb' =>
      (gives_onElse o ho).map (Else.elseIf c' b') fun o' ho' => by
        subst hc'
        exact ⟨⟨hc, hb'.1, ho'.1⟩, by rw [Course.ofElse, Course.ofElse, hb'.2, ho'.2]⟩

theorem gives_onStmts : (b : List Stmt) → IsPlainBlock b →
    Gives (mapper.onStmts b) (IsPlainLike b)
  | [], _ => gives_pure ⟨trivial, rfl⟩
  | s :: rest, ⟨hs, hrest⟩ =>
    (gives_onStmt s hs).bind fun s' hs' => (gives_onStmts rest hrest).map (List.cons s')
      fun rest' hrest' => ⟨⟨hs'.1, hrest'.1⟩,
        by rw [Course.ofBlock, Course.ofBlock, hs'.2, hrest'.2]⟩

theorem gives_body (b : List Stmt) (h : IsPlainBlock b) :
    Gives (mapper.block (mapper.onStmts b)) (IsPlainLike b) :=
  (gives_onStmts b h).block (fun _ hb => hb.1) fun _ hb => hb.cutUnreachable

end

/-! ## The replacement -/

/-- A loop that runs once. -/
def onceLoop (body : Block) : Stmt := .repeatLoop body (.boolean true)

/-- The replacement of a loop that runs once has the first block of the `if` on one side, and what
    follows the `if` on the other. -/
theorem gives_onceLoop {c : Expr} {b rest : Block} {o : Else}
    (h : IsPlainBlock (.ifThen c b o :: rest)) :
    Gives (mapper.onStmt (onceLoop (.ifThen c b o :: rest))) fun s =>
      ∃ b' rest', s = .ifThen c b' (.block rest') ∧
        (Course.ofBlock b').enclosed = (Course.ofBlock b).enclosed ∧
        (Course.ofBlock rest').enclosed = (Course.ofBlock rest).enclosed := by
  obtain ⟨⟨hc, hb, ho⟩, hrest⟩ := h
  have hstmts : Gives (mapper.onStmts (.ifThen c b o :: rest)) fun body => ∃ b' o' rest',
      body = .ifThen c b' o' :: rest' ∧ IsPlainBlock body ∧
        IsPlainLike b b' ∧ IsPlainLike rest rest' := by
    refine (gives_ifThen hc (gives_body b hb) (gives_onElse o ho)).bind ?_
    rintro _ ⟨b', o', rfl, hb', ho', -⟩
    refine (gives_onStmts rest hrest).map _ fun rest' hrest' => ?_
    exact ⟨b', o', rest', rfl, ⟨⟨hc, hb'.1, ho'⟩, hrest'.1⟩, hb', hrest'⟩
  have hbody : Gives (mapper.block (mapper.onStmts (.ifThen c b o :: rest))) fun body =>
      ∃ b' o' rest', body = .ifThen c b' o' :: rest' ∧
        IsPlainLike b b' ∧ IsPlainLike rest rest' := by
    refine hstmts.block ?_ ?_
    · rintro _ ⟨_, _, _, -, hplain, -⟩
      exact hplain
    · rintro _ ⟨b', o', rest', rfl, -, hb', hrest'⟩
      exact ⟨b', o', cutUnreachable rest', rfl, hb', hrest'.cutUnreachable⟩
  -- What is made plain in the end is the loop with its body walked through.
  have hloop : Gives (do
      let body ← mapper.block (mapper.onStmts (.ifThen c b o :: rest))
      return Stmt.repeatLoop body (← mapper.onExpr (.boolean true))) fun s =>
        ∃ b' o' rest', s = onceLoop (.ifThen c b' o' :: rest') ∧
          IsPlainLike b b' ∧ IsPlainLike rest rest' := by
    refine hbody.bind ?_
    rintro _ ⟨b', o', rest', rfl, hb', hrest'⟩
    exact gives_pure ⟨b', o', rest', rfl, hb', hrest'⟩
  refine hloop.map straighten ?_
  rintro _ ⟨b', o', rest', rfl, hb', hrest'⟩
  refine ⟨beforeJump b', beforeJump rest', rfl, ?_, ?_⟩
  · rw [hb'.1.enclosed_beforeJump, hb'.2]
  · rw [hrest'.1.enclosed_beforeJump, hrest'.2]

end Flow

open LuaUnpack.Script.Flow Course in
/-- A loop over calls, `if`s and `break`s that runs once and starts with an `if` is replaced by
    one statement. Both make the same calls in every world just if the first block of the `if`
    always leaves the loop or nothing after the `if` makes a call, and if the further parts of the
    `if` make no difference to what follows. -/
theorem onStmt_onceLoop {c : Expr} {b rest : Block} {o : Else}
    (h : IsPlainBlock (.ifThen c b o :: rest)) :
    ∃ replacement,
      (∀ n, (mapper.onStmt (onceLoop (.ifThen c b o :: rest))).run n = .ok (replacement, n)) ∧
      straightenFlow [onceLoop (.ifThen c b o :: rest)] = .ok ([replacement], 0) ∧
      ((ofStmt (onceLoop (.ifThen c b o :: rest))).SameCalls (ofStmt replacement) ↔
        ((ofBlock b).mayFall = false ∨ (ofBlock rest).mayCall = false) ∧
          ((ofElse o).andThen (ofBlock rest)).Agrees (ofBlock rest)) := by
  obtain ⟨_, hrun, b', rest', rfl, hb', hrest'⟩ := gives_onceLoop h
  refine ⟨.ifThen c b' (.block rest'), hrun, ?_, ?_⟩
  · have hstmts : (mapper.onStmts [onceLoop (.ifThen c b o :: rest)]).run 0 =
        .ok ([.ifThen c b' (.block rest')], 0) := by
      change (mapper.onStmt _ >>= fun s => pure [s]).run 0 = _
      rw [StateT.run_bind, hrun]
      rfl
    rw [straightenFlow_eq, hstmts]
    rfl
  · -- A `break` ends the loop, so that only the calls before it count on both sides.
    have hreplacement : (ofStmt (.ifThen c b' (.block rest'))).enclosed =
        (ask c (ofBlock b) (ofBlock rest)).enclosed := by
      rw [ofStmt, ofElse, enclosed, enclosed, hb', hrest']
    calc (ofStmt (onceLoop (.ifThen c b o :: rest))).SameCalls
          (ofStmt (.ifThen c b' (.block rest')))
      _ ↔ (ofBlock (.ifThen c b o :: rest)).SameCalls
          (ofStmt (.ifThen c b' (.block rest'))).enclosed :=
        sameCalls_enclosed_left_iff.trans sameCalls_enclosed_right_iff.symm
      _ ↔ (ask c ((ofBlock b).andThen (ofBlock rest))
          ((ofElse o).andThen (ofBlock rest))).SameCalls (ask c (ofBlock b) (ofBlock rest)) := by
        rw [hreplacement, sameCalls_enclosed_right_iff, ofBlock, ofStmt, andThen]
      _ ↔ _ := by
        rw [sameCalls_ask_iff, sameCalls_andThen_left_iff, sameCalls_iff_agrees]

/-- The body of a loop that runs once, with a first block that leaves the loop. -/
def leavingBody : Block :=
  .ifThen (.name "x") (Dispatch.marker "a" ++ [.exit]) .done :: (Dispatch.marker "b" ++ [.exit])

open LuaUnpack.Script.Flow Course in
/-- The replacement makes the calls of the loop if the first block leaves the loop. -/
theorem onStmt_onceLoop_leavingBody :
    IsPlainBlock leavingBody ∧ ∃ replacement,
      straightenFlow [onceLoop leavingBody] = .ok ([replacement], 0) ∧
      (ofStmt (onceLoop leavingBody)).SameCalls (ofStmt replacement) := by
  have hplain : IsPlainBlock leavingBody := by
    simp [leavingBody, IsPlainBlock, IsPlainStmt, IsPlainElse, IsOpaque, Dispatch.marker,
      Node.ofExpr, Node.above, Node.ofExprs]
  obtain ⟨replacement, -, hflow, hcalls⟩ := onStmt_onceLoop hplain
  exact ⟨hplain, replacement, hflow, hcalls.2 ⟨.inl rfl, (SameCalls.refl _).agrees⟩⟩

/-- The body of a loop that runs once, with a first block that does not leave the loop. -/
def fallingBody : Block :=
  .ifThen (.name "x") (Dispatch.marker "a") .done :: (Dispatch.marker "b" ++ [.exit])

open LuaUnpack.Script.Flow Course in
/-- The replacement loses the second call if the condition holds. -/
theorem straightenFlow_fallingBody_loses :
    ∃ replacement, straightenFlow [onceLoop fallingBody] = .ok ([replacement], 0) ∧
      (ofStmt (onceLoop fallingBody)).calls (.always true) () =
        [.call (.name "a") [], .call (.name "b") []] ∧
      (ofStmt replacement).calls (.always true) () = [.call (.name "a") []] ∧
      ¬(ofStmt (onceLoop fallingBody)).SameCalls (ofStmt replacement) := by
  refine ⟨_, rfl, rfl, rfl, fun h => ?_⟩
  cases h _ (.always true) ()

end LuaUnpack.Script
