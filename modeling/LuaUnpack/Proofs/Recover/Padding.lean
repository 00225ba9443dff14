import LuaUnpack.Proofs.Recover.AbsoluteJumps
import LuaUnpack.Proofs.Recover.Retarget

/-!
# Padding and jumps

Identifying the operations of a function marks as padding what comes after a return, up to
the next instruction that a known jump leads to. While the instructions are gone through,
the walk knows just where the plain jumps before it lead, and whether the last instruction
that is not padding returns (`Knows`). So an instruction is marked just if such a return
comes before it and no plain jump does that leads to it (`isDead_getElem?_resolveFrom`).

Loops jump too, but their targets are not taken down. The target of a jump that comes
before it is padding just if the last instruction before it that is not padding returns
and only loops lead to it (`resolveOpcodes_target_isDead_iff`).
-/

namespace LuaUnpack.Recover

open LuaUnpack.Chunk LuaUnpack.Handler

/-! ## What comes before an instruction -/

/-- Whether the last instruction of code that is not padding returns. -/
def endsInReturn (code : List Instruction) : Bool := (dropDead code).getLast?.any returns

/-- Whether an instruction of code that is not padding and has an operation leads to an
    index. -/
def LeadsTo (op : Opcode) (code : List Instruction) (target : Nat) : Prop :=
  ∃ (k : Nat) (x : Instruction), code[k]? = some x ∧ x.isDead = false ∧ x.opcode = op ∧
    (target : Int) = (k : Int) + x.b.toInt + 1

variable {code : List Instruction} {i : Instruction}

@[simp] theorem endsInReturn_nil : endsInReturn [] = false := rfl

theorem endsInReturn_concat_of_dead (h : i.isDead = true) :
    endsInReturn (code ++ [i]) = endsInReturn code := by
  simp [endsInReturn, dropDead, h]

theorem endsInReturn_concat_of_live (h : i.isDead = false) :
    endsInReturn (code ++ [i]) = returns i := by
  simp [endsInReturn, dropDead, h]

theorem not_leadsTo_nil (op : Opcode) (target : Nat) : ¬LeadsTo op [] target := by
  rintro ⟨k, x, hx, -⟩
  cases hx

theorem leadsTo_concat_iff {op : Opcode} {target : Nat} :
    LeadsTo op (code ++ [i]) target ↔ LeadsTo op code target ∨
      i.isDead = false ∧ i.opcode = op ∧
        (target : Int) = (code.length : Int) + i.b.toInt + 1 := by
  constructor
  · rintro ⟨k, x, hx, hlive⟩
    rcases Nat.lt_or_ge k code.length with hk | hk
    · rw [List.getElem?_append_left hk] at hx
      exact .inl ⟨k, x, hx, hlive⟩
    · -- The only instruction after the code is the new one.
      rw [List.getElem?_append_right hk, List.getElem?_singleton] at hx
      split at hx
      · obtain rfl : k = code.length := by omega
        cases hx
        exact .inr hlive
      · cases hx
  · rintro (⟨k, x, hx, hlive⟩ | hlive)
    · have hk : k < code.length := (List.getElem?_eq_some_iff.1 hx).1
      exact ⟨k, x, (List.getElem?_append_left hk).trans hx, hlive⟩
    · exact ⟨code.length, i, List.getElem?_concat_length, hlive⟩

/-! ## What the walk learns -/

theorem target?_eq_some_iff {index n : Nat} :
    target? index i = some n ↔ (n : Int) = (index : Int) + i.b.toInt + 1 := by
  rw [target?]
  split
  · refine ⟨nofun, fun h => ?_⟩
    omega
  · rw [Option.some.injEq]
    omega

theorem mem_learnTarget_iff {targets : List Nat} {index n : Nat} :
    n ∈ learnTarget targets index i ↔ n ∈ targets ∨
      i.opcode = .jmp ∧ (n : Int) = (index : Int) + i.b.toInt + 1 := by
  rw [learnTarget]
  split
  next h => rw [List.mem_append, Option.mem_toList, target?_eq_some_iff, and_iff_right h]
  next h => simp only [h, false_and, or_false]

theorem isDead_applyAll (i : Instruction) (found : List Resolution) :
    (applyAll i found).isDead = i.isDead := by
  induction found generalizing i with
  | nil => rfl
  | cons resolution found ih =>
    refine (ih (resolution.apply i)).trans ?_
    -- A correction changes operands only.
    rw [Resolution.apply]
    cases resolution.correction with
    | none => rfl
    | some correction => cases correction <;> rfl

section

variable {mapping : Mapping} {catalog : Catalog} {index : Nat} {targets : List Nat}

/-- What is known after a visit of an instruction that is not marked as padding, and that
    is not the last: the target of the instruction, if it jumps, and whether it returns. -/
structure Learns (targets : List Nat) (index : Nat) (here : Visit) : Prop where
  live : here.instruction.isDead = false
  targets_eq : here.walk.targets = learnTarget targets index here.instruction
  padding_iff : here.walk.mode = .padding ↔ returns here.instruction = true

/-- Whether an instruction is as it is read: its operation is not known, and it is not
    padding. -/
def IsFresh (i : Instruction) : Prop := i.opcode = .unknown ∧ i.isDead = false
deriving Decidable

/-- An instruction that no operation is found for goes unnoticed. -/
theorem learns_of_isFresh (h : IsFresh i) (warnings : List Warning) :
    Learns targets index ⟨i, ⟨.start, targets⟩, warnings⟩ := by
  obtain ⟨hop, hlive⟩ := h
  refine ⟨hlive, ?_, ?_⟩
  · simp [learnTarget, hop]
  · simp [returns, hop]

theorem learns_takeOps (h : IsFresh i) (ops : List MicroOp) :
    Learns targets index (takeOps catalog index false targets ops i) := by
  cases ops with
  | nil => exact learns_of_isFresh h []
  | cons op ops =>
    have hlive : (identify catalog op i).1.isDead = false := by
      rw [identify_fst, isDead_applyAll]
      exact h.2
    rw [takeOps]
    generalize identify catalog op i = result at hlive ⊢
    obtain ⟨j, warnings⟩ := result
    dsimp only at hlive ⊢
    cases hreturns : returns j with
    | true => exact ⟨hlive, rfl, by simp [hreturns]⟩
    | false => cases ops <;> exact ⟨hlive, rfl, by simp [hreturns]⟩

theorem learns_visitStart (h : IsFresh i) :
    Learns targets index (visitStart mapping catalog index false targets i) := by
  rw [visitStart]
  cases mapping.get? i.opnum with
  | none => exact learns_of_isFresh h _
  | some ops => exact learns_takeOps h ops

end

/-! ## The walk -/

/-- Whether a walk knows, about the instructions it has been at, where the plain jumps lead
    and whether padding comes next. -/
structure Knows (done : List Instruction) (walk : Walk) : Prop where
  mem_targets_iff : ∀ n, n ∈ walk.targets ↔ LeadsTo .jmp done n
  padding_iff : walk.mode = .padding ↔ endsInReturn done = true

section

variable {mapping : Mapping} {catalog : Catalog} {isLast : Bool} {walk : Walk}
  {done : List Instruction}

theorem knows_nil : Knows [] {} where
  mem_targets_iff n := by simp [not_leadsTo_nil]
  padding_iff := by simp

theorem Knows.concat_of_learns {here : Visit} (h : Knows done walk)
    (hhere : Learns walk.targets done.length here) :
    Knows (done ++ [here.instruction]) here.walk where
  mem_targets_iff n := by
    rw [hhere.targets_eq, mem_learnTarget_iff, h.mem_targets_iff, leadsTo_concat_iff,
      and_iff_right hhere.live]
  padding_iff := by rw [hhere.padding_iff, endsInReturn_concat_of_live hhere.live]

theorem Knows.concat_markDead (h : Knows done walk) : Knows (done ++ [i.markDead]) walk where
  mem_targets_iff n := by
    have hdead : i.markDead.isDead = true := rfl
    rw [h.mem_targets_iff, leadsTo_concat_iff]
    simp [hdead]
  padding_iff := by rw [h.padding_iff, endsInReturn_concat_of_dead rfl]

/-- A visit marks an instruction just if the walk is at padding and knows of no jump to
    it. -/
theorem Knows.visit_isDead_iff (h : Knows done walk) (hi : IsFresh i) :
    (visit mapping catalog done.length isLast walk i).instruction.isDead = true ↔
      endsInReturn done = true ∧ ¬LeadsTo .jmp done done.length := by
  rw [← h.padding_iff, ← h.mem_targets_iff]
  have hstart : (visitStart mapping catalog done.length isLast walk.targets i).instruction.isDead =
      false := by rw [visitStart_instruction, isDead_applyAll, hi.2]
  rw [visit]
  cases walk.mode with
  | start => simp [hstart]
  | within ops => simp [takeOps_instruction, isDead_applyAll, hi.2]
  | padding =>
    by_cases htarget : done.length ∈ walk.targets
    · simp [htarget, hstart]
    · simp [htarget, Instruction.markDead, Instruction.isDead]

/-- A visit of an instruction that is not the last keeps the walk in the know. -/
theorem Knows.visit (h : Knows done walk) (hi : IsFresh i) :
    Knows (done ++ [(visit mapping catalog done.length false walk i).instruction])
      (visit mapping catalog done.length false walk i).walk := by
  rw [Recover.visit]
  cases walk.mode with
  | start => exact h.concat_of_learns (learns_visitStart hi)
  | within ops => exact h.concat_of_learns (learns_takeOps hi ops)
  | padding =>
    dsimp only
    split
    · exact h.concat_of_learns (learns_visitStart hi)
    · exact h.concat_markDead

/-- An instruction is marked just if the last one before it that is not padding returns and
    no plain jump before it leads to it. -/
theorem isDead_getElem?_resolveFrom {rest : List Instruction} {index : Nat}
    (hindex : done.length = index) (h : Knows done walk) (hrest : ∀ i ∈ rest, IsFresh i)
    {k : Nat} {z : Instruction}
    (hz : (resolveFrom mapping catalog index walk rest).1[k]? = some z) :
    z.isDead = true ↔
      endsInReturn (done ++ (resolveFrom mapping catalog index walk rest).1.take k) = true ∧
      ¬LeadsTo .jmp (done ++ (resolveFrom mapping catalog index walk rest).1.take k)
        (index + k) := by
  -- By induction on what is left; the walk knows about what has been visited.
  induction rest generalizing done index walk k with
  | nil => cases hz
  | cons i rest ih =>
    subst hindex
    have hi := hrest i List.mem_cons_self
    rw [resolveFrom_cons] at hz ⊢
    cases k with
    | zero =>
      cases hz
      simpa using h.visit_isDead_iff hi
    | succ k =>
      rw [List.getElem?_cons_succ] at hz
      rw [List.take_succ_cons, List.append_cons, Nat.add_comm k, ← Nat.add_assoc]
      cases rest with
      | nil => cases hz
      | cons next rest =>
        exact ih (by simp) (h.visit hi) (fun j hj => hrest j (List.mem_cons_of_mem _ hj)) hz

theorem isDead_getElem?_resolveCode {resolved : List Instruction}
    (hcode : ∀ i ∈ code, IsFresh i) (hresolved : (resolveCode mapping catalog code).1 = resolved)
    {k : Nat} {z : Instruction} (hz : resolved[k]? = some z) :
    z.isDead = true ↔
      endsInReturn (resolved.take k) = true ∧ ¬LeadsTo .jmp (resolved.take k) k := by
  subst hresolved
  have h := isDead_getElem?_resolveFrom List.length_nil knows_nil hcode hz
  rwa [List.nil_append, Nat.zero_add] at h

end

/-! ## Programs -/

/-- Whether, in code, the target of a jump that comes before it is padding just if the jump
    belongs to a loop, the last instruction before the target that is not padding returns,
    and no plain jump before the target leads to it. -/
def LosesLoopTargets (code : List Instruction) : Prop :=
  ∀ (k target : Nat) (x z : Instruction), code[k]? = some x → IsLiveJump x → k < target →
    (target : Int) = (k : Int) + x.b.toInt + 1 → code[target]? = some z →
    (z.isDead = true ↔ x.opcode ≠ .jmp ∧ endsInReturn (code.take target) = true ∧
      ¬LeadsTo .jmp (code.take target) target)

theorem losesLoopTargets_resolveCode (hcode : ∀ i ∈ code, IsFresh i) (mapping : Mapping)
    (catalog : Catalog) : LosesLoopTargets (resolveCode mapping catalog code).1 := by
  intro k target x z hx hjump hlt htarget hz
  rw [isDead_getElem?_resolveCode hcode rfl hz, iff_and_self]
  -- A plain jump would itself be one that leads to its target.
  rintro ⟨-, hnone⟩ hop
  have hx' : ((resolveCode mapping catalog code).1.take target)[k]? = some x := by
    rw [List.getElem?_take_of_lt hlt, hx]
  exact hnone ⟨k, x, hx', hjump.1, hop, htarget⟩

/-- The operations of a program can always be identified, prototype by prototype. -/
theorem exists_resolveOpcodes (mapping : Mapping) (catalog : Catalog) (root : Prototype) :
    ∃ out, (resolveOpcodes mapping catalog root).runStep.1 = .ok out ∧
      List.Forall₂ (fun f g => (resolveCode mapping catalog f.instructions).1 = g.instructions)
        root.all out.all := by
  obtain ⟨out, hout⟩ : ∃ out, (resolveOpcodes mapping catalog root).runStep.1 = .ok out := by
    rw [runStep_resolveOpcodes_fst, Prototype.exists_mapBody_eq_ok_iff]
    exact fun _ _ => ⟨_, rfl⟩
  refine ⟨out, hout, ?_⟩
  rw [runStep_resolveOpcodes_fst] at hout
  refine (Prototype.forall₂_all_of_mapBody hout).imp fun f g h => ?_
  exact congrArg Prod.fst (Except.ok.inj h)

/-- In every program as it is read, the operations can be identified, and then the target of
    a plain jump that comes before it is never padding. The target of a loop is padding just
    if a return comes right before it, but for padding, and no plain jump leads to it. -/
theorem resolveOpcodes_target_isDead_iff (mapping : Mapping) (catalog : Catalog)
    {root : Prototype} (hroot : ∀ f ∈ root.all, ∀ i ∈ f.instructions, IsFresh i) :
    ∃ out, (resolveOpcodes mapping catalog root).runStep.1 = .ok out ∧
      List.Forall₂ (fun _ g => LosesLoopTargets g.instructions) root.all out.all := by
  obtain ⟨out, hout, hall⟩ := exists_resolveOpcodes mapping catalog root
  refine ⟨out, hout, (List.forall₂_and_left _ _ |>.2 ⟨hroot, hall⟩).imp ?_⟩
  rintro f g ⟨hfresh, hcode⟩
  rw [← hcode]
  exact losesLoopTargets_resolveCode hfresh mapping catalog

/-! ## A loop whose body returns -/

section

open Lua

/-- An operand of an instruction. -/
def operandExpr (name : String) : Expr := .index (.name "inst") (.name name)

/-- A register, counted from the first one of a loop. -/
def loopRegister (n : Float) : Expr :=
  .index (.name "stk") (.binary .add (.name "base") (.number n))

/-- The statement of a handler that jumps. -/
def jumpStmt : Stmt := .assign [.name "pc"] [operandExpr "OP_B"]

/-- The handler that starts a loop: it jumps past a loop that has no round. -/
def prepareLoop : Block :=
  [.localVars ["base"] [operandExpr "OP_A"],
   .localVars ["start"] [.index (.name "stk") (.name "base")],
   .localVars ["step"] [loopRegister 2],
   .ifThen (.binary .gt (.name "step") (.number 0))
     [.ifThen (.binary .gt (.name "start") (loopRegister 1)) [jumpStmt]
       (.block [.assign [loopRegister 3] [.name "start"]])]
     (.elseIf (.binary .lt (.name "start") (loopRegister 1)) [jumpStmt]
       (.block [.assign [loopRegister 3] [.name "start"]]))]

/-- The handler that ends a round of a loop: it jumps back to the next one. -/
def repeatLoop : Block :=
  [.localVars ["base"] [operandExpr "OP_A"],
   .localVars ["step"] [loopRegister 2],
   .localVars ["next"] [.binary .add (.index (.name "stk") (.name "base")) (.name "step")],
   .assign [.index (.name "stk") (.name "base")] [.name "next"],
   .ifThen (.binary .gt (.name "step") (.number 0))
     [.ifThen (.binary .le (.name "next") (loopRegister 1))
       [jumpStmt, .assign [loopRegister 3] [.name "next"]] .done]
     (.elseIf (.binary .ge (.name "next") (loopRegister 1))
       [jumpStmt, .assign [loopRegister 3] [.name "next"]] .done)]

/-- Handlers for the two ends of a loop and for a return. -/
def loopMapping : Mapping :=
  [(4, [.ofBlock prepareLoop]), (5, [.ofBlock [.ret []]]), (6, [.ofBlock repeatLoop])]

end

/-- Three records: the start of a loop, a return, and the end of the loop. -/
def loopData : List UInt8 :=
  [3, 0, 0, 0,
   2, 4, 0, 0, 0, 3, 0, 0, 0,
   0, 5, 0, 0, 0, 0, 0, 0, 0,
   2, 6, 0, 0, 0, 1, 0, 0, 0]

/-- The program of the three records. -/
def loopProgram : Prototype where
  name := "func_00000000"
  instructions :=
    [⟨0, 4, .unknown, 0, 3, 0, {}, 0⟩, ⟨1, 5, .unknown, 0, 0, 0, {}, 1⟩,
     ⟨2, 6, .unknown, 0, 1, 0, {}, 2⟩]

theorem resolveOpcodes_loopProgram_target_isDead_iff :
    ∃ out, (resolveOpcodes loopMapping standardCatalog loopProgram).runStep.1 = .ok out ∧
      List.Forall₂ (fun _ g => LosesLoopTargets g.instructions) loopProgram.all out.all :=
  resolveOpcodes_target_isDead_iff loopMapping standardCatalog (by decide)

/-- The program with its operations identified. -/
def resolvedLoopProgram : Prototype where
  name := "func_00000000"
  instructions :=
    [⟨0, 4, .forPrep, 0, 1, 0, {}, 0⟩, ⟨1, 5, .ret, 0, 0, 0, {}, 1⟩,
     ⟨2, 6, .unknown, 0, 1, 0, { dead := true }, 2⟩]

/-- The start of the loop leads to the end of the loop, which is marked as padding. -/
theorem resolveOpcodes_loopProgram_marks_target :
    Packed.read codeFormat loopData = .ok loopProgram ∧
      (resolveOpcodes loopMapping standardCatalog loopProgram).runStep.1 =
        .ok resolvedLoopProgram ∧
      ∃ x z, resolvedLoopProgram.instructions[0]? = some x ∧ x.opcode = .forPrep ∧
        IsLiveJump x ∧ (2 : Int) = (0 : Int) + x.b.toInt + 1 ∧
        resolvedLoopProgram.instructions[2]? = some z ∧ z.isDead = true := by
  have hcode : (resolveCode loopMapping standardCatalog loopProgram.instructions).1 =
      resolvedLoopProgram.instructions := by decide
  refine ⟨rfl, ?_, _, _, rfl, rfl, by decide, by decide, rfl, rfl⟩
  rw [runStep_resolveOpcodes_fst, Prototype.mapBody_eq_ok_iff, hcode]
  exact ⟨rfl, rfl, rfl⟩

end LuaUnpack.Recover
