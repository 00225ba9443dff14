import LuaUnpack.Proofs.Recover.Padding

/-!
# Handlers over several instructions

A handler with several operations is shared out: an instruction takes the first operation
of those it is handed, and hands the others to the next instruction (`SharesOut`). An
instruction that is not the last of its function is therefore identified at most once.

The last instruction has none to hand its operations to and takes them all, up to one
after which it returns. So the instructions of a function are all identified at most once
just if the catalog has at most one of the operations that the last instruction takes
(`resolveOpcodes_once_iff`).
-/

namespace LuaUnpack.Recover

open LuaUnpack.Chunk LuaUnpack.Handler

/-! ## Operations handed to an instruction -/

/-- The operations of the handler with the number of an instruction. -/
def handlerOf (mapping : Mapping) (i : Instruction) : List MicroOp :=
  (mapping.get? i.opnum).getD []

/-- The operations that an instruction is handed on a visit. -/
def handedAt (mapping : Mapping) (index : Nat) (walk : Walk) (i : Instruction) : List MicroOp :=
  match walk.mode with
  | .start => handlerOf mapping i
  | .within ops => ops
  | .padding => if walk.targets.contains index then handlerOf mapping i else []

/-- The operations that instructions from an index on are handed. -/
def handedFrom (mapping : Mapping) (catalog : Catalog) (index : Nat) (walk : Walk) :
    List Instruction → List (List MicroOp)
  | [] => []
  | i :: rest =>
    handedAt mapping index walk i ::
      handedFrom mapping catalog (index + 1)
        (visit mapping catalog index rest.isEmpty walk i).walk rest

/-- The operations that the instructions of a function are handed. -/
def handed (mapping : Mapping) (catalog : Catalog) (code : List Instruction) :
    List (List MicroOp) :=
  handedFrom mapping catalog 0 {} code

/-- The operations of a list up to the first after which an instruction returns. -/
def untilReturn (catalog : Catalog) : List MicroOp → Instruction → List MicroOp
  | [], _ => []
  | op :: ops, i =>
    let i := (identify catalog op i).1
    if returns i then [op] else op :: untilReturn catalog ops i

/-- The operations that an instruction takes of those it is handed. -/
def taken (catalog : Catalog) (isLast : Bool) (ops : List MicroOp) (i : Instruction) :
    List MicroOp :=
  if isLast then untilReturn catalog ops i else ops.take 1

/-- What the catalog has for operations. -/
def known (catalog : Catalog) (ops : List MicroOp) : List Resolution :=
  ops.filterMap fun op => catalog.get? op.fingerprint

variable {mapping : Mapping} {catalog : Catalog} {index : Nat} {isLast : Bool}
  {targets : List Nat} {walk : Walk} {i x : Instruction} {code : List Instruction}

@[simp] theorem known_nil : known catalog [] = [] := rfl

theorem known_cons (catalog : Catalog) (op : MicroOp) (ops : List MicroOp) :
    known catalog (op :: ops) = (catalog.get? op.fingerprint).toList ++ known catalog ops := by
  rw [known, List.filterMap_cons]
  cases catalog.get? op.fingerprint <;> rfl

theorem length_known_le (catalog : Catalog) (ops : List MicroOp) :
    (known catalog ops).length ≤ ops.length :=
  List.length_filterMap_le _ _

theorem foundIn_eq_known_taken (ops : List MicroOp) :
    foundIn catalog isLast ops i = known catalog (taken catalog isLast ops i) := by
  cases isLast with
  | false => cases ops <;> simp [foundIn, taken, known_cons]
  | true =>
    change _ = known catalog (untilReturn catalog ops i)
    induction ops generalizing i with
    | nil => rfl
    | cons op ops ih =>
      rw [foundIn, untilReturn]
      cases hreturns : returns (identify catalog op i).1 with
      | true => simp [known_cons]
      | false => simp [known_cons, ih]

/-- What is found for an instruction is what is known for the operations it takes. -/
theorem foundAt_eq_known_taken :
    foundAt mapping catalog index isLast walk i =
      known catalog (taken catalog isLast (handedAt mapping index walk i) i) := by
  rw [foundAt, handedAt]
  cases walk.mode with
  | start => exact foundIn_eq_known_taken _
  | within ops => exact foundIn_eq_known_taken ops
  | padding =>
    dsimp only
    split
    · exact foundIn_eq_known_taken _
    · cases isLast <;> rfl

theorem visitStart_eq_takeOps :
    (visitStart mapping catalog index isLast targets i).instruction =
        (takeOps catalog index isLast targets (handlerOf mapping i) i).instruction ∧
      (visitStart mapping catalog index isLast targets i).walk =
        (takeOps catalog index isLast targets (handlerOf mapping i) i).walk := by
  rw [visitStart, handlerOf]
  cases mapping.get? i.opnum <;> exact ⟨rfl, rfl⟩

/-- A visit takes the operations that are handed to the instruction, but for the warning that
    it has no handler, or it marks the instruction as padding, which is handed none. -/
theorem visit_cases (mapping : Mapping) (catalog : Catalog) (index : Nat) (isLast : Bool)
    (walk : Walk) (i : Instruction) :
    ((visit mapping catalog index isLast walk i).instruction =
        (takeOps catalog index isLast walk.targets (handedAt mapping index walk i) i).instruction ∧
      (visit mapping catalog index isLast walk i).walk =
        (takeOps catalog index isLast walk.targets (handedAt mapping index walk i) i).walk) ∨
    walk.mode = .padding ∧ handedAt mapping index walk i = [] ∧
      visit mapping catalog index isLast walk i = ⟨i.markDead, walk, []⟩ := by
  rw [visit, handedAt]
  cases walk.mode with
  | start => exact .inl visitStart_eq_takeOps
  | within ops => exact .inl ⟨rfl, rfl⟩
  | padding =>
    dsimp only
    -- In padding a handler is started only where a jump leads to.
    by_cases htarget : walk.targets.contains index
    · rw [if_pos htarget, if_pos htarget]
      exact .inl visitStart_eq_takeOps
    · rw [if_neg htarget, if_neg htarget]
      exact .inr ⟨rfl, rfl, rfl⟩

/-- A visit makes of an instruction what is known for the operations it takes, or marks it
    as padding, which takes none. -/
theorem visit_instruction_of_handed :
    (visit mapping catalog index isLast walk i).instruction =
        applyAll i (known catalog (taken catalog isLast (handedAt mapping index walk i) i)) ∨
      (visit mapping catalog index isLast walk i).instruction = i.markDead ∧
        handedAt mapping index walk i = [] := by
  rcases visit_cases mapping catalog index isLast walk i with ⟨htakes, -⟩ | ⟨-, hnone, hmarks⟩
  · rw [htakes, takeOps_instruction, foundIn_eq_known_taken]
    exact .inl rfl
  · rw [hmarks]
    exact .inr ⟨rfl, hnone⟩

/-! ## How operations are handed on -/

/-- How the walk goes on after an instruction has taken operations. -/
def modeAfter (i : Instruction) : List MicroOp → Mode
  | [] => .start
  | _ :: ops => if returns i then .padding else if ops.isEmpty then .start else .within ops

theorem mode_takeOps (ops : List MicroOp) :
    (takeOps catalog index false targets ops i).walk.mode =
      modeAfter (takeOps catalog index false targets ops i).instruction ops := by
  cases ops with
  | nil => rfl
  | cons op ops =>
    rw [takeOps, modeAfter]
    generalize identify catalog op i = result
    obtain ⟨j, warnings⟩ := result
    cases hreturns : returns j <;> cases ops <;> simp [hreturns]

/-- After a visit, the walk stays at padding or goes on as the operations handed to the
    instruction tell. -/
theorem mode_visit :
    (visit mapping catalog index false walk i).walk.mode =
        modeAfter (visit mapping catalog index false walk i).instruction
          (handedAt mapping index walk i) ∨
      (visit mapping catalog index false walk i).walk.mode = .padding ∧
        handedAt mapping index walk i = [] := by
  rcases visit_cases mapping catalog index false walk i with
    ⟨htakes, hwalk⟩ | ⟨hmode, hnone, hmarks⟩
  · rw [htakes, hwalk]
    exact .inl (mode_takeOps _)
  · rw [hmarks]
    exact .inr ⟨hmode, hnone⟩

/-- What an instruction does not take goes to the next one, unless it returns. -/
theorem handedAt_visit_of_cons {op op' : MicroOp} {ops : List MicroOp}
    (h : handedAt mapping index walk i = op :: op' :: ops)
    (hreturns : returns (visit mapping catalog index false walk i).instruction = false) :
    handedAt mapping (index + 1) (visit mapping catalog index false walk i).walk x =
      op' :: ops := by
  rcases @mode_visit mapping catalog index walk i with hmode | ⟨-, hnone⟩
  · rw [h, modeAfter, hreturns] at hmode
    rw [handedAt, hmode]
    rfl
  · rw [h] at hnone
    cases hnone

/-- Once all operations are taken, or the function is left, none goes to the next instruction. -/
theorem modeAfter_of_done {y : Instruction} {ops : List MicroOp}
    (h : ops.length ≤ 1 ∨ returns y = true) :
    modeAfter y ops = .start ∨ modeAfter y ops = .padding := by
  match ops with
  | [] => exact .inl rfl
  | op :: ops =>
    rw [modeAfter]
    by_cases hreturns : returns y = true
    · exact .inr (if_pos hreturns)
    · have hlength := h.resolve_right hreturns
      rw [List.length_cons] at hlength
      have hnil : ops = [] := List.length_eq_zero_iff.1 (by omega)
      rw [if_neg hreturns, hnil]
      exact .inl rfl

/-- If nothing is left, the next instruction starts its handler or is marked as padding. -/
theorem handedAt_visit_of_done
    (h : (handedAt mapping index walk i).length ≤ 1 ∨
      returns (visit mapping catalog index false walk i).instruction = true) :
    handedAt mapping (index + 1) (visit mapping catalog index false walk i).walk x =
        handlerOf mapping x ∨
      handedAt mapping (index + 1) (visit mapping catalog index false walk i).walk x = [] ∧
        (visit mapping catalog (index + 1) isLast
          (visit mapping catalog index false walk i).walk x).instruction = x.markDead := by
  have hdone : (visit mapping catalog index false walk i).walk.mode = .start ∨
      (visit mapping catalog index false walk i).walk.mode = .padding := by
    rcases @mode_visit mapping catalog index walk i with hmode | ⟨hmode, -⟩
    · rw [hmode]
      exact modeAfter_of_done h
    · exact .inr hmode
  generalize (visit mapping catalog index false walk i).walk = next at hdone ⊢
  rcases hdone with hmode | hmode
  · exact .inl (by rw [handedAt, hmode])
  · rw [handedAt, visit, hmode]
    dsimp only
    by_cases htarget : next.targets.contains (index + 1)
    · exact .inl (if_pos htarget)
    · rw [if_neg htarget, if_neg htarget]
      exact .inr ⟨rfl, rfl⟩

/-! ## The walk before an instruction -/

/-- The walk before the instruction at an index of code, counted from where the walk
    stands. -/
def walkBefore (mapping : Mapping) (catalog : Catalog) :
    Nat → Walk → List Instruction → Nat → Walk
  | index, walk, i :: rest, k + 1 =>
    walkBefore mapping catalog (index + 1)
      (visit mapping catalog index rest.isEmpty walk i).walk rest k
  | _, walk, _, _ => walk

@[simp] theorem walkBefore_zero :
    walkBefore mapping catalog index walk code 0 = walk := by
  cases code <;> rfl

theorem walkBefore_succ {k : Nat} (hi : code[k]? = some i) (hk : k + 1 < code.length) :
    walkBefore mapping catalog index walk code (k + 1) =
      (visit mapping catalog (index + k) false (walkBefore mapping catalog index walk code k)
        i).walk := by
  -- The walk is unrolled from the front, while the step that is asked for is the last one.
  induction code generalizing index walk k with
  | nil => cases hi
  | cons j rest ih =>
    rw [walkBefore]
    cases k with
    | zero =>
      cases hi
      cases rest with
      | nil => simp at hk
      | cons j' rest => rfl
    | succ k =>
      rw [ih hi (by simpa using hk), walkBefore, Nat.add_assoc, Nat.add_comm 1]

theorem getElem?_handedFrom {k : Nat} (hi : code[k]? = some i) :
    (handedFrom mapping catalog index walk code)[k]? =
      some (handedAt mapping (index + k) (walkBefore mapping catalog index walk code k) i) := by
  induction code generalizing index walk k with
  | nil => cases hi
  | cons j rest ih =>
    rw [handedFrom]
    cases k with
    | zero =>
      cases hi
      rfl
    | succ k =>
      rw [List.getElem?_cons_succ, ih hi, walkBefore, Nat.add_assoc, Nat.add_comm 1]

theorem getElem?_resolveFrom_eq {k : Nat} (hi : code[k]? = some i) :
    (resolveFrom mapping catalog index walk code).1[k]? =
      some (visit mapping catalog (index + k) (k + 1 == code.length)
        (walkBefore mapping catalog index walk code k) i).instruction := by
  induction code generalizing index walk k with
  | nil => cases hi
  | cons j rest ih =>
    rw [resolveFrom_cons]
    cases k with
    | zero =>
      cases hi
      cases rest <;> rfl
    | succ k =>
      rw [List.getElem?_cons_succ, ih hi, walkBefore, Nat.add_assoc, Nat.add_comm 1]
      simp

theorem getElem?_foundFrom_eq {k : Nat} (hi : code[k]? = some i) :
    (foundFrom mapping catalog index walk code)[k]? =
      some (foundAt mapping catalog (index + k) (k + 1 == code.length)
        (walkBefore mapping catalog index walk code k) i) := by
  induction code generalizing index walk k with
  | nil => cases hi
  | cons j rest ih =>
    rw [foundFrom]
    cases k with
    | zero =>
      cases hi
      cases rest <;> rfl
    | succ k =>
      rw [List.getElem?_cons_succ, ih hi, walkBefore, Nat.add_assoc, Nat.add_comm 1]
      simp

@[simp] theorem length_handed : (handed mapping catalog code).length = code.length := by
  have hlength : ∀ index walk,
      (handedFrom mapping catalog index walk code).length = code.length := by
    induction code with
    | nil => exact fun _ _ => rfl
    | cons i rest ih => exact fun _ _ => congrArg (· + 1) (ih _ _)
  exact hlength 0 {}

@[simp] theorem length_resolutions :
    (resolutions mapping catalog code).length = code.length := by
  have hlength : ∀ index walk,
      (foundFrom mapping catalog index walk code).length = code.length := by
    induction code with
    | nil => exact fun _ _ => rfl
    | cons i rest ih => exact fun _ _ => congrArg (· + 1) (ih _ _)
  exact hlength 0 {}

/-! ## Code -/

/-- Whether the operations of handlers are shared out to the instructions of code in
    order, and make of it resolved code. -/
structure SharesOut (mapping : Mapping) (catalog : Catalog) (code resolved : List Instruction) :
    Prop where
  /-- An instruction becomes what is known for the operations it takes, or padding. -/
  becomes : ∀ k x y ops, code[k]? = some x → resolved[k]? = some y →
    (handed mapping catalog code)[k]? = some ops →
    y = applyAll x (known catalog (taken catalog (k + 1 == code.length) ops x)) ∨
      y = x.markDead ∧ ops = []
  /-- The first instruction starts its handler. -/
  starts : ∀ x, code[0]? = some x →
    (handed mapping catalog code)[0]? = some (handlerOf mapping x)
  /-- An instruction hands all operations but the first to the next one. -/
  handsOn : ∀ k op op' ops y, (handed mapping catalog code)[k]? = some (op :: op' :: ops) →
    resolved[k]? = some y → returns y = false → k + 1 < code.length →
    (handed mapping catalog code)[k + 1]? = some (op' :: ops)
  /-- If it has none to hand on or returns, the next one starts its handler or is padding. -/
  startsAnew : ∀ k x y z ops, (handed mapping catalog code)[k]? = some ops →
    resolved[k]? = some y → (ops.length ≤ 1 ∨ returns y = true) → code[k + 1]? = some x →
    resolved[k + 1]? = some z →
    (handed mapping catalog code)[k + 1]? = some (handlerOf mapping x) ∨
      (handed mapping catalog code)[k + 1]? = some [] ∧ z = x.markDead

theorem getElem?_handed {k : Nat} (hi : code[k]? = some i) :
    (handed mapping catalog code)[k]? =
      some (handedAt mapping k (walkBefore mapping catalog 0 {} code k) i) := by
  rw [handed, getElem?_handedFrom hi, Nat.zero_add]

theorem getElem?_resolveCode {k : Nat} (hi : code[k]? = some i) :
    (resolveCode mapping catalog code).1[k]? =
      some (visit mapping catalog k (k + 1 == code.length)
        (walkBefore mapping catalog 0 {} code k) i).instruction := by
  rw [resolveCode, getElem?_resolveFrom_eq hi, Nat.zero_add]

/-- What is found for an instruction is what is known for those of the operations it is
    handed that it takes. -/
theorem getElem?_resolutions {k : Nat} {ops : List MicroOp} (hi : code[k]? = some i)
    (hops : (handed mapping catalog code)[k]? = some ops) :
    (resolutions mapping catalog code)[k]? =
      some (known catalog (taken catalog (k + 1 == code.length) ops i)) := by
  rw [getElem?_handed hi] at hops
  rw [resolutions, getElem?_foundFrom_eq hi, foundAt_eq_known_taken, Nat.zero_add,
    Option.some.inj hops]

theorem exists_of_getElem?_handed {k : Nat} {ops : List MicroOp}
    (hops : (handed mapping catalog code)[k]? = some ops) : ∃ i, code[k]? = some i := by
  obtain ⟨hk, -⟩ := List.getElem?_eq_some_iff.1 hops
  rw [length_handed] at hk
  exact ⟨_, List.getElem?_eq_getElem hk⟩

/-- Identifying the operations of a function shares out those of its handlers. -/
theorem sharesOut_resolveCode (mapping : Mapping) (catalog : Catalog) (code : List Instruction) :
    SharesOut mapping catalog code (resolveCode mapping catalog code).1 where
  becomes k x y ops hx hy hops := by
    rw [getElem?_resolveCode hx] at hy
    rw [getElem?_handed hx] at hops
    cases hy
    cases hops
    exact visit_instruction_of_handed
  starts x hx := by
    rw [getElem?_handed hx, walkBefore_zero]
    rfl
  handsOn k op op' ops y hops hy hreturns hk := by
    obtain ⟨i, hi⟩ := exists_of_getElem?_handed hops
    obtain ⟨x, hx⟩ : ∃ x, code[k + 1]? = some x := ⟨_, List.getElem?_eq_getElem hk⟩
    rw [getElem?_handed hi] at hops
    have hnotLast : (k + 1 == code.length) = false := beq_false_of_ne (Nat.ne_of_lt hk)
    rw [getElem?_resolveCode hi, hnotLast] at hy
    cases hy
    rw [getElem?_handed hx, walkBefore_succ hi hk, Nat.zero_add,
      handedAt_visit_of_cons (Option.some.inj hops) hreturns]
  startsAnew k x y z ops hops hy hdone hx hz := by
    obtain ⟨i, hi⟩ := exists_of_getElem?_handed hops
    have hk : k + 1 < code.length := (List.getElem?_eq_some_iff.1 hx).1
    rw [getElem?_handed hi] at hops
    have hnotLast : (k + 1 == code.length) = false := beq_false_of_ne (Nat.ne_of_lt hk)
    rw [getElem?_resolveCode hi, hnotLast] at hy
    rw [getElem?_resolveCode hx, walkBefore_succ hi hk, Nat.zero_add] at hz
    cases hops
    cases hy
    cases hz
    rw [getElem?_handed hx, walkBefore_succ hi hk, Nat.zero_add]
    exact (handedAt_visit_of_done hdone).imp (congrArg some) (And.imp_left (congrArg some))

/-- Whether every instruction of code is identified at most once. -/
def IdentifiesOnce (mapping : Mapping) (catalog : Catalog) (code : List Instruction) : Prop :=
  ∀ found ∈ resolutions mapping catalog code, found.length ≤ 1

/-- Whether the catalog has at most one of the operations that the last instruction of code
    takes. -/
def LastIsKnownOnce (mapping : Mapping) (catalog : Catalog) (code : List Instruction) : Prop :=
  ∀ (k : Nat) (x : Instruction) (ops : List MicroOp), k + 1 = code.length → code[k]? = some x →
    (handed mapping catalog code)[k]? = some ops →
    (known catalog (untilReturn catalog ops x)).length ≤ 1

theorem identifiesOnce_iff :
    IdentifiesOnce mapping catalog code ↔ LastIsKnownOnce mapping catalog code := by
  constructor
  · intro honce k x ops hk hx hops
    have hfound := getElem?_resolutions hx hops
    rw [hk, BEq.rfl] at hfound
    exact honce _ (List.mem_of_getElem? hfound)
  · intro hlast found hfound
    obtain ⟨k, hk⟩ := List.mem_iff_getElem?.1 hfound
    have hlt : k < code.length := by
      have hlt := (List.getElem?_eq_some_iff.1 hk).1
      rwa [length_resolutions] at hlt
    have hx := List.getElem?_eq_getElem hlt
    have hops := @getElem?_handed mapping catalog _ code _ hx
    rw [getElem?_resolutions hx hops] at hk
    cases hk
    rw [taken]
    split
    · rename_i hislast
      exact hlast k _ _ (eq_of_beq hislast) hx hops
    · -- An instruction that is not the last takes one operation.
      exact (length_known_le _ _).trans (List.length_take_le _ _)

/-- The operations of handlers are always shared out, prototype by prototype, in order and
    one for each instruction but the last. The instructions are all identified at most once
    just if the catalog has at most one of the operations that the last one takes. -/
theorem resolveOpcodes_once_iff (mapping : Mapping) (catalog : Catalog) (root : Prototype) :
    ∃ out, (resolveOpcodes mapping catalog root).runStep.1 = .ok out ∧
      List.Forall₂ (fun f g =>
        SharesOut mapping catalog f.instructions g.instructions ∧
          (IdentifiesOnce mapping catalog f.instructions ↔
            LastIsKnownOnce mapping catalog f.instructions))
        root.all out.all := by
  obtain ⟨out, hout, hall⟩ := exists_resolveOpcodes mapping catalog root
  refine ⟨out, hout, hall.imp fun f g hcode => ⟨?_, identifiesOnce_iff⟩⟩
  rw [← hcode]
  exact sharesOut_resolveCode mapping catalog f.instructions

/-! ## A handler longer than the code -/

open Lua in
/-- The statement of a handler that reads a global variable. -/
def getGlobalStmt : Stmt :=
  .assign [.index (.name "stk") (operandExpr "OP_A")] [.index (.name "env") (operandExpr "OP_B")]

/-- A handler that reads global variables for two instructions. -/
def pairMapping : Mapping := [(4, [.ofBlock [getGlobalStmt], .ofBlock [getGlobalStmt]])]

/-- A function with one instruction, which reads the global variable with the name of
    number 5, counted from 1. -/
def singleProgram : Prototype where
  name := "func_00000000"
  instructions := [⟨0, 4, .unknown, 0, 5, 0, {}, 0⟩]

/-- The number of the name is decremented twice. -/
theorem resolveOpcodes_singleProgram_twice :
    ∃ out, (resolveOpcodes pairMapping standardCatalog singleProgram).runStep.1 = .ok out ∧
      resolutions pairMapping standardCatalog singleProgram.instructions =
        [[⟨.getGlobal, some .decrementB⟩, ⟨.getGlobal, some .decrementB⟩]] ∧
      out.instructions = [⟨0, 4, .getGlobal, 0, 3, 0, {}, 0⟩] :=
  ⟨_, rfl, by decide, by decide⟩

end LuaUnpack.Recover
