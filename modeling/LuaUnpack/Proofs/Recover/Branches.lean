import LuaUnpack.Proofs.Recover.Positions

/-!
# Branches

A test sends control to the next instruction, or to the one after it, and plain jumps send
it on from there (`Reaches`). Restoring the control flow turns a test before two plain
jumps around and drops the first of them, wherever that leads. Where control goes afterwards
can be told from the code as it was: dropped jumps are passed over, and a test that was
turned around goes past both jumps in place of taking the first (`Branches`). This is where
it went before if each dropped jump leads just past the second one and nothing but its test
leads to it (`DropsNegations`), and need not be otherwise.
-/

namespace LuaUnpack.Recover

open LuaUnpack.Chunk

/-! ## Following jumps -/

/-- Whether control that is at an index, follows plain jumps and passes over some of them
    comes to an instruction, by identity, that is not a plain jump. -/
inductive Follows (passed : Nat → Bool) (code : List Instruction) : Nat → Nat → Prop
  | stop {k : Nat} {i : Instruction} (hi : code[k]? = some i) (hleft : passed k = false)
      (hop : i.opcode ≠ .jmp) : Follows passed code k i.id
  | jump {k target id : Nat} {i : Instruction} (hi : code[k]? = some i)
      (hleft : passed k = false) (hop : i.opcode = .jmp)
      (htarget : (target : Int) = (k : Int) + i.b.toInt + 1)
      (h : Follows passed code target id) : Follows passed code k id
  | pass {k id : Nat} (hpassed : passed k = true) (h : Follows passed code (k + 1) id) :
      Follows passed code k id

/-- Whether control that is at an index and follows plain jumps comes to an instruction. -/
def Reaches (code : List Instruction) : Nat → Nat → Prop := Follows (fun _ => false) code

/-- Control comes to one instruction at most. -/
theorem Follows.unique {passed : Nat → Bool} {code : List Instruction} {k a b : Nat}
    (ha : Follows passed code k a) (hb : Follows passed code k b) : a = b := by
  -- Where control is says which step comes next: a stop, a jump, or a dropped instruction.
  induction ha with
  | stop hi hleft hop =>
    cases hb with
    | stop hi' => rw [Option.some.inj (hi.symm.trans hi')]
    | jump hi' _ hop' => exact absurd (Option.some.inj (hi.symm.trans hi') ▸ hop') hop
    | pass hpassed => simp [hleft] at hpassed
  | jump hi hleft hop htarget _ ih =>
    cases hb with
    | stop hi' _ hop' => exact absurd (Option.some.inj (hi.symm.trans hi') ▸ hop) hop'
    | jump hi' _ _ htarget' h =>
      obtain rfl := Option.some.inj (hi.symm.trans hi')
      obtain rfl := Int.ofNat_inj.1 (htarget.trans htarget'.symm)
      exact ih h
    | pass hpassed => simp [hleft] at hpassed
  | pass hpassed _ ih =>
    cases hb with
    | stop _ hleft => simp [hpassed] at hleft
    | jump _ hleft => simp [hpassed] at hleft
    | pass _ h => exact ih h

theorem reaches_self {code : List Instruction} {k : Nat} {i : Instruction}
    (hi : code[k]? = some i) (hop : i.opcode ≠ .jmp) : Reaches code k i.id := .stop hi rfl hop

theorem reaches_jmp_iff {code : List Instruction} {k target id : Nat} {i : Instruction}
    (hi : code[k]? = some i) (hop : i.opcode = .jmp)
    (htarget : (target : Int) = (k : Int) + i.b.toInt + 1) :
    Reaches code k id ↔ Reaches code target id := by
  refine ⟨fun h => ?_, fun h => .jump hi rfl hop htarget h⟩
  cases h with
  | stop hi' _ hop' => exact absurd (Option.some.inj (hi.symm.trans hi') ▸ hop) hop'
  | jump hi' _ _ htarget' h =>
    obtain rfl := Option.some.inj (hi.symm.trans hi')
    obtain rfl := Int.ofNat_inj.1 (htarget.trans htarget'.symm)
    exact h
  | pass hpassed => cases hpassed

/-! ## Following jumps in restored code -/

namespace Restored

variable {code made restored : List Instruction} {k p id : Nat}

/-- Control that passes over dropped jumps comes to the same instruction as in restored
    code. -/
theorem reaches_of_follows (h : Restored code made restored)
    (hfollows : Follows (isDropped code) code k id)
    (hk : StandsFor code made (pastDropped code k) p) : Reaches restored p id := by
  -- Each step of the control, but one over a dropped jump, is a step of the restored code.
  induction hfollows generalizing p with
  | stop hi hleft hop =>
    rw [pastDropped_of_not_dropped hleft] at hk
    obtain ⟨i', hi', hid, hop', -⟩ := h.exists_getElem? hk hi
    rw [← hid]
    exact .stop hi' rfl (hop' ▸ hop)
  | jump hi hleft hop htarget _ ih =>
    rw [pastDropped_of_not_dropped hleft] at hk
    obtain ⟨i', hi', -, hop', -⟩ := h.exists_getElem? hk hi
    obtain ⟨target, position, htarget', hposition, hstands⟩ := h.jump hk hi hop hi'
    obtain rfl := Int.ofNat_inj.1 (htarget.trans htarget'.symm)
    exact .jump hi' rfl (hop'.trans hop) hposition (ih hstands)
  | pass hpassed _ ih => exact ih (pastDropped_succ_of_dropped hpassed ▸ hk)

theorem follows_of_pastDropped (h : Follows (isDropped code) code (pastDropped code k) id) :
    Follows (isDropped code) code k id := by
  rw [pastDropped] at h
  split at h
  next hd => exact .pass hd h
  next => exact h

theorem follows_of_reaches (h : Restored code made restored) (hreaches : Reaches restored p id)
    (hk : StandsFor code made (pastDropped code k) p) : Follows (isDropped code) code k id := by
  have hleft := isDropped_pastDropped code k
  -- It is enough to go on from behind the dropped jumps, where the two stand for each other.
  refine follows_of_pastDropped ?_
  unfold Reaches at hreaches
  induction hreaches generalizing k with
  | stop hi' _ hop =>
    obtain ⟨i, hi, hid, hop'⟩ := h.exists_of_getElem? hk hi'
    rw [hid]
    exact .stop hi hleft (hop' ▸ hop)
  | jump hi' _ hop hposition _ ih =>
    obtain ⟨i, hi, -, hop'⟩ := h.exists_of_getElem? hk hi'
    obtain ⟨target, position, htarget, hposition', hstands⟩ :=
      h.jump hk hi (hop'.symm.trans hop) hi'
    obtain rfl := Int.ofNat_inj.1 (hposition.trans hposition'.symm)
    have hrest := ih hstands (isDropped_pastDropped code target)
    exact .jump hi hleft (hop'.symm.trans hop) htarget (follows_of_pastDropped hrest)
  | pass hpassed => cases hpassed

theorem reaches_iff (h : Restored code made restored)
    (hk : StandsFor code made (pastDropped code k) p) :
    Reaches restored p id ↔ Follows (isDropped code) code k id :=
  ⟨fun hreaches => h.follows_of_reaches hreaches hk,
    fun hfollows => h.reaches_of_follows hfollows hk⟩

end Restored

/-! ## Tests -/

/-- A truth value as an operand. -/
def IsBit (n : Int32) : Prop := n = 0 ∨ n = 1
deriving Decidable

/-- Whether a test is at an index of code and at a position of restored code. Its polarity and
    the outcome are truth values. -/
structure TestAt (code restored : List Instruction) (k k' : Nat) (i i' : Instruction)
    (outcome : Int32) : Prop where
  getElem?_code : code[k]? = some i
  isTest : isTest i = true
  getElem?_restored : restored[k']? = some i'
  id_eq : i'.id = i.id
  isBit_polarity : IsBit (polarity i)
  isBit_outcome : IsBit outcome

/-- The index to which a test at an index sends control: the next one if the outcome is the
    polarity, and the one after it otherwise. -/
def branch (k : Nat) (i : Instruction) (outcome : Int32) : Nat :=
  if outcome = polarity i then k + 1 else k + 2

/-- The index at which control goes on, in the code as it was, from a test of restored code.
    A test that was turned around goes past both jumps in place of taking the first. -/
def restoredBranch (code : List Instruction) (k : Nat) (i : Instruction) (outcome : Int32) :
    Nat :=
  if outcome = polarity i then if isFlipped code k then k + 3 else k + 1 else k + 2

/-- Whether an outcome of a test leads past a tail call to a return that is added. -/
def MeetsReturn (code : List Instruction) (k : Nat) (i : Instruction) (outcome : Int32) : Prop :=
  outcome ≠ polarity i ∧ addsReturn code (k + 1) = true

theorem eq_flipped_iff {n outcome : Int32} (hn : IsBit n) (houtcome : IsBit outcome) :
    outcome = flipped n ↔ outcome ≠ n := by
  rcases hn with rfl | rfl <;> rcases houtcome with rfl | rfl <;> decide

section

variable {code made restored : List Instruction} {k k' id : Nat} {i i' : Instruction}
  {outcome : Int32}

namespace TestAt

theorem standsFor (h : TestAt code restored k k' i i' outcome)
    (hrestored : Restored code made restored) : StandsFor code made k k' :=
  hrestored.standsFor_of_id_eq (isDropped_of_isTest h.getElem?_code h.isTest) h.getElem?_code
    h.getElem?_restored h.id_eq

theorem polarity_eq (h : TestAt code restored k k' i i' outcome)
    (hrestored : Restored code made restored) :
    polarity i' = if isFlipped code k then flipped (polarity i) else polarity i := by
  obtain ⟨j, hj, -, -, hpolarity⟩ :=
    hrestored.exists_getElem? (h.standsFor hrestored) h.getElem?_code
  obtain rfl := Option.some.inj (h.getElem?_restored.symm.trans hj)
  exact hpolarity

/-- The position after a test stands for the next index, or for the one after that if the
    test was turned around. -/
theorem standsFor_succ (h : TestAt code restored k k' i i' outcome)
    (hrestored : Restored code made restored) :
    StandsFor code made (pastDropped code (k + 1)) (k' + 1) :=
  (h.standsFor hrestored).next (addsReturn_of_isTest h.getElem?_code h.isTest)

theorem reaches_iff_of_isFlipped (h : TestAt code restored k k' i i' outcome)
    (hrestored : Restored code made restored) (hflip : isFlipped code k = true) :
    Reaches restored (branch k' i' outcome) id ↔
      Follows (isDropped code) code (restoredBranch code k i outcome) id := by
  obtain ⟨-, x, y, -, -, hx, hxop, hy, hyop⟩ := isFlipped_eq_true_iff.1 hflip
  have hnext := h.standsFor_succ hrestored
  -- The second jump is left, because the first one is not a test.
  have hsecond : isDropped code (k + 2) = false := isFlipped_of_jmp hx hxop
  have hfirst : isDropped code (k + 1) = true := hflip
  rw [pastDropped_of_dropped hfirst] at hnext
  rw [branch, restoredBranch, h.polarity_eq hrestored, hflip, if_pos rfl, if_pos rfl]
  by_cases houtcome : outcome = polarity i
  · rw [if_pos houtcome, if_neg (mt (eq_flipped_iff h.isBit_polarity h.isBit_outcome).1
      (not_not.2 houtcome))]
    exact hrestored.reaches_iff (hnext.next (addsReturn_of_jmp hy hyop))
  · rw [if_neg houtcome, if_pos ((eq_flipped_iff h.isBit_polarity h.isBit_outcome).2 houtcome)]
    refine hrestored.reaches_iff ?_
    rwa [pastDropped_of_not_dropped hsecond]

theorem reaches_iff_of_not_isFlipped (h : TestAt code restored k k' i i' outcome)
    (hrestored : Restored code made restored) (hflip : isFlipped code k = false)
    (hmeets : ¬MeetsReturn code k i outcome) :
    Reaches restored (branch k' i' outcome) id ↔
      Follows (isDropped code) code (restoredBranch code k i outcome) id := by
  have hnext := h.standsFor_succ hrestored
  rw [branch, restoredBranch, h.polarity_eq hrestored, hflip, if_neg Bool.false_ne_true,
    if_neg Bool.false_ne_true]
  -- One outcome goes on to the next instruction, the other skips it. No return is added
  -- behind what is skipped, so that is one instruction in the restored code as well.
  by_cases houtcome : outcome = polarity i
  · rw [if_pos houtcome, if_pos houtcome]
    exact hrestored.reaches_iff hnext
  · rw [if_neg houtcome, if_neg houtcome]
    have hcall : addsReturn code (k + 1) = false :=
      Bool.eq_false_iff.2 fun hcall => hmeets ⟨houtcome, hcall⟩
    have hdropped : isDropped code (k + 1) = false := hflip
    rw [pastDropped_of_not_dropped hdropped] at hnext
    exact hrestored.reaches_iff (hnext.next hcall)

/-- Where control goes from a test of restored code. -/
theorem reaches_iff (h : TestAt code restored k k' i i' outcome)
    (hrestored : Restored code made restored) (hmeets : ¬MeetsReturn code k i outcome) :
    Reaches restored (branch k' i' outcome) id ↔
      Follows (isDropped code) code (restoredBranch code k i outcome) id := by
  cases hflip : isFlipped code k with
  | true => exact h.reaches_iff_of_isFlipped hrestored hflip
  | false => exact h.reaches_iff_of_not_isFlipped hrestored hflip hmeets

/-- A return that is added after a tail call can come in the way of a test. -/
theorem exists_reaches_return (h : TestAt code restored k k' i i' outcome)
    (hrestored : Restored code made restored) (hmeets : MeetsReturn code k i outcome) :
    ∃ id ∉ ids code, Reaches restored (branch k' i' outcome) id := by
  obtain ⟨houtcome, hcall⟩ := hmeets
  -- The test was not turned around, because a call follows it.
  have hflip : isFlipped code k = false := by
    refine Bool.eq_false_iff.2 fun hflip => ?_
    obtain ⟨-, x, -, -, -, hx, hop, -⟩ := isFlipped_eq_true_iff.1 hflip
    rw [addsReturn_of_jmp hx hop] at hcall
    cases hcall
  have hdropped : isDropped code (k + 1) = false := hflip
  have hnext := h.standsFor_succ hrestored
  rw [pastDropped_of_not_dropped hdropped] at hnext
  obtain ⟨-, r, hr, hop, hfresh⟩ := hnext.next_of_addsReturn hcall
  obtain ⟨b, hb⟩ := hrestored.offsets (k' + 2)
  have hr' : restored[k' + 2]? = some { r with b := b } := by rw [hb, hr, Option.map_some]
  have hreaches := reaches_self hr' (by rw [hop]; decide)
  refine ⟨r.id, fun hmem => ?_, ?_⟩
  · obtain ⟨j, hj, hid⟩ := List.mem_map.1 hmem
    exact Nat.not_le_of_lt (lt_freshId hj) (hid ▸ hfresh)
  · rw [branch, h.polarity_eq hrestored, hflip, if_neg Bool.false_ne_true, if_neg houtcome]
    exact hreaches

end TestAt

/-! ## Negated branches -/

/-- Whether code has a test before two plain jumps only where it negates a branch: the first
    jump leads just past the second one, no jump leads to the first one, and nor does a test
    that comes right before. No test comes right before a tail call without a return. -/
structure DropsNegations (code : List Instruction) : Prop where
  skips : ∀ (k : Nat) (x : Instruction), code[k]? = some x → isDropped code k = true →
    (k : Int) + x.b.toInt + 1 = k + 2
  untouched : ∀ (k : Nat) (x : Instruction), code[k]? = some x → x.opcode = .jmp →
    isDropped code ((k : Int) + x.b.toInt + 1).toNat = false
  apart : ∀ (k : Nat) (x : Instruction), code[k]? = some x → isTest x = true →
    isFlipped code (k + 1) = false ∧ addsReturn code (k + 1) = false

instance (code : List Instruction) : Decidable (DropsNegations code) :=
  decidable_of_iff
    (∀ p ∈ code.zipIdx, (isDropped code p.2 = true → (p.2 : Int) + p.1.b.toInt + 1 = p.2 + 2) ∧
      (p.1.opcode = .jmp → isDropped code ((p.2 : Int) + p.1.b.toInt + 1).toNat = false) ∧
      (isTest p.1 = true → isFlipped code (p.2 + 1) = false ∧ addsReturn code (p.2 + 1) = false))
    ⟨fun h => ⟨fun k x hx => (h (x, k) (List.mem_zipIdx_iff_getElem?.2 hx)).1,
      fun k x hx => (h (x, k) (List.mem_zipIdx_iff_getElem?.2 hx)).2.1,
      fun k x hx => (h (x, k) (List.mem_zipIdx_iff_getElem?.2 hx)).2.2⟩,
    fun h p hp => ⟨h.skips p.2 p.1 (List.mem_zipIdx_iff_getElem?.1 hp),
      h.untouched p.2 p.1 (List.mem_zipIdx_iff_getElem?.1 hp),
      h.apart p.2 p.1 (List.mem_zipIdx_iff_getElem?.1 hp)⟩⟩

/-- A jump does not lead to a dropped one. -/
theorem DropsNegations.isDropped_target {target : Nat} (h : DropsNegations code)
    (hi : code[k]? = some i) (hop : i.opcode = .jmp)
    (htarget : (target : Int) = (k : Int) + i.b.toInt + 1) : isDropped code target = false := by
  have := h.untouched k i hi hop
  rwa [← htarget, Int.toNat_natCast] at this

/-- Nothing is passed over where no jump leads to a dropped one. -/
theorem DropsNegations.follows_iff (h : DropsNegations code) (hk : isDropped code k = false) :
    Follows (isDropped code) code k id ↔ Reaches code k id := by
  constructor
  · intro hfollows
    -- No jump leads to a dropped instruction, so control never comes to one.
    induction hfollows with
    | stop hi _ hop => exact .stop hi rfl hop
    | jump hi _ hop htarget _ ih =>
      exact .jump hi rfl hop htarget (ih (h.isDropped_target hi hop htarget))
    | pass hpassed => rw [hk] at hpassed; cases hpassed
  · intro hreaches
    unfold Reaches at hreaches
    induction hreaches with
    | stop hi _ hop => exact .stop hi hk hop
    | jump hi _ hop htarget _ ih =>
      exact .jump hi hk hop htarget (ih (h.isDropped_target hi hop htarget))
    | pass hpassed => cases hpassed

/-- Where tests before two plain jumps only negate branches, control comes to the same
    instruction from each test as before. -/
theorem DropsNegations.reaches_iff (h : DropsNegations code)
    (ht : TestAt code restored k k' i i' outcome) (hrestored : Restored code made restored) :
    Reaches code (branch k i outcome) id ↔ Reaches restored (branch k' i' outcome) id := by
  obtain ⟨hnext, hcall⟩ := h.apart k i ht.getElem?_code ht.isTest
  have hmeets : ¬MeetsReturn code k i outcome := by simp [MeetsReturn, hcall]
  have hsecond : isDropped code (k + 2) = false := hnext
  rw [ht.reaches_iff hrestored hmeets, branch, restoredBranch]
  by_cases houtcome : outcome = polarity i
  · rw [if_pos houtcome, if_pos houtcome]
    cases hflip : isFlipped code k with
    | false =>
      have hfirst : isDropped code (k + 1) = false := hflip
      exact (h.follows_iff hfirst).symm
    | true =>
      -- The dropped jump leads where control goes without it.
      obtain ⟨-, x, y, -, -, hx, hxop, hy, hyop⟩ := isFlipped_eq_true_iff.1 hflip
      have hthird : isDropped code (k + 3) = false := isFlipped_of_jmp hy hyop
      rw [if_pos rfl, h.follows_iff hthird]
      exact reaches_jmp_iff hx hxop (by have := h.skips (k + 1) x hx hflip; omega)
  · rw [if_neg houtcome, if_neg houtcome]
    exact (h.follows_iff hsecond).symm

-- A negated branch, and the same with a first jump that leads elsewhere.
example : DropsNegations [.ofOpcode 0 .eq 1 0 1, .ofOpcode 1 .jmp 0 1 0, .ofOpcode 2 .jmp 0 1 0,
    .ofOpcode 3 .move 0 1 0, .ofOpcode 4 .ret 0 1 0] ∧
    ¬DropsNegations [.ofOpcode 0 .eq 1 0 1, .ofOpcode 1 .jmp 0 2 0, .ofOpcode 2 .jmp 0 1 0,
      .ofOpcode 3 .move 0 1 0, .ofOpcode 4 .ret 0 1 0] := by decide

end

/-! ## Programs -/

/-- Whether control goes from the tests of restored code as told: all tests are left, and
    from each control goes where it goes in the code if dropped jumps are passed over, the
    first jump after a test that was turned around is not taken, and returns are met that
    were added. If only negated branches are turned around, that is where it went before. -/
structure Branches (code restored : List Instruction) : Prop where
  survives : ∀ (k : Nat) (i : Instruction), code[k]? = some i → isTest i = true →
    ∃ (k' : Nat) (i' : Instruction), restored[k']? = some i' ∧ i'.id = i.id
  leads : ∀ {k k' : Nat} {i i' : Instruction} {outcome : Int32},
    TestAt code restored k k' i i' outcome → ¬MeetsReturn code k i outcome →
    ∀ id, Reaches restored (branch k' i' outcome) id ↔
      Follows (isDropped code) code (restoredBranch code k i outcome) id
  returns : ∀ {k k' : Nat} {i i' : Instruction} {outcome : Int32},
    TestAt code restored k k' i i' outcome → MeetsReturn code k i outcome →
    ∃ id ∉ ids code, Reaches restored (branch k' i' outcome) id
  keeps : DropsNegations code → ∀ {k k' : Nat} {i i' : Instruction} {outcome : Int32},
    TestAt code restored k k' i i' outcome →
    ∀ id, Reaches code (branch k i outcome) id ↔ Reaches restored (branch k' i' outcome) id

theorem Restored.branches {code made restored : List Instruction}
    (h : Restored code made restored) : Branches code restored where
  survives k i hi htest := by
    obtain ⟨p, hp⟩ := exists_standsFor h.standsFor k
    rw [pastDropped_of_not_dropped (isDropped_of_isTest hi htest)] at hp
    obtain ⟨i', hi', hid, -⟩ := h.exists_getElem? hp hi
    exact ⟨p, i', hi', hid⟩
  leads ht hmeets _ := ht.reaches_iff h hmeets
  returns ht hmeets := ht.exists_reaches_return h hmeets
  keeps hnegations _ _ _ _ _ ht _ := hnegations.reaches_iff ht h

/-- The control flow of a program without padding, in which identities are distinct and jumps
    lead to instructions, can be restored, and then control goes from its tests as told. -/
theorem restoreControlFlow_branches {root : Prototype}
    (hids : ∀ f ∈ root.all, (ids f.instructions).Nodup)
    (hlive : ∀ f ∈ root.all, ∀ i ∈ f.instructions, i.isDead = false)
    (hrange : ∀ f ∈ root.all, JumpsInRange f.instructions) :
    ∃ out, (restoreControlFlow root).runStep.1 = .ok out ∧
      List.Forall₂ (fun f g => g.instructions.length ≤ twoPow 31 →
        Branches f.instructions g.instructions) root.all out.all := by
  obtain ⟨out, hout, hall⟩ := exists_restoreControlFlow hrange
  refine ⟨out, hout, (List.forall₂_and_left _ _ |>.2
    ⟨fun f hf => And.intro (hids f hf) (hlive f hf), hall⟩).imp ?_⟩
  rintro f g ⟨⟨hids, hlive⟩, warnings, hrestore⟩ hshort
  obtain ⟨made, hrestored⟩ := restored_of_restoreCode hids hlive hrestore hshort
  exact hrestored.branches

/-- A loop that is left if a test holds and has an else part otherwise. The else part is jumped
    over at the end of the other part, which is the jump out of the loop. -/
def breakProgram : Prototype where
  instructions := [
    .ofOpcode 0 .eq 0 1 2,
    .ofOpcode 1 .jmp 0 2 0,
    .ofOpcode 2 .jmp 0 3 0,
    .ofOpcode 3 .jmp 0 1 0,
    .ofOpcode 4 .move 0 1 0,
    .ofOpcode 5 .jmp 0 (-6) 0,
    .ofOpcode 6 .ret 0 1 0]

theorem restoreControlFlow_breakProgram_branches :
    ∃ out, (restoreControlFlow breakProgram).runStep.1 = .ok out ∧
      List.Forall₂ (fun f g => g.instructions.length ≤ twoPow 31 →
        Branches f.instructions g.instructions) breakProgram.all out.all :=
  restoreControlFlow_branches (by decide) (by decide) (by decide)

/-- The program with its control flow restored. -/
def restoredBreakProgram : Prototype where
  instructions := [
    .ofOpcode 0 .eq 1 1 2,
    .ofOpcode 2 .jmp 0 3 0,
    .ofOpcode 3 .jmp 0 1 0,
    .ofOpcode 4 .move 0 1 0,
    .ofOpcode 5 .jmp 0 (-5) 0,
    .ofOpcode 6 .ret 0 1 0]

/-- If the test does not hold, control came to the else part; now it comes back to the test. -/
theorem restoreControlFlow_breakProgram_misses :
    (∀ i ∈ breakProgram.instructions, i.isDead = false) ∧
      JumpsInRange breakProgram.instructions ∧
      (restoreControlFlow breakProgram).runStep.1 = .ok restoredBreakProgram ∧
      ∃ i i', TestAt breakProgram.instructions restoredBreakProgram.instructions 0 0 i i' 0 ∧
        Reaches breakProgram.instructions (branch 0 i 0) 4 ∧
        ¬Reaches restoredBreakProgram.instructions (branch 0 i' 0) 4 := by
  have hcode : restoreCode breakProgram.instructions =
      .ok (restoredBreakProgram.instructions, []) := by decide +kernel
  refine ⟨by decide, by decide, ?_, .ofOpcode 0 .eq 0 1 2, .ofOpcode 0 .eq 1 1 2,
    ⟨rfl, rfl, rfl, rfl, by decide, by decide⟩, ?_, fun hreaches => ?_⟩
  · rw [runStep_restoreControlFlow_fst, Prototype.mapBody_eq_ok_iff, hcode]
    exact ⟨rfl, rfl, rfl⟩
  · have helse : Reaches breakProgram.instructions 4 4 :=
      reaches_self (i := .ofOpcode 4 .move 0 1 0) rfl (by decide)
    exact (reaches_jmp_iff (i := .ofOpcode 1 .jmp 0 2 0) rfl rfl (by decide)).2 helse
  · -- The jump over the else part leads to the end of the loop, and that back to the test.
    have htest : Reaches restoredBreakProgram.instructions 0 0 :=
      reaches_self (i := .ofOpcode 0 .eq 1 1 2) rfl (by decide)
    have hend : Reaches restoredBreakProgram.instructions 4 0 :=
      (reaches_jmp_iff (i := .ofOpcode 5 .jmp 0 (-5) 0) rfl rfl (by decide)).2 htest
    have hover : Reaches restoredBreakProgram.instructions 2 0 :=
      (reaches_jmp_iff (i := .ofOpcode 3 .jmp 0 1 0) rfl rfl (by decide)).2 hend
    exact absurd (hover.unique hreaches) (by decide)

end LuaUnpack.Recover
