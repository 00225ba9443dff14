import LuaUnpack.Proofs.Recover.Retarget

/-!
# Positions after restoring

Restoring the control flow of code without padding drops the first of two plain jumps after a
test (`isDropped`), turns the test around (`isFlipped`), and adds returns (`addsReturn`). A
position of restored code *stands for* an index of the code if what comes from there on is
made of what comes from the index on (`StandsFor`). Every index at which nothing is dropped
has a position (`exists_standsFor`), and plain jumps lead from position to position as they
did from index to index (`Restored.jump`).
-/

namespace LuaUnpack.Recover

open LuaUnpack.Chunk

/-! ## What is dropped and added -/

/-- Whether code starts with a test before two plain jumps. -/
def startsFlip : List Instruction → Bool
  | i :: j :: k :: _ => isTest i && j.opcode == .jmp && k.opcode == .jmp
  | _ => false

/-- Whether code starts with a tail call that no return follows. -/
def lacksReturn : List Instruction → Bool
  | i :: rest => i.opcode == .tailCall && (rest.head?.map (·.opcode)) != some .ret
  | [] => false

/-- Whether there is a test before two plain jumps at an index. -/
def isFlipped (code : List Instruction) (k : Nat) : Bool := startsFlip (code.drop k)

/-- Whether there is the first of two plain jumps after a test at an index. -/
def isDropped (code : List Instruction) : Nat → Bool
  | 0 => false
  | k + 1 => isFlipped code k

/-- The first index at or after an index at which nothing is dropped. -/
def pastDropped (code : List Instruction) (k : Nat) : Nat := if isDropped code k then k + 1 else k

/-- Whether there is a tail call that no return follows at an index. -/
def addsReturn (code : List Instruction) (k : Nat) : Bool := lacksReturn (code.drop k)

section

variable {code rest : List Instruction} {i : Instruction} {k : Nat}

theorem opcode_flipTest (i : Instruction) : (flipTest i).opcode = i.opcode := by
  rw [flipTest]
  split <;> rfl

theorem isTest_of_jmp (h : i.opcode = .jmp) : isTest i = false := by
  rw [isTest, h]
  rfl

theorem lacksReturn_cons_of_isTest (h : isTest i = true) : lacksReturn (i :: rest) = false := by
  have hop : i.opcode ≠ .tailCall := by
    rintro hop
    rw [isTest, hop] at h
    cases h
  simp [lacksReturn, hop]

theorem exists_of_startsFlip (h : startsFlip code = true) :
    ∃ i j k rest, code = i :: j :: k :: rest ∧ isTest i = true ∧ j.opcode = .jmp ∧
      k.opcode = .jmp := by
  rcases code with _ | ⟨i, _ | ⟨j, _ | ⟨k, rest⟩⟩⟩
  · cases h
  · cases h
  · cases h
  · rw [startsFlip, Bool.and_eq_true, Bool.and_eq_true, beq_iff_eq, beq_iff_eq] at h
    exact ⟨i, j, k, rest, rfl, h.1.1, h.1.2, h.2⟩

theorem isFlipped_eq_true_iff :
    isFlipped code k = true ↔ ∃ i x y, code[k]? = some i ∧ isTest i = true ∧
      code[k + 1]? = some x ∧ x.opcode = .jmp ∧ code[k + 2]? = some y ∧ y.opcode = .jmp := by
  have hdrop (n : Nat) : code[k + n]? = (code.drop k)[n]? := List.getElem?_drop.symm
  rw [isFlipped, hdrop 1, hdrop 2, ← Nat.add_zero k, hdrop 0, Nat.add_zero]
  rcases code.drop k with _ | ⟨i, _ | ⟨x, _ | ⟨y, rest⟩⟩⟩ <;> simp [startsFlip, and_assoc]

theorem isFlipped_of_jmp (hi : code[k]? = some i) (hop : i.opcode = .jmp) :
    isFlipped code k = false := by
  refine Bool.eq_false_iff.2 fun h => ?_
  obtain ⟨x, -, -, hx, htest, -⟩ := isFlipped_eq_true_iff.1 h
  obtain rfl := Option.some.inj (hi.symm.trans hx)
  rw [isTest_of_jmp hop] at htest
  cases htest

/-- A dropped instruction is a plain jump, and so is the one after it. -/
theorem exists_of_isDropped (h : isDropped code k = true) :
    ∃ x y, code[k]? = some x ∧ x.opcode = .jmp ∧ code[k + 1]? = some y ∧ y.opcode = .jmp := by
  cases k with
  | zero => cases h
  | succ k =>
    obtain ⟨-, x, y, -, -, hx⟩ := isFlipped_eq_true_iff.1 h
    exact ⟨x, y, hx⟩

theorem isDropped_of_isTest (hi : code[k]? = some i) (htest : isTest i = true) :
    isDropped code k = false := by
  refine Bool.eq_false_iff.2 fun h => ?_
  obtain ⟨x, -, hx, hjmp, -⟩ := exists_of_isDropped h
  obtain rfl := Option.some.inj (hi.symm.trans hx)
  rw [isTest_of_jmp hjmp] at htest
  cases htest

theorem pastDropped_of_not_dropped (h : isDropped code k = false) : pastDropped code k = k := by
  rw [pastDropped, h]
  rfl

theorem pastDropped_of_dropped (h : isDropped code k = true) : pastDropped code k = k + 1 := by
  rw [pastDropped, h]
  rfl

/-- Of two adjacent instructions only one is dropped. -/
theorem isDropped_pastDropped (code : List Instruction) (k : Nat) :
    isDropped code (pastDropped code k) = false := by
  cases h : isDropped code k with
  | true =>
    obtain ⟨x, -, hx, hjmp, -⟩ := exists_of_isDropped h
    rw [pastDropped_of_dropped h]
    exact isFlipped_of_jmp hx hjmp
  | false => rwa [pastDropped_of_not_dropped h]

/-- From a dropped instruction on, the first that is left is the first from the next on. -/
theorem pastDropped_succ_of_dropped (h : isDropped code k = true) :
    pastDropped code (k + 1) = pastDropped code k := by
  have hnext := isDropped_pastDropped code k
  rw [pastDropped_of_dropped h] at hnext ⊢
  exact pastDropped_of_not_dropped hnext

theorem addsReturn_of_isTest (hi : code[k]? = some i) (htest : isTest i = true) :
    addsReturn code k = false := by
  obtain ⟨hlt, rfl⟩ := List.getElem?_eq_some_iff.1 hi
  rw [addsReturn, List.drop_eq_getElem_cons hlt]
  exact lacksReturn_cons_of_isTest htest

theorem addsReturn_of_jmp (hi : code[k]? = some i) (hop : i.opcode = .jmp) :
    addsReturn code k = false := by
  obtain ⟨hlt, rfl⟩ := List.getElem?_eq_some_iff.1 hi
  rw [addsReturn, List.drop_eq_getElem_cons hlt, lacksReturn, hop]
  rfl

end

/-- The polarity of a test. -/
def polarity (i : Instruction) : Int32 := if i.opcode = .test then i.c else i.a

theorem polarity_flipTest (i : Instruction) : polarity (flipTest i) = flipped (polarity i) := by
  by_cases h : i.opcode = .test <;> simp [polarity, flipTest, h]

/-! ## Dropping and adding step by step -/

section

variable {rest : List Instruction} {i : Instruction} {next : Nat}

theorem dropFlips_nil (refs : References) : dropFlips [] refs = ([], refs) := by simp [dropFlips]

theorem exists_dropFlips_of_startsFlip {code : List Instruction} (h : startsFlip code = true)
    (refs : References) :
    ∃ i j rest refs', code = i :: j :: rest ∧ isTest i = true ∧
      (dropFlips code refs).1 = flipTest i :: (dropFlips rest refs').1 := by
  obtain ⟨i, j, k, rest, rfl, htest, -⟩ := exists_of_startsFlip h
  rw [startsFlip] at h
  refine ⟨i, j, k :: rest, forgetJump j.id k.id refs, rfl, htest, ?_⟩
  rw [dropFlips, if_pos h]

theorem dropFlips_cons_of_not (h : startsFlip (i :: rest) = false) (refs : References) :
    (dropFlips (i :: rest) refs).1 = i :: (dropFlips rest refs).1 := by
  rcases rest with _ | ⟨j, _ | ⟨k, rest⟩⟩
  · simp [dropFlips]
  · simp [dropFlips]
  · rw [startsFlip] at h
    rw [dropFlips, if_neg (Bool.eq_false_iff.1 h)]

theorem head?_dropFlips (code : List Instruction) (refs : References) :
    (dropFlips code refs).1.head? =
      code.head?.map fun i => if startsFlip code then flipTest i else i := by
  rcases code with _ | ⟨i, rest⟩
  · rw [dropFlips_nil]
    rfl
  cases h : startsFlip (i :: rest) with
  | false =>
    rw [dropFlips_cons_of_not h]
    simp
  | true =>
    obtain ⟨x, j, rest', refs', hcode, -, heq⟩ := exists_dropFlips_of_startsFlip h refs
    obtain ⟨rfl, -⟩ := List.cons.inj hcode
    rw [heq]
    simp

/-- Whether a return follows a call does not depend on the jumps that are dropped. -/
theorem lacksReturn_dropFlips (code : List Instruction) (refs : References) :
    lacksReturn (dropFlips code refs).1 = lacksReturn code := by
  rcases code with _ | ⟨i, rest⟩
  · rw [dropFlips_nil]
  cases h : startsFlip (i :: rest) with
  | false =>
    have hhead : (dropFlips rest refs).1.head?.map (·.opcode) = rest.head?.map (·.opcode) := by
      rw [head?_dropFlips, Option.map_map]
      congr 1
      funext x
      rw [Function.comp]
      split
      · exact opcode_flipTest x
      · rfl
    rw [dropFlips_cons_of_not h, lacksReturn, lacksReturn, hhead]
  | true =>
    -- A test is not a call, turned around or not.
    obtain ⟨x, j, rest', refs', hcode, htest, heq⟩ := exists_dropFlips_of_startsFlip h refs
    have htest' : isTest (flipTest x) = true := by rwa [isTest, opcode_flipTest]
    rw [heq, hcode, lacksReturn_cons_of_isTest htest', lacksReturn_cons_of_isTest htest]

theorem addReturns_cons_of_lacksReturn (h : lacksReturn (i :: rest) = true) :
    addReturns next (i :: rest) =
      i :: .ofOpcode next .ret i.a 0 0 :: addReturns (next + 1) rest := if_pos h

theorem addReturns_cons_of_not (h : lacksReturn (i :: rest) = false) :
    addReturns next (i :: rest) = i :: addReturns next rest := if_neg (Bool.eq_false_iff.1 h)

theorem head?_addReturns (next : Nat) (code : List Instruction) :
    (addReturns next code).head? = code.head? := by
  rcases code with _ | ⟨i, rest⟩
  · rfl
  cases h : lacksReturn (i :: rest) with
  | false => rw [addReturns_cons_of_not h]; rfl
  | true => rw [addReturns_cons_of_lacksReturn h]; rfl

end

/-! ## Positions and indices -/

/-- Whether a position of what is made of code stands for an index of the code: what comes
    from the position on is made of what comes from the index on. -/
def StandsFor (code made : List Instruction) (k p : Nat) : Prop :=
  ∃ next refs, freshId code ≤ next ∧
    made.drop p = addReturns next (dropFlips (code.drop k) refs).1

theorem standsFor_zero (code : List Instruction) (refs : References) :
    StandsFor code (addReturns (freshId code) (dropFlips code refs).1) 0 0 :=
  ⟨freshId code, refs, Nat.le_refl _, rfl⟩

section

variable {code made : List Instruction} {k p : Nat}

/-- At the position that stands for an index is the same instruction, turned around if it is
    a test before two plain jumps. -/
theorem StandsFor.getElem?_eq (h : StandsFor code made k p) :
    made[p]? = code[k]?.map fun i => if isFlipped code k then flipTest i else i := by
  obtain ⟨next, refs, -, hdrop⟩ := h
  rw [← List.head?_drop, hdrop, head?_addReturns, head?_dropFlips, List.head?_drop, isFlipped]

/-- The next position stands for the next index at which nothing is dropped, unless a return
    comes in between. -/
theorem StandsFor.next (h : StandsFor code made k p) (hcall : addsReturn code k = false) :
    StandsFor code made (pastDropped code (k + 1)) (p + 1) := by
  obtain ⟨next, refs, hnext, hdrop⟩ := h
  have htail : made.drop (p + 1) = (made.drop p).tail := List.tail_drop.symm
  have hcode : code.drop (k + 1) = (code.drop k).tail := List.tail_drop.symm
  rw [addsReturn] at hcall
  -- What is passed is one instruction, or a test with the jump that is dropped behind it.
  cases hflip : startsFlip (code.drop k) with
  | false =>
    have hdropped : isDropped code (k + 1) = false := hflip
    refine ⟨next, refs, hnext, ?_⟩
    rw [pastDropped_of_not_dropped hdropped, htail, hcode, hdrop]
    rcases hrest : code.drop k with _ | ⟨i, rest⟩
    · simp [dropFlips_nil, addReturns]
    · rw [hrest] at hflip hcall
      rw [← lacksReturn_dropFlips _ refs, dropFlips_cons_of_not hflip] at hcall
      rw [dropFlips_cons_of_not hflip, addReturns_cons_of_not hcall]
      rfl
  | true =>
    have hdropped : isDropped code (k + 1) = true := hflip
    have hcode' : code.drop (k + 1 + 1) = (code.drop k).tail.tail := by
      rw [← hcode, List.tail_drop]
    obtain ⟨i, j, rest, refs', hrest, -, heq⟩ := exists_dropFlips_of_startsFlip hflip refs
    rw [← lacksReturn_dropFlips _ refs, heq] at hcall
    refine ⟨next, refs', hnext, ?_⟩
    rw [pastDropped_of_dropped hdropped, htail, hcode', hdrop, heq, addReturns_cons_of_not hcall,
      hrest]
    rfl

/-- After a call that no return follows comes a return with an identity of its own, and then
    the next index. -/
theorem StandsFor.next_of_addsReturn (h : StandsFor code made k p)
    (hcall : addsReturn code k = true) :
    StandsFor code made (pastDropped code (k + 1)) (p + 2) ∧
      ∃ r, made[p + 1]? = some r ∧ r.opcode = .ret ∧ freshId code ≤ r.id := by
  obtain ⟨next, refs, hnext, hdrop⟩ := h
  rw [addsReturn] at hcall
  rcases hrest : code.drop k with _ | ⟨i, rest⟩
  · rw [hrest] at hcall
    cases hcall
  rw [hrest] at hcall hdrop
  -- A call is not a test, so that nothing is dropped after it.
  have hflip : startsFlip (i :: rest) = false := by
    refine Bool.eq_false_iff.2 fun h => ?_
    obtain ⟨x, j, y, rest', hcode, htest, -⟩ := exists_of_startsFlip h
    rw [hcode, lacksReturn_cons_of_isTest htest] at hcall
    cases hcall
  rw [← lacksReturn_dropFlips _ refs, dropFlips_cons_of_not hflip] at hcall
  rw [dropFlips_cons_of_not hflip, addReturns_cons_of_lacksReturn hcall] at hdrop
  have hcode : code.drop (k + 1) = rest := by rw [← List.tail_drop, hrest, List.tail_cons]
  have hdropped : isDropped code (k + 1) = false := by rwa [isDropped, isFlipped, hrest]
  constructor
  · refine ⟨next + 1, refs, Nat.le_succ_of_le hnext, ?_⟩
    rw [pastDropped_of_not_dropped hdropped, hcode, ← List.drop_drop, hdrop]
    rfl
  · refine ⟨.ofOpcode next .ret i.a 0 0, ?_, rfl, hnext⟩
    rw [← List.getElem?_drop, hdrop]
    rfl

/-- Every index at which nothing is dropped has a position. -/
theorem exists_standsFor (h : StandsFor code made 0 0) (k : Nat) :
    ∃ p, StandsFor code made (pastDropped code k) p := by
  induction k with
  | zero => exact ⟨0, h⟩
  | succ k ih =>
    obtain ⟨p, hp⟩ := ih
    cases hd : isDropped code k with
    | true => exact ⟨p, pastDropped_succ_of_dropped hd ▸ hp⟩
    | false =>
      rw [pastDropped_of_not_dropped hd] at hp
      cases hcall : addsReturn code k with
      | false => exact ⟨p + 1, hp.next hcall⟩
      | true => exact ⟨p + 2, (hp.next_of_addsReturn hcall).1⟩

end

/-! ## Jumps between positions -/

/-- The first of two jumps after a test is not left. -/
theorem not_mem_ids_of_isDropped {code : List Instruction} (hids : (ids code).Nodup)
    (refs : References) {k : Nat} {x : Instruction} (hx : code[k]? = some x)
    (hk : isDropped code k = true) : x.id ∉ ids (dropFlips code refs).1 := by
  fun_induction dropFlips code refs generalizing k with
  | case1 i j m rest refs hflip code' refs' hrec ih =>
    have hsub := (spans_dropFlips (m :: rest) (forgetJump j.id m.id refs)).sublist
    rw [hrec] at ih hsub
    rw [ids_cons, List.nodup_cons, ids_cons j, List.nodup_cons] at hids
    obtain ⟨hi, hj, hrest⟩ := hids
    rw [ids_cons, id_flipTest, List.mem_cons, not_or]
    rcases k with _ | _ | _ | k
    · cases hk
    · cases hx
      exact ⟨fun h => hi (h ▸ List.mem_cons_self), fun h => hj (hsub.mem h)⟩
    · -- The second jump comes after a jump, and not after a test.
      rw [Bool.and_eq_true, Bool.and_eq_true, beq_iff_eq] at hflip
      have hjump : isFlipped (i :: j :: m :: rest) 1 = false := isFlipped_of_jmp rfl hflip.1.2
      rw [isDropped, hjump] at hk
      cases hk
    · have hx' : (m :: rest)[k + 1]? = some x := hx
      have hmem : x.id ∈ ids (m :: rest) := List.mem_map_of_mem (List.mem_of_getElem? hx')
      exact ⟨fun h => hi (h ▸ List.mem_cons_of_mem _ hmem), ih hrest hx' hk⟩
  | case2 i j m rest refs hflip code' refs' hrec ih =>
    rw [hrec] at ih
    rw [ids_cons, List.nodup_cons] at hids
    rw [ids_cons, List.mem_cons, not_or]
    rcases k with _ | _ | k
    · cases hk
    · exact absurd hk hflip
    · have hx' : (j :: m :: rest)[k + 1]? = some x := hx
      have hmem : x.id ∈ ids (j :: m :: rest) := List.mem_map_of_mem (List.mem_of_getElem? hx')
      exact ⟨fun h => hids.1 (h ▸ hmem), ih hids.2 hx' hk⟩
  | case3 code refs hshort =>
    -- Code that is too short for a test and two jumps drops nothing.
    rcases k with _ | k
    · cases hk
    · obtain ⟨-, -, y, -, -, -, -, hy, -⟩ := isFlipped_eq_true_iff.1 hk
      rcases code with _ | ⟨a, _ | ⟨b, _ | ⟨c, rest⟩⟩⟩
      · cases hy
      · cases hy
      · cases hy
      · exact absurd rfl (hshort a b c rest)

/-- What the proofs about branches use of restored code. The offsets are those of jumps, and
    `made` is the code without them. -/
structure Restored (code made restored : List Instruction) : Prop where
  live : ∀ i ∈ code, i.isDead = false
  inRange : JumpsInRange code
  standsFor : StandsFor code made 0 0
  offsets : ∀ p : Nat, ∃ b : Int32,
    restored[p]? = made[p]?.map fun i : Instruction => { i with b := b }
  not_mem : ∀ (k : Nat) (i : Instruction), code[k]? = some i → isDropped code k = true →
    i.id ∉ ids restored
  retargets : Retargets code restored
  short : restored.length ≤ twoPow 31

theorem exists_b_setOffset (code : List Instruction) (refs : References) (index : Nat)
    (i : Instruction) : ∃ b, (setOffset code refs index i).1 = { i with b := b } := by
  rw [setOffset]
  split
  · exact ⟨i.b, rfl⟩
  · split
    · exact ⟨_, rfl⟩
    · exact ⟨i.b, rfl⟩

theorem restored_of_restoreCode {code restored : List Instruction} {warnings : List Warning}
    (hids : (ids code).Nodup) (hlive : ∀ i ∈ code, i.isDead = false)
    (h : restoreCode code = .ok (restored, warnings)) (hshort : restored.length ≤ twoPow 31) :
    ∃ made, Restored code made restored := by
  have hretargets := retargets_of_restoreCode hids h
  have hrange := (exists_restoreCode_iff code).1 ⟨_, h⟩
  obtain ⟨refs, -, heq⟩ := restoreCode_eq_ok_iff.1 h
  have hdead : dropDead code = code := by
    rw [dropDead, List.filter_eq_self]
    exact fun i hi => by simp [hlive i hi]
  rw [hdead] at heq
  generalize retarget (successor code) refs = refs at heq
  obtain rfl := congrArg Prod.fst heq
  refine ⟨addReturns (freshId code) (dropFlips code refs).1, hlive, hrange,
    standsFor_zero code refs, fun p => ?_, fun k i hi hk hmem => ?_, hretargets, hshort⟩
  · rw [getElem?_setOffsets]
    cases (addReturns (freshId code) (dropFlips code refs).1)[p]? with
    | none => exact ⟨0, rfl⟩
    | some i =>
      obtain ⟨b, hb⟩ := exists_b_setOffset (addReturns (freshId code) (dropFlips code refs).1)
        (dropFlips code refs).2 p i
      exact ⟨b, congrArg some hb⟩
  · -- A dropped instruction is not left, and what is added has a new number.
    rw [ids_setOffsets] at hmem
    rcases mem_ids_addReturns hmem with hmem | hle
    · exact not_mem_ids_of_isDropped hids refs hi hk hmem
    · exact Nat.not_le_of_lt (lt_freshId (List.mem_of_getElem? hi)) hle

theorem position?_of_getElem? {code : List Instruction} (hids : (ids code).Nodup) {p : Nat}
    {i : Instruction} (hi : code[p]? = some i) : position? code i.id = some p := by
  obtain ⟨q, hq, -⟩ := exists_position? (List.mem_map_of_mem (List.mem_of_getElem? hi))
  obtain ⟨hlt, hid, -⟩ := List.findIdx?_eq_some_iff_getElem.1 hq
  obtain ⟨hlt', rfl⟩ := List.getElem?_eq_some_iff.1 hi
  have hlen : (ids code).length = code.length := List.length_map _
  have heq : (ids code)[q] = (ids code)[p] := by simpa [ids] using hid
  rw [hq, (hids.getElem_inj_iff).1 heq]

namespace Restored

variable {code made restored : List Instruction} {k p : Nat} {i i' : Instruction}

/-- At the position that stands for an index is the same instruction, but for its offset and
    its polarity. -/
theorem exists_getElem? (h : Restored code made restored) (hk : StandsFor code made k p)
    (hi : code[k]? = some i) :
    ∃ i', restored[p]? = some i' ∧ i'.id = i.id ∧ i'.opcode = i.opcode ∧
      polarity i' = if isFlipped code k then flipped (polarity i) else polarity i := by
  obtain ⟨b, hb⟩ := h.offsets p
  rw [hk.getElem?_eq, hi] at hb
  refine ⟨_, hb, ?_⟩
  cases isFlipped code k with
  | false => exact ⟨rfl, rfl, rfl⟩
  | true => exact ⟨id_flipTest i, opcode_flipTest i, polarity_flipTest i⟩

theorem exists_of_getElem? (h : Restored code made restored) (hk : StandsFor code made k p)
    (hi' : restored[p]? = some i') :
    ∃ i, code[k]? = some i ∧ i'.id = i.id ∧ i'.opcode = i.opcode := by
  cases hi : code[k]? with
  | none =>
    obtain ⟨b, hb⟩ := h.offsets p
    rw [hk.getElem?_eq, hi, hi'] at hb
    cases hb
  | some i =>
    obtain ⟨j, hj, hid, hop, -⟩ := h.exists_getElem? hk hi
    obtain rfl := Option.some.inj (hi'.symm.trans hj)
    exact ⟨i, rfl, hid, hop⟩

/-- The first instruction left at or after an index is the one at the first index at which
    nothing is dropped. -/
theorem find?_isKept_drop (h : Restored code made restored)
    (hi : code[pastDropped code k]? = some i) (hmem : i.id ∈ ids restored) :
    (code.drop k).find? (isKept (ids restored)) = some i := by
  have hi' : isKept (ids restored) i := isKept_iff.2 hmem
  -- At most one instruction is passed over, and it is not kept.
  rw [pastDropped] at hi
  split at hi
  next hd =>
    obtain ⟨x, -, hx, -⟩ := exists_of_isDropped hd
    have hx' : ¬isKept (ids restored) x := fun hkept =>
      h.not_mem k x hx hd (isKept_iff.1 hkept)
    obtain ⟨hlt, rfl⟩ := List.getElem?_eq_some_iff.1 hx
    obtain ⟨hlt', rfl⟩ := List.getElem?_eq_some_iff.1 hi
    rw [List.drop_eq_getElem_cons hlt, List.find?_cons_of_neg hx',
      List.drop_eq_getElem_cons hlt', List.find?_cons_of_pos hi']
  next hd =>
    obtain ⟨hlt, rfl⟩ := List.getElem?_eq_some_iff.1 hi
    rw [List.drop_eq_getElem_cons hlt, List.find?_cons_of_pos hi']

/-- A plain jump leads to the position that stands for its target, or for the index after
    that if its target is dropped. -/
theorem jump (h : Restored code made restored) (hk : StandsFor code made k p)
    (hi : code[k]? = some i) (hop : i.opcode = .jmp) (hi' : restored[p]? = some i') :
    ∃ target position : Nat, (target : Int) = (k : Int) + i.b.toInt + 1 ∧
      (position : Int) = (p : Int) + i'.b.toInt + 1 ∧
      StandsFor code made (pastDropped code target) position := by
  have hjump : IsLiveJump i := ⟨h.live i (List.mem_of_getElem? hi), by rw [hop]; rfl⟩
  obtain ⟨hlow, hhigh⟩ := h.inRange k i hi hjump
  obtain ⟨target, htarget⟩ := Int.eq_ofNat_of_zero_le hlow
  have hlt : target < code.length := by omega
  -- Something is left there, and it has a position.
  obtain ⟨d, hd⟩ : ∃ d, code[pastDropped code target]? = some d := by
    rw [pastDropped]
    split
    next hdropped =>
      obtain ⟨-, y, -, -, hy, -⟩ := exists_of_isDropped hdropped
      exact ⟨y, hy⟩
    next => exact ⟨code[target], List.getElem?_eq_getElem hlt⟩
  obtain ⟨q, hq⟩ := exists_standsFor h.standsFor target
  obtain ⟨d', hd', hid', -⟩ := h.exists_getElem? hq hd
  have hmem : d.id ∈ ids restored := hid' ▸ List.mem_map_of_mem (List.mem_of_getElem? hd')
  -- The jump leads to the first instruction that is left.
  obtain ⟨j, hj, hid, -⟩ := h.exists_getElem? hk hi
  obtain rfl := Option.some.inj (hi'.symm.trans hj)
  have htargetLive : ∃ live ∈ code.drop target, live.isDead = false := by
    refine ⟨code[target], ?_, h.live _ (List.getElem_mem hlt)⟩
    rw [List.drop_eq_getElem_cons hlt]
    exact List.mem_cons_self
  obtain ⟨first, position, hfirst, hposition, -, hexact⟩ :=
    h.retargets.leads k p target i i' hi hjump hi' hid htarget.symm htargetLive
  obtain rfl := Option.some.inj ((h.find?_isKept_drop hd hmem).symm.trans hfirst)
  have hpq := position?_of_getElem? h.retargets.distinct hd'
  rw [hid', hposition] at hpq
  obtain rfl := Option.some.inj hpq
  exact ⟨target, position, htarget.symm, (hexact h.short).symm, hq⟩

theorem standsFor_of_id_eq (h : Restored code made restored) (hk : isDropped code k = false)
    (hi : code[k]? = some i) (hi' : restored[p]? = some i') (hid : i'.id = i.id) :
    StandsFor code made k p := by
  obtain ⟨q, hq⟩ := exists_standsFor h.standsFor k
  rw [pastDropped_of_not_dropped hk] at hq
  obtain ⟨j, hj, hid', -⟩ := h.exists_getElem? hq hi
  have hpq := position?_of_getElem? h.retargets.distinct hj
  rw [hid', ← hid, position?_of_getElem? h.retargets.distinct hi'] at hpq
  exact Option.some.inj hpq ▸ hq

end Restored

end LuaUnpack.Recover
