import LuaUnpack.Proofs.Recover.Positions

/-!
# What restoring leaves alone

Restoring the control flow drops padding and the first of two plain jumps after a test, turns
the test around, and adds returns after tail calls. Where it does so can be read off the code
without padding, index by index: the passes change the code while they go through it, but what
they still have before them is the rest of the code as it was (`dropFlips_eq`). Everything
else survives in its order, with all that it has but the offsets of jumps and the polarity of
tests that were turned around (`Survives`, `KeepsSurvivors`).
-/

namespace LuaUnpack.Recover

open LuaUnpack.Chunk

/-! ## What is left -/

/-- The instructions that are left of code from an index on: all but the first of two plain
    jumps after a test, each with whether it is a test that is turned around. -/
def leftFrom (code : List Instruction) (k : Nat) : List (Instruction × Bool) :=
  ((code.drop k).zipIdx k).filterMap fun (i, k) =>
    if isDropped code k then none else some (i, isFlipped code k)

/-- Where an instruction of restored code comes from: it is left, turned around or not, or it is
    a return that is added after a call with an operand `a`. -/
inductive Origin where
  | left (i : Instruction) (turned : Bool)
  | added (a : Int32)
deriving DecidableEq, Repr

/-- Instructions that are left, with a return after each tail call that none follows. -/
def withReturns (left : List (Instruction × Bool)) : List Origin :=
  left.zipIdx.flatMap fun ((i, turned), k) =>
    .left i turned ::
      if i.opcode = .tailCall ∧ left[k + 1]?.map (·.1.opcode) ≠ some .ret then [.added i.a] else []

/-- What an instruction is made of that is left, before offsets are set. -/
def turn (p : Instruction × Bool) : Instruction := if p.2 then flipTest p.1 else p.1

theorem opcode_turn (p : Instruction × Bool) : (turn p).opcode = p.1.opcode := by
  rw [turn]
  split
  · exact opcode_flipTest p.1
  · rfl

section

variable {code : List Instruction} {i : Instruction} {k : Nat}

theorem leftFrom_of_dropped (hk : isDropped code k = true) :
    leftFrom code k = leftFrom code (k + 1) := by
  obtain ⟨x, -, hx, -⟩ := exists_of_isDropped hk
  obtain ⟨hlt, rfl⟩ := List.getElem?_eq_some_iff.1 hx
  rw [leftFrom, List.drop_eq_getElem_cons hlt, List.zipIdx_cons, List.filterMap_cons, leftFrom]
  simp [hk]

theorem leftFrom_of_left (hi : code[k]? = some i) (hk : isDropped code k = false) :
    leftFrom code k = (i, isFlipped code k) :: leftFrom code (k + 1) := by
  obtain ⟨hlt, rfl⟩ := List.getElem?_eq_some_iff.1 hi
  rw [leftFrom, List.drop_eq_getElem_cons hlt, List.zipIdx_cons, List.filterMap_cons, leftFrom]
  simp [hk]

/-- From an index at which nothing is dropped, dropping goes on as if it looked at the whole
    code. -/
theorem dropFlips_eq (hk : isDropped code k = false) (refs : References) :
    (dropFlips (code.drop k) refs).1 = (leftFrom code k).map turn := by
  induction hn : code.length - k using Nat.strongRecOn generalizing k refs with
  | ind n ih =>
    cases hi : code[k]? with
    | none =>
      have hle := List.getElem?_eq_none_iff.1 hi
      simp [leftFrom, List.drop_eq_nil_of_le hle, dropFlips]
    | some i =>
      obtain ⟨hlt, hget⟩ := List.getElem?_eq_some_iff.1 hi
      have hdrop : code.drop k = i :: code.drop (k + 1) := by
        rw [List.drop_eq_getElem_cons hlt, hget]
      rw [leftFrom_of_left hi hk, List.map_cons]
      cases hflip : isFlipped code k with
      | false =>
        have hnext : isDropped code (k + 1) = false := hflip
        rw [isFlipped, hdrop] at hflip
        rw [hdrop, dropFlips_cons_of_not hflip, ih _ (by omega) hnext refs rfl]
        rfl
      | true =>
        -- The first jump is dropped, and the second one is not, because it comes after a jump.
        have hdropped : isDropped code (k + 1) = true := hflip
        have hnext := isDropped_pastDropped code (k + 1)
        rw [pastDropped_of_dropped hdropped] at hnext
        obtain ⟨x, j, rest, refs', hcode, -, heq⟩ := exists_dropFlips_of_startsFlip hflip refs
        have hrest : rest = code.drop (k + 1 + 1) := by
          rw [← List.tail_drop, ← List.tail_drop, hcode]
          rfl
        obtain ⟨rfl, -⟩ := List.cons.inj (hcode.symm.trans hdrop)
        rw [heq, hrest, leftFrom_of_dropped hdropped, ih _ (by omega) hnext refs' rfl]
        rfl

/-- What is left stands in the code, and is turned around where the code has a test before two
    plain jumps. -/
theorem exists_of_mem_leftFrom {p : Instruction × Bool} (h : p ∈ leftFrom code k) :
    ∃ n, code[n]? = some p.1 ∧ p.2 = isFlipped code n := by
  obtain ⟨⟨i, n⟩, hi, hp⟩ := List.mem_filterMap.1 h
  dsimp only at hp
  split at hp
  · simp at hp
  · obtain rfl := Option.some.inj hp
    obtain ⟨hle, hget⟩ := List.mem_zipIdx_iff_le_and_getElem?_sub.1 hi
    rw [List.getElem?_drop, Nat.add_sub_cancel' hle] at hget
    exact ⟨n, hget, rfl⟩

theorem isTest_of_mem_leftFrom {p : Instruction × Bool} (h : p ∈ leftFrom code k)
    (hturned : p.2 = true) : isTest p.1 = true := by
  obtain ⟨n, hn, hflip⟩ := exists_of_mem_leftFrom h
  obtain ⟨i, -, -, hi, htest, -⟩ := isFlipped_eq_true_iff.1 (hflip.symm.trans hturned)
  obtain rfl := Option.some.inj (hn.symm.trans hi)
  exact htest

end

/-! ## What is added -/

/-- Whether an instruction is made from its origin, if returns that are added have identities
    from a number on. -/
def IsMade (next : Nat) : Origin → Instruction → Prop
  | .left i turned, made => made = turn (i, turned)
  | .added a, made => ∃ id, next ≤ id ∧ made = .ofOpcode id .ret a 0 0

theorem IsMade.mono {next next' : Nat} (h : next ≤ next') {origin : Origin} {made : Instruction}
    (hmade : IsMade next' origin made) : IsMade next origin made := by
  cases origin with
  | left i turned => exact hmade
  | added a =>
    obtain ⟨id, hid, rfl⟩ := hmade
    exact ⟨id, h.trans hid, rfl⟩

theorem lacksReturn_map_turn (p : Instruction × Bool) (rest : List (Instruction × Bool)) :
    lacksReturn ((p :: rest).map turn) = true ↔
      p.1.opcode = .tailCall ∧ rest.head?.map (·.1.opcode) ≠ some .ret := by
  have hhead : (rest.map turn).head?.map (·.opcode) = rest.head?.map (·.1.opcode) := by
    rw [List.head?_map, Option.map_map]
    exact congrArg (rest.head?.map ·) (funext opcode_turn)
  rw [List.map_cons, lacksReturn, opcode_turn, hhead]
  simp

theorem withReturns_cons (p : Instruction × Bool) (rest : List (Instruction × Bool)) :
    withReturns (p :: rest) = Origin.left p.1 p.2 ::
      ((if lacksReturn ((p :: rest).map turn) then [Origin.added p.1.a] else []) ++
        withReturns rest) := by
  simp only [lacksReturn_map_turn, List.head?_eq_getElem?]
  rw [withReturns, List.zipIdx_cons', List.flatMap_cons, List.flatMap_map]
  rfl

/-- Returns are added where they are missing, if only tests are turned around. -/
theorem forall₂_addReturns {left : List (Instruction × Bool)}
    (htests : ∀ p ∈ left, p.2 = true → isTest p.1 = true) (next : Nat) :
    List.Forall₂ (IsMade next) (withReturns left) (addReturns next (left.map turn)) := by
  induction left generalizing next with
  | nil => exact .nil
  | cons p rest ih =>
    obtain ⟨hp, hrest⟩ := List.forall_mem_cons.1 htests
    rw [withReturns_cons]
    cases hcall : lacksReturn ((p :: rest).map turn) with
    | false =>
      rw [List.map_cons] at hcall ⊢
      rw [addReturns_cons_of_not hcall]
      exact .cons rfl (ih hrest next)
    | true =>
      -- A call is not turned around, so that the return gets its operand.
      have hop := ((lacksReturn_map_turn p rest).1 hcall).1
      have hturn : turn p = p.1 := by
        rw [turn, if_neg]
        intro hturned
        have htest := hp hturned
        rw [isTest, hop] at htest
        exact absurd htest (by decide)
      rw [List.map_cons] at hcall ⊢
      rw [addReturns_cons_of_lacksReturn hcall, hturn]
      exact .cons hturn.symm (.cons ⟨next, Nat.le_refl next, rfl⟩
        ((ih hrest (next + 1)).imp fun _ _ h => h.mono (Nat.le_succ next)))

/-- After returns are added, one follows each tail call. -/
theorem exists_ret_of_tailCall {code : List Instruction} {next k : Nat} {i : Instruction}
    (hi : (addReturns next code)[k]? = some i) (hop : i.opcode = .tailCall) :
    ∃ r, (addReturns next code)[k + 1]? = some r ∧ r.opcode = .ret := by
  fun_induction addReturns next code generalizing k with
  | case1 next => simp at hi
  | case2 next j rest hcall ih =>
    rcases k with _ | _ | k
    · exact ⟨_, rfl, rfl⟩
    · obtain rfl := Option.some.inj hi
      simp [Instruction.ofOpcode] at hop
    · exact ih hi
  | case3 next j rest hcall ih =>
    rcases k with _ | k
    · -- A return follows already, and nothing comes in between.
      obtain rfl := Option.some.inj hi
      obtain ⟨r, hr, hret⟩ : ∃ r, rest.head? = some r ∧ r.opcode = .ret := by
        simpa [hop] using hcall
      refine ⟨r, ?_, hret⟩
      rw [List.getElem?_cons_succ, ← List.head?_eq_getElem?, head?_addReturns, hr]
    · exact ih hi

/-! ## What is set -/

/-- Whether an identity is that of a jump that is not padding. -/
def IsJumpId (code : List Instruction) (id : Nat) : Prop := ∃ j ∈ code, IsLiveJump j ∧ j.id = id

/-- The identities that the jumps have from which offsets are set. -/
def sources (refs : References) : List Nat := refs.map (·.1)

theorem isJumpId_of_referencesFrom {code rest : List Instruction} {index id : Nat}
    {refs : References} (h : referencesFrom code index rest = .ok refs) (hid : id ∈ sources refs) :
    IsJumpId rest id := by
  induction rest generalizing index refs with
  | nil =>
    obtain rfl : refs = [] := (Except.ok.inj h).symm
    simp [sources] at hid
  | cons j rest ih =>
    have hmono : IsJumpId rest id → IsJumpId (j :: rest) id :=
      fun ⟨x, hx, hjump⟩ => ⟨x, List.mem_cons_of_mem j hx, hjump⟩
    -- A reference is noted for a jump in range, and for nothing else.
    by_cases hj : IsLiveJump j
    · by_cases hr : InRange code index j
      · obtain ⟨target, d, -, -, heq⟩ := referencesFrom_cons_of_jump rest hj hr
        simp only [heq, bind_eq_ok_iff, pure_eq_ok_iff] at h
        obtain ⟨more, hrest, rfl⟩ := h
        rcases List.mem_cons.1 hid with rfl | hid
        · exact ⟨j, List.mem_cons_self, hj, rfl⟩
        · exact hmono (ih hrest hid)
      · rw [referencesFrom_cons_of_out hj hr] at h
        simp at h
    · rw [referencesFrom_cons_of_not_jump hj] at h
      exact hmono (ih h hid)

theorem sources_retarget (change : Nat → Nat) (refs : References) :
    sources (retarget change refs) = sources refs := by
  simp [sources, retarget]

/-- Dropping jumps adds no sources. -/
theorem sources_dropFlips_subset (code : List Instruction) (refs : References) :
    sources (dropFlips code refs).2 ⊆ sources refs := by
  fun_induction dropFlips code refs with
  | case1 i j k rest refs h code' refs' hrec ih =>
    rw [hrec, forgetJump, sources_retarget] at ih
    exact fun id hid => (List.filter_sublist.map _).subset (ih hid)
  | case2 i j k rest refs h code' refs' hrec ih =>
    rw [hrec] at ih
    exact ih
  | case3 code refs h => exact List.Subset.refl _

/-- An instruction is left alone if its identity is no source. -/
theorem setOffset_eq_self (code : List Instruction) {refs : References} (index : Nat)
    {i : Instruction} (h : i.id ∉ sources refs) : (setOffset code refs index i).1 = i := by
  have hnone : refs.lookup i.id = none := by
    rw [List.lookup_eq_none_iff]
    intro ref href
    simpa using fun heq : i.id = ref.1 => h (heq ▸ List.mem_map_of_mem href)
  rw [setOffset, hnone]

/-! ## Functions -/

/-- Whether an instruction of code, turned around or not, survives as another one. Only the
    polarity of what is turned around and the offsets of jumps are not kept. Offsets are set by
    identity, so that it takes distinct identities to tell that all others keep theirs. -/
structure Survives (code : List Instruction) (turned : Bool) (i i' : Instruction) : Prop where
  id : i'.id = i.id
  opnum : i'.opnum = i.opnum
  opcode : i'.opcode = i.opcode
  a : i'.a = if turned = true ∧ i.opcode ≠ .test then if i.a = 1 then 0 else 1 else i.a
  b : i'.b = i.b ∨ IsJumpId code i.id
  b_of_distinct : (ids code).Nodup → i.opcode.isJump = false → i'.b = i.b
  c : i'.c = if turned = true ∧ i.opcode = .test then if i.c = 1 then 0 else 1 else i.c
  flags : i'.flags = i.flags
  pc : i'.pc = i.pc

/-- Whether an instruction of restored code has its origin in the code. A return that is added
    has an identity of its own. -/
def ComesFrom (code : List Instruction) : Origin → Instruction → Prop
  | .left i turned, i' => Survives code turned i i'
  | .added a, r => r = .ofOpcode r.id .ret a 0 0 ∧ r.id ∉ ids code

/-- Whether restored code has of the code all that is not padding, but for the first of two
    plain jumps after a test, and besides just the returns that its tail calls lack. -/
structure KeepsSurvivors (code restored : List Instruction) : Prop where
  origins : List.Forall₂ (ComesFrom code)
    (withReturns (leftFrom (code.filter (!·.isDead)) 0)) restored
  returns : ∀ (k : Nat) (i : Instruction), restored[k]? = some i → i.opcode = .tailCall →
    ∃ r : Instruction, restored[k + 1]? = some r ∧ r.opcode = .ret

section

variable {code made : List Instruction} {refs : References}

theorem turn_eq (i : Instruction) (turned : Bool) :
    turn (i, turned) = { i with
      a := if turned = true ∧ i.opcode ≠ .test then flipped i.a else i.a
      c := if turned = true ∧ i.opcode = .test then flipped i.c else i.c } := by
  cases turned with
  | false => simp [turn]
  | true => by_cases hop : i.opcode = .test <;> simp [turn, flipTest, hop]

/-- An instruction that is left survives when offsets are set from jumps of the code. -/
theorem survives_setOffset (hsources : ∀ id ∈ sources refs, IsJumpId code id) {i : Instruction}
    (hi : i ∈ code) (turned : Bool) (index : Nat) :
    Survives code turned i (setOffset made refs index (turn (i, turned))).1 := by
  obtain ⟨b, hset⟩ := exists_b_setOffset made refs index (turn (i, turned))
  have hid : (turn (i, turned)).id = i.id := by rw [turn_eq]
  have hb : b = i.b ∨ IsJumpId code i.id := by
    by_cases hmem : i.id ∈ sources refs
    · exact .inr (hsources _ hmem)
    · rw [setOffset_eq_self made index (hid ▸ hmem), turn_eq] at hset
      exact .inl (congrArg (·.b) hset).symm
  rw [hset, turn_eq]
  refine ⟨rfl, rfl, rfl, rfl, hb, fun hids hjump => ?_, rfl, rfl, rfl⟩
  rcases hb with hb | ⟨j, hj, hlive, hji⟩
  · exact hb
  · -- The jump is the instruction itself.
    obtain rfl := List.inj_on_of_nodup_map hids hj hi hji
    rw [hlive.2] at hjump
    simp at hjump

/-- A return that is added gets no offset. -/
theorem comesFrom_setOffset (hsources : ∀ id ∈ sources refs, IsJumpId code id) {origin : Origin}
    (hleft : ∀ i turned, origin = .left i turned → i ∈ code) {i : Instruction}
    (hmade : IsMade (freshId code) origin i) (index : Nat) :
    ComesFrom code origin (setOffset made refs index i).1 := by
  cases origin with
  | left i turned =>
    obtain rfl := hmade
    exact survives_setOffset hsources (hleft i turned rfl) turned index
  | added a =>
    obtain ⟨id, hid, rfl⟩ := hmade
    -- The number of what is added is new, so it is not that of a jump.
    have hnew {j : Instruction} (hj : j ∈ code) : j.id ≠ id :=
      Nat.ne_of_lt (Nat.lt_of_lt_of_le (lt_freshId hj) hid)
    have hsource : id ∉ sources refs := fun hmem =>
      let ⟨_, hj, _, hji⟩ := hsources id hmem
      hnew hj hji
    rw [setOffset_eq_self made index hsource]
    refine ⟨rfl, fun hmem => ?_⟩
    obtain ⟨j, hj, hji⟩ := List.mem_map.1 hmem
    exact hnew hj hji

/-- Setting offsets relates to what the code was made from all that one offset does. -/
theorem forall₂_setOffsets {R S : Origin → Instruction → Prop} {origins : List Origin}
    (h : List.Forall₂ R origins made)
    (hset : ∀ origin ∈ origins, ∀ i index, R origin i →
      S origin (setOffset made refs index i).1) :
    List.Forall₂ S origins (setOffsets made refs).1 := by
  rw [← List.zipIdx_map_fst 0 made, List.forall₂_map_right_iff] at h
  rw [setOffsets, List.map_map, List.forall₂_map_right_iff]
  refine ((List.forall₂_and_left _ _).2 ⟨fun origin horigin => horigin, h⟩).imp ?_
  rintro origin ⟨i, index⟩ ⟨horigin, hR⟩
  exact hset origin horigin i index hR

end

theorem mem_of_left_mem_withReturns {left : List (Instruction × Bool)} {i : Instruction}
    {turned : Bool} (h : .left i turned ∈ withReturns left) : (i, turned) ∈ left := by
  obtain ⟨⟨p, k⟩, hp, hmem⟩ := List.mem_flatMap.1 h
  rcases List.mem_cons.1 hmem with heq | hmem
  · obtain ⟨rfl, rfl⟩ := Origin.left.inj heq
    exact List.fst_mem_of_mem_zipIdx hp
  · split at hmem <;> simp at hmem

theorem opcode_setOffset (code : List Instruction) (refs : References) (index : Nat)
    (i : Instruction) : (setOffset code refs index i).1.opcode = i.opcode := by
  obtain ⟨b, hset⟩ := exists_b_setOffset code refs index i
  rw [hset]

theorem keepsSurvivors_of_restoreCode {code restored : List Instruction} {warnings : List Warning}
    (h : restoreCode code = .ok (restored, warnings)) : KeepsSurvivors code restored := by
  obtain ⟨refs, hrefs, heq⟩ := restoreCode_eq_ok_iff.1 h
  rw [← show _ = restored from congrArg Prod.fst heq]
  constructor
  · have hfirst : isDropped (dropDead code) 0 = false := rfl
    have hdrop := dropFlips_eq hfirst (retarget (successor code) refs)
    have htests : ∀ p ∈ leftFrom (dropDead code) 0, p.2 = true → isTest p.1 = true :=
      fun p hp => isTest_of_mem_leftFrom hp
    have hmade := forall₂_addReturns htests (freshId code)
    rw [← hdrop, List.drop_zero] at hmade
    -- Offsets are set only at jumps of the code that is read.
    have hsources : ∀ id ∈ sources (dropFlips (dropDead code) (retarget (successor code) refs)).2,
        IsJumpId code id := fun id hid => by
      have hmem := sources_dropFlips_subset _ _ hid
      rw [sources_retarget] at hmem
      exact isJumpId_of_referencesFrom hrefs hmem
    refine forall₂_setOffsets hmade fun origin horigin i index hi => ?_
    refine comesFrom_setOffset hsources (fun j turned hj => ?_) hi index
    obtain ⟨n, hn, -⟩ := exists_of_mem_leftFrom (mem_of_left_mem_withReturns (hj ▸ horigin))
    exact List.mem_of_mem_filter (List.mem_of_getElem? hn)
  · intro k i hi hop
    rw [getElem?_setOffsets, Option.map_eq_some_iff] at hi
    obtain ⟨j, hj, rfl⟩ := hi
    rw [opcode_setOffset] at hop
    obtain ⟨r, hr, hret⟩ := exists_ret_of_tailCall hj hop
    exact ⟨_, by rw [getElem?_setOffsets, hr]; rfl, (opcode_setOffset _ _ _ r).trans hret⟩

/-! ## Programs -/

/-- After the control flow of a program is restored, the code of every prototype keeps all but
    padding and the jumps that are dropped, and nothing else of the prototype is changed. -/
theorem restoreControlFlow_keepsSurvivors {root out : Prototype}
    (hout : (restoreControlFlow root).runStep.1 = .ok out) :
    List.Forall₂ (fun f g => KeepsSurvivors f.instructions g.instructions ∧
      g = { f with instructions := g.instructions, functions := g.functions } ∧
      g.functions.length = f.functions.length) root.all out.all := by
  rw [runStep_restoreControlFlow_fst] at hout
  refine (Prototype.forall₂_all_mapBody hout).imp fun f g h => ?_
  obtain ⟨hframe, hlength⟩ := Prototype.frame_of_mapBody h
  have hbody := (Prototype.mapBody_eq_ok_iff.1 h).1
  simp only [bind_eq_ok_iff, pure_eq_ok_iff] at hbody
  obtain ⟨⟨restored, warnings⟩, hresult, hbody⟩ := hbody
  obtain ⟨rfl, hconstants⟩ := Prod.mk.inj hbody
  rw [← hconstants] at hframe
  exact ⟨keepsSurvivors_of_restoreCode hresult, hframe, hlength⟩

theorem restoreControlFlow_tangledProgram_keepsSurvivors :
    ∃ out, (restoreControlFlow tangledProgram).runStep.1 = .ok out ∧
      List.Forall₂ (fun f g => KeepsSurvivors f.instructions g.instructions ∧
        g = { f with instructions := g.instructions, functions := g.functions } ∧
        g.functions.length = f.functions.length) tangledProgram.all out.all := by
  have hrange : ∀ f ∈ tangledProgram.all, JumpsInRange f.instructions := by decide
  obtain ⟨out, hout, -⟩ := exists_restoreControlFlow hrange
  exact ⟨out, hout, restoreControlFlow_keepsSurvivors hout⟩

example : withReturns (leftFrom (tangledProgram.instructions.filter (!·.isDead)) 0) = [
    .left (.ofOpcode 0 .lt 1 2 3) true,
    .left (.ofOpcode 2 .jmp 0 1 0) false,
    .left (.ofOpcode 3 .tailCall 4 1 0) false,
    .added 4,
    .left (.ofOpcode 6 .forLoop 0 (-4) 0) false,
    .left (.ofOpcode 7 .jmp 0 (-7) 0) false] := by decide

end LuaUnpack.Recover
