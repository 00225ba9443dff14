import LuaUnpack.Chunk.Packed
import LuaUnpack.Proofs.Chunk.Reading
import LuaUnpack.Proofs.Chunk.Tree

/-!
# The numbers of records

Packed data stores instructions as records that are numbered from zero on. A record that
is to be left out takes a number all the same, so the numbers of the instructions that
are read ascend, but not always by one (`IsNumbered`). Every prototype of every program
that can be read is numbered like this (`isNumbered_of_read`).

What a reader returns is followed along its definition (`Reader.Ensures`), whatever the
bytes.
-/

namespace LuaUnpack.Chunk

/-! ## What readers return -/

namespace Reader

variable {α β : Type}

/-- Whether everything that a reader returns has a property. -/
def Ensures (reader : Reader α) (P : α → Prop) : Prop :=
  ∀ cursor a, (reader.run cursor).1 = .ok a → P a

theorem ensures_pure {a : α} {P : α → Prop} (h : P a) : Ensures (pure a) P := by
  intro cursor b hb
  cases hb
  exact h

theorem ensures_fail (e : Error) (P : α → Prop) : Ensures (fail e) P := by
  intro cursor a ha
  cases ha

theorem ensures_true (reader : Reader α) : reader.Ensures fun _ => True := fun _ _ _ => trivial

section

variable {reader : Reader α} {next : α → Reader β} {P : α → Prop} {Q : β → Prop}

theorem Ensures.bind (h : reader.Ensures P) (hnext : ∀ a, P a → (next a).Ensures Q) :
    (reader >>= next).Ensures Q := by
  intro cursor b hb
  rw [run_bind] at hb
  rcases hr : reader.run cursor with ⟨_ | a, cursor'⟩
  · rw [hr] at hb
    cases hb
  · rw [hr] at hb
    exact hnext a (h cursor a (by rw [hr])) cursor' b hb

/-- What is read first may not matter. -/
theorem ensures_bind (hnext : ∀ a, (next a).Ensures Q) : (reader >>= next).Ensures Q :=
  (ensures_true reader).bind fun a _ => hnext a

end

theorem ensures_count (what : String) : (count what).Ensures (· < twoPow 31) := by
  refine ensures_bind fun start => ensures_bind fun n => ?_
  split
  · exact ensures_fail _ _
  · refine ensures_pure ?_
    have hlt : n.toInt < twoPow 31 := n.toInt_lt
    omega

theorem ensures_timesFrom {reader : Nat → Reader α} {P : Nat → α → Prop}
    (h : ∀ k, (reader k).Ensures (P k)) (index n : Nat) :
    (timesFrom reader index n).Ensures fun items =>
      items.length = n ∧ ∀ k a, items[k]? = some a → P (index + k) a := by
  -- On the number of items, as the index moves on with each of them.
  induction n generalizing index with
  | zero =>
    refine ensures_pure ⟨rfl, fun k a ha => ?_⟩
    rw [List.getElem?_nil] at ha
    cases ha
  | succ n ih =>
    rw [timesFrom]
    refine (h index).bind fun item hitem => (ih (index + 1)).bind fun items hitems => ?_
    obtain ⟨hlength, hall⟩ := hitems
    refine ensures_pure ⟨by rw [List.length_cons, hlength], fun k a ha => ?_⟩
    cases k with
    | zero =>
      cases ha
      exact hitem
    | succ k =>
      have := hall k a ha
      rwa [Nat.add_assoc, Nat.add_comm 1] at this

end Reader

/-! ## Records -/

/-- Whether instructions have the numbers of their records: each after those before it,
    and all of them as far as 32 bits can tell. -/
structure IsNumbered (code : List Instruction) : Prop where
  ascending : (code.map (·.id)).Pairwise (· < ·)
  lt : ∀ i ∈ code, i.id < twoPow 31
  pc_eq : ∀ i ∈ code, i.pc = Int32.ofNat i.id

theorem isNumbered_nil : IsNumbered [] :=
  ⟨.nil, fun _ hi => absurd hi List.not_mem_nil, fun _ hi => absurd hi List.not_mem_nil⟩

theorem IsNumbered.toInt_pc {code : List Instruction} (h : IsNumbered code) {i : Instruction}
    (hi : i ∈ code) : i.pc.toInt = i.id := by
  rw [h.pc_eq i hi, Int32.toInt_ofNat_of_lt (h.lt i hi)]

/-- Numbers of records are found by the place of the instruction in the data. -/
theorem IsNumbered.mem_iff {code : List Instruction} (h : IsNumbered code) {n : Int32} (m : Nat)
    (hn : n.toInt = m) : m ∈ code.map (·.id) ↔ ∃ i ∈ code, i.pc = n := by
  rw [List.mem_map]
  refine exists_congr fun i => and_congr_right fun hi => ?_
  rw [← Int32.toInt_inj, h.toInt_pc hi, hn]
  omega

theorem lt_of_ascending {numbers : List Nat} (h : numbers.Pairwise (· < ·)) {j k low high : Nat}
    (hjk : j < k) (hlow : numbers[j]? = some low) (hhigh : numbers[k]? = some high) :
    low < high := by
  obtain ⟨hj, rfl⟩ := List.getElem?_eq_some_iff.1 hlow
  obtain ⟨hk, rfl⟩ := List.getElem?_eq_some_iff.1 hhigh
  exact List.pairwise_iff_getElem.1 h j k hj hk hjk

/-- In an ascending list, an entry is at least as much larger than one before it as it is
    further on, and just as much if nothing between the two is missing. -/
theorem add_le_of_ascending {numbers : List Nat} (h : numbers.Pairwise (· < ·)) {k d low high : Nat}
    (hlow : numbers[k]? = some low) (hhigh : numbers[k + d]? = some high) :
    low + d ≤ high ∧ (low + d = high ↔ ∀ n, low ≤ n → n ≤ high → n ∈ numbers) := by
  induction d generalizing high with
  | zero =>
    rw [Nat.add_zero, hlow] at hhigh
    cases hhigh
    refine ⟨Nat.le_refl low, fun _ n hle hge => ?_, fun _ => rfl⟩
    rw [Nat.le_antisymm hge hle]
    exact List.mem_of_getElem? hlow
  | succ d ih =>
    obtain ⟨hlength, -⟩ := List.getElem?_eq_some_iff.1 hhigh
    obtain ⟨before, hbefore⟩ : ∃ before, numbers[k + d]? = some before :=
      ⟨_, List.getElem?_eq_getElem (Nat.lt_of_succ_lt hlength)⟩
    obtain ⟨hle, hiff⟩ := ih hbefore
    have hnext : before < high := lt_of_ascending h (Nat.lt_succ_self _) hbefore hhigh
    refine ⟨by omega, fun heq n hn hn' => ?_, fun hall => ?_⟩
    · -- All numbers but the last are found before it.
      by_cases hlast : n = high
      · exact hlast ▸ List.mem_of_getElem? hhigh
      · exact hiff.1 (by omega) n hn (by omega)
    · have hrun := hiff.2 fun n hn hn' => hall n hn (by omega)
      -- The number after the last but one is in the list, and only the last can be it.
      obtain ⟨j, hj⟩ := List.mem_iff_getElem?.1 (hall (before + 1) (by omega) hnext)
      rcases Nat.lt_trichotomy j (k + d + 1) with hlt | rfl | hgt
      · rcases Nat.lt_succ_iff_lt_or_eq.1 hlt with hlt | rfl
        · have := lt_of_ascending h hlt hj hbefore
          omega
        · rw [hbefore] at hj
          cases hj
      · have : high = before + 1 := Option.some.inj (hhigh.symm.trans hj)
        omega
      · have := lt_of_ascending h hgt hhigh hj
        omega

/-- Whether a record, if it is not left out, has a number. -/
def HasNumber (number : Nat) (record : Option Instruction) : Prop :=
  ∀ i, record = some i → i.id = number ∧ i.pc = Int32.ofNat number

/-- Records with running numbers leave instructions that are numbered. -/
theorem isNumbered_filterMap {records : List (Option Instruction)} {start : Nat}
    (h : ∀ k record, records[k]? = some record → HasNumber (start + k) record)
    (hlength : start + records.length ≤ twoPow 31) :
    IsNumbered (records.filterMap id) ∧ ∀ i ∈ records.filterMap id, start ≤ i.id := by
  induction records generalizing start with
  | nil => exact ⟨isNumbered_nil, fun _ hi => absurd hi List.not_mem_nil⟩
  | cons record records ih =>
    have hrest : ∀ k record, records[k]? = some record → HasNumber (start + 1 + k) record := by
      intro k record hk
      have := h (k + 1) record hk
      rwa [Nat.add_comm k, ← Nat.add_assoc] at this
    rw [List.length_cons] at hlength
    obtain ⟨hnumbered, hle⟩ := ih hrest (by omega)
    cases record with
    -- A record that is left out takes a number, but there is no instruction for it.
    | none => exact ⟨hnumbered, fun i hi => Nat.le_of_succ_le (hle i hi)⟩
    | some i =>
      obtain ⟨hid, hpc⟩ : i.id = start ∧ i.pc = Int32.ofNat start := h 0 _ rfl i rfl
      refine ⟨⟨?_, ?_, ?_⟩, ?_⟩
      · refine List.pairwise_cons.2 ⟨fun id hmem => ?_, hnumbered.ascending⟩
        obtain ⟨j, hj, rfl⟩ := List.mem_map.1 hmem
        exact lt_of_eq_of_lt hid (hle j hj)
      · exact List.forall_mem_cons.2 ⟨by omega, hnumbered.lt⟩
      · exact List.forall_mem_cons.2 ⟨by rw [hpc, hid], hnumbered.pc_eq⟩
      · refine List.forall_mem_cons.2 ⟨by omega, fun j hj => ?_⟩
        exact Nat.le_of_succ_le (hle j hj)

namespace Packed

open Reader

theorem ensures_readRecord (index : Nat) : (readRecord index).Ensures (HasNumber index) := by
  refine ensures_bind fun descriptor => ?_
  dsimp only
  split
  · refine ensures_pure fun i hi => ?_
    cases hi
  · refine ensures_bind fun opnum => ensures_bind fun a => ensures_bind fun operands => ?_
    refine ensures_pure fun i hi => ?_
    cases hi
    exact ⟨rfl, rfl⟩

theorem ensures_readInstructions : readInstructions.Ensures IsNumbered := by
  refine (ensures_count "instruction").bind fun n hn => ?_
  refine (ensures_timesFrom ensures_readRecord 0 n).bind fun records hrecords => ?_
  obtain ⟨hlength, hnumbers⟩ := hrecords
  exact ensures_pure (isNumbered_filterMap hnumbers (by omega)).1

/-! ## Prototypes -/

/-- Reading sections into a prototype keeps all prototypes numbered. -/
theorem ensures_readSections (format : Format) {readNested : Reader Prototype}
    (hnested : readNested.Ensures fun f => ∀ g ∈ f.all, IsNumbered g.instructions)
    (sections : List Section) {f : Prototype} (hf : ∀ g ∈ f.all, IsNumbered g.instructions) :
    (readSections format readNested sections f).Ensures fun f =>
      ∀ g ∈ f.all, IsNumbered g.instructions := by
  induction sections generalizing f with
  | nil => exact ensures_pure hf
  | cons step sections ih =>
    -- What is known of the code and of the nested prototypes is kept apart, as a section
    -- replaces one of them at most.
    obtain ⟨hcode, hfunctions⟩ := (Prototype.forall_mem_all_iff f).1 hf
    cases step with
    | instructions =>
      refine ensures_readInstructions.bind fun instructions hinstructions => ?_
      exact ih ((Prototype.forall_mem_all_iff _).2 ⟨hinstructions, hfunctions⟩)
    | constants =>
      refine ensures_bind fun n => ensures_bind fun constants => ?_
      exact ih ((Prototype.forall_mem_all_iff _).2 ⟨hcode, hfunctions⟩)
    | functions =>
      refine ensures_bind fun n => ?_
      refine (ensures_timesFrom (fun _ => hnested) 0 n).bind fun functions hread => ?_
      refine ih ((Prototype.forall_mem_all_iff _).2 ⟨hcode, fun g hg => ?_⟩)
      obtain ⟨k, hk⟩ := List.mem_iff_getElem?.1 hg
      exact hread.2 k g hk
    | numParams =>
      refine ensures_bind fun numParams => ?_
      exact ih ((Prototype.forall_mem_all_iff _).2 ⟨hcode, hfunctions⟩)

theorem ensures_readPrototype (format : Format) (depth : Nat) :
    (readPrototype format depth).Ensures fun f => ∀ g ∈ f.all, IsNumbered g.instructions := by
  induction depth with
  | zero => exact ensures_bind fun offset => ensures_fail _ _
  | succ depth ih =>
    refine ensures_readSections format ih format.sections ?_
    exact (Prototype.forall_mem_all_iff _).2
      ⟨isNumbered_nil, fun _ hg => absurd hg List.not_mem_nil⟩

/-- In every program that can be read, instructions have the numbers of their records. -/
theorem isNumbered_of_read {format : Format} {data : List UInt8} {root : Prototype}
    (h : read format data = .ok root) : ∀ f ∈ root.all, IsNumbered f.instructions := by
  rw [read] at h
  split at h
  · cases h
  · have hnamed : Ensures (do return (← readPrototype format (data.length + 1)).assignNames)
        fun f => ∀ g ∈ f.all, IsNumbered g.instructions := by
      refine (ensures_readPrototype format _).bind fun f hf => ensures_pure fun g hg => ?_
      have hcode : g.instructions ∈ f.assignNames.all.map (·.instructions) :=
        List.mem_map_of_mem hg
      rw [Prototype.map_instructions_all_assignNames] at hcode
      obtain ⟨k, hk, hkg⟩ := List.mem_map.1 hcode
      exact hkg ▸ hf k hk
    exact hnamed ⟨data, 0⟩ root h

end Packed

end LuaUnpack.Chunk
