import LuaUnpack.Proofs.Chunk.Records
import LuaUnpack.Proofs.Chunk.RoundTrip
import Mathlib.Data.Nat.Bitwise

/-!
# Writing what was read

Whatever a reader of standard chunks accepts, the writer can write, and the reader then
gives the same program again (`read_write_of_read`). The reader drops a lot: the name of the
source, debug information, bits of words that an operation does not use, and bytes that are
no text. It drops nothing twice: every instruction that was read is just what its word stores
(`Instruction.stored_of_ofWord`), so that a whole program is what a chunk keeps of it
(`Prototype.stored_eq`).
-/

namespace LuaUnpack.Chunk

/-! ## Bits of a word -/

/-- The bits of a field of a word. -/
def fieldBits (start width : Nat) : Nat := twoPow start * (twoPow width - 1)

/-- The bits of a word that a layout stores, with those of the code. -/
def Layout.bits : Layout → Nat
  | .a => fieldBits 6 8 ||| fieldBits 0 6
  | .ab => fieldBits 23 9 ||| (fieldBits 6 8 ||| fieldBits 0 6)
  | .ac => fieldBits 14 9 ||| (fieldBits 6 8 ||| fieldBits 0 6)
  | .abc => fieldBits 23 9 ||| (fieldBits 14 9 ||| (fieldBits 6 8 ||| fieldBits 0 6))
  | .abx | .asbx => fieldBits 14 18 ||| (fieldBits 6 8 ||| fieldBits 0 6)
  | .sbx => fieldBits 14 18 ||| fieldBits 0 6

theorem and_fieldBits (word start width : Nat) :
    word &&& fieldBits start width = word / twoPow start % twoPow width * twoPow start := by
  rw [Nat.mul_comm]
  refine Nat.eq_of_testBit_eq fun k => ?_
  simp only [fieldBits, Nat.pow_eq, Nat.testBit_and, Nat.testBit_two_pow_mul,
    Nat.testBit_mod_two_pow, Nat.testBit_two_pow_sub_one, Nat.testBit_div_two_pow]
  by_cases hk : start ≤ k
  · rw [Nat.sub_add_cancel hk, Bool.and_comm, Bool.and_assoc]
  · simp [hk]

theorem and_fieldBits_zero (word width : Nat) :
    word &&& fieldBits 0 width = word % twoPow width := by
  rw [and_fieldBits]
  simp

/-- The bits of a field and of some bits below it are added up. -/
theorem and_fieldBits_or (word : Nat) {start low : Nat} (width : Nat) (h : low < twoPow start) :
    word &&& (fieldBits start width ||| low) =
      word / twoPow start % twoPow width * twoPow start + (word &&& low) := by
  have hlow : word &&& low < twoPow start := Nat.lt_of_le_of_lt Nat.and_le_right h
  rw [Nat.and_or_distrib_left, and_fieldBits, Nat.mul_comm]
  exact (Nat.two_pow_add_eq_or_of_lt hlow _).symm

namespace Opcode

theorem code_of_ofCode? {code : Nat} {op : Opcode} (h : ofCode? code = some op) :
    op.code = code ∧ op ≠ .unknown := by
  have hall : ∀ k : Fin all.length, all[k].code = k ∧ all[k] ≠ .unknown := by decide
  obtain ⟨hlt, rfl⟩ := List.getElem?_eq_some_iff.1 h
  exact hall ⟨code, hlt⟩

end Opcode

/-! ## Fields of a word -/

/-- A field without a sign holds what was read from it. -/
theorem lowBits_ofNat_mod (n width : Nat) (h : width ≤ 31) :
    lowBits width (Int32.ofNat (n % twoPow width)).toInt = n % twoPow width := by
  have hlt : n % twoPow width < twoPow 31 :=
    Nat.lt_of_lt_of_le (Nat.mod_lt _ (Nat.two_pow_pos width)) (Nat.pow_le_pow_right (by decide) h)
  rw [Int32.toInt_ofNat_of_lt hlt, lowBits, ← Int.natCast_emod, Int.toNat_natCast, Nat.mod_mod]

/-- A field with a sign holds what was read from it. -/
theorem lowBits_ofInt_sub_bias (n : Nat) :
    lowBits 18 ((Int32.ofInt ((n % twoPow 18 : Nat) - signedBias)).toInt + signedBias) =
      n % twoPow 18 := by
  have hlt : n % twoPow 18 < 262144 := Nat.mod_lt _ (by decide)
  have htoInt : (Int32.ofInt ((n % twoPow 18 : Nat) - signedBias)).toInt =
      (n % twoPow 18 : Nat) - signedBias := by
    rw [signedBias]
    exact Int32.toInt_ofInt_of_le (by omega) (by omega)
  rw [htoInt, Int.sub_add_cancel, lowBits, ← Int.natCast_emod, Int.toNat_natCast, Nat.mod_mod]

namespace Instruction

variable {id word : Nat} {i : Instruction}

/-- An instruction that was read from a word has a known operation, it is all that a word
    stores of it, and its word has just the bits of the first one that its layout stores. -/
theorem stored_of_ofWord (h : ofWord id word = .ok i) :
    i.isResolved = true ∧ { i.stored id with pc := 0 } = i ∧
      i.word = word &&& i.opcode.layout.bits := by
  rw [ofWord] at h
  split at h
  · cases h
  case h_2 opcode hopcode =>
    obtain ⟨hcode, hknown⟩ := Opcode.code_of_ofCode? hopcode
    cases h
    -- Every field holds what was read from it, whichever of them the layout stores.
    have ha := lowBits_ofNat_mod (word / twoPow 6) 8 (by decide)
    have hb := lowBits_ofNat_mod (word / twoPow 23) 9 (by decide)
    have hc := lowBits_ofNat_mod (word / twoPow 14) 9 (by decide)
    have hx := lowBits_ofNat_mod (word / twoPow 14) 18 (by decide)
    have hs := lowBits_ofInt_sub_bias (word / twoPow 14)
    refine ⟨?_, ?_, ?_⟩
    · cases opcode.layout <;> simpa [isResolved, ofOpcode] using hknown
    · -- Storing cuts the operands to the fields that they were read from.
      cases hl : opcode.layout <;>
        simp only [stored, ofOpcode, noOpnum, hl, ← ofNat_lowBits, ← lowBits_sub_bias, ha, hb, hc,
          hx, hs]
    · cases hl : opcode.layout <;>
        simp (disch := decide) only [Instruction.word, ofOpcode, hl, hcode, ha, hb, hc, hx, hs,
          Layout.bits, and_fieldBits_or, and_fieldBits_zero] <;>
        omega

/-- An instruction that was read from a word is read from its own word, under any identity. -/
theorem ofWord_word_of_ofWord (h : ofWord id word = .ok i) (other : Nat) :
    ofWord other i.word = .ok { i with id := other } := by
  obtain ⟨hresolved, hstored, -⟩ := stored_of_ofWord h
  have hother : { i.stored other with pc := 0 } = { i with id := other } :=
    congrArg (fun j : Instruction => { j with id := other }) hstored
  rw [ofWord_word, if_pos hresolved, hother]

end Instruction

/-! ## Programs -/

namespace Prototype

/-- Whether a prototype itself is as it is read from a chunk: without a name, with as many
    parts as can be counted, and with instructions that are all that words store of them. -/
structure IsBare (f : Prototype) : Prop where
  name : f.name = ""
  instructions : f.instructions.length < twoPow 31
  constants : f.constants.length < twoPow 31
  functions : f.functions.length < twoPow 31
  stored : ∀ (k : Nat) (i : Instruction), f.instructions[k]? = some i →
    i.isResolved = true ∧ i.stored k = i

/-- Whether every text of a program is one that can be held in memory. -/
def TextsFit (f : Prototype) : Prop :=
  ∀ g ∈ f.all, ∀ s, .string s ∈ g.constants → (Text.toBytes s).length < twoPow 63

theorem IsBare.map_stored {f : Prototype} (h : f.IsBare) :
    (f.instructions.zipIdx.map fun (i, index) => i.stored index) = f.instructions := by
  refine List.ext_getElem? fun k => ?_
  rw [List.getElem?_map, List.getElem?_zipIdx]
  cases hk : f.instructions[k]? with
  | none => rfl
  | some i => simp [(h.stored k i hk).2]

section

variable {f : Prototype} (hbare : ∀ g ∈ f.all, g.IsBare)
include hbare

/-- A bare program is what a chunk keeps of it. -/
theorem stored_eq : f.stored = f := by
  induction f using tree_induction with
  | h f ih =>
    obtain ⟨hself, hnested⟩ := (forall_mem_all_iff f).1 hbare
    have hfunctions : f.functions.map stored = f.functions :=
      (List.map_congr_left fun g hg => ih g hg (hnested g hg)).trans (List.map_id _)
    have hcode := hself.map_stored
    have hname := hself.name
    cases f
    rw [stored, storedAll_eq_map]
    simp_all

theorem isResolved_of_isBare : f.isResolved = true := by
  rw [isResolved_iff]
  intro i hi
  obtain ⟨g, hg, hi⟩ := List.mem_flatMap.1 hi
  obtain ⟨k, hk⟩ := List.mem_iff_getElem?.1 hi
  simpa [Instruction.isResolved] using ((hbare g hg).stored k i hk).1

theorem fits_of_isBare (htexts : f.TextsFit) : f.Fits := fun g hg =>
  ⟨(hbare g hg).instructions, (hbare g hg).constants, (hbare g hg).functions, htexts g hg⟩

end

theorem length_nameAllFrom (k : Nat) (fs : List Prototype) :
    (nameAllFrom k fs).1.length = fs.length := by
  induction fs generalizing k with
  | nil => rfl
  | cons f fs ih => rw [nameAllFrom_cons, List.length_cons, ih, List.length_cons]

theorem textsFit_of_assignNames {f : Prototype} (h : f.assignNames.TextsFit) : f.TextsFit := by
  intro g hg s hs
  have hbody : g.body ∈ f.assignNames.all.map body := by
    rw [map_body_all_assignNames]
    exact List.mem_map_of_mem hg
  obtain ⟨named, hnamed, heq⟩ := List.mem_map.1 hbody
  have hconstants : named.constants = g.constants := congrArg Prod.snd heq
  exact h named hnamed s (hconstants ▸ hs)

end Prototype

namespace Standard

open Reader

mutual

/-- A chunk has no names. -/
theorem writePrototype_nameFrom (k : Nat) : (f : Prototype) →
    writePrototype (f.nameFrom k).1 = writePrototype f
  | ⟨_, _, _, functions, _, _, _, _⟩ => by
    rw [Prototype.nameFrom, writePrototype, writePrototype, Prototype.length_nameAllFrom,
      writePrototypes_nameAllFrom (k + 1) functions]

theorem writePrototypes_nameAllFrom (k : Nat) : (fs : List Prototype) →
    writePrototypes (Prototype.nameAllFrom k fs).1 = writePrototypes fs
  | [] => rfl
  | f :: fs => by
    rw [Prototype.nameAllFrom_cons, writePrototypes, writePrototypes, writePrototype_nameFrom k f,
      writePrototypes_nameAllFrom _ fs]

end

theorem ensures_readInstruction (index : Nat) :
    (readInstruction index).Ensures fun i => i.isResolved = true ∧ i.stored index = i := by
  refine ensures_bind fun word => ?_
  split
  · rename_i i hi
    obtain ⟨hresolved, hstored, -⟩ := Instruction.stored_of_ofWord hi
    refine ensures_pure ⟨hresolved, ?_⟩
    exact congrArg (fun j : Instruction => { j with pc := Int32.ofNat index }) hstored
  · exact ensures_fail _ _

theorem ensures_readPrototype (depth : Nat) :
    (readPrototype depth).Ensures fun f => ∀ g ∈ f.all, g.IsBare := by
  induction depth with
  | zero => exact ensures_bind fun offset => ensures_fail _ _
  | succ depth ih =>
    rw [readPrototype]
    -- The source name, the two line numbers and the four attributes do not matter.
    refine ensures_bind fun _ => ensures_bind fun _ => ensures_bind fun _ => ?_
    refine ensures_bind fun _ => ensures_bind fun _ => ensures_bind fun _ => ?_
    refine ensures_bind fun _ => ?_
    refine (ensures_count _).bind fun codeLength hcode => ?_
    refine (ensures_timesFrom ensures_readInstruction 0 codeLength).bind fun code hread => ?_
    refine (ensures_count _).bind fun constantCount hconstants => ?_
    refine (ensures_timesFrom (fun _ => ensures_true _) 0 constantCount).bind
      fun constants hlength => ?_
    refine (ensures_count _).bind fun functionCount hfunctions => ?_
    refine (ensures_timesFrom (fun _ => ih) 0 functionCount).bind fun functions hnested => ?_
    -- Nor does the debug information.
    refine ensures_bind fun _ => ensures_pure ((Prototype.forall_mem_all_iff _).2 ?_)
    refine ⟨?_, fun g hg => ?_⟩
    · refine ⟨rfl, hread.1 ▸ hcode, hlength.1 ▸ hconstants, hnested.1 ▸ hfunctions, ?_⟩
      intro k i hi
      have := hread.2 k i hi
      rwa [Nat.zero_add] at this
    · obtain ⟨k, hk⟩ := List.mem_iff_getElem?.1 hg
      exact hnested.2 k g hk

/-- A program that was read is written so that it is read again. An instruction that was read
    from a word is written as that word without the bits that its layout does not store, and
    is read again from there. -/
theorem read_write_of_read :
    (∀ data f, read data = .ok f → f.TextsFit → read (write f) = .ok f) ∧
      ∀ id word i, Instruction.ofWord id word = .ok i →
        i.word = word &&& i.opcode.layout.bits ∧
          ∀ other, Instruction.ofWord other i.word = .ok { i with id := other } := by
  refine ⟨fun data f hread htexts => ?_, fun id word i hi => ?_⟩
  · have hnamed : Ensures (do readHeader; return (← readPrototype (data.length + 1)).assignNames)
        fun f => ∃ bare : Prototype, (∀ g ∈ bare.all, g.IsBare) ∧ f = bare.assignNames :=
      ensures_bind fun _ => (ensures_readPrototype _).bind fun bare hbare =>
        ensures_pure ⟨bare, hbare, rfl⟩
    obtain ⟨bare, hbare, rfl⟩ := hnamed ⟨data, 0⟩ f hread
    -- The names are given anew, and everything else is bare and so stored as it is.
    have hfits := Prototype.fits_of_isBare hbare (Prototype.textsFit_of_assignNames htexts)
    have hwrite : write bare.assignNames = write bare :=
      congrArg (header ++ ·) (writePrototype_nameFrom 0 bare)
    rw [hwrite, read_write_eq hfits, Prototype.isResolved_of_isBare hbare,
      Prototype.stored_eq hbare]
    rfl
  · exact ⟨(Instruction.stored_of_ofWord hi).2.2, Instruction.ofWord_word_of_ofWord hi⟩

/-- A prototype that the writer does not make: with a name of its source, lines, debug
    information, a word with bits that are not used, and a text that is no text. -/
def foreignBytes : List UInt8 :=
  toLittleEndian 8 2 ++ [0x40, 0] ++ writeInt 1 ++ writeInt 9 ++ [0] ++ [1] ++ [2] ++ [3]
    ++ writeInt 1 ++ toLittleEndian 4 0xFFFFFFC0
    ++ writeInt 1 ++ ([4] ++ toLittleEndian 8 3 ++ [0xFF, 0x41, 7])
    ++ writeInt 0
    ++ writeInt 1 ++ [7, 0, 0, 0] ++ writeInt 0 ++ writeInt 0

/-- What it is read as. -/
def foreignProgram : Prototype :=
  { instructions := [⟨0, -1, .move, 255, 511, 0, {}, 0⟩]
    constants := [.string (Text.ofBytes [0xFF, 0x41])]
    numParams := 1, isVararg := 2, maxStackSize := 3 }

theorem gives_foreignBytes (depth : Nat) :
    (readPrototype (depth + 1)).Gives foreignBytes (.ok foreignProgram) := by
  have hword : (readInstruction 0).Gives (toLittleEndian 4 0xFFFFFFC0)
      (.ok ⟨0, -1, .move, 255, 511, 0, {}, 0⟩) :=
    (gives_unsigned (by decide)).andThenNil (gives_pure _)
  have htext : readConstant.Gives ([4] ++ (toLittleEndian 8 3 ++ [0xFF, 0x41, 7]))
      (.ok (.string (Text.ofBytes [0xFF, 0x41]))) :=
    (gives_u8 4).andThen
      ((gives_readString_bytes [0xFF, 0x41] 7 (by decide)).map Constant.string)
  have hcode : (times 1 readInstruction).Gives _ (.ok _) :=
    hword.andThenNil ((gives_pure []).map (_ :: ·))
  have hconstants : (times 1 fun _ => readConstant).Gives _ (.ok _) :=
    htext.andThenNil ((gives_pure []).map (_ :: ·))
  have hdebug : skipDebug.Gives
      (writeInt 1 ++ ([7, 0, 0, 0] ++ (writeInt 0 ++ writeInt 0))) (.ok ()) := by
    refine (gives_count _ (by decide)).andThen ((gives_bytes [7, 0, 0, 0]).andThen ?_)
    refine (gives_count _ (by decide)).andThen ((gives_pure []).nilAndThen ?_)
    exact (gives_count _ (by decide)).andThenNil ((gives_pure []).nilAndThen (gives_pure ()))
  rw [readPrototype, foreignBytes]
  simp only [List.append_assoc]
  refine (gives_readString_bytes [0x40] 0 (by decide)).andThen ?_
  refine (gives_i32 (by decide)).andThen ((gives_i32 (by decide)).andThen ?_)
  refine (gives_u8 0).andThen ((gives_u8 1).andThen ?_)
  refine (gives_u8 2).andThen ((gives_u8 3).andThen ?_)
  refine (gives_count _ (by decide)).andThen (hcode.andThen ?_)
  refine (gives_count _ (by decide)).andThen (hconstants.andThen ?_)
  refine (gives_count _ (by decide)).andThen ((gives_pure []).nilAndThen ?_)
  exact hdebug.andThenNil (gives_pure _)

theorem textsFit_foreignProgram : foreignProgram.assignNames.TextsFit := by
  have htext : (Text.toBytes (Text.ofBytes [0xFF, 0x41])).length < twoPow 63 := by
    have hchars : Text.ofBytes [0xFF, 0x41] = String.ofList [Text.replacement, 'A'] := by
      decide +kernel
    rw [hchars, Text.toBytes_eq_flatMap, String.toList_ofList]
    decide
  intro g hg s hs
  obtain rfl := List.mem_singleton.1 hg
  cases List.mem_singleton.1 hs
  exact htext

/-- The writer makes another chunk of it, and the word that it writes has nine bits less. -/
theorem read_write_foreignProgram :
    read (header ++ foreignBytes) = .ok foreignProgram.assignNames ∧
      foreignProgram.assignNames.TextsFit ∧
      write foreignProgram.assignNames ≠ header ++ foreignBytes ∧
      read (write foreignProgram.assignNames) = .ok foreignProgram.assignNames ∧
      ∃ i, Instruction.ofWord 0 0xFFFFFFC0 = .ok i ∧ i.word = 0xFF803FC0 := by
  have hread : read (header ++ foreignBytes) = .ok foreignProgram.assignNames :=
    runOn_eq_of_gives (gives_readHeader.andThen ((gives_foreignBytes _).map Prototype.assignNames))
  refine ⟨hread, textsFit_foreignProgram, ?_,
    read_write_of_read.1 _ _ hread textsFit_foreignProgram,
    ⟨0, -1, .move, 255, 511, 0, {}, 0⟩, rfl, ?_⟩
  · intro h
    have := congrArg (·.getD 12 0) h
    revert this
    decide +kernel
  · exact (read_write_of_read.2 0 0xFFFFFFC0 _ rfl).1

end Standard

end LuaUnpack.Chunk
