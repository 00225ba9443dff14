import LuaUnpack.Chunk.Standard
import LuaUnpack.Proofs.Chunk.Reading
import LuaUnpack.Proofs.Chunk.Tree
import LuaUnpack.Proofs.Chunk.Word
import LuaUnpack.Proofs.Text.Utf8

/-!
# Reading written chunks

A program that is written as a standard chunk is read back as far as a chunk can hold
it (`read_write`): with the same tree of prototypes, the same attributes and constants,
and its instructions cut to their words. A program with an operation that is not known
is written all the same, but its chunk is refused.

The writer and the reader go through the same fields in the same order. For every part
of a chunk it is shown what the reader gives on the bytes that the writer makes of it,
and these facts are put together along the definition of the reader; a prototype comes
after those nested in it.
-/

namespace LuaUnpack.Chunk

namespace Prototype

/-- Whether a chunk has room for a prototype itself: the numbers of its parts fit into
    signed 32-bit counts, and every text is one that can be held in memory. -/
structure FitsAlone (f : Prototype) : Prop where
  instructions : f.instructions.length < twoPow 31
  constants : f.constants.length < twoPow 31
  functions : f.functions.length < twoPow 31
  texts : ∀ s, .string s ∈ f.constants → (Text.toBytes s).length < twoPow 63

/-- Whether a chunk has room for a program. -/
def Fits (f : Prototype) : Prop := ∀ g ∈ f.all, g.FitsAlone

mutual

/-- What a chunk keeps of a program. It has no names. -/
def stored : Prototype → Prototype
  | ⟨_, code, constants, functions, params, upvalues, vararg, stack⟩ =>
    ⟨"", code.zipIdx.map fun (i, index) => i.stored index, constants, storedAll functions, params,
      upvalues, vararg, stack⟩

/-- What a chunk keeps of prototypes. -/
def storedAll : List Prototype → List Prototype
  | [] => []
  | f :: rest => stored f :: storedAll rest

end

/-- Whether the operations of all instructions of a program are known. -/
def isResolved (f : Prototype) : Bool := f.allInstructions.all (·.isResolved)

theorem storedAll_eq_map (fs : List Prototype) : storedAll fs = fs.map stored := by
  induction fs with
  | nil => rfl
  | cons f fs ih => rw [storedAll, ih, List.map_cons]

theorem isResolved_eq (f : Prototype) :
    f.isResolved = (f.instructions.all (·.isResolved) && f.functions.all isResolved) := by
  rw [isResolved, allInstructions, all_eq_cons, List.flatMap_cons, List.all_append,
    List.flatMap_assoc, List.all_flatMap]
  rfl

theorem isResolved_iff (f : Prototype) :
    f.isResolved = true ↔ ∀ i ∈ f.allInstructions, i.opcode ≠ .unknown := by
  simp [isResolved, Instruction.isResolved]

mutual

/-- A chunk keeps the prototypes, their constants, and of each instruction what its word
    stores. -/
theorem map_body_all_stored : (f : Prototype) →
    f.stored.all.map body =
      f.all.map fun g => (g.instructions.zipIdx.map fun (i, index) => i.stored index, g.constants)
  | ⟨_, _, _, functions, _, _, _, _⟩ => by
    rw [stored, all, all, List.map_cons, List.map_cons, map_body_allOf_storedAll functions]
    rfl

theorem map_body_allOf_storedAll : (fs : List Prototype) →
    (allOf (storedAll fs)).map body =
      (allOf fs).map fun g =>
        (g.instructions.zipIdx.map fun (i, index) => i.stored index, g.constants)
  | [] => rfl
  | f :: fs => by
    rw [storedAll, allOf, allOf, List.map_append, List.map_append, map_body_all_stored f,
      map_body_allOf_storedAll fs]

end

theorem length_all_stored (f : Prototype) : f.stored.all.length = f.all.length := by
  have h := congrArg List.length f.map_body_all_stored
  rwa [List.length_map, List.length_map] at h

theorem functionCount_stored (f : Prototype) : f.stored.functionCount = f.functionCount :=
  f.length_all_stored

theorem Fits.alone {f : Prototype} (h : f.Fits) : f.FitsAlone := h f f.mem_all_self

theorem Fits.nested {f g : Prototype} (h : f.Fits) (hg : g ∈ f.functions) : g.Fits :=
  fun _ hk => h _ (mem_all_of_mem hg hk)

end Prototype

/-! ## Results that depend on known operations -/

/-- A value, if operations are known, and otherwise the error for the code that stands for
    an unknown one. -/
def ifResolved {α : Type} (resolved : Bool) (a : α) : Except Error α :=
  if resolved then .ok a else .error (.unknownOpcode 63)

theorem ifResolved_map {α β : Type} (resolved : Bool) (a : α) (g : α → β) :
    (ifResolved resolved a).map g = ifResolved resolved (g a) := by
  cases resolved <;> rfl

theorem mapM_ifResolved {α β : Type} (p : α → Bool) (g : α → β) (l : List α) :
    (l.mapM fun a => ifResolved (p a) (g a)) = ifResolved (l.all p) (l.map g) := by
  induction l with
  | nil => rfl
  | cons a l ih =>
    rw [List.mapM_cons, ih, List.all_cons, List.map_cons]
    cases p a <;> cases l.all p <;> rfl

theorem Reader.Gives.andThenIfResolved {α β : Type} {reader : Reader α} {next : α → Reader β}
    {first second : List UInt8} {p q : Bool} {a : α} {b : β}
    (hx : reader.Gives first (ifResolved p a)) (hy : (next a).Gives second (ifResolved q b)) :
    (reader >>= next).Gives (first ++ second) (ifResolved (p && q) b) := by
  cases p with
  | true => exact hx.andThen hy
  -- The first reader fails, so that what comes after it does not matter.
  | false => exact hx.bind (y := fun _ => ifResolved q b) fun _ h => by cases h

namespace Standard

open Reader

/-! ## Parts of a chunk -/

theorem gives_readHeader : readHeader.Gives header (.ok ()) :=
  (gives_bytes header).andThen (gives_pure ())

/-- A text is read from its bytes, whatever they are, and whatever byte comes after them. -/
theorem gives_readString_bytes (bytes : List UInt8) (last : UInt8) (h : bytes.length < twoPow 63) :
    readString.Gives (toLittleEndian 8 (bytes.length + 1) ++ (bytes ++ [last]))
      (.ok (Text.ofBytes bytes)) := by
  have hlength : u64.Gives (toLittleEndian 8 (bytes.length + 1)) (.ok (bytes.length + 1)) :=
    gives_unsigned (Nat.lt_of_le_of_lt h (by decide : twoPow 63 < twoPow 64))
  have hbytes := gives_bytes (bytes ++ [last])
  rw [List.length_append, List.length_singleton] at hbytes
  refine hlength.andThen ?_
  have := hbytes.map fun taken => Text.ofBytes (taken.take (bytes.length + 1 - 1))
  rwa [Except.map, Nat.add_sub_cancel, List.take_left] at this

theorem gives_readString {s : String} (h : (Text.toBytes s).length < twoPow 63) :
    readString.Gives (writeString s) (.ok s) := by
  have hread := gives_readString_bytes (Text.toBytes s) 0 h
  rwa [← List.append_assoc, Text.ofBytes_toBytes] at hread

theorem length_toBytes_empty : (Text.toBytes "").length < twoPow 63 := by
  rw [Text.toBytes_eq_flatMap, String.toList_empty]
  decide

theorem gives_readInstruction (i : Instruction) (index : Nat) :
    (readInstruction index).Gives (toLittleEndian 4 i.word)
      (ifResolved i.isResolved (i.stored index)) := by
  have hword : u32.Gives (toLittleEndian 4 i.word) (.ok i.word) := gives_unsigned i.word_lt
  refine hword.andThenNil ?_
  rw [Instruction.ofWord_word]
  cases i.isResolved
  · exact gives_fail _
  · exact gives_pure _

theorem gives_readConstant {c : Constant}
    (h : ∀ s, c = .string s → (Text.toBytes s).length < twoPow 63) :
    readConstant.Gives (writeConstant c) (.ok c) := by
  cases c with
  | nil => exact (gives_u8 0).andThen (gives_pure _)
  | boolean value =>
    refine (gives_u8 1).andThen ?_
    cases value
    · exact (gives_u8 0).map fun b => Constant.boolean (b != 0)
    · exact (gives_u8 1).map fun b => Constant.boolean (b != 0)
  | number bits => exact (gives_u8 3).andThen ((gives_bits bits).map Constant.number)
  | string s => exact (gives_u8 4).andThen ((gives_readString (h s rfl)).map Constant.string)

theorem gives_skipDebug : skipDebug.Gives (writeInt 0 ++ writeInt 0 ++ writeInt 0) (.ok ()) := by
  have hcount (what : String) : (Reader.count what).Gives (writeInt 0) (.ok 0) :=
    gives_count what (by decide)
  rw [List.append_assoc]
  refine (hcount _).andThen ?_
  refine (gives_bytes []).nilAndThen ?_
  refine (hcount _).andThen ?_
  refine (gives_pure []).nilAndThen ?_
  exact (hcount _).andThenNil ((gives_pure []).nilAndThen (gives_pure ()))

/-! ## Prototypes -/

theorem writePrototypes_eq_flatMap (fs : List Prototype) :
    writePrototypes fs = fs.flatMap writePrototype := by
  induction fs with
  | nil => rfl
  | cons f fs ih => rw [writePrototypes, ih, List.flatMap_cons]

theorem length_writePrototype_le {g : Prototype} {fs : List Prototype} (hg : g ∈ fs) :
    (writePrototype g).length ≤ (writePrototypes fs).length := by
  rw [writePrototypes_eq_flatMap, List.flatMap_def]
  exact (List.sublist_flatten_of_mem (List.mem_map_of_mem hg)).length_le

/-- A nested prototype takes fewer bytes than the one around it. -/
theorem length_writePrototype_lt {f g : Prototype} (hg : g ∈ f.functions) :
    (writePrototype g).length < (writePrototype f).length := by
  cases f with
  | mk name code constants functions params upvalues vararg stack =>
    have hle : (writePrototype g).length ≤ (writePrototypes functions).length :=
      length_writePrototype_le hg
    rw [writePrototype]
    simp only [List.length_append, writeInt, length_toLittleEndian]
    omega

theorem gives_readInstructions (code : List Instruction) :
    (times code.length readInstruction).Gives (code.flatMap fun i => toLittleEndian 4 i.word)
      (ifResolved (code.all (·.isResolved)) (code.zipIdx.map fun (i, index) => i.stored index)) := by
  have h := gives_times code fun i _ index => gives_readInstruction i index
  rw [mapM_ifResolved fun item : Instruction × Nat => item.1.isResolved] at h
  have hall : (code.zipIdx.all fun item => item.1.isResolved) = code.all (·.isResolved) :=
    calc
      (code.zipIdx.all fun item => item.1.isResolved) =
          (code.zipIdx.map Prod.fst).all (·.isResolved) := by rw [List.all_map]; rfl
      _ = code.all (·.isResolved) := by rw [List.zipIdx_map_fst]
  rwa [hall] at h

theorem gives_readConstants {constants : List Constant}
    (h : ∀ s, .string s ∈ constants → (Text.toBytes s).length < twoPow 63) :
    (times constants.length fun _ => readConstant).Gives (constants.flatMap writeConstant)
      (.ok constants) := by
  have hread := gives_times_const constants fun c hc =>
    gives_readConstant (c := c) fun s hs => h s (hs ▸ hc)
  have hok : constants.mapM (m := Except Error) Except.ok = .ok constants :=
    List.mapM_pure.trans (congrArg _ (List.map_id constants))
  rwa [hok] at hread

/-- A prototype is read back from its bytes, if there is room for it and the reader may
    go deep enough. -/
theorem gives_readPrototype (f : Prototype) : ∀ depth, f.Fits → (writePrototype f).length < depth →
    (readPrototype depth).Gives (writePrototype f) (ifResolved f.isResolved f.stored) := by
  induction f using Prototype.tree_induction with
  | h f ih =>
    intro depth hfits hdepth
    obtain ⟨depth, rfl⟩ : ∃ d, depth = d + 1 := ⟨depth - 1, by omega⟩
    -- Nested prototypes take fewer bytes, so that one level less is deep enough for them.
    have hnested := gives_times_const f.functions fun g hg =>
      ih g hg depth (hfits.nested hg) (Nat.lt_of_lt_of_le (length_writePrototype_lt hg)
        (Nat.le_of_lt_succ hdepth))
    rw [mapM_ifResolved] at hnested
    obtain ⟨hcode, hconstants, hfunctions, htexts⟩ := hfits.alone
    rw [Prototype.isResolved_eq, ← Bool.and_true (f.functions.all _)]
    cases f with
    | mk name code constants functions params upvalues vararg stack =>
      have hheads : [upvalues, params, vararg, stack] =
        [upvalues] ++ ([params] ++ ([vararg] ++ [stack])) := rfl
      rw [writePrototype, readPrototype, hheads, writePrototypes_eq_flatMap]
      simp only [List.append_assoc]
      -- From here on the reader is followed part by part, in the order of the chunk.
      refine (gives_readString length_toBytes_empty).andThen ?_
      refine (gives_i32 (by decide)).andThen ?_
      refine (gives_i32 (by decide)).andThen ?_
      refine (gives_u8 upvalues).andThen ?_
      refine (gives_u8 params).andThen ?_
      refine (gives_u8 vararg).andThen ?_
      refine (gives_u8 stack).andThen ?_
      refine (gives_count _ hcode).andThen ?_
      refine (gives_readInstructions code).andThenIfResolved ?_
      refine (gives_count _ hconstants).andThen ?_
      refine (gives_readConstants htexts).andThen ?_
      refine (gives_count _ hfunctions).andThen ?_
      refine hnested.andThenIfResolved ?_
      rw [← List.append_assoc, ← List.append_nil (writeInt 0 ++ writeInt 0 ++ writeInt 0)]
      rw [Prototype.stored, Prototype.storedAll_eq_map]
      exact gives_skipDebug.andThen (gives_pure _)

/-! ## Chunks -/

theorem read_write_eq {f : Prototype} (h : f.Fits) :
    read (write f) = ifResolved f.isResolved f.stored.assignNames := by
  have hdepth : (writePrototype f).length < (write f).length + 1 := by
    rw [write, List.length_append]
    omega
  refine runOn_eq_of_gives (gives_readHeader.andThen ?_)
  have := (gives_readPrototype f _ h hdepth).map Prototype.assignNames
  rwa [ifResolved_map] at this

/-- A program for which a chunk has room is read back as far as a chunk keeps it, and
    its prototypes are named by their numbers, if all its operations are known; if one is
    not, its chunk is refused. -/
theorem read_write {f : Prototype} (h : f.Fits) :
    ((∀ i ∈ f.allInstructions, i.opcode ≠ .unknown) →
      read (write f) = .ok f.stored.assignNames ∧
        f.stored.assignNames.all.map (·.name) =
          (List.range f.functionCount).map Prototype.numberedName) ∧
    ((∃ i ∈ f.allInstructions, i.opcode = .unknown) →
      read (write f) = .error (.unknownOpcode 63)) := by
  have hread := read_write_eq h
  refine ⟨fun hknown => ⟨?_, ?_⟩, ?_⟩
  · rw [hread, f.isResolved_iff.2 hknown]
    rfl
  · rw [Prototype.map_name_all_assignNames, Prototype.functionCount_stored]
  · rintro ⟨i, hi, hunknown⟩
    have hres : f.isResolved = false :=
      Bool.eq_false_iff.2 fun hres => f.isResolved_iff.1 hres i hi hunknown
    rw [hread, hres]
    rfl

/-- A program with a nested prototype, constants of all kinds, and operands that do not
    fit into their fields. -/
def sampleProgram (first : Opcode) : Prototype :=
  { instructions :=
      [.ofOpcode 7 first 300 (-1) 0, .ofOpcode 8 .jmp 1 (-3) 2, .ofOpcode 9 .forPrep 1 200000 0,
       .ofOpcode 4 .close 3 5 6]
    constants := [.string "hi", .number 0x7ff8000000000001, .boolean false, .nil]
    functions := [{ instructions := [.ofOpcode 0 .ret 0 1 0], numParams := 1, maxStackSize := 2 }]
    isVararg := 2, maxStackSize := 3 }

theorem fits_sampleProgram (first : Opcode) : (sampleProgram first).Fits := by
  have hi : (Text.toBytes "hi").length < twoPow 63 := by
    rw [Text.toBytes_eq_flatMap]
    decide
  intro g hg
  simp only [sampleProgram, Prototype.all, Prototype.allOf, List.append_nil, List.mem_cons,
    List.not_mem_nil, or_false] at hg
  rcases hg with rfl | rfl
  · exact ⟨by simp, by simp, by simp, fun s hs => by simp at hs; exact hs ▸ hi⟩
  · exact ⟨by simp, by simp, by simp, fun s hs => absurd hs List.not_mem_nil⟩

theorem read_write_sampleProgram :
    (sampleProgram .add).Fits ∧ (sampleProgram .unknown).Fits ∧
      read (write (sampleProgram .add)) = .ok (sampleProgram .add).stored.assignNames ∧
      read (write (sampleProgram .unknown)) = .error (.unknownOpcode 63) :=
  ⟨fits_sampleProgram _, fits_sampleProgram _,
    ((read_write (fits_sampleProgram .add)).1 (by decide)).1,
    (read_write (fits_sampleProgram .unknown)).2 (by decide)⟩

end Standard

end LuaUnpack.Chunk
