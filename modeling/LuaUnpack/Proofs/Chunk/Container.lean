import LuaUnpack.Chunk.Packed
import LuaUnpack.Proofs.Chunk.Reading
import LuaUnpack.Proofs.Chunk.Tree

/-!
# What packed data stands for

Packed data is a tree of records. A record consists of the contents of its sections, in the
order of the format; a section that the format has more than once has a content for each
time. The content of instructions is a list of records that are left out or kept, the
content of constants a list of tags with what comes after them, and the content of nested
functions a list of records again.

The bytes of a record (`Record.bytes`) and the prototype that it stands for
(`Record.prototype`) are both folds over the tree, told without the reader. Reading the
bytes of a record that follows a format, whatever comes after them, gives the prototype of
the record (`read_bytes_append`).
-/

namespace LuaUnpack.Chunk.Packed

/-! ## Records of instructions -/

/-- The operands `b` and `c` of a record, in one of four shapes. -/
inductive Operands where
  | short (b c : Int16)
  | wide (b : Int32)
  | biased (b : Int32)
  | biasedShort (b : Int32) (c : Int16)

namespace Operands

/-- The number of a shape. -/
def shape : Operands → Nat
  | short _ _ => 0
  | wide _ => 1
  | biased _ => 2
  | biasedShort _ _ => 3

/-- The bytes of operands. -/
def bytes : Operands → List UInt8
  | short b c => toLittleEndian 2 b.toUInt16.toNat ++ toLittleEndian 2 c.toUInt16.toNat
  | wide b => toLittleEndian 4 b.toUInt32.toNat
  | biased b => toLittleEndian 4 b.toUInt32.toNat
  | biasedShort b c => toLittleEndian 4 b.toUInt32.toNat ++ toLittleEndian 2 c.toUInt16.toNat

/-- The values of `b` and `c`; what does not fit into 32 bits after the bias is taken away
    wraps around. -/
def values : Operands → Int32 × Int32
  | short b c => (b.toInt32, c.toInt32)
  | wide b => (b, 0)
  | biased b => (Int32.ofInt (b.toInt - 65536), 0)
  | biasedShort b c => (Int32.ofInt (b.toInt - 65536), c.toInt32)

end Operands

/-- The record of an instruction: one that is left out, with seven bits that do not matter,
    or one that is kept, with two of them. -/
inductive CodeRecord where
  | skipped (unused : Fin 128)
  | kept (opnum a : Int16) (operands : Operands) (ka kb kc : Bool) (unused : Fin 4)

namespace CodeRecord

/-- The first byte of a record, as a number. -/
def descriptor : CodeRecord → Nat
  | skipped unused => 1 + 2 * unused
  | kept _ _ operands ka kb kc unused =>
    2 * operands.shape + 8 * ka.toNat + 16 * kb.toNat + 32 * kc.toNat + 64 * unused

/-- The bytes of a record. -/
def bytes (record : CodeRecord) : List UInt8 :=
  UInt8.ofNat record.descriptor ::
    match record with
    | skipped _ => []
    | kept opnum a operands _ _ _ _ =>
      toLittleEndian 2 opnum.toUInt16.toNat ++ toLittleEndian 2 a.toUInt16.toNat ++ operands.bytes

/-- The instruction of a record with a number. -/
def instruction? (number : Nat) : CodeRecord → Option Instruction
  | skipped _ => none
  | kept opnum a operands ka kb kc _ =>
    some
      { id := number, opnum := opnum.toInt32, opcode := .unknown, a := a.toInt32,
        b := operands.values.1, c := operands.values.2, flags := { ka, kb, kc },
        pc := Int32.ofNat number }

end CodeRecord

/-! ## Records of constants -/

/-- What comes after the tag of a constant. -/
inductive Payload where
  | nothing
  | boolean (byte : UInt8)
  | number (bits : UInt64)
  | string (bytes : List UInt8)

namespace Payload

/-- The kind of constant that a payload is for, if there is one. -/
def kind? : Payload → Option ConstantKind
  | nothing => none
  | boolean _ => some .boolean
  | number _ => some .number
  | string _ => some .string

/-- The bytes of a payload; those of a string come after their number. -/
def bytes : Payload → List UInt8
  | nothing => []
  | boolean byte => [byte]
  | number bits => toLittleEndian 8 bits.toNat
  | string bytes => toLittleEndian 4 bytes.length ++ bytes

/-- The constant of a payload, with the key for strings. -/
def constant (key : Int64) : Payload → Constant
  | nothing => .nil
  | boolean byte => .boolean (byte != 0)
  | number bits => .number bits
  | string bytes => .string (Transport.decodeConstant key bytes)

end Payload

/-- The record of a constant. -/
structure ConstantRecord where
  tag : UInt8
  payload : Payload

/-- Whether the tag of a constant says what comes after it, and the bytes of a string can be
    counted. -/
structure ConstantRecord.Follows (format : Format) (record : ConstantRecord) : Prop where
  kind : record.payload.kind? = format.constantTags.get? record.tag
  length : ∀ bytes, record.payload = .string bytes → bytes.length < twoPow 31

/-! ## Records of prototypes -/

/-- The content of a section, in which nested prototypes are given in some form. -/
inductive Content (ρ : Type) where
  | instructions (records : List CodeRecord)
  | constants (records : List ConstantRecord)
  | functions (nested : List ρ)
  | numParams (n : UInt8)

/-- The record of a prototype: the contents of its sections. -/
structure Record where
  contents : List (Content Record)

namespace Content

variable {ρ σ : Type}

/-- The section that a content is for. -/
def kind : Content ρ → Section
  | instructions _ => .instructions
  | constants _ => .constants
  | functions _ => .functions
  | numParams _ => .numParams

/-- Whether the elements of a content can be counted, and its constants follow a format. -/
def Follows (format : Format) : Content ρ → Prop
  | instructions records => records.length < twoPow 31
  | constants records => records.length < twoPow 31 ∧ ∀ r ∈ records, r.Follows format
  | functions nested => nested.length < twoPow 31
  | numParams _ => True

/-- A content with another form of nested prototypes. -/
def map (f : ρ → σ) : Content ρ → Content σ
  | instructions records => instructions records
  | constants records => constants records
  | functions nested => functions (nested.map f)
  | numParams n => numParams n

/-- The bytes of a content in which nested prototypes are given by their bytes. -/
def bytes : Content (List UInt8) → List UInt8
  | instructions records => toLittleEndian 4 records.length ++ records.flatMap CodeRecord.bytes
  | constants records =>
    toLittleEndian 4 records.length ++ records.flatMap fun r => r.tag :: r.payload.bytes
  | functions nested => toLittleEndian 4 nested.length ++ nested.flatten
  | numParams n => [n]

/-- The instructions of a content. Records that are left out count, but are not there. -/
def instructions? : Content ρ → Option (List Instruction)
  | instructions records =>
    some (records.zipIdx.filterMap fun (record, number) => record.instruction? number)
  | _ => none

/-- The constants of a content, with the key for strings. -/
def constants? (key : Int64) : Content ρ → Option (List Constant)
  | constants records => some (records.map fun r => r.payload.constant key)
  | _ => none

/-- The nested prototypes of a content. -/
def functions? : Content ρ → Option (List ρ)
  | functions nested => some nested
  | _ => none

/-- The number of parameters of a content. -/
def numParams? : Content ρ → Option UInt8
  | numParams n => some n
  | _ => none

/-- What the last of the contents that hold something holds. -/
def last {γ : Type} (hold : Content ρ → Option γ) (default : γ) (contents : List (Content ρ)) : γ :=
  (contents.filterMap hold).getLast?.getD default

/-- The prototype of contents in which nested prototypes are given; for each field, the last
    content with that field counts. -/
def prototype (key : Int64) (contents : List (Content Prototype)) : Prototype where
  instructions := last instructions? [] contents
  constants := last (constants? key) [] contents
  functions := last functions? [] contents
  numParams := last numParams? 0 contents

end Content

namespace Record

section

variable {α : Type} (f : List (Content α) → α)

mutual

/-- Makes something of a record when it is known what to make of its contents. -/
def fold : Record → α
  | ⟨contents⟩ => f (foldContents contents)

/-- The contents with something made of the records in them. -/
def foldContents : List (Content Record) → List (Content α)
  | [] => []
  | content :: rest => foldContent content :: foldContents rest

/-- A content with something made of the records in it. -/
def foldContent : Content Record → Content α
  | .instructions records => .instructions records
  | .constants records => .constants records
  | .functions nested => .functions (foldAll nested)
  | .numParams n => .numParams n

/-- What is made of records. -/
def foldAll : List Record → List α
  | [] => []
  | record :: rest => fold record :: foldAll rest

end

theorem foldAll_eq_map (records : List Record) : foldAll f records = records.map (fold f) := by
  induction records with
  | nil => rfl
  | cons record rest ih => rw [foldAll, ih, List.map_cons]

theorem fold_eq (record : Record) : record.fold f = f (record.contents.map (.map (fold f))) := by
  have hcontent (content : Content Record) : foldContent f content = content.map (fold f) := by
    cases content with
    | functions nested => rw [foldContent, foldAll_eq_map, Content.map]
    | _ => rfl
  have hcontents (contents : List (Content Record)) :
      foldContents f contents = contents.map (.map (fold f)) := by
    induction contents with
    | nil => rfl
    | cons content rest ih => rw [foldContents, ih, hcontent, List.map_cons]
  cases record
  rw [fold, hcontents]

end

/-- The bytes of a record. -/
def bytes (record : Record) : List UInt8 := record.fold (List.flatMap Content.bytes)

/-- The prototype that a record stands for, with the key for strings. -/
def prototype (key : Int64) (record : Record) : Prototype := record.fold (Content.prototype key)

/-- Whether a record and those nested in it follow a format: their contents are those of the
    sections of the format, in this order. -/
inductive Follows (format : Format) : Record → Prop
  | intro {contents : List (Content Record)} (kinds : contents.map Content.kind = format.sections)
      (each : ∀ content ∈ contents, content.Follows format)
      (nested : ∀ records, .functions records ∈ contents → ∀ r ∈ records, Follows format r) :
      Follows format ⟨contents⟩

end Record

/-! ## Reading instructions and constants -/

open Reader

theorem gives_i16 (n : Int16) : i16.Gives (toLittleEndian 2 n.toUInt16.toNat) (.ok n) := by
  have hn : Int16.ofNat n.toUInt16.toNat = n := by
    rw [← Int16.toBitVec_inj]
    simp [Int16.ofNat]
  have h : (unsigned 2).Gives (toLittleEndian 2 n.toUInt16.toNat) (.ok n.toUInt16.toNat) :=
    gives_unsigned n.toUInt16.toNat_lt
  have := h.map Int16.ofNat
  rwa [Except.map, hn] at this

theorem gives_signed (n : Int32) : i32.Gives (toLittleEndian 4 n.toUInt32.toNat) (.ok n) := by
  have hn : Int32.ofNat n.toUInt32.toNat = n := by
    rw [← Int32.toBitVec_inj]
    simp [Int32.ofNat]
  have := gives_i32 n.toUInt32.toNat_lt
  rwa [hn] at this

theorem sub_operandBias (b : Int32) : b - operandBias = Int32.ofInt (b.toInt - 65536) := by
  rw [Int32.ofInt_sub, Int32.ofInt_toInt]
  rfl

theorem gives_readOperands (operands : Operands) :
    (readOperands operands.shape).Gives operands.bytes (.ok operands.values) := by
  cases operands with
  | short b c => exact (gives_i16 b).andThen ((gives_i16 c).andThenNil (gives_pure _))
  | wide b => exact (gives_signed b).andThenNil (gives_pure _)
  | biased b =>
    rw [Operands.values, ← sub_operandBias]
    exact (gives_signed b).andThenNil (gives_pure _)
  | biasedShort b c =>
    rw [Operands.values, ← sub_operandBias]
    exact (gives_signed b).andThen ((gives_i16 c).andThenNil (gives_pure _))

theorem Operands.shape_lt (operands : Operands) : operands.shape < 4 := by
  rcases operands with _ | _ | _ | _ <;> simp [shape]

theorem CodeRecord.descriptor_lt (record : CodeRecord) : record.descriptor < 256 := by
  rcases record with ⟨unused⟩ | ⟨opnum, a, operands, ka, kb, kc, unused⟩
  · rw [descriptor]
    omega
  · have hshape := operands.shape_lt
    have hka := ka.toNat_le
    have hkb := kb.toNat_le
    have hkc := kc.toNat_le
    rw [descriptor]
    omega

theorem beq_one_toNat (flag : Bool) : (flag.toNat == 1) = flag := by
  cases flag <;> rfl

theorem gives_readRecord (record : CodeRecord) (number : Nat) :
    (readRecord number).Gives record.bytes (.ok (record.instruction? number)) := by
  have hd : (UInt8.ofNat record.descriptor).toNat = record.descriptor :=
    UInt8.toNat_ofNat_of_lt record.descriptor_lt
  refine (gives_u8 _).andThen ?_
  rw [hd]
  rcases record with ⟨unused⟩ | ⟨opnum, a, operands, ka, kb, kc, unused⟩
  · -- The lowest bit is set, and nothing comes after the descriptor.
    have hdead : ((CodeRecord.skipped unused).descriptor % 2 == 1) = true := by
      simp [CodeRecord.descriptor]
    dsimp only
    rw [if_pos hdead]
    exact gives_pure none
  · -- The fields of the descriptor do not disturb each other.
    obtain ⟨hdead, hshape, hka, hkb, hkc⟩ :
        (CodeRecord.kept opnum a operands ka kb kc unused).descriptor % 2 = 0 ∧
          (CodeRecord.kept opnum a operands ka kb kc unused).descriptor / 2 % 4 = operands.shape ∧
          (CodeRecord.kept opnum a operands ka kb kc unused).descriptor / 8 % 2 = ka.toNat ∧
          (CodeRecord.kept opnum a operands ka kb kc unused).descriptor / 16 % 2 = kb.toNat ∧
          (CodeRecord.kept opnum a operands ka kb kc unused).descriptor / 32 % 2 = kc.toNat := by
      have hshape := operands.shape_lt
      have hka := ka.toNat_le
      have hkb := kb.toNat_le
      have hkc := kc.toNat_le
      rw [CodeRecord.descriptor]
      omega
    dsimp only
    rw [if_neg (by simp [hdead]), hshape, hka, hkb, hkc, beq_one_toNat, beq_one_toNat,
      beq_one_toNat, List.append_assoc]
    refine (gives_i16 opnum).andThen ((gives_i16 a).andThen ?_)
    exact (gives_readOperands operands).andThenNil (gives_pure _)

theorem gives_readConstant {format : Format} {record : ConstantRecord} (h : record.Follows format) :
    (readConstant format).Gives (record.tag :: record.payload.bytes)
      (.ok (record.payload.constant format.constantKey)) := by
  obtain ⟨hkind, hlength⟩ := h
  refine (gives_u8 record.tag).andThen ?_
  rw [← hkind]
  cases hp : record.payload with
  | nothing => exact gives_pure _
  | boolean byte => exact (gives_u8 byte).andThenNil (gives_pure _)
  | number bits => exact (gives_bits bits).andThenNil (gives_pure _)
  | string bytes =>
    exact (gives_count _ (hlength bytes hp)).andThen ((gives_bytes bytes).andThenNil (gives_pure _))

/-! ## Reading sections -/

/-- Items whose readers succeed are read one after the other. -/
theorem gives_times_ok {α β : Type} {reader : Nat → Reader β} {write : α → List UInt8}
    {value : Nat → α → β} (items : List α)
    (h : ∀ a ∈ items, ∀ k, (reader k).Gives (write a) (.ok (value k a))) :
    (times items.length reader).Gives (items.flatMap write)
      (.ok (items.zipIdx.map fun item => value item.2 item.1)) := by
  have hread := gives_times items h
  rwa [show (items.zipIdx.mapM fun item => (.ok (value item.2 item.1) : Except Error β)) =
    .ok (items.zipIdx.map fun item => value item.2 item.1) from List.mapM_pure] at hread

/-- The same for items whose reader does not depend on the index. -/
theorem gives_times_const_ok {α β : Type} {reader : Reader β} {write : α → List UInt8}
    {value : α → β} (items : List α) (h : ∀ a ∈ items, reader.Gives (write a) (.ok (value a))) :
    (times items.length fun _ => reader).Gives (items.flatMap write) (.ok (items.map value)) := by
  have hread := gives_times_const items h
  rwa [show items.mapM (fun a => (.ok (value a) : Except Error β)) = .ok (items.map value) from
    List.mapM_pure] at hread

namespace Content

theorem last_cons {ρ γ : Type} (hold : Content ρ → Option γ) (default : γ) (content : Content ρ)
    (contents : List (Content ρ)) :
    last hold default (content :: contents) = last hold ((hold content).getD default) contents := by
  rw [last, last, List.filterMap_cons]
  cases hold content <;> simp [List.getLast?_cons]

/-- A prototype with the contents of sections put into it, each in place of what was there
    before. -/
def putAll (key : Int64) (f : Prototype) (contents : List (Content Prototype)) : Prototype :=
  { f with
    instructions := last instructions? f.instructions contents
    constants := last (constants? key) f.constants contents
    functions := last functions? f.functions contents
    numParams := last numParams? f.numParams contents }

theorem putAll_nil (key : Int64) (f : Prototype) : putAll key f [] = f := by
  cases f
  rfl

theorem putAll_cons (key : Int64) (f : Prototype) (content : Content Prototype)
    (contents : List (Content Prototype)) :
    putAll key f (content :: contents) = putAll key (putAll key f [content]) contents := by
  simp only [putAll, last_cons]
  rfl

end Content

theorem gives_contentInstructions {records : List CodeRecord} (h : records.length < twoPow 31) :
    readInstructions.Gives (Content.bytes (.instructions records))
      (.ok (records.zipIdx.filterMap fun (record, number) => record.instruction? number)) := by
  refine (gives_count _ h).andThen ?_
  have := (gives_times_ok records fun record _ number => gives_readRecord record number).map
    (List.filterMap id)
  rwa [Except.map, List.filterMap_map] at this

/-- The contents of sections are put into a prototype one after the other, if the records
    that they hold are read. -/
theorem gives_readSections {format : Format} {readNested : Reader Prototype}
    {contents : List (Content Record)} (heach : ∀ content ∈ contents, content.Follows format)
    (hnested : ∀ records, .functions records ∈ contents → ∀ r ∈ records,
      readNested.Gives r.bytes (.ok (r.prototype format.constantKey))) (f : Prototype) :
    (readSections format readNested (contents.map Content.kind) f).Gives
      ((contents.map (.map Record.bytes)).flatMap Content.bytes)
      (.ok (Content.putAll format.constantKey f
        (contents.map (.map (Record.prototype format.constantKey))))) := by
  -- On the sections that are left, for whatever is in the prototype already.
  induction contents generalizing f with
  | nil =>
    simp only [List.map_nil, Content.putAll_nil]
    exact gives_pure f
  | cons content contents ih =>
    rw [List.forall_mem_cons] at heach
    have hrest := ih heach.2 fun records hmem => hnested records (List.mem_cons_of_mem _ hmem)
    rw [List.map_cons, List.map_cons, List.map_cons, List.flatMap_cons, Content.putAll_cons]
    cases content with
    | instructions records =>
      exact (gives_contentInstructions heach.1).andThen (hrest _)
    | constants records =>
      -- Counted items: the count first, then one after the other.
      obtain ⟨hlength, hrecords⟩ := heach.1
      have hread := gives_times_const_ok records fun r hr => gives_readConstant (hrecords r hr)
      rw [Content.map, Content.bytes, List.append_assoc]
      exact (gives_count _ hlength).andThen (hread.andThen (hrest _))
    | functions records =>
      have hread := gives_times_const_ok records (hnested records List.mem_cons_self)
      rw [Content.map, Content.bytes, List.append_assoc, List.length_map, ← List.flatMap_def]
      exact (gives_count _ heach.1).andThen (hread.andThen (hrest _))
    | numParams n => exact (gives_u8 n).andThen (hrest _)

/-! ## Reading programs -/

namespace Record

theorem bytes_eq (record : Record) :
    record.bytes = (record.contents.map (.map bytes)).flatMap Content.bytes :=
  record.fold_eq _

theorem prototype_eq (key : Int64) (record : Record) :
    record.prototype key = Content.prototype key (record.contents.map (.map (prototype key))) :=
  record.fold_eq _

/-- A nested record has fewer bytes than the one around it, which counts it. -/
theorem length_bytes_lt {record nested : Record} {records : List Record}
    (hmem : .functions records ∈ record.contents) (hnested : nested ∈ records) :
    nested.bytes.length < record.bytes.length := by
  have hle : nested.bytes.length ≤ (records.map bytes).flatten.length :=
    (List.sublist_flatten_of_mem (List.mem_map_of_mem hnested)).length_le
  have hmem' : (Content.functions records).map bytes ∈ record.contents.map (.map bytes) :=
    List.mem_map_of_mem hmem
  have hle' : (Content.bytes ((Content.functions records).map bytes)).length ≤
      record.bytes.length := by
    rw [bytes_eq, List.flatMap_def]
    exact (List.sublist_flatten_of_mem (List.mem_map_of_mem hmem')).length_le
  rw [Content.map, Content.bytes, List.length_append, length_toLittleEndian] at hle'
  omega

end Record

/-- A record that follows a format is read from its bytes, if the reader may go deep
    enough. -/
theorem gives_readPrototype {format : Format} {record : Record} (h : record.Follows format) :
    ∀ depth, record.bytes.length < depth →
      (readPrototype format depth).Gives record.bytes
        (.ok (record.prototype format.constantKey)) := by
  induction h with
  | @intro contents kinds each nested ih =>
    intro depth hdepth
    obtain ⟨depth, rfl⟩ : ∃ d, depth = d + 1 := ⟨depth - 1, by omega⟩
    rw [Record.bytes_eq, Record.prototype_eq, readPrototype, ← kinds]
    refine gives_readSections each (fun records hmem r hr => ?_) {}
    -- Nested records have fewer bytes, so that one level less is deep enough for them.
    refine ih records hmem r hr depth ?_
    have hlt : r.bytes.length < (Record.mk contents).bytes.length := Record.length_bytes_lt hmem hr
    omega

/-- A format in which the number of parameters comes twice and nested functions come before
    instructions; booleans have the tag 3 and strings the tag 5. -/
def sampleFormat : Format where
  sections := [.numParams, .constants, .functions, .instructions, .numParams]
  constantTags := [(3, .boolean), (5, .string)]
  constantKey := 1

/-- A record whose only instruction is left out. -/
def emptyRecord : Record where
  contents :=
    [.numParams 0, .constants [], .functions [], .instructions [.skipped 5], .numParams 1]

/-- A record with instructions of all shapes, one of which is left out, a string that is
    shifted by the key, a constant with a foreign tag, and a nested record. -/
def sampleRecord : Record where
  contents :=
    [.numParams 9,
     .constants [⟨5, .string [0x80, 0x67, 0x68]⟩, ⟨3, .boolean 2⟩, ⟨200, .nothing⟩],
     .functions [emptyRecord],
     .instructions
       [.kept 4 1 (.short 2 (-3)) false true false 0, .skipped 0,
        .kept 5 0 (.wide 70000) true false true 3,
        .kept 6 0 (.biased (-2147483648)) false false false 0,
        .kept 7 2 (.biasedShort 65537 9) false false false 1],
     .numParams 2]

example : (sampleRecord.prototype 1).instructions =
    [⟨0, 4, .unknown, 1, 2, -3, { kb := true }, 0⟩,
     ⟨2, 5, .unknown, 0, 70000, 0, { ka := true, kc := true }, 2⟩,
     ⟨3, 6, .unknown, 0, 2147418112, 0, {}, 3⟩, ⟨4, 7, .unknown, 2, 1, 9, {}, 4⟩] := by
  rfl

theorem follows_emptyRecord : emptyRecord.Follows sampleFormat := by
  refine .intro rfl (by simp [Content.Follows]) fun records hmem => ?_
  obtain rfl : records = [] := by simpa using hmem
  exact fun r hr => absurd hr List.not_mem_nil

theorem follows_sampleRecord : sampleRecord.Follows sampleFormat := by
  refine .intro rfl ?_ fun records hmem => ?_
  · have hstring : (⟨5, .string [0x80, 0x67, 0x68]⟩ : ConstantRecord).Follows sampleFormat :=
      ⟨rfl, by simp⟩
    have hboolean : (⟨3, .boolean 2⟩ : ConstantRecord).Follows sampleFormat := ⟨rfl, by simp⟩
    have hforeign : (⟨200, .nothing⟩ : ConstantRecord).Follows sampleFormat := ⟨rfl, by simp⟩
    simp [Content.Follows, hstring, hboolean, hforeign]
  · obtain rfl : records = [emptyRecord] := by simpa using hmem
    simpa using follows_emptyRecord

end LuaUnpack.Chunk.Packed
