import LuaUnpack.Transport
import LuaUnpack.Proofs.Dict

/-!
# Tables of constants

A table is written as records, one after the other, and the byte that ends it. Each record
(`TableRecord`) is read by its own length, whatever comes after it (`readRecord_append`), and
wherever a record is cut off it cannot be read (`exists_readRecord_take`). So the records of a
table are read one by one up to its end, and the entries among them are put into the table in
their order (`readRecords_tableBytes`); a table that is cut off anywhere is reported
(`exists_readRecords_take`).
-/

namespace LuaUnpack.Transport

/-! ## Texts with their length -/

/-- The bytes of a text whose length fits into a byte. -/
structure Payload where
  bytes : List UInt8
  length_le : bytes.length ≤ 255

namespace Payload

/-- The text of a payload, with replacements for what is no text. -/
def text (payload : Payload) : String := Text.ofBytes payload.bytes

/-- The bytes of a payload with its length before them. -/
def sized (payload : Payload) : List UInt8 := UInt8.ofNat payload.bytes.length :: payload.bytes

theorem toNat_size (payload : Payload) :
    (UInt8.ofNat payload.bytes.length).toNat = payload.bytes.length := by
  rw [UInt8.toNat_ofNat']
  have := payload.length_le
  omega

end Payload

@[simp]
theorem readSized_append (payload : Payload) (rest : List UInt8) :
    readSized (payload.sized ++ rest) = .ok (payload.text, payload.sized.length) := by
  simp [Payload.sized, Payload.text, readSized, payload.toNat_size]

theorem exists_readSized_take (payload : Payload) {n : Nat} (h : n < payload.sized.length) :
    ∃ used, readSized (payload.sized.take n) = .error used := by
  cases n with
  | zero => exact ⟨0, rfl⟩
  | succ n =>
    refine ⟨1, ?_⟩
    have hn : n < payload.bytes.length := Nat.lt_of_succ_lt_succ h
    simp [Payload.sized, readSized, payload.toNat_size, hn]

/-! ## Records -/

/-- A record of a table: a control byte that does not end the table, a text, a second one just
    if the control byte asks for it, and a key. -/
structure TableRecord where
  control : UInt8
  first : Payload
  second : Option Payload
  key : List UInt8
  control_ne : control ≠ endOfTable
  isSome_second : second.isSome = (control == 0)
  length_key : key.length = keyLength

namespace TableRecord

variable (r : TableRecord)

/-- The bytes of the texts of a record. -/
def front : List UInt8 := r.first.sized ++ r.second.elim [] Payload.sized

/-- The bytes of a record after its control byte. -/
def body : List UInt8 := r.front ++ r.key

/-- The bytes of a record. -/
def bytes : List UInt8 := r.control :: r.body

/-- The texts of a record. -/
def texts : Entry := ⟨r.first.text, r.second.map Payload.text⟩

/-- What a record adds to a table: its texts under its key, for some control bytes. -/
def added? : Option (String × Entry) :=
  if r.control ∈ [0, 1, 2, 4, 6] then some (Text.ofBytes r.key, r.texts) else none

end TableRecord

/-! ## Reading a record -/

/-- Reads the key of a record whose texts take a number of bytes. -/
def readKey (bytes : List UInt8) (entry : Entry) (used : Nat) : Except Nat (String × Entry × Nat) :=
  if bytes.length < used + keyLength then .error used
  else .ok (Text.ofBytes ((bytes.drop used).take keyLength), entry, used + keyLength)

/-- A record is read text by text, and then its key. -/
theorem readRecord_eq (control : UInt8) (bytes : List UInt8) :
    readRecord control bytes =
      match readSized bytes with
      | .error used => .error used
      | .ok (first, used) =>
        if hasSecond control then
          match readSized (bytes.drop used) with
          | .error more => .error (used + more)
          | .ok (second, more) => readKey bytes ⟨first, some second⟩ (used + more)
        else readKey bytes ⟨first, none⟩ used := by
  -- The key is all there just if the bytes reach to its end.
  have hkey (used : Nat) : ((bytes.drop used).take keyLength).length < keyLength ↔
      bytes.length < used + keyLength := by
    simp only [List.length_take, List.length_drop, keyLength]
    omega
  rw [readRecord]
  rcases readSized bytes with _ | ⟨first, used⟩
  · rfl
  cases hasSecond control with
  | false =>
    simp only [hkey, readKey, bind, Except.bind, pure, Except.pure, Bool.false_eq_true, if_false]
    split <;> rfl
  | true =>
    simp only [hkey, readKey, bind, Except.bind, pure, Except.pure, if_true]
    rcases readSized (bytes.drop used) with _ | ⟨second, more⟩
    · rfl
    · dsimp only
      split <;> rfl

theorem readKey_append (front key rest : List UInt8) (entry : Entry) (h : key.length = keyLength) :
    readKey (front ++ (key ++ rest)) entry front.length =
      .ok (Text.ofBytes key, entry, front.length + keyLength) := by
  have hlong : ¬(front ++ (key ++ rest)).length < front.length + keyLength := by
    simp only [List.length_append, h]
    omega
  rw [readKey, if_neg hlong, List.drop_left, List.take_left' h]

theorem readKey_of_lt {bytes : List UInt8} {used : Nat} (entry : Entry)
    (h : bytes.length < used + keyLength) : readKey bytes entry used = .error used :=
  if_pos h

/-- The texts of a record are read by their own length, and then its key, whether or not it is
    there. -/
theorem readRecord_front (r : TableRecord) (tail : List UInt8) :
    readRecord r.control (r.front ++ tail) = readKey (r.front ++ tail) r.texts r.front.length := by
  have hcontrol : hasSecond r.control = r.second.isSome := r.isSome_second.symm
  rw [readRecord_eq, hcontrol, TableRecord.front, TableRecord.texts, List.append_assoc,
    readSized_append]
  cases r.second with
  | none => simp
  | some second => simp

/-- A record is read by its own length, whatever comes after it. -/
theorem readRecord_append (r : TableRecord) (rest : List UInt8) :
    readRecord r.control (r.body ++ rest) =
      .ok (Text.ofBytes r.key, r.texts, r.body.length) := by
  rw [TableRecord.body, List.append_assoc, readRecord_front, readKey_append _ _ _ _ r.length_key,
    List.length_append, r.length_key]

/-- A record that is cut off in its texts cannot be read. -/
theorem exists_readRecord_take_front (r : TableRecord) {n : Nat} (h : n < r.front.length) :
    ∃ used, readRecord r.control (r.front.take n) = .error used := by
  have hcontrol : hasSecond r.control = r.second.isSome := r.isSome_second.symm
  rw [TableRecord.front] at h ⊢
  rw [readRecord_eq, hcontrol, List.take_append]
  rcases Nat.lt_or_ge n r.first.sized.length with hfirst | hfirst
  · obtain ⟨used, hused⟩ := exists_readSized_take r.first hfirst
    exact ⟨used, by simp [Nat.sub_eq_zero_of_le (Nat.le_of_lt hfirst), hused]⟩
  · -- The first text is there, so that there is a second one, which is cut off.
    rw [List.take_of_length_le hfirst, readSized_append]
    cases hsecond : r.second with
    | none =>
      simp only [hsecond, Option.elim_none, List.append_nil] at h
      omega
    | some second =>
      simp only [hsecond, Option.elim_some, List.length_append] at h
      have hcut : n - r.first.sized.length < second.sized.length := by omega
      obtain ⟨more, hmore⟩ := exists_readSized_take second hcut
      exact ⟨r.first.sized.length + more, by simp [hmore]⟩

/-- A record that is cut off cannot be read. -/
theorem exists_readRecord_take (r : TableRecord) {n : Nat} (h : n < r.body.length) :
    ∃ used, readRecord r.control (r.body.take n) = .error used := by
  rw [TableRecord.body, List.length_append, r.length_key] at h
  rw [TableRecord.body, List.take_append]
  rcases Nat.lt_or_ge n r.front.length with hfront | hfront
  · obtain ⟨used, hused⟩ := exists_readRecord_take_front r hfront
    exact ⟨used, by simp [Nat.sub_eq_zero_of_le (Nat.le_of_lt hfront), hused]⟩
  · -- The texts are there, but not all of the key.
    refine ⟨r.front.length, ?_⟩
    rw [List.take_of_length_le hfront, readRecord_front]
    refine readKey_of_lt _ ?_
    simp only [List.length_append, List.length_take]
    omega

/-! ## Reading a table -/

/-- The bytes of a table: its records, and the byte that ends it. -/
def tableBytes (records : List TableRecord) : List UInt8 :=
  records.flatMap (·.bytes) ++ [endOfTable]

theorem tableBytes_cons (r : TableRecord) (records : List TableRecord) :
    tableBytes (r :: records) = r.bytes ++ tableBytes records := by
  simp [tableBytes]

/-- The entries of a table, in the order of its records. -/
def tableEntries (records : List TableRecord) : List (String × Entry) :=
  records.filterMap (·.added?)

theorem tableEntries_cons (r : TableRecord) (records : List TableRecord) :
    tableEntries (r :: records) = r.added?.toList ++ tableEntries records := by
  rw [tableEntries, List.filterMap_cons, tableEntries]
  cases r.added? <;> rfl

/-- One record is read, its entry is put into the table, and reading goes on after it. -/
theorem readRecords_record (r : TableRecord) (table : ConstantTable) (offset : Nat)
    (rest : List UInt8) :
    readRecords table offset (r.bytes ++ rest) =
      readRecords (table.putAll r.added?.toList) (offset + 1 + r.body.length) rest := by
  have hcontrol : (r.control == endOfTable) = false := by simpa using r.control_ne
  have hentry : isEntry r.control = decide (r.control ∈ [0, 1, 2, 4, 6]) := by
    rw [Bool.eq_iff_iff]
    simp [isEntry, or_assoc]
  rw [TableRecord.bytes, List.cons_append, readRecords, hcontrol, readRecord_append]
  by_cases h : r.control ∈ [0, 1, 2, 4, 6] <;>
    simp [hentry, TableRecord.added?, h, Dict.putAll]

theorem readRecords_tableBytes (records : List TableRecord) (trailing : List UInt8)
    (table : ConstantTable) (offset : Nat) :
    readRecords table offset (tableBytes records ++ trailing) =
      .ok (table.putAll (tableEntries records)) := by
  induction records generalizing table offset with
  | nil => simp [tableBytes, tableEntries, readRecords, Dict.putAll]
  | cons r records ih =>
    rw [tableBytes_cons, List.append_assoc, readRecords_record, ih, tableEntries_cons,
      Dict.putAll, Dict.putAll, Dict.putAll, List.foldl_append]

theorem exists_readRecords_take_record (r : TableRecord) {n : Nat} (h : n < r.bytes.length)
    (table : ConstantTable) (offset : Nat) :
    ∃ place, readRecords table offset (r.bytes.take n) = .error (.truncated place) := by
  cases n with
  | zero => exact ⟨offset, by simp [readRecords]⟩
  | succ n =>
    obtain ⟨used, hused⟩ := exists_readRecord_take r (Nat.lt_of_succ_lt_succ h)
    have hcontrol : (r.control == endOfTable) = false := by simpa using r.control_ne
    refine ⟨offset + 1 + used, ?_⟩
    rw [TableRecord.bytes, List.take_succ_cons, readRecords, hcontrol, hused]
    rfl

theorem exists_readRecords_take (records : List TableRecord) {n : Nat}
    (h : n < (tableBytes records).length) (table : ConstantTable) (offset : Nat) :
    ∃ place,
      readRecords table offset ((tableBytes records).take n) = .error (.truncated place) := by
  induction records generalizing n table offset with
  | nil =>
    obtain rfl : n = 0 := by simpa [tableBytes] using h
    exact ⟨offset, by simp [readRecords]⟩
  | cons r records ih =>
    rw [tableBytes_cons] at h ⊢
    rw [List.take_append]
    rcases Nat.lt_or_ge n r.bytes.length with hlt | hge
    · rw [Nat.sub_eq_zero_of_le (Nat.le_of_lt hlt), List.take_zero, List.append_nil]
      exact exists_readRecords_take_record r hlt table offset
    · -- The whole record is there, and a later one is cut off.
      rw [List.take_of_length_le hge, readRecords_record]
      exact ih (by rw [List.length_append] at h; omega) _ _

/-- Tables of constants: the bytes of records up to the byte that ends a table, whatever comes
    after it, are read as a table with the entries of the records in their order; and if any of
    these bytes is missing at the end, that is reported. -/
theorem decodeConstants_tableBytes (records : List TableRecord) :
    (∀ trailing, decodeConstants (tableBytes records ++ trailing) =
      .ok (Dict.putAll [] (tableEntries records))) ∧
    (Dict.putAll [] (tableEntries records)).Holds (tableEntries records) ∧
    ∀ n < (tableBytes records).length, ∃ place,
      decodeConstants ((tableBytes records).take n) = .error (.truncated place) :=
  ⟨fun trailing => readRecords_tableBytes records trailing [] 0,
    Dict.holds_nil.putAll (tableEntries records),
    fun _ h => exists_readRecords_take records h [] 0⟩

/-- Records with the byte that ends a table in a text, an unknown control byte, a byte that is no
    text, and a key that comes twice. -/
def sampleRecords : List TableRecord := [
  ⟨1, ⟨[5, 97], by decide⟩, none, [75, 69, 89, 48, 48, 48, 48, 49], by decide, rfl, rfl⟩,
  ⟨9, ⟨[120], by decide⟩, none, [75, 69, 89, 48, 48, 48, 48, 51], by decide, rfl, rfl⟩,
  ⟨0, ⟨[97], by decide⟩, some ⟨[255], by decide⟩, [75, 69, 89, 48, 48, 48, 48, 50], by decide,
    rfl, rfl⟩,
  ⟨6, ⟨[], by decide⟩, none, [75, 69, 89, 48, 48, 48, 48, 49], by decide, rfl, rfl⟩]

theorem decodeConstants_sampleRecords :
    decodeConstants (tableBytes sampleRecords ++ [5, 0]) =
      .ok [("KEY00001", ⟨"", none⟩), ("KEY00002", ⟨"a", some "\uFFFD"⟩)] ∧
    ∃ place, decodeConstants ((tableBytes sampleRecords).take 30) = .error (.truncated place) := by
  have htable : Dict.putAll [] (tableEntries sampleRecords) =
      [("KEY00001", ⟨"", none⟩), ("KEY00002", ⟨"a", some "\uFFFD"⟩)] := by decide +kernel
  obtain ⟨hread, -, hcut⟩ := decodeConstants_tableBytes sampleRecords
  exact ⟨htable ▸ hread [5, 0], hcut 30 (by decide)⟩

end LuaUnpack.Transport
