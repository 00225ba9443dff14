import LuaUnpack.Chunk.Packed
import LuaUnpack.Chunk.Standard
import LuaUnpack.Proofs.Chunk.Records

/-!
# Data that is cut off

Both binary readers rest on exactly the bytes that they take: what comes after these does
not matter, and if one of them is missing the reader runs out of data and says so, whatever
it was about to read (`read_restsOn_taken`).

A reader is *exact* (`Reader.IsExact`) if this holds wherever it is run. Readers that are
put together from exact ones are exact (`IsExact.bind`, `isExact_timesFrom`), so that
exactness is found along the definition of a reader.

Prototypes are read to a depth that grows with the data, and data of another length is read
to another depth. That makes no difference, because every nested prototype takes bytes: as
long as fewer bytes are left than the depth, all depths agree
(`Packed.agree_readPrototype`, `Standard.agree_readPrototype`).
-/

namespace LuaUnpack.Chunk

namespace Reader

variable {α β : Type}

/-! ## Exact readers -/

/-- Whether a reader fails on some data because the data ends too early. -/
def RunsOut (reader : Reader α) (data : List UInt8) : Prop :=
  ∀ start, ∃ offset needed, (reader.run ⟨data, start⟩).1 = .error (.unexpectedEof offset needed)

/-- Whether a reader takes just these bytes and returns a value, whatever comes after them,
    and runs out of data on every part of them from the front. -/
structure Takes (reader : Reader α) (bytes : List UInt8) (a : α) : Prop where
  gives : reader.Gives bytes (.ok a)
  runsOut : ∀ n < bytes.length, reader.RunsOut (bytes.take n)

/-- Whether everything that a reader returns rests on exactly the bytes that it took. -/
def IsExact (reader : Reader α) : Prop :=
  ∀ cursor a cursor', reader.run cursor = (.ok a, cursor') →
    ∃ bytes, cursor.rest = bytes ++ cursor'.rest ∧ reader.Takes bytes a

theorem run_bind_ok {reader : Reader α} {next : α → Reader β} {cursor cursor' : Cursor} {a : α}
    (h : reader.run cursor = (.ok a, cursor')) :
    (reader >>= next).run cursor = (next a).run cursor' := by
  rw [run_bind, h]

theorem RunsOut.bind {reader : Reader α} {data : List UInt8} (h : reader.RunsOut data)
    (next : α → Reader β) : (reader >>= next).RunsOut data := by
  intro start
  obtain ⟨offset, needed, hfail⟩ := h start
  refine ⟨offset, needed, ?_⟩
  rw [run_bind]
  rcases hrun : reader.run ⟨data, start⟩ with ⟨_ | a, cursor⟩ <;> simp_all

theorem Takes.bind {reader : Reader α} {next : α → Reader β} {first second : List UInt8} {a : α}
    {b : β} (hfirst : reader.Takes first a) (hsecond : (next a).Takes second b) :
    (reader >>= next).Takes (first ++ second) b := by
  refine ⟨hfirst.gives.andThen hsecond.gives, fun n hn => ?_⟩
  rw [List.take_append]
  rcases Nat.lt_or_ge n first.length with hlt | hge
  · -- The first reader runs out, and the second is not reached.
    simpa [Nat.sub_eq_zero_of_le (Nat.le_of_lt hlt)] using (hfirst.runsOut n hlt).bind next
  · -- The first reader takes all that it needs, and the second one runs out.
    rw [List.take_of_length_le hge]
    intro start
    have hshort : n - first.length < second.length := by
      rw [List.length_append] at hn
      omega
    obtain ⟨offset, needed, hfail⟩ := hsecond.runsOut _ hshort (start + first.length)
    exact ⟨offset, needed, by rw [run_bind_ok (hfirst.gives _ start), hfail]⟩

theorem isExact_pure (a : α) : IsExact (pure a) := by
  rintro cursor b cursor' h
  cases h
  exact ⟨[], rfl, gives_pure a, fun n hn => absurd hn (Nat.not_lt_zero n)⟩

theorem isExact_of_ensures_false {reader : Reader α} (h : reader.Ensures fun _ => False) :
    reader.IsExact :=
  fun cursor a _ hrun => (h cursor a (by rw [hrun])).elim

theorem isExact_fail (e : Error) : IsExact (fail e : Reader α) :=
  isExact_of_ensures_false (ensures_fail e _)

theorem isExact_fail_bind (e : Error) (next : α → Reader β) : (fail e >>= next).IsExact :=
  isExact_of_ensures_false ((ensures_fail e fun _ => False).bind fun _ h => h.elim)

theorem IsExact.bind {reader : Reader α} {next : α → Reader β} (h : reader.IsExact)
    (hnext : ∀ a, (next a).IsExact) : (reader >>= next).IsExact := by
  intro cursor b cursor'' hrun
  rw [run_bind] at hrun
  rcases hfirst : reader.run cursor with ⟨_ | a, cursor'⟩
  · rw [hfirst] at hrun
    cases hrun
  · rw [hfirst] at hrun
    obtain ⟨first, hrest, htakes⟩ := h cursor a cursor' hfirst
    obtain ⟨second, hrest', htakes'⟩ := hnext a cursor' b cursor'' hrun
    exact ⟨first ++ second, by rw [hrest, hrest', List.append_assoc], htakes.bind htakes'⟩

theorem IsExact.map {reader : Reader α} (f : α → β) (h : reader.IsExact) :
    (reader >>= fun a => pure (f a)).IsExact :=
  h.bind fun a => isExact_pure (f a)

/-! ## Bytes and numbers -/

theorem isExact_bytes (n : Nat) : (bytes n).IsExact := by
  rintro ⟨rest, offset⟩ taken cursor' hrun
  rw [run_bytes] at hrun
  split at hrun
  · cases hrun
  case isFalse hlength =>
    cases hrun
    have hn : (rest.take n).length = n :=
      Nat.le_antisymm (List.length_take_le n rest) (Nat.le_of_not_lt hlength)
    refine ⟨rest.take n, (List.take_append_drop n rest).symm, ?_, fun m hm start => ?_⟩
    · simpa only [hn] using gives_bytes (rest.take n)
    · -- Fewer bytes than `n` are left of what was taken.
      refine ⟨start, n - m, ?_⟩
      rw [run_bytes, List.take_take, if_pos] <;> simp [List.length_take] at * <;> omega

theorem isExact_unsigned (width : Nat) : (unsigned width).IsExact :=
  (isExact_bytes width).map ofLittleEndian

theorem isExact_u8 : u8.IsExact := (isExact_unsigned 1).map UInt8.ofNat

theorem isExact_i16 : i16.IsExact := (isExact_unsigned 2).map Int16.ofNat

theorem isExact_i32 : i32.IsExact := (isExact_unsigned 4).map Int32.ofNat

theorem isExact_bits : bits.IsExact := (isExact_unsigned 8).map UInt64.ofNat

/-- A count is a number that is not negative. -/
theorem run_count (what : String) (cursor : Cursor) :
    (count what).run cursor =
      match i32.run cursor with
      | (.ok n, cursor') =>
        if n.toInt < 0 then (.error (.negativeCount what n cursor.offset), cursor')
        else (.ok n.toInt.toNat, cursor')
      | (.error e, cursor') => (.error e, cursor') := by
  have hoffset : offset.run cursor = (.ok cursor.offset, cursor) := rfl
  rw [count, run_bind_ok hoffset, run_bind]
  rcases i32.run cursor with ⟨_ | n, cursor'⟩
  · rfl
  · change ExceptT.run (if _ then _ else _ : Reader _) cursor' = if _ then _ else _
    split <;> rfl

/-- The offset is only told by the error, so that a count is exact all the same. -/
theorem isExact_count (what : String) : (count what).IsExact := by
  intro cursor a cursor' hrun
  rw [run_count] at hrun
  rcases hi : i32.run cursor with ⟨_ | n, cursor''⟩
  · rw [hi] at hrun
    cases hrun
  rw [hi] at hrun
  dsimp only at hrun
  split at hrun
  · cases hrun
  case isFalse hneg =>
    cases hrun
    -- The number takes the same bytes, and is not negative wherever it stands.
    obtain ⟨bytes, hrest, htakes⟩ := isExact_i32 cursor n cursor' hi
    refine ⟨bytes, hrest, fun rest start => ?_, fun m hm start => ?_⟩
    · rw [run_count, htakes.gives]
      simp only [hneg, if_false]
    · obtain ⟨offset, needed, hfail⟩ := htakes.runsOut m hm start
      refine ⟨offset, needed, ?_⟩
      rw [run_count]
      rcases hrun : i32.run ⟨bytes.take m, start⟩ with ⟨_ | _, _⟩ <;> simp_all

theorem isExact_timesFrom {reader : Nat → Reader α} (h : ∀ k, (reader k).IsExact) (index n : Nat) :
    (timesFrom reader index n).IsExact := by
  induction n generalizing index with
  | zero => exact isExact_pure []
  | succ n ih => exact (h index).bind fun item => (ih (index + 1)).map (item :: ·)

/-! ## Readers that agree on short data -/

/-- Whether two readers do the same as long as fewer than `n` bytes are left. -/
def AgreeBelow (n : Nat) (reader reader' : Reader α) : Prop :=
  ∀ cursor, cursor.rest.length < n → reader.run cursor = reader'.run cursor

theorem AgreeBelow.refl (n : Nat) (reader : Reader α) : AgreeBelow n reader reader :=
  fun _ _ => rfl

theorem AgreeBelow.mono {m n : Nat} {reader reader' : Reader α} (hmn : m ≤ n)
    (h : AgreeBelow n reader reader') : AgreeBelow m reader reader' :=
  fun cursor hlt => h cursor (Nat.lt_of_lt_of_le hlt hmn)

theorem AgreeBelow.bind {n : Nat} {reader reader' : Reader α} {next next' : α → Reader β}
    (hexact : reader.IsExact) (h : AgreeBelow n reader reader')
    (hnext : ∀ a, AgreeBelow n (next a) (next' a)) :
    AgreeBelow n (reader >>= next) (reader' >>= next') := by
  intro cursor hlt
  rw [run_bind, run_bind, ← h cursor hlt]
  rcases hrun : reader.run cursor with ⟨_ | a, cursor'⟩
  · rfl
  · -- An exact reader leaves no more bytes than there were.
    obtain ⟨bytes, hrest, -⟩ := hexact cursor a cursor' hrun
    refine hnext a cursor' ?_
    rw [hrest, List.length_append] at hlt
    omega

/-- Readers that start alike agree if they agree afterwards. -/
theorem IsExact.agreeBelow {n : Nat} {reader : Reader α} {next next' : α → Reader β}
    (hexact : reader.IsExact) (hnext : ∀ a, AgreeBelow n (next a) (next' a)) :
    AgreeBelow n (reader >>= next) (reader >>= next') :=
  AgreeBelow.bind hexact (.refl n reader) hnext

/-- A count takes bytes, so that what comes after it may agree on shorter data only. -/
theorem agreeBelow_count {n : Nat} (what : String) {next next' : Nat → Reader β}
    (hnext : ∀ a, AgreeBelow n (next a) (next' a)) :
    AgreeBelow (n + 1) (count what >>= next) (count what >>= next') := by
  intro cursor hlt
  rw [run_bind, run_bind]
  rcases hrun : (count what).run cursor with ⟨_ | a, cursor'⟩
  · rfl
  · obtain ⟨bytes, hrest, htakes⟩ := isExact_count what cursor a cursor' hrun
    have hpos : 0 < bytes.length := by
      -- Without bytes a count runs out of data.
      refine List.length_pos_iff.2 fun hnil => ?_
      have := htakes.gives [] 0
      rw [hnil, run_count] at this
      cases this
    refine hnext a cursor' ?_
    rw [hrest, List.length_append] at hlt
    omega

theorem AgreeBelow.timesFrom {n : Nat} {reader reader' : Nat → Reader α}
    (hexact : ∀ k, (reader k).IsExact) (h : ∀ k, AgreeBelow n (reader k) (reader' k))
    (index count : Nat) :
    AgreeBelow n (timesFrom reader index count) (timesFrom reader' index count) := by
  induction count generalizing index with
  | zero => exact .refl n _
  | succ count ih =>
    exact .bind (hexact index) (h index) fun item =>
      .bind (isExact_timesFrom hexact _ _) (ih (index + 1)) fun items => .refl n _

/-! ## Reading to a depth -/

/-- Whether what is read from data rests on exactly its first `n` bytes: all data that starts
    with them is read alike, and all data that ends before them runs out. -/
structure RestsOn (read : List UInt8 → Except Error α) (data : List UInt8) (n : Nat) (a : α) :
    Prop where
  le : n ≤ data.length
  same : ∀ other : List UInt8, other.take n = data.take n → read other = .ok a
  runsOut : ∀ m < n, ∃ offset needed, read (data.take m) = .error (.unexpectedEof offset needed)

/-- The bytes that an exact reader takes from the start of data. -/
theorem IsExact.exists_takes {reader : Reader α} (h : reader.IsExact) {data rest : List UInt8}
    {taken : Nat} {a : α} (hrun : reader.run ⟨data, 0⟩ = (.ok a, ⟨rest, taken⟩)) :
    ∃ bytes, data = bytes ++ rest ∧ taken = bytes.length ∧ reader.Takes bytes a := by
  obtain ⟨bytes, hdata, htakes⟩ := h _ a _ hrun
  refine ⟨bytes, hdata, ?_, htakes⟩
  have hgives := htakes.gives rest 0
  rw [← show data = bytes ++ rest from hdata, hrun, Nat.zero_add] at hgives
  cases hgives
  rfl

section

variable {reader : Nat → Reader α} (hexact : ∀ depth, (reader depth).IsExact)
  (hagree : ∀ n depth depth', n ≤ depth → n ≤ depth' →
    AgreeBelow n (reader depth) (reader depth'))
include hagree

/-- Reading to a depth above the length of the data is the same as reading to any such
    depth. -/
theorem run_eq_of_lt (data : List UInt8) {depth : Nat} (h : data.length < depth) :
    (reader (data.length + 1)).run ⟨data, 0⟩ = (reader depth).run ⟨data, 0⟩ :=
  hagree (data.length + 1) _ _ (Nat.le_refl _) h ⟨data, 0⟩ (Nat.lt_succ_self _)

include hexact in
/-- What exact readers read rests on the bytes they take, if they read to a depth above the
    length of the data and greater depths make no difference. -/
theorem restsOn_of_isExact {data : List UInt8} {a : α}
    (h : (reader (data.length + 1)).runOn data = .ok a) :
    RestsOn (fun data => (reader (data.length + 1)).runOn data) data
      ((reader (data.length + 1)).run ⟨data, 0⟩).2.offset a := by
  rcases hrun : (reader (data.length + 1)).run ⟨data, 0⟩ with ⟨_ | b, rest, taken⟩
  · rw [runOn, hrun] at h
    cases h
  rw [runOn, hrun] at h
  obtain rfl : b = a := Except.ok.inj h
  obtain ⟨bytes, hdata, htaken, -⟩ := (hexact _).exists_takes hrun
  -- To every greater depth, the same bytes are taken.
  have htakes (depth : Nat) (hlt : data.length < depth) : (reader depth).Takes bytes b := by
    rw [run_eq_of_lt hagree data hlt] at hrun
    obtain ⟨bytes', hdata', -, htakes⟩ := (hexact _).exists_takes hrun
    rwa [List.append_cancel_right (hdata.symm.trans hdata')]
  refine ⟨?_, fun other hother => ?_, fun m hm => ?_⟩
  · simp [hdata, htaken]
  · have hsplit : other = bytes ++ other.drop bytes.length := by
      have hbytes : other.take bytes.length = bytes := by
        simpa [hdata, htaken] using hother
      exact (List.take_append_drop bytes.length other).symm.trans (by rw [hbytes])
    have hlt : other.length < max data.length other.length + 1 := by omega
    rw [runOn, run_eq_of_lt hagree other hlt, hsplit, (htakes _ (by omega)).gives]
  · have hm' : m < bytes.length := htaken ▸ hm
    have hlt : (data.take m).length < data.length + 1 := by
      rw [List.length_take]
      omega
    obtain ⟨offset, needed, hfail⟩ := (htakes _ (Nat.lt_succ_self _)).runsOut m hm' 0
    refine ⟨offset, needed, ?_⟩
    rw [runOn, run_eq_of_lt hagree _ hlt, ← hfail, hdata,
      List.take_append_of_le_length (Nat.le_of_lt hm')]

end

end Reader

open Reader

/-! ## Packed data -/

namespace Packed

theorem isExact_readOperands (shape : Nat) : (readOperands shape).IsExact := by
  unfold readOperands
  split
  · exact isExact_i16.bind fun b => isExact_i16.bind fun c => isExact_pure _
  · exact isExact_i32.bind fun b => isExact_pure _
  · exact isExact_i32.bind fun b => isExact_pure _
  · exact isExact_i32.bind fun b => isExact_i16.bind fun c => isExact_pure _

theorem isExact_readRecord (index : Nat) : (readRecord index).IsExact := by
  refine isExact_u8.bind fun descriptor => ?_
  dsimp only
  split
  · exact isExact_pure none
  · refine isExact_i16.bind fun opnum => isExact_i16.bind fun a => ?_
    exact (isExact_readOperands _).bind fun operands => isExact_pure _

theorem isExact_readInstructions : readInstructions.IsExact :=
  (isExact_count _).bind fun n =>
    (isExact_timesFrom isExact_readRecord 0 n).bind fun _ => isExact_pure _

theorem isExact_readConstant (format : Format) : (readConstant format).IsExact := by
  refine isExact_u8.bind fun tag => ?_
  split
  · exact isExact_u8.bind fun b => isExact_pure _
  · exact isExact_bits.bind fun bits => isExact_pure _
  · exact (isExact_count _).bind fun n => (isExact_bytes n).bind fun bytes => isExact_pure _
  · exact isExact_pure _

theorem isExact_readSections (format : Format) {readNested : Reader Prototype}
    (hnested : readNested.IsExact) (sections : List Section) (f : Prototype) :
    (readSections format readNested sections f).IsExact := by
  induction sections generalizing f with
  | nil => exact isExact_pure f
  | cons step sections ih =>
    cases step with
    | instructions => exact isExact_readInstructions.bind fun _ => ih _
    | constants =>
      exact (isExact_count _).bind fun n =>
        (isExact_timesFrom (fun _ => isExact_readConstant format) 0 n).bind fun _ => ih _
    | functions =>
      exact (isExact_count _).bind fun n =>
        (isExact_timesFrom (fun _ => hnested) 0 n).bind fun _ => ih _
    | numParams => exact isExact_u8.bind fun _ => ih _

theorem isExact_readPrototype (format : Format) (depth : Nat) :
    (readPrototype format depth).IsExact := by
  induction depth with
  | zero => exact isExact_of_ensures_false (ensures_bind fun _ => ensures_fail _ _)
  | succ depth ih => exact isExact_readSections format ih format.sections {}

/-- Nested prototypes come after their count, and so may be read by readers that agree on
    shorter data only. -/
theorem agree_readSections (format : Format) {n : Nat} {readNested readNested' : Reader Prototype}
    (hnested : readNested.IsExact) (h : AgreeBelow n readNested readNested')
    (sections : List Section) (f : Prototype) :
    AgreeBelow (n + 1) (readSections format readNested sections f)
      (readSections format readNested' sections f) := by
  induction sections generalizing f with
  | nil => exact .refl _ _
  | cons step sections ih =>
    cases step with
    | instructions => exact isExact_readInstructions.agreeBelow fun _ => ih _
    | constants =>
      exact (isExact_count _).agreeBelow fun count =>
        (isExact_timesFrom (fun _ => isExact_readConstant format) 0 count).agreeBelow fun _ => ih _
    | functions =>
      -- The only place where the two readers differ.
      exact agreeBelow_count _ fun count =>
        .bind (isExact_timesFrom (fun _ => hnested) 0 count)
          (.timesFrom (fun _ => hnested) (fun _ => h) 0 count)
          fun _ => (ih _).mono (Nat.le_succ n)
    | numParams => exact isExact_u8.agreeBelow fun _ => ih _

theorem agree_readPrototype (format : Format) (n depth depth' : Nat) (h : n ≤ depth)
    (h' : n ≤ depth') :
    AgreeBelow n (readPrototype format depth) (readPrototype format depth') := by
  induction n generalizing depth depth' with
  | zero => exact fun cursor hlt => absurd hlt (Nat.not_lt_zero _)
  | succ n ih =>
    obtain ⟨depth, rfl⟩ : ∃ d, depth = d + 1 := ⟨depth - 1, by omega⟩
    obtain ⟨depth', rfl⟩ : ∃ d, depth' = d + 1 := ⟨depth' - 1, by omega⟩
    exact agree_readSections format (isExact_readPrototype format depth)
      (ih depth depth' (by omega) (by omega)) format.sections {}

/-- Reads a program to a depth. -/
def readProgram (format : Format) (depth : Nat) : Reader Prototype := do
  return (← readPrototype format depth).assignNames

/-- The number of bytes that are taken when packed data is read. -/
def taken (format : Format) (data : List UInt8) : Nat :=
  ((readProgram format (data.length + 1)).run ⟨data, 0⟩).2.offset

/-- A program that is read from packed data rests on the bytes that are taken. -/
theorem restsOn_of_read {format : Format} {data : List UInt8} {root : Prototype}
    (h : read format data = .ok root) :
    RestsOn (read format) data (taken format data) root := by
  by_cases hempty : format.sections.isEmpty
  · rw [read, if_pos hempty] at h
    cases h
  have hread : read format = fun data => (readProgram format (data.length + 1)).runOn data :=
    funext fun _ => if_neg hempty
  have hexact (depth : Nat) : (readProgram format depth).IsExact :=
    (isExact_readPrototype format depth).map _
  rw [hread] at h ⊢
  refine restsOn_of_isExact hexact (fun n depth depth' hle hle' => ?_) h
  exact .bind (isExact_readPrototype format depth)
    (agree_readPrototype format n depth depth' hle hle') fun _ => .refl n _

end Packed

/-! ## Standard chunks -/

namespace Standard

theorem isExact_readHeader : readHeader.IsExact := by
  refine (isExact_bytes _).bind fun bytes => ?_
  dsimp only
  -- Each of the first two checks fails before the next one is made.
  split
  · exact isExact_fail_bind _ _
  split
  · exact isExact_fail_bind _ _
  split
  · exact isExact_fail _
  · exact isExact_pure ()

theorem isExact_readString : readString.IsExact := by
  refine (isExact_unsigned 8).bind fun length => ?_
  split
  · exact isExact_pure ""
  · exact (isExact_bytes length).bind fun bytes => isExact_pure _

theorem isExact_readInstruction (index : Nat) : (readInstruction index).IsExact := by
  refine (isExact_unsigned 4).bind fun word => ?_
  split
  · exact isExact_pure _
  · exact isExact_fail _

theorem isExact_readConstant : readConstant.IsExact := by
  refine isExact_u8.bind fun tag => ?_
  split_ifs
  · exact isExact_pure _
  · exact isExact_u8.bind fun b => isExact_pure _
  · exact isExact_bits.bind fun bits => isExact_pure _
  · exact isExact_readString.bind fun s => isExact_pure _
  · exact isExact_fail _

theorem isExact_skipDebug : skipDebug.IsExact := by
  refine (isExact_count _).bind fun lines => (isExact_bytes _).bind fun _ => ?_
  refine (isExact_count _).bind fun locals => ?_
  refine (isExact_timesFrom (fun _ => ?_) 0 locals).bind fun _ => ?_
  · exact isExact_readString.bind fun _ => isExact_i32.bind fun _ => isExact_i32
  · exact (isExact_count _).bind fun upvalues =>
      (isExact_timesFrom (fun _ => isExact_readString) 0 upvalues).bind fun _ => isExact_pure _

theorem isExact_readPrototype (depth : Nat) : (readPrototype depth).IsExact := by
  induction depth with
  | zero => exact isExact_of_ensures_false (ensures_bind fun _ => ensures_fail _ _)
  | succ depth ih =>
    refine isExact_readString.bind fun _ => isExact_i32.bind fun _ => isExact_i32.bind fun _ => ?_
    refine isExact_u8.bind fun upvalues => isExact_u8.bind fun params => ?_
    refine isExact_u8.bind fun vararg => isExact_u8.bind fun stack => ?_
    refine (isExact_count _).bind fun n => ?_
    refine (isExact_timesFrom isExact_readInstruction 0 n).bind fun code => ?_
    refine (isExact_count _).bind fun n => ?_
    refine (isExact_timesFrom (fun _ => isExact_readConstant) 0 n).bind fun constants => ?_
    refine (isExact_count _).bind fun n => ?_
    refine (isExact_timesFrom (fun _ => ih) 0 n).bind fun functions => ?_
    exact isExact_skipDebug.bind fun _ => isExact_pure _

theorem agree_readPrototype (n depth depth' : Nat) (h : n ≤ depth) (h' : n ≤ depth') :
    AgreeBelow n (readPrototype depth) (readPrototype depth') := by
  induction n generalizing depth depth' with
  | zero => exact fun cursor hlt => absurd hlt (Nat.not_lt_zero _)
  | succ n ih =>
    obtain ⟨depth, rfl⟩ : ∃ d, depth = d + 1 := ⟨depth - 1, by omega⟩
    obtain ⟨depth', rfl⟩ : ∃ d, depth' = d + 1 := ⟨depth' - 1, by omega⟩
    -- Only nested prototypes are read by different readers; all else is read alike.
    refine isExact_readString.agreeBelow fun _ => ?_
    refine isExact_i32.agreeBelow fun _ => isExact_i32.agreeBelow fun _ => ?_
    refine isExact_u8.agreeBelow fun upvalues => isExact_u8.agreeBelow fun params => ?_
    refine isExact_u8.agreeBelow fun vararg => isExact_u8.agreeBelow fun stack => ?_
    refine (isExact_count _).agreeBelow fun count => ?_
    refine (isExact_timesFrom isExact_readInstruction 0 count).agreeBelow fun code => ?_
    refine (isExact_count _).agreeBelow fun count => ?_
    refine (isExact_timesFrom (fun _ => isExact_readConstant) 0 count).agreeBelow fun constants => ?_
    refine agreeBelow_count _ fun count => ?_
    refine .bind (isExact_timesFrom (fun _ => isExact_readPrototype depth) 0 count)
      (.timesFrom (fun _ => isExact_readPrototype depth)
        (fun _ => ih depth depth' (by omega) (by omega)) 0 count) fun functions => ?_
    exact .refl n _

/-- Reads a program to a depth. -/
def readProgram (depth : Nat) : Reader Prototype := do
  readHeader
  return (← readPrototype depth).assignNames

/-- The number of bytes that are taken when a chunk is read. -/
def taken (data : List UInt8) : Nat :=
  ((readProgram (data.length + 1)).run ⟨data, 0⟩).2.offset

/-- A program that is read from a chunk rests on the bytes that are taken. -/
theorem restsOn_of_read {data : List UInt8} {root : Prototype} (h : read data = .ok root) :
    RestsOn read data (taken data) root := by
  have hexact (depth : Nat) : (readProgram depth).IsExact :=
    isExact_readHeader.bind fun _ => (isExact_readPrototype depth).map _
  refine restsOn_of_isExact hexact (fun n depth depth' hle hle' => ?_) h
  exact isExact_readHeader.agreeBelow fun _ =>
    .bind (isExact_readPrototype depth) (agree_readPrototype n depth depth' hle hle')
      fun _ => .refl n _

end Standard

/-- Programs that are read, from packed data of any format and from chunks, rest on exactly
    the bytes that are taken: all data that starts with them gives the same program, and all
    data that ends before them is reported to end too early. -/
theorem read_restsOn_taken :
    (∀ format data root, Packed.read format data = .ok root →
      RestsOn (Packed.read format) data (Packed.taken format data) root) ∧
    ∀ data root, Standard.read data = .ok root →
      RestsOn Standard.read data (Standard.taken data) root :=
  ⟨fun _ _ _ h => Packed.restsOn_of_read h, fun _ _ h => Standard.restsOn_of_read h⟩

/-- A format with constants, all of which can be booleans, and a number of parameters. -/
def flagFormat : Format where
  sections := [.constants, .numParams]
  constantTags := [(1, .boolean)]

/-- One boolean, three parameters, and a byte too many. -/
def flagData : List UInt8 := [1, 0, 0, 0, 1, 7, 3, 9]

/-- The chunk of an empty program that needs two registers, and a byte too many. -/
def emptyChunk : List UInt8 :=
  Standard.header ++ List.replicate 8 0 ++ List.replicate 8 0 ++ [0, 0, 0, 2] ++
    List.replicate 24 0 ++ [9]

theorem read_restsOn_taken_flagData_emptyChunk :
    RestsOn (Packed.read flagFormat) flagData 7
        { name := "func_00000000", constants := [.boolean true], numParams := 3 } ∧
      RestsOn Standard.read emptyChunk 56 { name := "func_00000000", maxStackSize := 2 } :=
  ⟨read_restsOn_taken.1 flagFormat flagData _ rfl, read_restsOn_taken.2 emptyChunk _ rfl⟩

end LuaUnpack.Chunk
