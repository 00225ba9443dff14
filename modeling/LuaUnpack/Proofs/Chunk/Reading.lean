import LuaUnpack.Chunk.Bytes
import LuaUnpack.Width

/-!
# What readers make of written bytes

Bytes that were written are read from the front of data that may go on after them. A
reader *gives* a result on some bytes (`Reader.Gives`) if, whatever comes after them, it
takes exactly these bytes and returns the value, or fails with the error. Readers that
are put together give results that are put together (`Gives.bind`), so that what a
reader gives is found along its definition.

The numbers of a chunk are read back from their bytes, as far as they fit into them
(`gives_unsigned`, `gives_count`), and so are items one after the other
(`gives_times`).
-/

namespace LuaUnpack.Chunk

/-! ## Numbers as bytes -/

@[simp]
theorem length_toLittleEndian (width n : Nat) : (toLittleEndian width n).length = width := by
  induction width generalizing n with
  | zero => rfl
  | succ width ih => rw [toLittleEndian, List.length_cons, ih]

/-- A number that fits into a width is the number of its bytes. -/
theorem ofLittleEndian_toLittleEndian {width n : Nat} (h : n < twoPow (8 * width)) :
    ofLittleEndian (toLittleEndian width n) = n := by
  induction width generalizing n with
  | zero => simpa [toLittleEndian, ofLittleEndian, eq_comm] using h
  | succ width ih =>
    have hsplit : twoPow (8 * (width + 1)) = 256 * twoPow (8 * width) :=
      Nat.pow_add' 2 (8 * width) 8
    have hdiv : n / 256 < twoPow (8 * width) := Nat.div_lt_of_lt_mul (hsplit ▸ h)
    rw [toLittleEndian, ofLittleEndian, ih hdiv, UInt8.toNat_ofNat']
    omega

namespace Reader

variable {α β : Type}

/-- On these bytes, whatever comes after them, the reader gives a result: it takes just
    the bytes and returns a value, or it fails. -/
def Gives (reader : Reader α) (bytes : List UInt8) : Except Error α → Prop
  | .ok a => ∀ rest offset,
      reader.run ⟨bytes ++ rest, offset⟩ = (.ok a, ⟨rest, offset + bytes.length⟩)
  | .error e => ∀ rest offset, (reader.run ⟨bytes ++ rest, offset⟩).1 = .error e

theorem runOn_eq_of_gives {reader : Reader α} {bytes : List UInt8} {result : Except Error α}
    (h : reader.Gives bytes result) : reader.runOn bytes = result := by
  cases result with
  | ok a =>
    have := h [] 0
    rw [List.append_nil] at this
    rw [runOn, this]
  | error e =>
    have := h [] 0
    rwa [List.append_nil] at this

/-! ## Readers put together -/

theorem run_bind (reader : Reader α) (next : α → Reader β) (cursor : Cursor) :
    (reader >>= next).run cursor =
      match reader.run cursor with
      | (.ok a, cursor) => (next a).run cursor
      | (.error e, cursor) => (.error e, cursor) := by
  change (match reader.run cursor with
    | (x, cursor) => (ExceptT.bindCont next x).run cursor) = _
  rcases reader.run cursor with ⟨_ | _, _⟩ <;> rfl

theorem gives_pure (a : α) : (pure a : Reader α).Gives [] (.ok a) := fun _ _ => rfl

theorem gives_fail (e : Error) : (fail e : Reader α).Gives [] (.error e) := fun _ _ => rfl

/-- What one reader after the other gives on bytes that are put together. If the first
    one fails, the bytes for the second do not matter. -/
theorem Gives.bind {reader : Reader α} {next : α → Reader β} {first second : List UInt8}
    {x : Except Error α} {y : α → Except Error β} (hx : reader.Gives first x)
    (hy : ∀ a, x = .ok a → (next a).Gives second (y a)) :
    (reader >>= next).Gives (first ++ second) (x >>= y) := by
  -- By how the first reader ends, and then by how the second one does.
  cases x with
  | error e =>
    intro rest offset
    have h := hx (second ++ rest) offset
    rw [List.append_assoc, run_bind]
    rcases hr : reader.run ⟨first ++ (second ++ rest), offset⟩ with ⟨_ | _, _⟩
    · rw [hr] at h
      cases h
      rfl
    · rw [hr] at h
      cases h
  | ok a =>
    change (reader >>= next).Gives (first ++ second) (y a)
    have h := hy a rfl
    cases hya : y a with
    | error e =>
      rw [hya] at h
      intro rest offset
      rw [List.append_assoc, run_bind, hx]
      exact h rest _
    | ok b =>
      rw [hya] at h
      intro rest offset
      rw [List.append_assoc, run_bind, hx]
      refine (h rest _).trans ?_
      -- Both move the offset on, by the number of their own bytes.
      rw [List.length_append, Nat.add_assoc]

/-- A reader that succeeds hands its value and the bytes after it to the next one. -/
theorem Gives.andThen {reader : Reader α} {next : α → Reader β} {first second : List UInt8}
    {a : α} {y : Except Error β} (hx : reader.Gives first (.ok a))
    (hy : (next a).Gives second y) : (reader >>= next).Gives (first ++ second) y :=
  hx.bind (y := fun _ => y) fun _ h => Except.ok.inj h ▸ hy

/-- A reader that takes nothing leaves all bytes to the next one. -/
theorem Gives.nilAndThen {reader : Reader α} {next : α → Reader β} {bytes : List UInt8} {a : α}
    {y : Except Error β} (hx : reader.Gives [] (.ok a)) (hy : (next a).Gives bytes y) :
    (reader >>= next).Gives bytes y :=
  hx.andThen hy

/-- A reader that takes all bytes leaves none to the next one. -/
theorem Gives.andThenNil {reader : Reader α} {next : α → Reader β} {bytes : List UInt8} {a : α}
    {y : Except Error β} (hx : reader.Gives bytes (.ok a)) (hy : (next a).Gives [] y) :
    (reader >>= next).Gives bytes y :=
  List.append_nil bytes ▸ hx.andThen hy

theorem Gives.map {reader : Reader α} {bytes : List UInt8} {x : Except Error α} (f : α → β)
    (hx : reader.Gives bytes x) : (reader >>= fun a => pure (f a)).Gives bytes (x.map f) := by
  have h := hx.bind (y := fun a => .ok (f a)) fun a _ => gives_pure (f a)
  rw [List.append_nil] at h
  cases x <;> exact h

/-! ## Numbers -/

theorem run_bytes (n : Nat) (cursor : Cursor) :
    (bytes n).run cursor =
      if (cursor.rest.take n).length < n then
        (.error (.unexpectedEof cursor.offset (n - (cursor.rest.take n).length)), cursor)
      else (.ok (cursor.rest.take n), ⟨cursor.rest.drop n, cursor.offset + n⟩) := by
  change ExceptT.run (if _ then _ else _ : Reader _) cursor = _
  split <;> rfl

theorem gives_bytes (data : List UInt8) : (bytes data.length).Gives data (.ok data) := by
  intro rest offset
  rw [run_bytes, List.take_left, List.drop_left, if_neg (Nat.lt_irrefl _)]

variable {n : Nat}

theorem gives_unsigned {width : Nat} (h : n < twoPow (8 * width)) :
    (unsigned width).Gives (toLittleEndian width n) (.ok n) := by
  have hb := gives_bytes (toLittleEndian width n)
  rw [length_toLittleEndian] at hb
  have := hb.map ofLittleEndian
  rwa [Except.map, ofLittleEndian_toLittleEndian h] at this

theorem gives_u8 (b : UInt8) : u8.Gives [b] (.ok b) := by
  have h : (unsigned 1).Gives (toLittleEndian 1 b.toNat) (.ok b.toNat) :=
    gives_unsigned b.toNat_lt
  rw [toLittleEndian, toLittleEndian, UInt8.ofNat_toNat] at h
  have := h.map UInt8.ofNat
  rwa [Except.map, UInt8.ofNat_toNat] at this

theorem gives_i32 (h : n < twoPow 32) : i32.Gives (toLittleEndian 4 n) (.ok (Int32.ofNat n)) :=
  (gives_unsigned h).map Int32.ofNat

theorem gives_bits (bits : UInt64) :
    Reader.bits.Gives (toLittleEndian 8 bits.toNat) (.ok bits) := by
  have h : (unsigned 8).Gives (toLittleEndian 8 bits.toNat) (.ok bits.toNat) :=
    gives_unsigned bits.toNat_lt
  have := h.map UInt64.ofNat
  rwa [Except.map, UInt64.ofNat_toNat] at this

theorem gives_count (what : String) (h : n < twoPow 31) :
    (count what).Gives (toLittleEndian 4 n) (.ok n) := by
  intro rest start
  have hn : (Int32.ofNat n).toInt = n := Int32.toInt_ofNat_of_lt h
  have hi := gives_i32 (Nat.lt_trans h (by decide : twoPow 31 < twoPow 32)) rest start
  have ho : offset.run ⟨toLittleEndian 4 n ++ rest, start⟩ =
    (.ok start, ⟨toLittleEndian 4 n ++ rest, start⟩) := rfl
  have hneg : ¬(n : Int) < 0 := by omega
  rw [count, run_bind, ho]
  simp only [run_bind, hi, hn, hneg, if_false]
  rfl

/-! ## Items -/

/-- What is given for items that are written one after the other and read from an index
    on. -/
theorem gives_timesFrom {reader : Nat → Reader β} {write : α → List UInt8}
    {result : Nat → α → Except Error β} (items : List α) (index : Nat)
    (h : ∀ a ∈ items, ∀ k, (reader k).Gives (write a) (result k a)) :
    (timesFrom reader index items.length).Gives (items.flatMap write)
      ((items.zipIdx index).mapM fun item => result item.2 item.1) := by
  induction items generalizing index with
  | nil => exact gives_pure []
  | cons a items ih =>
    rw [List.zipIdx_cons, List.mapM_cons, List.length_cons, timesFrom, List.flatMap_cons]
    refine (h a List.mem_cons_self index).bind fun b _ => ?_
    have hrest := (ih (index + 1) fun c hc => h c (List.mem_cons_of_mem _ hc)).map (b :: ·)
    cases hm : (items.zipIdx (index + 1)).mapM fun item => result item.2 item.1 <;>
      rw [hm] at hrest <;> exact hrest

/-- What is given for a number of items that are written one after the other. -/
theorem gives_times {reader : Nat → Reader β} {write : α → List UInt8}
    {result : Nat → α → Except Error β} (items : List α)
    (h : ∀ a ∈ items, ∀ k, (reader k).Gives (write a) (result k a)) :
    (times items.length reader).Gives (items.flatMap write)
      (items.zipIdx.mapM fun item => result item.2 item.1) :=
  gives_timesFrom items 0 h

/-- The same for items whose reader does not depend on the index. -/
theorem gives_times_const {reader : Reader β} {write : α → List UInt8}
    {result : α → Except Error β} (items : List α)
    (h : ∀ a ∈ items, reader.Gives (write a) (result a)) :
    (times items.length fun _ => reader).Gives (items.flatMap write) (items.mapM result) := by
  have hmap : items.mapM result = items.zipIdx.mapM fun item => result item.1 :=
    calc
      items.mapM result = (items.zipIdx.map Prod.fst).mapM result := by rw [List.zipIdx_map_fst]
      _ = items.zipIdx.mapM fun item => result item.1 := List.mapM_map
  rw [hmap]
  exact gives_timesFrom items 0 fun a ha _ => h a ha

end Reader

end LuaUnpack.Chunk
