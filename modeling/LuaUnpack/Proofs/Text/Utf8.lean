import LuaUnpack.Text.Bytes

/-!
# Reading back the bytes of a text

A text that is stored as UTF-8 is read back unchanged: none of its bytes is taken for
one that is no text (`ofBytes_toBytes`). The bytes of one character are told apart by
their number; the first byte fixes it (`leadShape?`), and the bytes after it carry six
bits each (`continuationBits`).
-/

namespace LuaUnpack.Text

/-! ## Single bytes -/

theorem isContinuation_ofNat : ∀ n < 64, isContinuation (UInt8.ofNat (n + 128)) = true := by
  decide

theorem toNat_tail {n : Nat} (h : n < 64) : (UInt8.ofNat (n + 128)).toNat = n + 128 := by
  rw [UInt8.toNat_ofNat']
  omega

theorem continuationBits_zero (acc : Nat) (rest : List UInt8) :
    continuationBits acc 0 rest = (some acc, 0) := rfl

/-- A byte that continues a character gives its six low bits. -/
theorem continuationBits_cons (acc k : Nat) {n : Nat} (h : n < 64) (rest : List UInt8) :
    continuationBits acc (k + 1) (UInt8.ofNat (n + 128) :: rest) =
      ((continuationBits (acc * 64 + n) k rest).1,
        (continuationBits (acc * 64 + n) k rest).2 + 1) := by
  have hn : (UInt8.ofNat (n + 128)).toNat % 64 = n := by
    rw [toNat_tail h]
    omega
  rw [continuationBits, isContinuation_ofNat n h, hn]
  rfl

theorem leadShape?_two :
    ∀ n < 32, 2 ≤ n → leadShape? (UInt8.ofNat (n + 192)) = some (1, 0x80, 0xBF) := by
  decide

/-- The second of three bytes lies in a smaller range after the lowest first byte, and
    after the one that would lead to surrogates. -/
theorem leadShape?_three :
    ∀ n < 16, leadShape? (UInt8.ofNat (n + 224)) =
      some (2, if n = 0 then 0xA0 else 0x80, if n = 13 then 0x9F else 0xBF) := by
  decide

/-- The second of four bytes lies in a smaller range after the lowest and after the
    highest first byte. -/
theorem leadShape?_four :
    ∀ n < 5, leadShape? (UInt8.ofNat (n + 240)) =
      some (3, if n = 0 then 0x90 else 0x80, if n = 4 then 0x8F else 0xBF) := by
  decide

theorem leadBits_two : ∀ n < 32, leadBits 1 (UInt8.ofNat (n + 192)) = n := by
  decide

theorem leadBits_three : ∀ n < 16, leadBits 2 (UInt8.ofNat (n + 224)) = n := by
  decide

theorem leadBits_four : ∀ n < 8, leadBits 3 (UInt8.ofNat (n + 240)) = n := by
  decide

theorem not_lt_of_lead : ∀ n < 64, ¬UInt8.ofNat (n + 192) < 0x80 := by
  decide

/-! ## Characters -/

variable {v : Nat} (rest : List UInt8)

/-- The first byte decides the shape; if the second fits it, the bits of all bytes make
    up the character. -/
theorem leadChar_of_shape {b second low high : UInt8} {k bits : Nat} {more : List UInt8}
    (hb : ¬b < 0x80) (hs : leadShape? b = some (k, low, high)) (hl : low ≤ second)
    (hh : second ≤ high)
    (hc : continuationBits (leadBits k b) k (second :: more) = (some bits, k)) :
    leadChar b (second :: more) = (Char.ofNat bits, k) := by
  simp [leadChar, hb, hs, hl, hh, hc]

theorem leadChar_one (h : v ≤ 0x7f) : leadChar (UInt8.ofNat v) rest = (Char.ofNat v, 0) := by
  have hb : UInt8.ofNat v < 0x80 := by
    rw [UInt8.lt_iff_toNat_lt, UInt8.toNat_ofNat']
    exact Nat.lt_of_le_of_lt (Nat.mod_le _ _) (by simpa using Nat.lt_succ_of_le h)
  have hn : (UInt8.ofNat v).toNat = v := by
    rw [UInt8.toNat_ofNat']
    omega
  simp [leadChar, hb, hn]

theorem leadChar_two (low : 0x7f < v) (high : v ≤ 0x7ff) :
    leadChar (UInt8.ofNat (v / 64 % 0x20 + 0xc0)) (UInt8.ofNat (v % 0x40 + 0x80) :: rest) =
      (Char.ofNat v, 1) := by
  have hfirst : v / 64 % 0x20 < 32 := Nat.mod_lt _ (by decide)
  have hsecond : v % 0x40 < 64 := Nat.mod_lt _ (by decide)
  refine leadChar_of_shape (not_lt_of_lead _ (by omega)) (leadShape?_two _ hfirst (by omega))
    ?_ ?_ ?_
  · rw [UInt8.le_iff_toNat_le, toNat_tail hsecond]
    simp
  · rw [UInt8.le_iff_toNat_le, toNat_tail hsecond]
    simp
    omega
  · rw [leadBits_two _ hfirst, continuationBits_cons _ _ hsecond, continuationBits_zero]
    simp
    omega

theorem leadChar_three (low : 0x7ff < v) (high : v ≤ 0xffff) (valid : v.isValidChar) :
    leadChar (UInt8.ofNat (v / 4096 % 0x10 + 0xe0))
        (UInt8.ofNat (v / 64 % 0x40 + 0x80) :: UInt8.ofNat (v % 0x40 + 0x80) :: rest) =
      (Char.ofNat v, 2) := by
  have hfirst : v / 4096 % 0x10 < 16 := Nat.mod_lt _ (by decide)
  have hsecond : v / 64 % 0x40 < 64 := Nat.mod_lt _ (by decide)
  have hthird : v % 0x40 < 64 := Nat.mod_lt _ (by decide)
  refine leadChar_of_shape (not_lt_of_lead (v / 4096 % 0x10 + 32) (by omega))
    (leadShape?_three _ hfirst) ?_ ?_ ?_
  · rw [UInt8.le_iff_toNat_le, toNat_tail hsecond]
    split <;> simp
    omega
  · -- The first byte with a smaller range of second ones is that of the surrogates.
    rw [UInt8.le_iff_toNat_le, toNat_tail hsecond]
    have hv : v < 0xd800 ∨ 0xdfff < v := valid.imp_right And.left
    split <;> simp <;> omega
  · rw [leadBits_three _ hfirst, continuationBits_cons _ _ hsecond,
      continuationBits_cons _ _ hthird, continuationBits_zero]
    simp
    omega

theorem leadChar_four (low : 0xffff < v) (valid : v.isValidChar) :
    leadChar (UInt8.ofNat (v / 262144 % 0x08 + 0xf0))
        (UInt8.ofNat (v / 4096 % 0x40 + 0x80) :: UInt8.ofNat (v / 64 % 0x40 + 0x80) ::
          UInt8.ofNat (v % 0x40 + 0x80) :: rest) =
      (Char.ofNat v, 3) := by
  have hv : v < 0x110000 := valid.elim (fun h => by omega) And.right
  -- Code points end at `0x10ffff`, so the group of the first byte is at most four.
  have hfirst : v / 262144 % 0x08 < 5 := by omega
  have hsecond : v / 4096 % 0x40 < 64 := Nat.mod_lt _ (by decide)
  have hthird : v / 64 % 0x40 < 64 := Nat.mod_lt _ (by decide)
  have hfourth : v % 0x40 < 64 := Nat.mod_lt _ (by decide)
  refine leadChar_of_shape (not_lt_of_lead (v / 262144 % 0x08 + 48) (by omega))
    (leadShape?_four _ hfirst) ?_ ?_ ?_
  · rw [UInt8.le_iff_toNat_le, toNat_tail hsecond]
    split <;> simp
    omega
  · rw [UInt8.le_iff_toNat_le, toNat_tail hsecond]
    split <;> simp <;> omega
  · rw [leadBits_four _ (by omega), continuationBits_cons _ _ hsecond,
      continuationBits_cons _ _ hthird, continuationBits_cons _ _ hfourth, continuationBits_zero]
    simp
    omega

/-- The bytes of a character are read as that character. -/
theorem decodeChars_utf8EncodeChar (c : Char) :
    decodeChars (String.utf8EncodeChar c ++ rest) = c :: decodeChars rest := by
  have hc : Char.ofNat c.val.toNat = c := Char.ofNat_toNat c
  rw [String.utf8EncodeChar]
  split
  · next h =>
    rw [List.singleton_append, decodeChars, leadChar_one _ h, hc]
    rfl
  · split
    · next h₁ h₂ =>
      rw [List.cons_append, List.singleton_append, decodeChars,
        leadChar_two _ (Nat.lt_of_not_le h₁) h₂, hc]
      rfl
    · split
      · next h₁ h₂ =>
        rw [List.cons_append, List.cons_append, List.singleton_append, decodeChars,
          leadChar_three _ (Nat.lt_of_not_le h₁) h₂ c.valid, hc]
        rfl
      · next h₁ =>
        rw [List.cons_append, List.cons_append, List.cons_append, List.singleton_append,
          decodeChars, leadChar_four _ (Nat.lt_of_not_le h₁) c.valid, hc]
        rfl

/-! ## Texts -/

theorem byteArray_toList_loop (bytes : ByteArray) (i : Nat) (acc : List UInt8) :
    ByteArray.toList.loop bytes i acc = acc.reverse ++ bytes.data.toList.drop i := by
  fun_induction ByteArray.toList.loop bytes i acc with
  | case1 i acc h ih =>
    have h' : i < bytes.data.toList.length := h
    have hget : bytes.get! i = bytes.data.toList[i] := by
      change bytes.data[i]! = _
      rw [getElem!_pos bytes.data i h]
      rfl
    rw [ih, List.drop_eq_getElem_cons h', List.reverse_cons, List.append_assoc,
      List.singleton_append, hget]
  | case2 i acc h => rw [List.drop_eq_nil_of_le (Nat.le_of_not_lt h), List.append_nil]

theorem toBytes_eq_flatMap (s : String) : toBytes s = s.toList.flatMap String.utf8EncodeChar := by
  rw [toBytes, String.toUTF8_eq_toByteArray, ← String.utf8Encode_toList, List.utf8Encode,
    ByteArray.toList, byteArray_toList_loop, List.reverse_nil, List.nil_append, List.drop_zero,
    List.toList_data_toByteArray]

theorem decodeChars_flatMap (cs : List Char) :
    decodeChars (cs.flatMap String.utf8EncodeChar) = cs := by
  induction cs with
  | nil => rw [List.flatMap_nil, decodeChars]
  | cons c cs ih => rw [List.flatMap_cons, decodeChars_utf8EncodeChar, ih]

/-- A text is read back from its bytes. -/
theorem ofBytes_toBytes (s : String) : ofBytes (toBytes s) = s := by
  rw [ofBytes, toBytes_eq_flatMap, decodeChars_flatMap, String.ofList_toList]

end LuaUnpack.Text
