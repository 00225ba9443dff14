import LuaUnpack.Transport
import Mathlib.Algebra.Group.Nat.Even
import Mathlib.Data.List.Nodup

/-!
# Keyed strings

Decoding and encoding are inverse (`decode_inverts_encode`). There are two reasons. In an
alphabet of distinct characters, a half byte and its character stand for each other
(`nibble_symbolAt`, `symbolAt_nibble`). And a byte is shifted by the low byte of the running
key, forth by the one and back by the other. The sums are those of 64-bit words, which wrap
around, and their low bytes do not notice (`lowByte_eq`): only the low bytes of the running
keys count (`decodeBody_cons_cons`, `encodeBody_cons`).
-/

namespace LuaUnpack.Transport

/-! ## Alphabets -/

section

variable {alphabet : List Char} {c : Char} {n : Nat}

theorem lastIndex?_eq_none (h : c ∉ alphabet) : lastIndex? c alphabet = none := by
  induction alphabet with
  | nil => rfl
  | cons d rest ih =>
    simp only [List.mem_cons, not_or] at h
    simp [lastIndex?, ih h.2, Ne.symm h.1]

/-- The last place of a character is a place of it. -/
theorem exists_lastIndex? (h : c ∈ alphabet) :
    ∃ n, lastIndex? c alphabet = some n ∧ alphabet[n]? = some c := by
  induction alphabet with
  | nil => simp at h
  | cons d rest ih =>
    by_cases hrest : c ∈ rest
    · obtain ⟨n, hn, hc⟩ := ih hrest
      exact ⟨n + 1, by simp [lastIndex?, hn], hc⟩
    · obtain rfl : c = d := (List.mem_cons.1 h).resolve_right hrest
      exact ⟨0, by simp [lastIndex?, lastIndex?_eq_none hrest], rfl⟩

theorem symbolAt_eq_getElem (h : n < alphabet.length) : symbolAt alphabet n = alphabet[n] := by
  simp [symbolAt, List.getElem?_eq_getElem h]

theorem nibble_lt (h : c ∈ alphabet) : nibble alphabet c < alphabet.length := by
  obtain ⟨n, hn, hc⟩ := exists_lastIndex? h
  simpa [nibble, hn] using (List.getElem?_eq_some_iff.1 hc).1

/-- The character for the half byte of a character of the alphabet is that character. -/
theorem symbolAt_nibble (h : c ∈ alphabet) : symbolAt alphabet (nibble alphabet c) = c := by
  obtain ⟨n, hn, hc⟩ := exists_lastIndex? h
  simp [symbolAt, nibble, hn, hc]

/-- The half byte of the character for a half byte is that half byte, if the characters are
    distinct. -/
theorem nibble_symbolAt (hdistinct : alphabet.Nodup) (h : n < alphabet.length) :
    nibble alphabet (symbolAt alphabet n) = n := by
  have hmem : symbolAt alphabet n ∈ alphabet := symbolAt_eq_getElem h ▸ List.getElem_mem h
  have hsame := symbolAt_nibble hmem
  rw [symbolAt_eq_getElem (nibble_lt hmem)] at hsame
  exact hdistinct.getElem_inj_iff.1 (hsame.trans (symbolAt_eq_getElem h))

end

/-! ## Running keys -/

/-- The low byte of a 64-bit word. -/
def wordByte (word : Int64) : UInt8 := word.toInt8.toUInt8

/-- The low byte of an integer is that of the 64-bit word to which it wraps around. -/
theorem lowByte_eq (n : Int) : lowByte n = wordByte (Int64.ofInt n) := by
  rw [wordByte, Int64.toInt8_ofInt]
  refine UInt8.toNat_inj.1 ?_
  change _ = (BitVec.ofInt 8 n).toNat
  rw [lowByte, UInt8.toNat_ofNat', BitVec.toNat_ofInt]
  omega

@[simp]
theorem wordByte_add (x y : Int64) : wordByte (x + y) = wordByte x + wordByte y := by
  simp [wordByte]

@[simp]
theorem wordByte_sub (x y : Int64) : wordByte (x - y) = wordByte x - wordByte y := by
  simp [wordByte]

@[simp]
theorem wordByte_ofNat (n : Nat) : wordByte (Int64.ofNat n) = UInt8.ofNat n := by
  simp [wordByte]

theorem lowByte_add_toInt (n : Nat) (running : Int64) :
    lowByte (n + running.toInt) = wordByte (Int64.ofNat n + running) := by
  rw [lowByte_eq, Int64.ofInt_add, Int64.ofInt_eq_ofNat, Int64.ofInt_toInt]

theorem lowByte_sub_toInt (n : Nat) (running : Int64) :
    lowByte (n - running.toInt) = wordByte (Int64.ofNat n - running) := by
  rw [lowByte_eq, Int64.ofInt_sub, Int64.ofInt_eq_ofNat, Int64.ofInt_toInt]

/-! ## Bodies -/

section

variable {alphabet : List Char} (key running : Int64)

theorem decodeBody_cons_cons (high low : Char) (rest : List Char) :
    decodeBody alphabet key running (high :: low :: rest) =
      (UInt8.ofNat (nibble alphabet high * 16 + nibble alphabet low) + wordByte running)
        :: decodeBody alphabet key (running + key) rest := by
  rw [decodeBody, lowByte_add_toInt, wordByte_add, wordByte_ofNat]

theorem encodeBody_cons (b : UInt8) (rest : List UInt8) :
    encodeBody alphabet key running (b :: rest) =
      symbolAt alphabet ((b - wordByte running).toNat / 16)
        :: symbolAt alphabet ((b - wordByte running).toNat % 16)
        :: encodeBody alphabet key (running + key) rest := by
  rw [encodeBody, lowByte_sub_toInt, wordByte_sub, wordByte_ofNat, UInt8.ofNat_toNat]

/-- Two characters make a byte, and a last one alone makes one too. -/
theorem length_decodeBody (chars : List Char) :
    (decodeBody alphabet key running chars).length = (chars.length + 1) / 2 := by
  fun_induction decodeBody alphabet key running chars with
  | case1 running => rfl
  | case2 running high => simp
  | case3 running high low rest ih =>
    simp only [List.length_cons, ih]
    omega

theorem decodeBody_encodeBody (hlength : alphabet.length = alphabetLength)
    (hdistinct : alphabet.Nodup) (bytes : List UInt8) :
    decodeBody alphabet key running (encodeBody alphabet key running bytes) = bytes := by
  induction bytes generalizing running with
  | nil => rfl
  | cons b rest ih =>
    have hbyte := (b - wordByte running).toNat_lt
    have hhigh : (b - wordByte running).toNat / 16 < alphabet.length := by
      rw [hlength, alphabetLength]
      omega
    have hlow : (b - wordByte running).toNat % 16 < alphabet.length := by
      rw [hlength, alphabetLength]
      omega
    rw [encodeBody_cons, decodeBody_cons_cons, nibble_symbolAt hdistinct hhigh,
      nibble_symbolAt hdistinct hlow, Nat.div_add_mod', UInt8.ofNat_toNat, ih]
    simp

/-- For a text that is decoded it does not matter whether a character occurs twice in the
    alphabet: both places give the same character. -/
theorem encodeBody_decodeBody (hlength : alphabet.length = alphabetLength) (chars : List Char)
    (hchars : ∀ c ∈ chars, c ∈ alphabet) (heven : Even chars.length) :
    encodeBody alphabet key running (decodeBody alphabet key running chars) = chars := by
  fun_induction decodeBody alphabet key running chars with
  | case1 running => rfl
  | case2 running high => simp at heven
  | case3 running high low rest ih =>
    simp only [List.forall_mem_cons] at hchars
    obtain ⟨hhigh, hlow, hrest⟩ := hchars
    have hrest' : Even rest.length := by simpa [Nat.even_add_one] using heven
    have hhigh' := nibble_lt hhigh
    have hlow' := nibble_lt hlow
    rw [hlength, alphabetLength] at hhigh' hlow'
    -- The byte is no more than two nibbles, so nothing is lost when it is put together.
    have hvalue : (UInt8.ofNat (nibble alphabet high * 16 + nibble alphabet low)).toNat =
        nibble alphabet high * 16 + nibble alphabet low := by
      rw [UInt8.toNat_ofNat']
      omega
    have hdiv : (nibble alphabet high * 16 + nibble alphabet low) / 16 = nibble alphabet high := by
      omega
    have hmod : (nibble alphabet high * 16 + nibble alphabet low) % 16 = nibble alphabet low := by
      omega
    rw [lowByte_add_toInt, wordByte_add, wordByte_ofNat, encodeBody_cons, UInt8.add_sub_cancel,
      hvalue, hdiv, hmod, symbolAt_nibble hhigh, symbolAt_nibble hlow, ih hrest hrest']

end

/-! ## Texts -/

theorem decode_of_lt {data : String} (key : Int64) (h : data.length < alphabetLength) :
    decode data key = .error (.missingAlphabet data.length) := by
  simp [decode, String.length_toList, h]

theorem decode_of_le {data : String} (key : Int64) (h : alphabetLength ≤ data.length) :
    decode data key = .ok (decodeBody (data.toList.take alphabetLength) key key
      (data.toList.drop alphabetLength)) := by
  simp [decode, String.length_toList, h]

theorem length_take_alphabetLength {text : String} (h : alphabetLength ≤ text.length) :
    (text.toList.take alphabetLength).length = alphabetLength := by
  simp [String.length_toList, h]

/-- Keyed strings: bytes that are encoded with an alphabet of sixteen distinct characters are
    decoded to what they were; a text that has nothing but pairs of characters of its alphabet
    after it is what its bytes are encoded to; and whatever is as long as an alphabet is decoded
    to one byte for each pair, the last of which may lack a character. -/
theorem decode_inverts_encode (key : Int64) :
    (∀ (bytes : List UInt8) (alphabet : String), alphabetLength ≤ alphabet.length →
      (alphabet.toList.take alphabetLength).Nodup →
      decode (encode bytes key alphabet) key = .ok bytes) ∧
    (∀ data : String, alphabetLength ≤ data.length →
      (∀ c ∈ data.toList.drop alphabetLength, c ∈ data.toList.take alphabetLength) →
      Even (data.toList.drop alphabetLength).length →
      ∃ bytes, decode data key = .ok bytes ∧ encode bytes key data = data) ∧
    ∀ data : String,
      (data.length < alphabetLength → decode data key = .error (.missingAlphabet data.length)) ∧
      (alphabetLength ≤ data.length → ∃ bytes, decode data key = .ok bytes ∧
        bytes.length = (data.length - alphabetLength + 1) / 2) := by
  refine ⟨fun bytes alphabet hlength hdistinct => ?_, fun data hlength hchars heven => ?_,
    fun data => ⟨decode_of_lt key, fun hlength => ?_⟩⟩
  · have htake := length_take_alphabetLength hlength
    rw [decode_of_le key (by simp [encode, ← String.length_toList, htake]), encode]
    simp [htake, decodeBody_encodeBody key key htake hdistinct]
  · refine ⟨_, decode_of_le key hlength, ?_⟩
    rw [encode, encodeBody_decodeBody key key (length_take_alphabetLength hlength) _ hchars heven,
      List.take_append_drop, String.ofList_toList]
  · refine ⟨_, decode_of_le key hlength, ?_⟩
    simp [length_decodeBody, String.length_toList]

/-- A key of which the second multiple is out of range of 64-bit words, with all three cases of
    texts. -/
theorem decode_inverts_encode_farKey :
    decode (encode [0, 127, 255] (-6000000000000000001) "ghijklmnopqrstuv")
      (-6000000000000000001) = .ok [0, 127, 255] ∧
    (∃ bytes, decode "ghijklmnopqrstuvvgjh" (-6000000000000000001) = .ok bytes ∧
      encode bytes (-6000000000000000001) "ghijklmnopqrstuvvgjh" = "ghijklmnopqrstuvvgjh") ∧
    decode "ghij" (-6000000000000000001) = .error (.missingAlphabet 4) ∧
    ∃ bytes, decode "ghijklmnopqrstuv!!g" (-6000000000000000001) = .ok bytes ∧
      bytes.length = 2 := by
  obtain ⟨hbytes, htexts, hlengths⟩ := decode_inverts_encode (-6000000000000000001)
  exact ⟨hbytes _ _ (by decide) (by decide),
    htexts _ (by decide) (by simp [alphabetLength]) (by decide),
    (hlengths _).1 (by decide), (hlengths _).2 (by decide)⟩

end LuaUnpack.Transport
