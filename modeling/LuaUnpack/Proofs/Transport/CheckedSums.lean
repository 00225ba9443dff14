import LuaUnpack.Proofs.Transport.KeyedStrings
import LuaUnpack.Transport.Checked
import LuaUnpack.Width
import Mathlib.Data.Int.GCD
import Mathlib.Data.Nat.Prime.Basic

/-!
# Sums that leave the range

The sums next to the running key are one byte away from it, so they leave the range of 64-bit words
just where the running key is within a byte of the end of the range. Decoding adds to it and
encoding takes it away from a byte; the first stops near the greatest word, the second near the
least one (`checks_keyed`).

The running key takes the multiples of the key, and wraps around. So whether some text stops the
computation is a matter of divisibility (`decode?_ne_none_iff`, `encode?_ne_none_iff`).
-/

namespace LuaUnpack.Transport

/-- Whether a checked computation gives a value just if it is within the range, and otherwise
    nothing. -/
structure Checks {α : Type} (result : Option α) (fits : Prop) (value : α) : Prop where
  of_fits : fits → result = some value
  of_not : ¬ fits → result = none

section

variable {α β : Type} {result : Option α} {next : α → Option β} {fits fits' : Prop} {a : α} {b : β}

theorem checks_some (a : α) : Checks (some a) True a := ⟨fun _ => rfl, fun h => absurd trivial h⟩

theorem checks_ite {stops : Bool} (h : stops = true ↔ ¬ fits) :
    Checks (if stops then none else some a) fits a :=
  ⟨fun hfits => if_neg fun hstops => h.1 hstops hfits, fun hnot => if_pos (h.2 hnot)⟩

theorem Checks.bind (h : Checks result fits a) (hnext : Checks (next a) fits' b) :
    Checks (result >>= next) (fits ∧ fits') b where
  of_fits hfits := by
    rw [h.of_fits hfits.1]
    exact hnext.of_fits hfits.2
  of_not hnot := by
    by_cases hfits : fits
    · rw [h.of_fits hfits]
      exact hnext.of_not fun hfits' => hnot ⟨hfits, hfits'⟩
    · rw [h.of_not hfits]
      rfl

theorem Checks.map (f : α → β) (h : Checks result fits a) : Checks (result.map f) fits (f a) where
  of_fits hfits := congrArg (Option.map f) (h.of_fits hfits)
  of_not hnot := congrArg (Option.map f) (h.of_not hnot)

theorem Checks.congr (h : Checks result fits a) (hiff : fits ↔ fits') : Checks result fits' a :=
  propext hiff ▸ h

theorem Checks.ne_none_iff (h : Checks result fits a) : result ≠ none ↔ fits := by
  by_cases hfits : fits
  · simp [h.of_fits hfits, hfits]
  · simp [h.of_not hfits, hfits]

end

/-! ## Single sums -/

theorem minSigned_word : minSigned 64 = -2 ^ 63 := rfl

theorem maxSigned_word : maxSigned 64 = 2 ^ 63 - 1 := rfl

theorem checks_addWords? (x y : Int64) :
    Checks (addWords? x y)
      (minSigned 64 ≤ x.toInt + y.toInt ∧ x.toInt + y.toInt ≤ maxSigned 64) (x + y) := by
  refine checks_ite ?_
  simp [BitVec.saddOverflow, minSigned_word, maxSigned_word]
  omega

theorem checks_subWords? (x y : Int64) :
    Checks (subWords? x y)
      (minSigned 64 ≤ x.toInt - y.toInt ∧ x.toInt - y.toInt ≤ maxSigned 64) (x - y) := by
  refine checks_ite ?_
  simp [BitVec.ssubOverflow, minSigned_word, maxSigned_word]
  omega

theorem toInt_ofNat_of_lt {n : Nat} (h : n < 2 ^ 63) : (Int64.ofNat n).toInt = n := by
  rw [Int64.toInt_ofNat']
  exact Int.bmod_eq_of_le (by rw [Int64.size]; omega) (by rw [Int64.size]; omega)

theorem lowByte_toInt (word : Int64) : lowByte word.toInt = wordByte word := by
  rw [lowByte_eq, Int64.ofInt_toInt]

/-- Half bytes never leave the range. -/
theorem checks_joinHalves? {high low : Nat} (hhigh : high < 16) (hlow : low < 16) :
    Checks (joinHalves? high low) True (Int64.ofNat (high * 16 + low)) := by
  rw [Int64.ofNat_add, joinHalves?]
  refine (checks_addWords? _ _).congr ?_
  rw [toInt_ofNat_of_lt (by omega), toInt_ofNat_of_lt (by omega), minSigned_word, maxSigned_word,
    iff_true]
  omega

/-- A byte can take the running key out of the range at the upper end only. -/
theorem checks_shiftForth? {n : Nat} (hn : n < 256) (running : Int64) :
    Checks (shiftForth? (Int64.ofNat n) running) ((n : Int) + running.toInt ≤ maxSigned 64)
      (lowByte (n + running.toInt)) := by
  have hbyte : lowByte (Int64.ofNat n + running).toInt = lowByte (n + running.toInt) := by
    rw [lowByte_toInt, lowByte_add_toInt]
  rw [← hbyte, shiftForth?]
  refine ((checks_addWords? _ _).map fun sum : Int64 => lowByte sum.toInt).congr ?_
  have hleast := running.le_toInt
  rw [toInt_ofNat_of_lt (by omega), minSigned_word, maxSigned_word]
  omega

/-- Taken away from a byte, the running key leaves the range only if it is near the lower end. -/
theorem checks_shiftBack? {n : Nat} (hn : n < 256) (running : Int64) :
    Checks (shiftBack? (Int64.ofNat n) running) ((n : Int) - running.toInt ≤ maxSigned 64)
      (lowByte (n - running.toInt)) := by
  have hbyte : lowByte (Int64.ofNat n - running).toInt = lowByte (n - running.toInt) := by
    rw [lowByte_toInt, lowByte_sub_toInt]
  rw [← hbyte, shiftBack?]
  refine ((checks_subWords? _ _).map fun difference : Int64 => lowByte difference.toInt).congr ?_
  have hmost := running.toInt_lt
  rw [toInt_ofNat_of_lt (by omega), minSigned_word, maxSigned_word]
  omega

/-! ## Running keys -/

/-- The running key at a place: a multiple of the key, wrapped around. -/
def runningKey (key : Int64) (i : Nat) : Int64 := Int64.ofNat (i + 1) * key

theorem ofNat_succ_mul (i : Nat) (key : Int64) :
    Int64.ofNat (i + 1) * key = Int64.ofNat i * key + key := by
  rw [Int64.ofNat_add, Int64.add_mul, show Int64.ofNat 1 = 1 from rfl, Int64.one_mul]

/-- Whether something holds of every value and the running key at its place, when the running key
    starts with a given one. -/
def AtEach {α : Type} (key running : Int64) (holds : α → Int64 → Prop) (values : List α) : Prop :=
  ∀ i v, values[i]? = some v → holds v (running + Int64.ofNat i * key)

section

variable {α : Type} {key running : Int64} {holds : α → Int64 → Prop} {v : α} {values : List α}

theorem atEach_nil_iff : AtEach key running holds [] ↔ True := by simp [AtEach]

theorem atEach_cons_iff : AtEach key running holds (v :: values) ↔
    holds v running ∧ AtEach key (running + key) holds values := by
  have hzero : running + Int64.ofNat 0 * key = running := by simp
  have hsucc : ∀ i, running + Int64.ofNat (i + 1) * key =
      running + key + Int64.ofNat i * key := by
    intro i
    rw [ofNat_succ_mul, Int64.add_assoc, Int64.add_comm key]
  constructor
  · intro h
    refine ⟨hzero ▸ h 0 v rfl, fun i w hw => hsucc i ▸ h (i + 1) w ?_⟩
    rwa [List.getElem?_cons_succ]
  · rintro ⟨hv, hvalues⟩ (_ | i) w hw
    · obtain rfl := Option.some.inj hw
      rwa [hzero]
    · rw [hsucc]
      exact hvalues i w hw

theorem atEach_key_iff : AtEach key key holds values ↔
    ∀ i v, values[i]? = some v → holds v (runningKey key i) := by
  have hkey : ∀ i, key + Int64.ofNat i * key = runningKey key i := by
    intro i
    rw [runningKey, ofNat_succ_mul, Int64.add_comm]
  simp only [AtEach, hkey]

end

/-! ## Bodies -/

/-- The bytes of characters before they are shifted. -/
def pairValues (alphabet : List Char) : List Char → List Nat
  | [] => []
  | [high] => [nibble alphabet high * 16]
  | high :: low :: rest =>
    (nibble alphabet high * 16 + nibble alphabet low) :: pairValues alphabet rest

theorem nibble_lt_of_length_le {alphabet : List Char} (h : alphabet.length ≤ 16) (c : Char) :
    nibble alphabet c < 16 := by
  by_cases hc : c ∈ alphabet
  · exact Nat.lt_of_lt_of_le (nibble_lt hc) h
  · rw [nibble, lastIndex?_eq_none hc]
    decide

theorem checks_decodeBody? {alphabet : List Char} (h : alphabet.length ≤ 16) (key running : Int64)
    (chars : List Char) :
    Checks (decodeBody? alphabet key running chars)
      (AtEach key running (fun (v : Nat) word => (v : Int) + word.toInt ≤ maxSigned 64)
        (pairValues alphabet chars))
      (decodeBody alphabet key running chars) := by
  have hnibble := nibble_lt_of_length_le h
  fun_induction decodeBody alphabet key running chars with
  | case1 running => exact (checks_some _).congr atEach_nil_iff.symm
  | case2 running high =>
    have hlt : nibble alphabet high * 16 < 256 := by have := hnibble high; omega
    refine ((checks_joinHalves? (hnibble high) (by decide)).bind
      ((checks_shiftForth? hlt running).map ([·]))).congr ?_
    rw [pairValues, atEach_cons_iff, atEach_nil_iff, true_and, and_true]
  | case3 running high low rest ih =>
    have hlt : nibble alphabet high * 16 + nibble alphabet low < 256 := by
      have := hnibble high
      have := hnibble low
      omega
    refine ((checks_joinHalves? (hnibble high) (hnibble low)).bind
      ((checks_shiftForth? hlt running).bind (ih.map (_ :: ·)))).congr ?_
    rw [pairValues, atEach_cons_iff, true_and]

theorem checks_encodeBody? {alphabet : List Char} (key running : Int64) (bytes : List UInt8) :
    Checks (encodeBody? alphabet key running bytes)
      (AtEach key running
        (fun (b : UInt8) word => (b.toNat : Int) - word.toInt ≤ maxSigned 64) bytes)
      (encodeBody alphabet key running bytes) := by
  induction bytes generalizing running with
  | nil => exact (checks_some _).congr atEach_nil_iff.symm
  | cons b bytes ih =>
    refine ((checks_shiftBack? b.toNat_lt running).bind ((ih (running + key)).map _)).congr ?_
    rw [atEach_cons_iff]

/-- Unlike in a keyed string, the key of a constant does not run. -/
theorem checks_shiftAll? (key : Int64) (bytes : List UInt8) :
    Checks (shiftAll? key bytes)
      (∀ b ∈ bytes, (b.toNat : Int) + key.toInt ≤ maxSigned 64)
      (bytes.map fun b => lowByte (b.toNat + key.toInt)) := by
  induction bytes with
  | nil => exact (checks_some _).congr (by simp)
  | cons b bytes ih =>
    refine ((checks_shiftForth? b.toNat_lt key).bind (ih.map (_ :: ·))).congr ?_
    rw [List.forall_mem_cons]

/-! ## Texts -/

/-- The bytes of a keyed string before they are shifted. -/
def textValues (data : String) : List Nat :=
  pairValues (data.toList.take alphabetLength) (data.toList.drop alphabetLength)

/-- The bytes of a string constant that are shifted. -/
def shiftedBytes : List UInt8 → List UInt8
  | mark :: rest => if 0x7F < mark then rest else []
  | [] => []

theorem checks_decode? (data : String) (key : Int64) :
    Checks (decode? data key)
      (∀ (i v : Nat), (textValues data)[i]? = some v →
        (v : Int) + (runningKey key i).toInt ≤ maxSigned 64)
      (decode data key) := by
  have hchecks : Checks (decode? data key)
      (AtEach key key (fun (v : Nat) word => (v : Int) + word.toInt ≤ maxSigned 64)
        (textValues data)) (decode data key) := by
    rw [decode?, decode]
    split
    · rename_i hlt
      refine (checks_some _).congr ?_
      rw [textValues, List.drop_eq_nil_of_le (Nat.le_of_lt hlt), pairValues, atEach_nil_iff]
    · exact (checks_decodeBody? (List.length_take_le _ _) key key _).map Except.ok
  exact hchecks.congr atEach_key_iff

theorem checks_encode? (bytes : List UInt8) (key : Int64) (alphabet : String) :
    Checks (encode? bytes key alphabet)
      (∀ i b, bytes[i]? = some b →
        (b.toNat : Int) - (runningKey key i).toInt ≤ maxSigned 64)
      (encode bytes key alphabet) :=
  ((checks_encodeBody? key key bytes).map _).congr atEach_key_iff

theorem checks_decodeConstant? (key : Int64) (bytes : List UInt8) :
    Checks (decodeConstant? key bytes)
      (∀ b ∈ shiftedBytes bytes, (b.toNat : Int) + key.toInt ≤ maxSigned 64)
      (decodeConstant key bytes) := by
  match bytes with
  | [] => exact (checks_some _).congr (by simp [shiftedBytes])
  | [mark] => exact (checks_some _).congr (by simp [shiftedBytes])
  | mark :: b :: rest =>
    rw [decodeConstant?, decodeConstant, shiftedBytes]
    split
    · exact (checks_shiftAll? key (b :: rest)).map Text.ofBytes
    · exact (checks_some _).congr (by simp)

/-- Decoding and encoding stay in the range just if every sum with the running key does, for which
    it must not be within a byte of the upper end of the range, or of the lower end where it is
    taken away. Then the results are those of arithmetic that wraps around. -/
theorem checks_keyed (key : Int64) :
    (∀ data : String, Checks (decode? data key)
      (∀ (i v : Nat), (textValues data)[i]? = some v →
        (v : Int) + (runningKey key i).toInt ≤ maxSigned 64)
      (decode data key)) ∧
    (∀ (bytes : List UInt8) (alphabet : String), Checks (encode? bytes key alphabet)
      (∀ i b, bytes[i]? = some b → (b.toNat : Int) - (runningKey key i).toInt ≤ maxSigned 64)
      (encode bytes key alphabet)) ∧
    ∀ bytes : List UInt8, Checks (decodeConstant? key bytes)
      (∀ b ∈ shiftedBytes bytes, (b.toNat : Int) + key.toInt ≤ maxSigned 64)
      (decodeConstant key bytes) :=
  ⟨fun data => checks_decode? data key, fun bytes alphabet => checks_encode? bytes key alphabet,
    checks_decodeConstant? key⟩

/-- Keys at the ends of the range, with which the first sum leaves it. -/
theorem keyed_leavesRange :
    (decode? "ghijklmnopqrstuvvv" 0x7FFFFFFFFFFFFFFF = none ∧
      decode "ghijklmnopqrstuvvv" 0x7FFFFFFFFFFFFFFF = .ok [0xFE]) ∧
    (encode? [0] (-0x8000000000000000) "ghijklmnopqrstuv" = none ∧
      encode [0] (-0x8000000000000000) "ghijklmnopqrstuv" = "ghijklmnopqrstuvgg") ∧
    decodeConstant? 0x7FFFFFFFFFFFFFFF [0x80, 0x42] = none ∧
      decodeConstant 0x7FFFFFFFFFFFFFFF [0x80, 0x42] = "A" := by
  decide +kernel

/-! ## Keys with which nothing leaves the range -/

theorem ofInt_emod (n : Int) : Int64.ofInt (n % 2 ^ 64) = Int64.ofInt n := by
  have hzero : Int64.ofInt (2 ^ 64) = 0 := by decide
  rw [Int.emod_def, Int64.ofInt_sub, Int64.ofInt_mul, hzero, Int64.zero_mul, Int64.sub_zero]

/-- Every multiple of the key is a running key. -/
theorem exists_runningKey_eq (key : Int64) (n : Int) :
    ∃ i, runningKey key i = Int64.ofInt n * key := by
  refine ⟨((n - 1) % 2 ^ 64).toNat, ?_⟩
  have hnonneg : 0 ≤ (n - 1) % 2 ^ 64 := Int.emod_nonneg _ (by decide)
  rw [runningKey, ofNat_succ_mul, ← Int64.ofInt_eq_ofNat, Int.toNat_of_nonneg hnonneg, ofInt_emod,
    Int64.ofInt_sub, show Int64.ofInt 1 = 1 from rfl, Int64.sub_mul, Int64.one_mul,
    Int64.sub_add_cancel]

/-- The running key takes every word that a common divisor of the key and of the number of words
    divides. -/
theorem exists_toInt_runningKey {key : Int64} {t : Int}
    (h : (Int.gcd key.toInt (2 ^ 64) : Int) ∣ t) (hleast : -2 ^ 63 ≤ t) (hmost : t < 2 ^ 63) :
    ∃ i, (runningKey key i).toInt = t := by
  obtain ⟨m, hm⟩ := h
  have hzero : Int64.ofInt (2 ^ 64) = 0 := by decide
  have hword : Int64.ofInt t = Int64.ofInt (Int.gcdA key.toInt (2 ^ 64) * m) * key := by
    rw [hm, Int.gcd_eq_gcd_ab, Int.add_mul, Int.mul_assoc, Int.mul_assoc, Int64.ofInt_add,
      Int64.ofInt_mul, Int64.ofInt_mul (2 ^ 64), hzero, Int64.zero_mul, Int64.add_zero,
      Int64.ofInt_toInt, Int64.mul_comm]
  obtain ⟨i, hi⟩ := exists_runningKey_eq key (Int.gcdA key.toInt (2 ^ 64) * m)
  exact ⟨i, by rw [hi, ← hword, Int64.toInt_ofInt_of_le hleast hmost]⟩

/-- The common divisors of a key and of the number of words. -/
theorem dvd_or_gcd_dvd (key : Int) (n : Nat) :
    (2 ^ (n + 1) : Int) ∣ key ∨ (Int.gcd key (2 ^ 64) : Int) ∣ 2 ^ n := by
  obtain ⟨k, -, hk⟩ := (Nat.dvd_prime_pow Nat.prime_two).1
    (Int.natCast_dvd_natCast.1 (Int.gcd_dvd_right key (2 ^ 64)))
  rw [hk]
  by_cases hle : k ≤ n
  · exact .inr (by exact_mod_cast Nat.pow_dvd_pow 2 hle)
  · refine .inl (Int.dvd_trans ?_ (hk ▸ Int.gcd_dvd_left key (2 ^ 64)))
    exact_mod_cast Nat.pow_dvd_pow 2 (Nat.lt_of_not_le hle)

theorem lt_of_mem_pairValues {alphabet : List Char} (h : alphabet.length ≤ 16) {chars : List Char}
    {v : Nat} (hv : v ∈ pairValues alphabet chars) : v < 256 := by
  have hnibble := nibble_lt_of_length_le h
  fun_induction pairValues alphabet chars with
  | case1 => cases hv
  | case2 high =>
    have := hnibble high
    rw [List.mem_singleton] at hv
    omega
  | case3 high low rest ih =>
    obtain rfl | hv := List.mem_cons.1 hv
    · have := hnibble high
      have := hnibble low
      omega
    · exact ih hv

/-- A text in which all bytes are of the same two halves. -/
theorem pairValues_replicate (alphabet : List Char) (c : Char) (n : Nat) :
    pairValues alphabet (List.replicate (2 * n) c) =
      List.replicate n (nibble alphabet c * 16 + nibble alphabet c) := by
  induction n with
  | zero => rfl
  | succ n ih =>
    rw [Nat.mul_succ, List.replicate_succ, List.replicate_succ, pairValues, ih,
      List.replicate_succ]

/-- With a key, every text can be decoded within the range just if 256 divides the key: the least
    common divisor that does not keep the running key a byte away from the end of the range. -/
theorem decode?_ne_none_iff (key : Int64) :
    (∀ data, decode? data key ≠ none) ↔ (256 : Int) ∣ key.toInt := by
  simp only [(checks_decode? _ key).ne_none_iff]
  constructor
  · intro h
    -- If 256 does not divide the key, some running key is within 127 of the end of the range.
    refine (dvd_or_gcd_dvd key.toInt 7).resolve_right fun hgcd => ?_
    have htarget : (Int.gcd key.toInt (2 ^ 64) : Int) ∣ 2 ^ 63 - 2 ^ 7 :=
      Int.dvd_trans hgcd (by decide)
    obtain ⟨i, hi⟩ := exists_toInt_runningKey htarget (by decide) (by decide)
    have hvalue : (textValues (String.ofList (List.replicate (16 + 2 * (i + 1)) 'f')))[i]? =
        some 255 := by
      rw [textValues, String.toList_ofList, List.take_replicate, List.drop_replicate,
        alphabetLength, Nat.add_sub_cancel_left, Nat.min_eq_left (Nat.le_add_right _ _),
        pairValues_replicate, List.getElem?_replicate, if_pos (Nat.lt_succ_self i)]
      decide
    have hfits := h _ i 255 hvalue
    rw [hi] at hfits
    exact absurd hfits (by decide)
  · intro hkey data i v hv
    have hlt := lt_of_mem_pairValues (List.length_take_le _ _) (List.mem_of_getElem? hv)
    -- If it does, running keys are multiples of 256, and a byte fits above each of them.
    have hrunning : (256 : Int) ∣ (runningKey key i).toInt := by
      rw [runningKey, Int64.toInt_mul]
      have hwrapped : (256 : Int) ∣ (Int64.ofNat (i + 1)).toInt * key.toInt -
          ((Int64.ofNat (i + 1)).toInt * key.toInt).bmod (2 ^ 64) :=
        Int.dvd_trans (by decide) Int.dvd_self_sub_bmod
      exact (Int.dvd_iff_dvd_of_dvd_sub hwrapped).1 (Int.dvd_mul_of_dvd_right hkey)
    have hmost := (runningKey key i).toInt_lt
    rw [maxSigned_word]
    omega

/-- Zero is the only key with which all bytes can be encoded within the range: every other key
    runs through the least word. -/
theorem encode?_ne_none_iff (key : Int64) :
    (∀ bytes alphabet, encode? bytes key alphabet ≠ none) ↔ key = 0 := by
  simp only [(checks_encode? _ key _).ne_none_iff]
  constructor
  · intro h
    obtain hkey | hgcd := dvd_or_gcd_dvd key.toInt 63
    · have hleast := key.le_toInt
      have hmost := key.toInt_lt
      exact Int64.toInt_inj.1 (by rw [Int64.toInt_zero]; omega)
    · obtain ⟨i, hi⟩ := exists_toInt_runningKey ((Int.dvd_neg).2 hgcd) (by decide) (by decide)
      have hfits := h (List.replicate (i + 1) 0) "" i 0 (by simp)
      rw [hi] at hfits
      exact absurd hfits (by decide)
  · rintro rfl bytes alphabet i b -
    have hb := b.toNat_lt
    rw [runningKey, Int64.mul_zero, Int64.toInt_zero, maxSigned_word]
    omega

theorem decodeConstant?_ne_none_iff (key : Int64) :
    (∀ bytes, decodeConstant? key bytes ≠ none) ↔ key.toInt + 255 ≤ maxSigned 64 := by
  simp only [(checks_decodeConstant? key _).ne_none_iff]
  constructor
  · intro h
    have hfits := h [0x80, 0xFF, 0] 0xFF (by decide)
    rwa [Int.add_comm]
  · intro h bytes b hb
    have hlt := b.toNat_lt
    omega

end LuaUnpack.Transport
