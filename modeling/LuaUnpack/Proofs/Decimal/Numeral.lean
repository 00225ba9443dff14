import LuaUnpack.Decimal.Reader
import LuaUnpack.Proofs.Decimal.Shortest
import Mathlib

/-!
# Reading back a numeral

The numeral of a finite float without sign is digits with at most one point between them,
and it is read back as the float (`read?_magnitudeText`).
-/

namespace LuaUnpack.Decimal

/-! ## Digits -/

section Digits

open Text

variable {c : Char} {cs : List Char}

theorem digitValue?_of_isDigit (h : isDigit c = true) :
    digitValue? 10 c = some (c.toNat - '0'.toNat) := by
  have hrange : '0' ≤ c ∧ c ≤ '9' := by simpa [isDigit] using h
  have hlt : c.toNat - '0'.toNat < 10 := by
    have : c.toNat ≤ 57 := hrange.2
    change c.toNat - 48 < 10
    omega
  simp only [digitValue?, hrange, decide_true, Bool.and_self, if_true]
  exact Option.filter_some_pos (decide_eq_true hlt)

theorem readDigits?_of_isDigit (h : ∀ c ∈ cs, isDigit c = true) (acc : Nat) :
    readDigits? 10 acc cs = some (Nat.ofDigitChars 10 cs acc) := by
  induction cs generalizing acc with
  | nil => rfl
  | cons c cs ih =>
    rw [readDigits?, digitValue?_of_isDigit (h c List.mem_cons_self), Nat.ofDigitChars_cons,
      Nat.mul_comm 10 acc]
    exact ih (fun d hd => h d (List.mem_cons_of_mem c hd)) _

theorem readMagnitude?_of_isDigit (hne : cs ≠ []) (h : ∀ c ∈ cs, isDigit c = true) :
    readMagnitude? 10 cs = some (Nat.ofDigitChars 10 cs 0) := by
  cases cs with
  | nil => exact absurd rfl hne
  | cons c cs => exact readDigits?_of_isDigit h 0

theorem isDigit_of_mem_toDigits {n : Nat} (h : c ∈ Nat.toDigits 10 n) : isDigit c = true := by
  have hdigit := Nat.isDigit_of_mem_toDigits (by decide) (by decide) h
  rw [Char.isDigit, Bool.and_eq_true, decide_eq_true_eq, decide_eq_true_eq] at hdigit
  rw [isDigit, Bool.and_eq_true, decide_eq_true_eq, decide_eq_true_eq]
  exact hdigit

end Digits

/-! ## Numerals -/

theorem splitMantissa_whole {whole : List Char} (h : ∀ c ∈ whole, Text.isDigit c = true) :
    splitMantissa whole = (whole, [], []) := by
  rw [splitMantissa, List.dropWhile_eq_nil_iff.2 h, List.takeWhile_eq_self_iff.2 h]

theorem splitMantissa_point {whole fraction : List Char}
    (hwhole : ∀ c ∈ whole, Text.isDigit c = true)
    (hfraction : ∀ c ∈ fraction, Text.isDigit c = true) :
    splitMantissa (whole ++ '.' :: fraction) = (whole, fraction, []) := by
  have hpoint : Text.isDigit '.' = false := rfl
  simp [splitMantissa, List.takeWhile_append_of_pos hwhole, List.dropWhile_append_of_pos hwhole,
    hpoint, List.dropWhile_eq_nil_iff.2 hfraction, List.takeWhile_eq_self_iff.2 hfraction]

/-- What starts with a digit or a point has no sign and is no word. -/
theorem read?_cons {c : Char} (h : Text.isDigit c = true ∨ c = '.') (cs : List Char) :
    read? (c :: cs) = readUnsigned? (c :: cs) := by
  have hrange : 46 ≤ c.toNat ∧ c.toNat ≤ 57 := by
    obtain hdigit | rfl := h
    · rw [Text.isDigit, Bool.and_eq_true, decide_eq_true_eq, decide_eq_true_eq] at hdigit
      have hlow : 48 ≤ c.toNat := hdigit.1
      exact ⟨by omega, hdigit.2⟩
    · decide
  -- The words are compared in lower case, so the first character has to be its own lower case.
  have hlower : c.toLower = c := by
    rw [Char.toLower, dif_neg]
    rintro ⟨hlow, -⟩
    have hlow' : 65 ≤ c.toNat := hlow
    omega
  have hsign : c ≠ '-' ∧ c ≠ '+' ∧ c ≠ 'i' ∧ c ≠ 'n' := by
    refine ⟨?_, ?_, ?_, ?_⟩ <;> rintro rfl <;> revert hrange <;> decide
  have hword : ∀ word : String, word.toList.head? = some 'i' ∨ word.toList.head? = some 'n' →
      (String.ofList ((c :: cs).map Char.toLower) == word) = false := by
    intro word hword
    rw [beq_eq_false_iff_ne]
    rintro rfl
    rw [List.map_cons, hlower, String.toList_ofList, List.head?_cons] at hword
    obtain hi | hn := hword
    · exact hsign.2.2.1 (Option.some.inj hi)
    · exact hsign.2.2.2 (Option.some.inj hn)
  have hinf := hword "inf" (.inl rfl)
  have hinfinity := hword "infinity" (.inl rfl)
  have hnan := hword "nan" (.inr rfl)
  unfold read?
  split
  · rename_i negative body hsplit
    obtain ⟨rfl, rfl⟩ : false = negative ∧ c :: cs = body := by
      split at hsplit
      · rename_i heq
        exact absurd (List.cons.inj heq).1 hsign.1
      · rename_i heq
        exact absurd (List.cons.inj heq).1 hsign.2.1
      · exact Prod.mk.inj hsplit
    simp only [hinf, hinfinity, hnan, Bool.or_self, Bool.false_eq_true, if_false]
    exact bind_pure (readUnsigned? (c :: cs))

theorem readUnsigned?_whole {whole : List Char} (hne : whole ≠ [])
    (h : ∀ c ∈ whole, Text.isDigit c = true) :
    readUnsigned? whole = some (nearestDecimal (Nat.ofDigitChars 10 whole 0) 0) := by
  have hread := readMagnitude?_of_isDigit hne h
  simp only [readUnsigned?, splitMantissa_whole h, List.append_nil, hread]
  rfl

theorem readUnsigned?_point {whole fraction : List Char} (hne : whole ≠ [])
    (hwhole : ∀ c ∈ whole, Text.isDigit c = true)
    (hfraction : ∀ c ∈ fraction, Text.isDigit c = true) :
    readUnsigned? (whole ++ '.' :: fraction) =
      some (nearestDecimal (Nat.ofDigitChars 10 (whole ++ fraction) 0) (-fraction.length)) := by
  have hread := readMagnitude?_of_isDigit (List.append_ne_nil_of_left_ne_nil hne fraction)
    (List.forall_mem_append.2 ⟨hwhole, hfraction⟩)
  simp only [readUnsigned?, splitMantissa_point hwhole hfraction, hread]
  rfl

theorem toList_positional_of_nonneg (d : Nat) {i : Int} (hi : 0 ≤ i) :
    (positional d i).toList = Nat.toDigits 10 d ++ List.replicate i.toNat '0' := by
  have hzeros : ((List.replicate i.toNat "0").flatMap String.toList) =
      List.replicate i.toNat '0' := by
    rw [List.flatMap_replicate]
    simp
  rw [positional, if_pos hi, String.toList_append, Text.digits, String.toList_ofList,
    Text.repeated, String.toList_join, hzeros]

/-- Below one, zeros are put in front until a digit stands before the point. -/
theorem toList_positional_of_neg (d : Nat) {i : Int} (hi : ¬ 0 ≤ i) :
    ∃ whole fraction zeros, (positional d i).toList = whole ++ '.' :: fraction ∧ whole ≠ [] ∧
      (fraction.length : Int) = -i ∧
      whole ++ fraction = List.replicate zeros '0' ++ Nat.toDigits 10 d := by
  obtain ⟨places, rfl⟩ : ∃ places : Nat, i = -places := ⟨(-i).toNat, by omega⟩
  obtain ⟨padded, hpadded⟩ : ∃ padded : List Char,
      padded = (Text.padLeft '0' (places + 1) (Text.digits 10 d)).toList := ⟨_, rfl⟩
  have hzeros : padded = List.replicate (places + 1 - (Nat.toDigits 10 d).length) '0' ++
      Nat.toDigits 10 d := by
    rw [hpadded, Text.padLeft, String.toList_append, Text.digits, String.toList_ofList,
      String.toList_ofList, String.length_ofList]
  have hlength : places + 1 ≤ padded.length := by
    rw [hzeros, List.length_append, List.length_replicate]
    omega
  refine ⟨padded.take (padded.length - places), padded.drop (padded.length - places), _, ?_, ?_,
    ?_, (List.take_append_drop _ _).trans hzeros⟩
  · rw [positional, if_neg hi, neg_neg, Int.toNat_natCast]
    dsimp only
    rw [← hpadded]
    simp only [String.toList_append, String.toList_ofList, List.append_assoc]
    rfl
  · rw [Ne, List.take_eq_nil_iff]
    rintro (h | rfl)
    · omega
    · rw [List.length_nil] at hlength
      omega
  · rw [List.length_drop, neg_neg]
    omega

/-- Whether a text starts with a digit and goes on with digits and points. -/
def IsNumeral (text : List Char) : Prop :=
  ∃ first rest, text = first :: rest ∧ Text.isDigit first = true ∧
    ∀ c ∈ rest, Text.isDigit c = true ∨ c = '.'

theorem isNumeral_of_digits {whole rest : List Char} (hne : whole ≠ [])
    (hwhole : ∀ c ∈ whole, Text.isDigit c = true)
    (hrest : ∀ c ∈ rest, Text.isDigit c = true ∨ c = '.') : IsNumeral (whole ++ rest) := by
  obtain ⟨first, whole, rfl⟩ := List.exists_cons_of_ne_nil hne
  rw [List.forall_mem_cons] at hwhole
  refine ⟨first, whole ++ rest, rfl, hwhole.1, List.forall_mem_append.2 ⟨fun c hc => ?_, hrest⟩⟩
  exact .inl (hwhole.2 c hc)

theorem IsNumeral.read?_eq {text : List Char} (h : IsNumeral text) :
    read? text = readUnsigned? text := by
  obtain ⟨first, rest, rfl, hfirst, -⟩ := h
  exact read?_cons (.inl hfirst) rest

/-- A decimal is written as a numeral and read as one with the same value. -/
theorem read?_positional (d : Nat) (i : Int) :
    IsNumeral (positional d i).toList ∧ ∃ d' : Nat, ∃ i' : Int,
      (d' * 10 ^ i' : ℚ) = d * 10 ^ i ∧
        read? (positional d i).toList = some (nearestDecimal d' i') := by
  have hzero : Text.isDigit '0' = true := rfl
  have hzeros : ∀ n, ∀ c ∈ List.replicate n '0', Text.isDigit c = true := by
    intro n c hc
    rw [List.eq_of_mem_replicate hc, hzero]
  have hdigits : ∀ c ∈ Nat.toDigits 10 d, Text.isDigit c = true := fun c => isDigit_of_mem_toDigits
  -- The same digits are read, once with the zeros behind them and once with a point among them.
  by_cases hi : 0 ≤ i
  · rw [toList_positional_of_nonneg d hi]
    have hnumeral := isNumeral_of_digits Nat.toDigits_ne_nil hdigits
      fun c hc => .inl (hzeros i.toNat c hc)
    refine ⟨hnumeral, _, _, ?_, hnumeral.read?_eq.trans (readUnsigned?_whole ?_ ?_)⟩
    · obtain ⟨k, rfl⟩ := Int.eq_ofNat_of_zero_le hi
      rw [Nat.ofDigitChars_append, Nat.ofDigitChars_ten_toDigits,
        Nat.ofDigitChars_replicate_zero, Int.toNat_natCast, zpow_natCast, zpow_zero]
      push_cast
      ring
    · exact List.append_ne_nil_of_left_ne_nil Nat.toDigits_ne_nil _
    · exact List.forall_mem_append.2 ⟨hdigits, hzeros _⟩
  · obtain ⟨whole, fraction, zeros, htext, hne, hlength, hall⟩ := toList_positional_of_neg d hi
    have hboth : ∀ c ∈ whole ++ fraction, Text.isDigit c = true := by
      rw [hall]
      exact List.forall_mem_append.2 ⟨hzeros zeros, hdigits⟩
    obtain ⟨hwhole, hfraction⟩ := List.forall_mem_append.1 hboth
    have hnumeral : IsNumeral (whole ++ '.' :: fraction) :=
      isNumeral_of_digits hne hwhole
        (List.forall_mem_cons.2 ⟨.inr rfl, fun c hc => .inl (hfraction c hc)⟩)
    rw [htext]
    refine ⟨hnumeral, _, _, ?_,
      hnumeral.read?_eq.trans (readUnsigned?_point hne hwhole hfraction)⟩
    rw [hall, Nat.ofDigitChars_append, Nat.ofDigitChars_replicate_zero, Nat.mul_zero,
      Nat.ofDigitChars_ten_toDigits, hlength, neg_neg]

open Binary64 in
/-- The numeral of a positive float is read back as the float. -/
theorem read?_magnitudeText {m : Nat} {q : Int} (hm : IsCanonical m q) :
    IsNumeral (magnitudeText m q).toList ∧
      read? (magnitudeText m q).toList = some (Float.ofBits (UInt64.ofNat (bitsOf m q))) := by
  have htext : magnitudeText m q = positional (shortest m q).1 (shortest m q).2 := by
    rw [magnitudeText, beq_false_of_ne hm.pos.ne']
    rfl
  obtain ⟨hnumeral, d, i, hvalue, hread⟩ := read?_positional (shortest m q).1 (shortest m q).2
  have hcontains := contains_shortest hm
  rw [← hvalue] at hcontains
  rw [htext]
  exact ⟨hnumeral, hread.trans (congrArg some (nearestDecimal_of_contains hm hcontains))⟩

/-! ## Floats without sign -/

namespace Binary64

/-- Whether a float has no sign and is a number. -/
def IsUnsigned (x : Float) : Prop := x.toBits.toNat ≤ 2047 * twoPow 52

/-- The bits of a number without sign are kept. -/
theorem toBits_ofBits {b : UInt64} (h : b.toNat ≤ 2047 * twoPow 52) :
    (Float.ofBits b).toBits = b := by
  have hle : b.toNat ≤ 2047 * 2 ^ 52 := h
  -- A pattern with the largest exponent and a fraction would be no number: it is above the bound.
  have hvalid : Float.Model.Format.binary64.Valid b.toBitVec := by
    refine ⟨fun hexponent hmantissa => absurd ?_ hmantissa⟩
    have hbiased : b.toNat / 2 ^ 52 % 2 ^ 11 = 2047 := by
      have := congrArg BitVec.toNat hexponent
      rw [Float.Model.UnpackedFloat.unpackExponent] at this
      simpa [Nat.shiftRight_eq_div_pow] using this
    have hfraction : b.toNat % 2 ^ 52 = 0 := by omega
    refine BitVec.eq_of_toNat_eq ?_
    simpa [Float.Model.UnpackedFloat.unpackMantissa] using hfraction
  have hmodel : (Float.ofModel ⟨b, hvalid⟩).toBits = b := rfl
  rw [← hmodel, Float.ofBits_toBits]

theorem isUnsigned_ofBits {b : UInt64} (h : b.toNat ≤ 2047 * twoPow 52) :
    IsUnsigned (Float.ofBits b) := by
  rw [IsUnsigned, toBits_ofBits h]
  exact h

theorem isUnsigned_nearest (num den : Nat) : IsUnsigned (nearest num den) := by
  have hle : nearestBits num den ≤ 2047 * twoPow 52 := by
    unfold nearestBits
    dsimp only
    split
    · exact Nat.zero_le _
    · split
      · rename_i hsmall
        exact hsmall.le.trans (by decide)
      · exact min_le_left _ _
  refine isUnsigned_ofBits ?_
  rw [UInt64.toNat_ofNat_of_lt' (hle.trans_lt (by decide))]
  exact hle

theorem isUnsigned_nearestDecimal (m : Nat) (e : Int) : IsUnsigned (nearestDecimal m e) := by
  unfold nearestDecimal
  dsimp only
  split_ifs
  · exact isUnsigned_nearest 0 1
  · exact isUnsigned_ofBits (by decide)
  · exact isUnsigned_nearest 0 1
  · exact isUnsigned_nearest _ 1
  · exact isUnsigned_nearest m _

/-- What is read without a sign has none. -/
theorem isUnsigned_of_readUnsigned? {text : List Char} {x : Float}
    (h : readUnsigned? text = some x) : IsUnsigned x := by
  unfold readUnsigned? at h
  obtain ⟨whole, fraction, rest⟩ := splitMantissa text
  obtain ⟨m, -, h⟩ := Option.bind_eq_some_iff.1 h
  dsimp only at h
  split at h
  · obtain rfl := Option.some.inj h
    exact isUnsigned_nearestDecimal m _
  · split at h
    · obtain ⟨e, -, h⟩ := Option.bind_eq_some_iff.1 h
      obtain rfl := Option.some.inj h
      exact isUnsigned_nearestDecimal m _
    · cases h

/-- A float without sign is infinite, zero or a positive one that is taken apart. -/
theorem ofFloat_of_isUnsigned {x : Float} (h : IsUnsigned x) :
    ofFloat x = infinite false ∨ ∃ m q, ofFloat x = finite false m q ∧
      (m = 0 ∧ x.toBits.toNat = 0 ∨ IsCanonical m q ∧ x.toBits.toNat = bitsOf m q) := by
  have hle : x.toBits.toNat ≤ 2047 * 2 ^ 52 := h
  unfold ofFloat ofBits
  generalize x.toBits.toNat = n at *
  obtain ⟨biased, hbiased⟩ : ∃ biased, n / twoPow 52 = biased := ⟨_, rfl⟩
  obtain ⟨fraction, hfraction⟩ : ∃ fraction, n % twoPow 52 = fraction := ⟨_, rfl⟩
  have hsplit : 2 ^ 52 * biased + fraction = n :=
    hbiased ▸ hfraction ▸ Nat.div_add_mod n (twoPow 52)
  have hlt : fraction < 2 ^ 52 := hfraction ▸ Nat.mod_lt n (by decide)
  have hsign : (n / twoPow 63 == 1) = false := by
    change (n / 2 ^ 63 == 1) = false
    rw [beq_eq_false_iff_ne]
    omega
  have hmod : biased % twoPow 11 = biased := Nat.mod_eq_of_lt (show biased < 2048 by omega)
  simp only [hsign, hbiased, hfraction, hmod]
  split
  · -- The largest exponent leaves no room for a fraction below the bound.
    rename_i hmax
    have hzero : (fraction == 0) = true := by
      rw [beq_iff_eq] at hmax ⊢
      omega
    rw [hzero]
    exact .inl rfl
  · rename_i hmax
    rw [beq_iff_eq] at hmax
    right
    split
    · rename_i hsub
      rw [beq_iff_eq] at hsub
      refine ⟨_, _, rfl, ?_⟩
      obtain rfl | hpos := Nat.eq_zero_or_pos fraction
      · exact .inl ⟨rfl, by omega⟩
      · have hfull : fraction < 2 ^ 53 := by omega
        refine .inr ⟨⟨hpos, hfull, le_rfl, by decide, .inl rfl⟩, ?_⟩
        change n = if fraction < 2 ^ 52 then fraction else _
        rw [if_pos hlt]
        omega
    · rename_i hsub
      rw [beq_iff_eq] at hsub
      refine ⟨_, _, rfl, .inr ⟨⟨?_, ?_, ?_, ?_, .inr (Nat.le_add_right _ _)⟩, ?_⟩⟩
      · exact Nat.add_pos_left (Nat.two_pow_pos 52) _
      · change 2 ^ 52 + fraction < 2 ^ 53
        omega
      · unfold minExponent
        omega
      · unfold minExponent
        omega
      · rw [bitsOf, if_neg (Nat.not_lt.2 (Nat.le_add_right _ _)), Nat.add_sub_cancel_left]
        change n = (-1074 + (biased : Int) - 1 + 1075).toNat * 2 ^ 52 + fraction
        omega

end Binary64

open Binary64 in
/-- The numeral of a finite float without sign is read back as the float. -/
theorem exists_numeral {x : Float} (h : IsUnsigned x) (hfinite : ofFloat x ≠ infinite false) :
    ∃ m q, ofFloat x = finite false m q ∧ IsNumeral (magnitudeText m q).toList ∧
      read? (magnitudeText m q).toList = some x := by
  obtain hinfinite | ⟨m, q, hx, ⟨rfl, hzero⟩ | ⟨hm, hbits⟩⟩ := ofFloat_of_isUnsigned h
  · exact absurd hinfinite hfinite
  · have hdigit : (magnitudeText 0 q).toList = ['0'] := by
      rw [magnitudeText, if_pos (beq_self_eq_true 0)]
      rfl
    refine ⟨0, q, hx, ?_⟩
    rw [hdigit, ← Float.ofBits_toBits x, UInt64.toNat_inj.1 (hzero.trans UInt64.toNat_zero.symm)]
    exact ⟨⟨'0', [], rfl, rfl, fun _ hc => absurd hc List.not_mem_nil⟩, rfl⟩
  · refine ⟨m, q, hx, ?_⟩
    rw [← Float.ofBits_toBits x, ← UInt64.ofNat_toNat (x := x.toBits), hbits]
    exact read?_magnitudeText hm

end LuaUnpack.Decimal
