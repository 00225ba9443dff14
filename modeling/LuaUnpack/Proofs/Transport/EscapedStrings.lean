import LuaUnpack.Proofs.Decimal.Numeral
import LuaUnpack.Proofs.Lua.Unescaping
import LuaUnpack.Proofs.Outcome
import LuaUnpack.Transport

/-!
# Escaped strings as literals

An escaped string is the text of a string literal, and its bytes are found in two ways. As encoded
data it is cut at the backslashes, and each part is read as one number (`decodeEscape`). As a
literal it is read from the left, and an escape takes at most three digits (`Literal.bytes`).

The second way gives at least one byte for each part: that of the first three digits, and then one
for each character that is left over (`resolvedPart`). So both ways give the same bytes just if
nothing is left over in any part (`bytes_eq_iff_isShortNumeral`). A plus sign, or zeros that make a
number longer than three digits, are read as part of a number only by the first way.
-/

namespace LuaUnpack.Transport

open Lua Lua.Literal

/-- The parts of an escaped string that are read as numbers. -/
def escapeParts (data : String) : List (List Char) := (Text.cutAt '\\' data.toList).drop 1

/-- Whether a part of an escaped string is one to three digits. -/
def IsShortNumeral (part : List Char) : Prop :=
  part ≠ [] ∧ part.length ≤ 3 ∧ part.all Text.isDigit = true

instance (part : List Char) : Decidable (IsShortNumeral part) :=
  inferInstanceAs (Decidable (part ≠ [] ∧ part.length ≤ 3 ∧ part.all Text.isDigit = true))

/-- The bytes of characters. -/
def bytesOf (cs : List Char) : List UInt8 := cs.flatMap String.utf8EncodeChar

/-- The bytes that a literal has for a backslash and the part after it: of a number only the first
    three digits belong to the escape, of a sign nothing. -/
def resolvedPart (part : List Char) : List UInt8 :=
  if part.head? = some '+' then bytesOf part
  else UInt8.ofNat (Nat.ofDigitChars 10 (part.take 3) 0) :: bytesOf (part.drop 3)

/-! ## Digits -/

section Digits

variable {c : Char} {cs : List Char}

theorem isDigit_of_digitValue? {d : Nat} (h : Text.digitValue? 10 c = some d) :
    Text.isDigit c = true := by
  rw [Text.digitValue?, Option.filter_eq_some_iff, decide_eq_true_eq] at h
  obtain ⟨hvalue, hlt⟩ := h
  split_ifs at hvalue with hdigit
  · exact hdigit
  all_goals
    cases hvalue
    omega

theorem isDigit_of_readDigits? {acc n : Nat} (h : Text.readDigits? 10 acc cs = some n) :
    ∀ c ∈ cs, Text.isDigit c = true := by
  induction cs generalizing acc with
  | nil => exact fun _ hc => absurd hc List.not_mem_nil
  | cons c cs ih =>
    obtain ⟨d, hd, hrest⟩ := Option.bind_eq_some_iff.1 h
    exact List.forall_mem_cons.2 ⟨isDigit_of_digitValue? hd, ih hrest⟩

theorem readMagnitude?_eq_some_iff {n : Nat} : Text.readMagnitude? 10 cs = some n ↔
    cs ≠ [] ∧ (∀ c ∈ cs, Text.isDigit c = true) ∧ Nat.ofDigitChars 10 cs 0 = n := by
  constructor
  · intro h
    have hne : cs ≠ [] := by
      rintro rfl
      cases h
    have hdigits : ∀ c ∈ cs, Text.isDigit c = true := by
      rw [Text.readMagnitude?.eq_2 _ _ hne] at h
      exact isDigit_of_readDigits? h
    rw [Decimal.readMagnitude?_of_isDigit hne hdigits] at h
    exact ⟨hne, hdigits, Option.some.inj h⟩
  · rintro ⟨hne, hdigits, rfl⟩
    exact Decimal.readMagnitude?_of_isDigit hne hdigits

/-- The byte of a digit. -/
theorem exists_digitByte (h : Text.isDigit c = true) :
    ∃ d < 10, c.toNat - '0'.toNat = d ∧ String.utf8EncodeChar c = [digitByte d] := by
  have hall : ∀ d < 10, String.utf8EncodeChar (Char.ofNat (48 + d)) = [digitByte d] := by decide
  obtain ⟨hlow, hhigh⟩ := Lexer.isDigit_iff.1 h
  refine ⟨c.toNat - 48, by omega, rfl, ?_⟩
  rw [← hall _ (by omega), Nat.add_sub_cancel' hlow, Char.ofNat_toNat]

theorem bytesOf_cons (c : Char) (cs : List Char) :
    bytesOf (c :: cs) = String.utf8EncodeChar c ++ bytesOf cs := List.flatMap_cons

/-- A digit stands for itself outside an escape. -/
theorem unescape_bytesOf (h : ∀ c ∈ cs, Text.isDigit c = true) (tail : List UInt8) :
    unescape (bytesOf cs ++ tail) = bytesOf cs ++ unescape tail := by
  induction cs with
  | nil => rfl
  | cons c cs ih =>
    rw [List.forall_mem_cons] at h
    obtain ⟨d, hd, -, hbyte⟩ := exists_digitByte h.1
    have hslash : ∀ d < 10, digitByte d ≠ '\\'.toUInt8 := by decide
    rw [bytesOf_cons, hbyte, List.singleton_append, List.cons_append,
      unescape_cons (hslash d hd), ih h.2]
    rfl

/-- An escape takes digits up to its limit, if no digit comes after them. -/
theorem escapedNumber_bytesOf (h : ∀ c ∈ cs, Text.isDigit c = true) {tail : List UInt8}
    (htail : ∀ b ∈ tail.head?, decimalDigit? b = none) (limit acc : Nat) :
    escapedNumber decimalDigit? 10 limit acc (bytesOf cs ++ tail) =
      (Nat.ofDigitChars 10 (cs.take limit) acc, (bytesOf (cs.take limit)).length) := by
  induction cs generalizing limit acc with
  | nil =>
    rw [List.take_nil]
    cases limit with
    | zero => rfl
    | succ limit =>
      -- The digits end before the limit does: what comes after them must stop the escape.
      cases tail with
      | nil => rfl
      | cons b tail =>
        change escapedNumber decimalDigit? 10 (limit + 1) acc (b :: tail) = (acc, 0)
        rw [escapedNumber, htail b rfl]
  | cons c cs ih =>
    cases limit with
    | zero => rfl
    | succ limit =>
      rw [List.forall_mem_cons] at h
      obtain ⟨d, hd, hvalue, hbyte⟩ := exists_digitByte h.1
      rw [bytesOf_cons, hbyte, List.singleton_append, List.cons_append, escapedNumber,
        decimalDigit?_digitByte d hd]
      dsimp only
      rw [ih h.2, List.take_succ_cons, bytesOf_cons, hbyte, Nat.ofDigitChars_cons, hvalue,
        Nat.mul_comm 10 acc]
      rfl

/-- Of a number after a backslash the first three digits belong to the escape. -/
theorem unescape_number (hne : cs ≠ []) (h : ∀ c ∈ cs, Text.isDigit c = true) {tail : List UInt8}
    (htail : ∀ b ∈ tail.head?, decimalDigit? b = none) :
    unescape ('\\'.toUInt8 :: (bytesOf cs ++ tail)) =
      UInt8.ofNat (Nat.ofDigitChars 10 (cs.take 3) 0) ::
        (bytesOf (cs.drop 3) ++ unescape tail) := by
  obtain ⟨c, cs, rfl⟩ := List.exists_cons_of_ne_nil hne
  rw [List.forall_mem_cons] at h
  obtain ⟨d, hd, hvalue, hbyte⟩ := exists_digitByte h.1
  have hsplit : bytesOf cs ++ tail = bytesOf (cs.take 2) ++ (bytesOf (cs.drop 2) ++ tail) := by
    rw [← List.append_assoc, bytesOf, bytesOf, bytesOf, ← List.flatMap_append,
      List.take_append_drop]
  have hescape : escape (digitByte d) (bytesOf cs ++ tail) =
      (UInt8.ofNat (Nat.ofDigitChars 10 (cs.take 2) d), (bytesOf (cs.take 2)).length) := by
    rw [escape_digitByte hd, escapedNumber_bytesOf h.2 htail]
  rw [hsplit] at hescape
  rw [bytesOf_cons, hbyte, List.singleton_append, List.cons_append, hsplit,
    unescape_escape _ _ hescape, List.take_succ_cons, List.drop_succ_cons, Nat.ofDigitChars_cons,
    hvalue, Nat.mul_zero, Nat.zero_add,
    unescape_bytesOf fun e he => h.2 e (List.mem_of_mem_drop he)]

end Digits

/-! ## Parts -/

section Parts

variable {part : List Char} {b : UInt8}

/-- A part is read as a number of at most 255, with or without a plus sign. -/
theorem exists_of_readEscape (h : readEscape part = .ok b) :
    ∃ digits, (part = digits ∨ part = '+' :: digits) ∧ digits ≠ [] ∧
      (∀ c ∈ digits, Text.isDigit c = true) ∧ UInt8.ofNat (Nat.ofDigitChars 10 digits 0) = b := by
  unfold readEscape at h
  split at h
  · rename_i n hn
    cases h
    obtain ⟨hvalue, -⟩ := Option.filter_eq_some_iff.1 hn
    split at hvalue
    · rename_i digits
      obtain ⟨hne, hdigits, rfl⟩ := readMagnitude?_eq_some_iff.1 hvalue
      exact ⟨digits, .inr rfl, hne, hdigits, rfl⟩
    · obtain ⟨hne, hdigits, rfl⟩ := readMagnitude?_eq_some_iff.1 hvalue
      exact ⟨part, .inl rfl, hne, hdigits, rfl⟩
  · cases h

theorem head?_ne_plus {digits : List Char} (h : ∀ c ∈ digits, Text.isDigit c = true) :
    digits.head? ≠ some '+' := by
  intro hplus
  have hdigit := h '+' (List.mem_of_mem_head? hplus)
  cases hdigit

/-- What a literal makes of a backslash and a part that can be read as a number. -/
theorem unescape_part (h : readEscape part = .ok b) {tail : List UInt8}
    (htail : ∀ b ∈ tail.head?, decimalDigit? b = none) :
    unescape ('\\'.toUInt8 :: (bytesOf part ++ tail)) = resolvedPart part ++ unescape tail := by
  obtain ⟨digits, rfl | rfl, hne, hdigits, -⟩ := exists_of_readEscape h
  · rw [unescape_number hne hdigits htail, resolvedPart, if_neg (head?_ne_plus hdigits)]
    rfl
  · change unescape ('\\'.toUInt8 :: '+'.toUInt8 :: ([] ++ (bytesOf digits ++ tail))) =
      '+'.toUInt8 :: (bytesOf digits ++ unescape tail)
    rw [unescape_escape [] (bytesOf digits ++ tail) rfl, unescape_bytesOf hdigits]

theorem bytesOf_eq_nil_iff {cs : List Char} : bytesOf cs = [] ↔ cs = [] := by
  rw [bytesOf, List.flatMap_eq_nil_iff]
  constructor
  · intro h
    refine List.eq_nil_iff_forall_not_mem.2 fun c hc => ?_
    have hlength := congrArg List.length (h c hc)
    rw [String.length_utf8EncodeChar] at hlength
    exact absurd hlength c.utf8Size_pos.ne'
  · rintro rfl c hc
    exact absurd hc List.not_mem_nil

theorem resolvedPart_ne_nil (h : readEscape part = .ok b) : resolvedPart part ≠ [] := by
  obtain ⟨digits, rfl | rfl, hne, -⟩ := exists_of_readEscape h
  · rw [resolvedPart]
    split
    · exact bytesOf_eq_nil_iff.not.2 hne
    · exact List.cons_ne_nil _ _
  · exact bytesOf_eq_nil_iff.not.2 (List.cons_ne_nil _ _)

/-- A literal has the byte of a number for a part just if nothing of the part is left over. -/
theorem resolvedPart_eq_iff (h : readEscape part = .ok b) :
    resolvedPart part = [b] ↔ IsShortNumeral part := by
  obtain ⟨digits, rfl | rfl, hne, hdigits, rfl⟩ := exists_of_readEscape h
  · rw [resolvedPart, if_neg (head?_ne_plus hdigits)]
    constructor
    · intro heq
      exact ⟨hne, List.drop_eq_nil_iff.1 (bytesOf_eq_nil_iff.1 (List.cons.inj heq).2),
        List.all_eq_true.2 hdigits⟩
    · rintro ⟨-, hlength, -⟩
      rw [List.take_of_length_le hlength, List.drop_of_length_le hlength]
      rfl
  · constructor
    · intro heq
      exact absurd (bytesOf_eq_nil_iff.1 (List.cons.inj heq).2) hne
    · rintro ⟨-, -, hall⟩
      exact absurd rfl (head?_ne_plus (List.all_eq_true.1 hall))

end Parts

/-! ## Whole strings -/

section Whole

variable {parts : List (List Char)} {bytes : List UInt8}

/-- What a literal makes of parts that can be read as numbers. -/
theorem unescape_parts (h : List.Forall₂ (fun part b => readEscape part = .ok b) parts bytes) :
    unescape (parts.flatMap fun part => '\\'.toUInt8 :: bytesOf part) =
      parts.flatMap resolvedPart := by
  induction h with
  | nil => rw [List.flatMap_nil, unescape, List.flatMap_nil]
  | cons hpart hparts ih =>
    rename_i part b parts bytes
    have htail : ∀ b ∈ (parts.flatMap fun part => '\\'.toUInt8 :: bytesOf part).head?,
        decimalDigit? b = none := by
      intro b hb
      cases parts with
      | nil => cases hb
      | cons part parts =>
        obtain rfl := Option.some.inj hb
        rfl
    rw [List.flatMap_cons, List.cons_append, unescape_part hpart htail, ih, List.flatMap_cons]

theorem length_le_flatMap_resolvedPart
    (h : List.Forall₂ (fun part b => readEscape part = .ok b) parts bytes) :
    bytes.length ≤ (parts.flatMap resolvedPart).length := by
  induction h with
  | nil => exact Nat.le_refl 0
  | cons hpart hparts ih =>
    have hpos := List.length_pos_of_ne_nil (resolvedPart_ne_nil hpart)
    rw [List.flatMap_cons, List.length_append, List.length_cons]
    omega

/-- No part can make up for what is left over in another one: each gives a byte at least. -/
theorem flatMap_resolvedPart_eq_iff
    (h : List.Forall₂ (fun part b => readEscape part = .ok b) parts bytes) :
    parts.flatMap resolvedPart = bytes ↔ ∀ part ∈ parts, IsShortNumeral part := by
  induction h with
  | nil => exact iff_of_true rfl fun _ hpart => absurd hpart List.not_mem_nil
  | cons hpart hparts ih =>
    rename_i part b parts bytes
    rw [List.forall_mem_cons, ← ih, ← resolvedPart_eq_iff hpart, List.flatMap_cons]
    constructor
    · intro heq
      -- The first part gives one byte at least, the others one each: so it gives exactly one.
      have hlength := congrArg List.length heq
      have hpos := List.length_pos_of_ne_nil (resolvedPart_ne_nil hpart)
      have hmore := length_le_flatMap_resolvedPart hparts
      rw [List.length_append, List.length_cons] at hlength
      exact List.append_inj (heq.trans List.singleton_append.symm) (by
        rw [List.length_singleton]
        omega)
    · rintro ⟨hhead, htail⟩
      rw [hhead, htail, List.singleton_append]

end Whole

/-- A text is its parts again, each after the mark at which the text is cut. -/
theorem flatMap_cutAt (mark : Char) (cs : List Char) :
    (Text.cutAt mark cs).flatMap (mark :: ·) = mark :: cs := by
  induction cs with
  | nil => rfl
  | cons c cs ih =>
    rw [Text.cutAt]
    split
    · rename_i hmark
      rw [List.flatMap_cons, ih, eq_of_beq hmark]
      rfl
    · split
      · rename_i hnil
        rw [hnil] at ih
        cases ih
      · rename_i part parts hparts
        rw [hparts, List.flatMap_cons, List.cons_append] at ih
        rw [List.flatMap_cons, List.cons_append, List.cons_append, (List.cons.inj ih).2]

/-- The bytes of a text that starts with a backslash, part by part. -/
theorem toBytes_eq_flatMap_escapeParts {data : String} (h : data.toList.head? = some '\\') :
    Text.toBytes data =
      (escapeParts data).flatMap fun part => '\\'.toUInt8 :: bytesOf part := by
  obtain ⟨cs, hcs⟩ : ∃ cs, data.toList = '\\' :: cs := List.head?_eq_some_iff.1 h
  have hparts : escapeParts data = Text.cutAt '\\' cs := by
    rw [escapeParts, hcs]
    rfl
  rw [Text.toBytes_eq_flatMap, hcs, hparts, ← flatMap_cutAt, List.flatMap_assoc]
  rfl

/-- The bytes of an escaped string are those of the literal just if each part is one to three
    digits. -/
theorem bytes_eq_iff_isShortNumeral {literal : Literal} {bytes : List UInt8}
    (hshort : ∀ level, literal.delimiter ≠ .long level)
    (hlead : literal.raw.toList.head? = some '\\') (h : decodeEscape literal.raw = .ok bytes) :
    literal.bytes = bytes ↔ ∀ part ∈ escapeParts literal.raw, IsShortNumeral part := by
  have hparts : List.Forall₂ (fun part b => readEscape part = .ok b)
      (escapeParts literal.raw) bytes := mapM_eq_ok_iff.1 h
  have hbytes : literal.bytes = unescape (Text.toBytes literal.raw) := by
    rw [Literal.bytes]
    split
    · rename_i level hlevel
      exact absurd hlevel (hshort level)
    · rfl
  rw [hbytes, toBytes_eq_flatMap_escapeParts hlead, unescape_parts hparts]
  exact flatMap_resolvedPart_eq_iff hparts

/-- A literal with numbers of one digit and of three. -/
def paddedLiteral : Literal := ⟨"\\4\\8\\065\\255", .double⟩

theorem bytes_eq_iff_isShortNumeral_paddedLiteral :
    decodeEscape paddedLiteral.raw = .ok [4, 8, 65, 255] ∧
    paddedLiteral.bytes = [4, 8, 65, 255] := by
  have hdecode : decodeEscape paddedLiteral.raw = .ok [4, 8, 65, 255] := by decide
  have hparts : escapeParts paddedLiteral.raw =
      [['4'], ['8'], ['0', '6', '5'], ['2', '5', '5']] := by decide
  have hlead : paddedLiteral.raw.toList.head? = some '\\' := by decide
  have hshort : ∀ level, paddedLiteral.delimiter ≠ .long level := by
    rintro level ⟨⟩
  refine ⟨hdecode, (bytes_eq_iff_isShortNumeral hshort hlead hdecode).2 ?_⟩
  rw [hparts]
  decide

/-- Strings with a sign and with a fourth digit: as encoded data both end with the byte 65, as
    literals they end with a plus sign and digits, and with the byte 6 and a digit. -/
theorem decodeEscape_ne_bytes :
    tokenize "\"\\4\\8\\+65\" '\\4\\8\\0065'" =
      .ok [⟨.string ⟨"\\4\\8\\+65", .double⟩, 1⟩,
        ⟨.string ⟨"\\4\\8\\0065", .single⟩, 1⟩, ⟨.eof, 1⟩] ∧
    decodeEscape "\\4\\8\\+65" = .ok [4, 8, 65] ∧
    (⟨"\\4\\8\\+65", .double⟩ : Literal).bytes = [4, 8, 0x2B, 0x36, 0x35] ∧
    decodeEscape "\\4\\8\\0065" = .ok [4, 8, 65] ∧
    (⟨"\\4\\8\\0065", .single⟩ : Literal).bytes = [4, 8, 6, 0x35] := by
  decide +kernel

end LuaUnpack.Transport
