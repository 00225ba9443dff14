import LuaUnpack.Proofs.Lua.FlatText

/-!
# Escapes

Every byte is written so that a double-quoted string does not end with it, and on one line
(`isEscaped_escapeByte`). So any bytes in double quotes are a word that can be read
(`isWord_escapedLiteral`).
-/

namespace LuaUnpack.Lua

/-! ## Bytes -/

/-- Whether a character can stand in a double-quoted string as it is. -/
def isUnescaped (c : Char) : Bool := c != '\x22' && c != '\\' && c != '\n'

/-- Whether characters are an escape, or need none. -/
def isEscaped : List Char → Bool
  | [] => true
  | c :: cs =>
    if c == '\\' then (cs.head?.all (· != '\n')) && !cs.isEmpty && cs.tail.all isUnescaped
    else isUnescaped c && cs.all isUnescaped

/-- The characters that can stand alone after a backslash, with the bytes they then denote. -/
def Literal.namedEscapes : List (Char × UInt8) :=
  [('\x22', 0x22), ('\\', 0x5C), ('n', 0x0A), ('r', 0x0D), ('t', 0x09)]

/-- The characters for three digits of a number. -/
def threeDigitChars (n : Nat) : List Char :=
  [Nat.digitChar (n / 100), Nat.digitChar (n / 10 % 10), Nat.digitChar (n % 10)]

/-- Three digits of a number below a thousand. -/
theorem toList_padLeft_digits {n : Nat} (h : n < 1000) :
    (Text.padLeft '0' 3 (Text.digits 10 n)).toList = threeDigitChars n := by
  have hdigits : (Text.digits 10 n).toList = Nat.toDigits 10 n := String.toList_ofList
  rw [Text.padLeft, String.toList_append, String.toList_ofList, hdigits, ← String.length_toList,
    hdigits]
  obtain hone | hone := Nat.lt_or_ge n 10
  · have hhundreds : n / 100 = 0 := by omega
    have htens : n / 10 = 0 := by omega
    rw [threeDigitChars, Nat.toDigits_of_lt_base hone, hhundreds, htens, Nat.mod_eq_of_lt hone]
    rfl
  · rw [Nat.toDigits_of_base_le (by decide) hone]
    obtain htwo | htwo := Nat.lt_or_ge (n / 10) 10
    · have hhundreds : n / 100 = 0 := by omega
      rw [threeDigitChars, Nat.toDigits_of_lt_base htwo, hhundreds, Nat.mod_eq_of_lt htwo]
      rfl
    · rw [Nat.toDigits_of_base_le (by decide) htwo, Nat.div_div_eq_div_mul,
        Nat.toDigits_of_lt_base (by omega)]
      rfl

theorem toNat_ofNat_of_lt {n : Nat} (h : n < 128) : (Char.ofNat n).toNat = n := by
  rw [Char.toNat_ofNat, if_pos (.inl (by omega))]

/-- What is written for a byte: a character after a backslash, three digits after one, or the
    character for it. -/
theorem toList_escapeByte_cases (b : UInt8) :
    (∃ c, (c, b) ∈ Literal.namedEscapes ∧ (escapeByte b).toList = ['\\', c]) ∨
      (escapeByte b).toList = '\\' :: threeDigitChars b.toNat ∨
      (b.toNat < 128 ∧ isUnescaped (Char.ofNat b.toNat) = true ∧
        (escapeByte b).toList = [Char.ofNat b.toNat]) := by
  unfold escapeByte
  split_ifs with hquote hslash hline hreturn htab hprint
  · exact .inl ⟨'\x22', by rw [eq_of_beq hquote]; decide, rfl⟩
  · exact .inl ⟨'\\', by rw [eq_of_beq hslash]; decide, rfl⟩
  · exact .inl ⟨'n', by rw [eq_of_beq hline]; decide, rfl⟩
  · exact .inl ⟨'r', by rw [eq_of_beq hreturn]; decide, rfl⟩
  · exact .inl ⟨'t', by rw [eq_of_beq htab]; decide, rfl⟩
  · have hlast : b ≤ 0x7E := of_decide_eq_true (Bool.and_eq_true_iff.1 hprint).2
    have hlt : b.toNat < 128 :=
      Nat.lt_succ_of_le (UInt8.le_trans hlast (by decide : (0x7E : UInt8) ≤ 127))
    have hbyte : (Char.ofNat b.toNat).toUInt8 = b := by
      rw [Char.toUInt8, ← UInt8.toNat_inj, UInt32.toNat_toUInt8]
      change (Char.ofNat b.toNat).toNat % 2 ^ 8 = b.toNat
      rw [toNat_ofNat_of_lt hlt, Nat.mod_eq_of_lt b.toNat_lt]
    have hne : ∀ c : Char, ¬(b == c.toUInt8) = true → (Char.ofNat b.toNat != c) = true := by
      intro c hc
      rw [bne_iff_ne]
      rintro rfl
      rw [hbyte] at hc
      exact hc (beq_self_eq_true b)
    refine .inr (.inr ⟨hlt, ?_, String.toList_singleton _⟩)
    rw [isUnescaped, hne _ hquote, hne _ hslash, hne '\n' hline]
    rfl
  · refine .inr (.inl ?_)
    rw [String.toList_append, toList_padLeft_digits (by have := b.toNat_lt; omega)]
    rfl

theorem isUnescaped_digitChar : ∀ d < 10, isUnescaped (Nat.digitChar d) = true := by decide

theorem isEscaped_escapeByte (b : UInt8) : isEscaped (escapeByte b).toList = true := by
  obtain ⟨c, hc, htext⟩ | htext | ⟨-, hplain, htext⟩ := toList_escapeByte_cases b
  · have hall : ∀ e ∈ Literal.namedEscapes, isEscaped ['\\', e.1] = true := by decide
    rw [htext]
    exact hall _ hc
  · have hlt := b.toNat_lt
    have hhundreds := isUnescaped_digitChar (b.toNat / 100) (by omega)
    have htens := isUnescaped_digitChar (b.toNat / 10 % 10) (Nat.mod_lt _ (by decide))
    have hones := isUnescaped_digitChar (b.toNat % 10) (Nat.mod_lt _ (by decide))
    have hline : Nat.digitChar (b.toNat / 100) ≠ '\n' := by
      intro hline
      rw [hline] at hhundreds
      exact absurd hhundreds (by decide)
    rw [htext, threeDigitChars, isEscaped, if_pos (beq_self_eq_true _)]
    simp [hline, htens, hones]
  · have hslash : (Char.ofNat b.toNat == '\\') = false := by
      simp only [isUnescaped, Bool.and_eq_true, bne_iff_ne] at hplain
      exact beq_eq_false_iff_ne.2 hplain.1.2
    rw [htext, isEscaped, hslash, hplain]
    rfl

/-- An escape is a backslash before a character. -/
theorem isEscaped_cases {cs : List Char} (h : isEscaped cs = true) :
    cs.all isUnescaped = true ∨
      ∃ c rest, cs = '\\' :: c :: rest ∧ c ≠ '\n' ∧ rest.all isUnescaped = true := by
  cases cs with
  | nil => exact .inl rfl
  | cons c cs =>
    rw [isEscaped] at h
    split at h
    · rename_i hslash
      cases cs with
      | nil => simp at h
      | cons d rest => exact .inr ⟨d, rest, by rw [eq_of_beq hslash], by simpa using h⟩
    · exact .inl h

theorem shortLength?_unescaped {cs : List Char} (h : cs.all isUnescaped = true)
    (rest : List Char) :
    Lexer.shortLength? '\x22' (cs ++ rest) =
      (Lexer.shortLength? '\x22' rest).map (· + cs.length) := by
  induction cs with
  | nil => exact Option.map_id'.symm
  | cons c cs ih =>
    obtain ⟨hc, hcs⟩ := Bool.and_eq_true_iff.1 h
    simp only [isUnescaped, Bool.and_eq_true, bne_iff_ne] at hc
    obtain ⟨⟨hquote, hslash⟩, hline⟩ := hc
    rw [List.cons_append, Lexer.shortLength?_cons hslash, if_neg (by simpa using hquote),
      if_neg (by simpa using hline), ih hcs, Option.map_map]
    rfl

theorem shortLength?_escaped {cs : List Char} (h : isEscaped cs = true) (rest : List Char) :
    Lexer.shortLength? '\x22' (cs ++ rest) =
      (Lexer.shortLength? '\x22' rest).map (· + cs.length) := by
  obtain hcs | ⟨c, tail, rfl, -, htail⟩ := isEscaped_cases h
  · exact shortLength?_unescaped hcs rest
  · change (Lexer.shortLength? '\x22' (tail ++ rest)).map (· + 2) = _
    rw [shortLength?_unescaped htail, Option.map_map]
    rfl

theorem shortLength?_escapeBytes (bytes : List UInt8) (rest : List Char) :
    Lexer.shortLength? '\x22' ((escapeBytes bytes).toList ++ rest) =
      (Lexer.shortLength? '\x22' rest).map (· + (escapeBytes bytes).toList.length) := by
  rw [escapeBytes, String.toList_join]
  induction bytes with
  | nil => exact Option.map_id'.symm
  | cons b bytes ih =>
    rw [List.map_cons, List.flatMap_cons, List.append_assoc,
      shortLength?_escaped (isEscaped_escapeByte b), ih, Option.map_map]
    congr 1
    funext n
    simp only [Function.comp_apply, List.length_append]
    omega

theorem not_mem_of_unescaped {cs : List Char} (h : cs.all isUnescaped = true) : '\n' ∉ cs :=
  fun hmem => absurd (List.all_eq_true.1 h _ hmem) (by decide)

theorem not_mem_escapeBytes (bytes : List UInt8) : '\n' ∉ (escapeBytes bytes).toList := by
  rw [escapeBytes, String.toList_join, List.flatMap_map, List.mem_flatMap]
  rintro ⟨b, -, hb⟩
  obtain hcs | ⟨c, tail, hcs, hc, htail⟩ := isEscaped_cases (isEscaped_escapeByte b)
  · exact not_mem_of_unescaped hcs hb
  · rw [hcs, List.mem_cons, List.mem_cons] at hb
    obtain hb | rfl | hb := hb
    · exact absurd hb (by decide)
    · exact hc rfl
    · exact not_mem_of_unescaped htail hb

/-! ## Literals -/

/-- Bytes as a string literal. -/
def escapedLiteral (bytes : List UInt8) : Literal := ⟨escapeBytes bytes, .double⟩

theorem isWord_escapedLiteral (bytes : List UInt8) :
    (Expr.string (escapedLiteral bytes)).IsWord := by
  refine ⟨⟨'\x22', ?_, .inl ⟨rfl, rfl⟩, ?_⟩, not_mem_escapeBytes bytes⟩
  · simp [Literal.spelling, escapedLiteral]
  · refine (shortLength?_escapeBytes bytes ['\x22']).trans ?_
    simp [Lexer.shortLength?, escapedLiteral]

end LuaUnpack.Lua
