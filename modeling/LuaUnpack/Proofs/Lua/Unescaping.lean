import LuaUnpack.Proofs.Lua.Escapes
import LuaUnpack.Proofs.Text.Utf8

/-!
# Resolving escapes

What is written for bytes between double quotes is read as one string, and the string denotes
the bytes (`tokenize_escapeBytes`). The reader looks for the closing quote and the resolver for the
end of each escape, both without the boundaries between the bytes. The resolver finds them again
because it takes as many characters for an escape as were written, whatever comes after them
(`unescape_escapeByte_append`): a number has always three digits, even where fewer would do.
-/

namespace LuaUnpack.Lua

namespace Literal

/-! ## Single escapes -/

theorem unescape_cons {b : UInt8} (h : b ≠ '\\'.toUInt8) (rest : List UInt8) :
    unescape (b :: rest) = b :: unescape rest := by
  cases rest with
  | nil => rw [unescape, unescape]
  | cons c rest => rw [unescape, if_neg (by simpa using h)]

theorem unescape_escape {b c : UInt8} (tail rest : List UInt8)
    (h : escape c (tail ++ rest) = (b, tail.length)) :
    unescape ('\\'.toUInt8 :: c :: (tail ++ rest)) = b :: unescape rest := by
  rw [unescape, if_pos (beq_self_eq_true _), h]
  simp

theorem escape_named {c : Char} {b : UInt8} (h : (c, b) ∈ namedEscapes) (rest : List UInt8) :
    escape c.toUInt8 rest = (b, 0) := by
  simp only [namedEscapes, List.mem_cons, Prod.mk.injEq, List.not_mem_nil, or_false] at h
  obtain ⟨rfl, rfl⟩ | ⟨rfl, rfl⟩ | ⟨rfl, rfl⟩ | ⟨rfl, rfl⟩ | ⟨rfl, rfl⟩ := h <;> rfl

/-- The character for a digit as a byte. -/
def digitByte (d : Nat) : UInt8 := UInt8.ofNat (48 + d)

/-- Three digits of a number. -/
def threeDigits (n : Nat) : List UInt8 :=
  [digitByte (n / 100), digitByte (n / 10 % 10), digitByte (n % 10)]

theorem decimalDigit?_digitByte : ∀ d < 10, decimalDigit? (digitByte d) = some d := by decide

theorem escape_digitByte {d : Nat} (h : d < 10) (rest : List UInt8) :
    escape (digitByte d) rest = (UInt8.ofNat (escapedNumber decimalDigit? 10 2 d rest).1,
      (escapedNumber decimalDigit? 10 2 d rest).2) := by
  have hletters : ∀ d < 10, ['n', 'r', 't', 'a', 'b', 'f', 'v', 'x'].any
      (digitByte d == ·.toUInt8) = false := by decide
  have hnot := hletters d h
  simp only [List.any_cons, List.any_nil, Bool.or_eq_false_iff] at hnot
  obtain ⟨hn, hr, ht, ha, hb, hf, hv, hx, -⟩ := hnot
  simp [escape, hn, hr, ht, ha, hb, hf, hv, hx, decimalDigit?_digitByte d h]

/-- Two digits after the first one are taken, and none after them. -/
theorem escape_threeDigits {b : UInt8} (rest : List UInt8) :
    escape (digitByte (b.toNat / 100))
        ([digitByte (b.toNat / 10 % 10), digitByte (b.toNat % 10)] ++ rest) = (b, 2) := by
  have hlt := b.toNat_lt
  have htens : b.toNat / 10 % 10 < 10 := Nat.mod_lt _ (by decide)
  have hones : b.toNat % 10 < 10 := Nat.mod_lt _ (by decide)
  have hvalue : (b.toNat / 100 * 10 + b.toNat / 10 % 10) * 10 + b.toNat % 10 = b.toNat := by omega
  rw [escape_digitByte (by omega)]
  simp [escapedNumber, decimalDigit?_digitByte _ htens, decimalDigit?_digitByte _ hones, hvalue]

end Literal

open Literal

/-! ## Bytes -/

theorem utf8EncodeChar_digitChar :
    ∀ d < 10, String.utf8EncodeChar (Nat.digitChar d) = [digitByte d] := by decide

theorem utf8EncodeChar_ofNat_of_lt {n : Nat} (h : n < 128) :
    String.utf8EncodeChar (Char.ofNat n) = [UInt8.ofNat n] := by
  have hvalue : (Char.ofNat n).val.toNat = n := toNat_ofNat_of_lt h
  rw [String.utf8EncodeChar, hvalue, if_pos (Nat.le_of_lt_succ h)]

/-- What is written for a byte: itself, a character after a backslash, or three digits after
    one. -/
theorem toBytes_escapeByte_cases (b : UInt8) :
    (Text.toBytes (escapeByte b) = [b] ∧ b ≠ '\\'.toUInt8) ∨
      (∃ c, (c, b) ∈ namedEscapes ∧
        Text.toBytes (escapeByte b) = ['\\'.toUInt8, c.toUInt8]) ∨
      Text.toBytes (escapeByte b) = '\\'.toUInt8 :: threeDigits b.toNat := by
  have hslash : String.utf8EncodeChar '\\' = ['\\'.toUInt8] := by decide
  rw [Text.toBytes_eq_flatMap]
  obtain ⟨c, hc, htext⟩ | htext | ⟨hlt, hplain, htext⟩ := toList_escapeByte_cases b
  · have hnamed : ∀ e ∈ namedEscapes, String.utf8EncodeChar e.1 = [e.1.toUInt8] := by decide
    refine .inr (.inl ⟨c, hc, ?_⟩)
    rw [htext, List.flatMap_cons, List.flatMap_singleton, hslash, hnamed _ hc]
    rfl
  · have hb := b.toNat_lt
    refine .inr (.inr ?_)
    rw [htext, threeDigitChars, List.flatMap_cons, List.flatMap_cons, List.flatMap_cons,
      List.flatMap_singleton, hslash, utf8EncodeChar_digitChar _ (by omega),
      utf8EncodeChar_digitChar _ (Nat.mod_lt _ (by decide)),
      utf8EncodeChar_digitChar _ (Nat.mod_lt _ (by decide))]
    rfl
  · refine .inl ⟨?_, ?_⟩
    · rw [htext, List.flatMap_singleton, utf8EncodeChar_ofNat_of_lt hlt]
      simp
    · rintro rfl
      exact absurd hplain (by decide)

theorem unescape_escapeByte_append (b : UInt8) (rest : List UInt8) :
    unescape (Text.toBytes (escapeByte b) ++ rest) = b :: unescape rest := by
  obtain ⟨hbytes, hb⟩ | ⟨c, hc, hbytes⟩ | hbytes := toBytes_escapeByte_cases b
  · rw [hbytes]
    exact unescape_cons hb rest
  · rw [hbytes]
    exact unescape_escape [] rest (escape_named hc rest)
  · rw [hbytes, threeDigits]
    exact unescape_escape [_, _] rest (escape_threeDigits rest)

/-- A string of escaped bytes denotes the bytes. -/
theorem bytes_escapedLiteral (bytes : List UInt8) : (escapedLiteral bytes).bytes = bytes := by
  have htext : Text.toBytes (escapeBytes bytes) =
      bytes.flatMap fun b => Text.toBytes (escapeByte b) := by
    simp only [Text.toBytes_eq_flatMap]
    rw [escapeBytes, String.toList_join, List.flatMap_map, List.flatMap_assoc]
  change unescape (Text.toBytes (escapeBytes bytes)) = bytes
  rw [htext]
  clear htext
  induction bytes with
  | nil => rw [List.flatMap_nil, unescape]
  | cons b bytes ih => rw [List.flatMap_cons, unescape_escapeByte_append, ih]

/-! ## Texts -/

namespace Lexer

theorem line_after (p : Position) (cs : List Char) :
    (p.after cs).line = p.line + cs.count '\n' := by
  induction cs generalizing p with
  | nil => rfl
  | cons c cs ih =>
    rw [Position.after, List.foldl_cons, ← Position.after, ih, Position.next, List.count_cons]
    split
    · dsimp only
      omega
    · rfl

end Lexer

theorem toList_spelling_escapedLiteral (bytes : List UInt8) :
    (escapedLiteral bytes).spelling.toList =
      '\x22' :: ((escapeBytes bytes).toList ++ ['\x22']) := by
  simp [Literal.spelling, escapedLiteral]

/-- Any bytes, escaped and between double quotes, are read as one string, which keeps the escapes
    and denotes the bytes. -/
theorem tokenize_escapeBytes (bytes : List UInt8) :
    tokenize ("\x22" ++ escapeBytes bytes ++ "\x22") =
      .ok [⟨.string ⟨escapeBytes bytes, .double⟩, 1⟩, ⟨.eof, 1⟩] ∧
    (⟨escapeBytes bytes, .double⟩ : Literal).bytes = bytes := by
  refine ⟨?_, bytes_escapedLiteral bytes⟩
  have hshort : (escapedLiteral bytes).IsShort := (isWord_escapedLiteral bytes).1
  have hstep : Lexer.step '\x22' ((escapeBytes bytes).toList ++ ['\x22'] ++ []) =
      .ok (some (.string (escapedLiteral bytes)), _) :=
    Lexer.step_string hshort (toList_spelling_escapedLiteral bytes)
  rw [List.append_nil] at hstep
  have hline : '\n' ∉ '\x22' :: ((escapeBytes bytes).toList ++ ['\x22']) := by
    simpa using not_mem_escapeBytes bytes
  have htext : ("\x22" ++ escapeBytes bytes ++ "\x22").toList =
      '\x22' :: ((escapeBytes bytes).toList ++ ['\x22']) := by simp
  rw [tokenize, htext]
  refine Lexer.tokensFrom_token hstep ?_
  rw [List.take_length, List.drop_length, Lexer.tokensFrom, Lexer.line_after,
    List.count_eq_zero.2 hline]

end LuaUnpack.Lua
