import LuaUnpack.Chunk.Word

/-!
# What an instruction word keeps

A word stores the operands of an operation in fields that are narrower than they are,
and does not store what the operation does not use. `Instruction.stored` says what is
left of an instruction: every operand is replaced by the number of its residue class
that the field can hold. Taking a word apart gives just that, unless the operation is
not known (`ofWord_word`).
-/

namespace LuaUnpack.Chunk

/-- The number that leaves the same remainder as `n` and lies among the `count` numbers
    from `low` on. -/
def residueFrom (low : Int) (count : Nat) (n : Int) : Int := low + (n - low) % count

theorem residueFrom_spec {count : Nat} (hcount : 0 < count) (low n : Int) :
    low ≤ residueFrom low count n ∧ residueFrom low count n < low + count ∧
      residueFrom low count n % count = n % count := by
  have hpos : (0 : Int) < count := Int.natCast_pos.2 hcount
  have hlow := Int.emod_nonneg (n - low) (Int.ne_of_gt hpos)
  have hhigh := Int.emod_lt_of_pos (n - low) hpos
  refine ⟨by rw [residueFrom]; omega, by rw [residueFrom]; omega, ?_⟩
  have hsum : low + (n - low) = n := by omega
  rw [residueFrom, Int.add_emod_emod, hsum]

namespace Instruction

/-- What is left of an instruction in a word, as the instruction with an index in its
    function: the operands of its layout, each cut to its field, and nothing else. -/
def stored (index : Nat) (i : Instruction) : Instruction :=
  let a := Int32.ofInt (residueFrom 0 (twoPow 8) i.a.toInt)
  let b := Int32.ofInt (residueFrom 0 (twoPow 9) i.b.toInt)
  let c := Int32.ofInt (residueFrom 0 (twoPow 9) i.c.toInt)
  let bx := Int32.ofInt (residueFrom 0 (twoPow 18) i.b.toInt)
  let sbx := Int32.ofInt (residueFrom (-131071) (twoPow 18) i.b.toInt)
  let operands : Int32 × Int32 × Int32 :=
    match i.opcode.layout with
    | .a => (a, 0, 0)
    | .ab => (a, b, 0)
    | .ac => (a, 0, c)
    | .abc => (a, b, c)
    | .abx => (a, bx, 0)
    | .asbx => (a, sbx, 0)
    | .sbx => (0, sbx, 0)
  { id := index, opnum := -1, opcode := i.opcode, a := operands.1, b := operands.2.1,
    c := operands.2.2, flags := {}, pc := Int32.ofNat index }

example : stored 3 (.ofOpcode 8 .forPrep 300 200000 7) =
    ⟨3, -1, .forPrep, 44, -62144, 0, {}, 3⟩ := by decide

end Instruction

/-! ## Codes -/

theorem Opcode.code_lt (op : Opcode) : op.code < twoPow 6 := by
  cases op <;> decide

theorem Opcode.ofCode?_code {op : Opcode} (h : op ≠ .unknown) : ofCode? op.code = some op := by
  cases op <;> first | rfl | exact absurd rfl h

/-! ## Fields -/

theorem coe_lowBits (bits : Nat) (n : Int) : (lowBits bits n : Int) = n % (twoPow bits : Int) := by
  have hne : (twoPow bits : Int) ≠ 0 := Int.natCast_ne_zero.2 (Nat.ne_of_gt (Nat.two_pow_pos bits))
  rw [lowBits, Int.toNat_of_nonneg (Int.emod_nonneg n hne)]

theorem lowBits_lt (bits : Nat) (n : Int) : lowBits bits n < twoPow bits := by
  have hpos : (0 : Int) < (twoPow bits : Int) := Int.natCast_pos.2 (Nat.two_pow_pos bits)
  have hlt := Int.emod_lt_of_pos n hpos
  rw [← coe_lowBits] at hlt
  exact Int.ofNat_lt.1 hlt

theorem ofNat_lowBits (bits : Nat) (n : Int) :
    Int32.ofNat (lowBits bits n) = Int32.ofInt (residueFrom 0 (twoPow bits) n) := by
  rw [residueFrom, Int.sub_zero, Int.zero_add, ← coe_lowBits, Int32.ofInt_eq_ofNat]

theorem lowBits_sub_bias (n : Int) :
    (lowBits 18 (n + signedBias) : Int) - signedBias = residueFrom (-131071) (twoPow 18) n := by
  rw [residueFrom, coe_lowBits, signedBias, Int.sub_neg]
  omega

section

variable {code a b c x rest : Nat} (hcode : code < twoPow 6) (ha : a < twoPow 8)
include hcode ha

/-- The fields of a word with narrow operands. -/
theorem narrow_fields (hb : b < twoPow 9) (hc : c < twoPow 9)
    (h : a * twoPow 6 + b * twoPow 23 + c * twoPow 14 = rest) :
    (code + rest) / twoPow 6 % twoPow 8 = a ∧ (code + rest) / twoPow 23 % twoPow 9 = b ∧
      (code + rest) / twoPow 14 % twoPow 9 = c := by
  simp only [Nat.pow_eq] at *
  refine ⟨?_, ?_, ?_⟩ <;> omega

/-- The fields of a word with a wide operand. -/
theorem wide_fields (hx : x < twoPow 18) (h : a * twoPow 6 + x * twoPow 14 = rest) :
    (code + rest) / twoPow 6 % twoPow 8 = a ∧ (code + rest) / twoPow 14 % twoPow 18 = x := by
  simp only [Nat.pow_eq] at *
  refine ⟨?_, ?_⟩ <;> omega

end

/-! ## Words -/

namespace Instruction

theorem word_mod (i : Instruction) : i.word % twoPow 6 = i.opcode.code := by
  have h := i.opcode.code_lt
  rw [word]
  cases i.opcode.layout <;> simp only [Nat.pow_eq] at h ⊢ <;> omega

theorem word_lt (i : Instruction) : i.word < twoPow 32 := by
  have hcode := i.opcode.code_lt
  have ha := lowBits_lt 8 i.a.toInt
  have hb := lowBits_lt 9 i.b.toInt
  have hc := lowBits_lt 9 i.c.toInt
  have hx := lowBits_lt 18 i.b.toInt
  have hs := lowBits_lt 18 (i.b.toInt + signedBias)
  rw [word]
  simp only [Nat.pow_eq] at *
  cases i.opcode.layout <;> simp only <;> omega

/-- Taking the word of an instruction apart gives what it stores, if the operation is
    known; the word of an unknown one has a code that no operation has. -/
theorem ofWord_word (id : Nat) (i : Instruction) :
    ofWord id i.word =
      if i.isResolved then .ok { i.stored id with pc := 0 } else .error (.unknownOpcode 63) := by
  by_cases hop : i.opcode = .unknown
  · -- The code of an unknown operation is read back as it is, and stands for none.
    have hmod := i.word_mod
    rw [hop] at hmod
    simp only [ofWord, hmod, isResolved, hop]
    rfl
  · have hres : i.isResolved = true := by simpa [isResolved] using hop
    have hcode := i.opcode.code_lt
    have ha := lowBits_lt 8 i.a.toInt
    have hb := lowBits_lt 9 i.b.toInt
    have hc := lowBits_lt 9 i.c.toInt
    have hx := lowBits_lt 18 i.b.toInt
    have hs := lowBits_lt 18 (i.b.toInt + signedBias)
    have h₀ : 0 < twoPow 9 := by decide
    rw [if_pos hres]
    simp only [ofWord, word_mod, Opcode.ofCode?_code hop]
    simp only [word, stored, ← ofNat_lowBits, ← lowBits_sub_bias]
    -- Each layout stores some of the fields; those it leaves out are zero in the word.
    cases hl : i.opcode.layout with
    | a =>
      obtain ⟨h, -, -⟩ := narrow_fields hcode ha h₀ h₀
        (by rw [Nat.zero_mul, Nat.zero_mul, Nat.add_zero])
      simp only [h, ofOpcode, noOpnum]
    | ab =>
      obtain ⟨h, h', -⟩ := narrow_fields hcode ha hb h₀ (by rw [Nat.zero_mul, Nat.add_zero])
      simp only [h, h', ofOpcode, noOpnum]
    | ac =>
      obtain ⟨h, -, h'⟩ := narrow_fields hcode ha h₀ hc (by rw [Nat.zero_mul, Nat.add_zero])
      simp only [h, h', ofOpcode, noOpnum]
    | abc =>
      obtain ⟨h, h', h''⟩ := narrow_fields hcode ha hb hc (Eq.refl _)
      simp only [h, h', h'', ofOpcode, noOpnum]
    | abx =>
      obtain ⟨h, h'⟩ := wide_fields hcode ha hx (Eq.refl _)
      simp only [h, h', ofOpcode, noOpnum]
    | asbx =>
      obtain ⟨h, h'⟩ := wide_fields hcode ha hs (Eq.refl _)
      simp only [h, h', ofOpcode, noOpnum]
    | sbx =>
      obtain ⟨-, h'⟩ := wide_fields hcode (by decide : 0 < twoPow 8) hs
        (by rw [Nat.zero_mul, Nat.zero_add])
      simp only [h', ofOpcode, noOpnum]

end Instruction

end LuaUnpack.Chunk
