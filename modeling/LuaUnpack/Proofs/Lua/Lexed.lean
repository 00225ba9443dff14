import LuaUnpack.Proofs.Decimal.Numeral
import LuaUnpack.Proofs.Lua.Lexing
import LuaUnpack.Proofs.Outcome

/-!
# The tokens of a text

What a token can be that was read (`TokenKind.IsLexed`): a name is no keyword, a number has no
sign, a string is closed by its delimiter. A token that was read can be read back from its
spelling, unless it is a string in long brackets or an infinite number
(`TokenKind.IsLexed.isReadable`).
-/

namespace LuaUnpack.Lua

open Decimal.Binary64 (IsUnsigned)

/-- Whether a token is one that can have been read. -/
def TokenKind.IsLexed : TokenKind → Prop
  | name n => isIdentifier n = true
  | number x => IsUnsigned x
  | string literal => literal.IsShort ∨ literal.IsLong
  | _ => True

namespace Lexer

variable {c : Char} {rest : List Char} {kind : TokenKind} {n : Nat}

/-! ## One step -/

theorem isLexed_readWord (hc : isNameStart c = true)
    (h : readWord c rest = .ok (some kind, n)) : kind.IsLexed := by
  obtain ⟨hword, -⟩ := Prod.mk.inj (Except.ok.inj h)
  obtain rfl := Option.some.inj hword
  unfold word
  split
  · trivial
  · rename_i hkeyword
    change isIdentifier _ = true
    rw [isIdentifier, String.toList_ofList, hkeyword]
    simp only [hc, Option.isNone_none, Bool.and_true, Bool.true_and, List.all_eq_true]
    exact fun d hd => List.mem_takeWhile_imp hd

theorem isLexed_readDecimal (hc : Text.isDigit c = true ∨ c = '.')
    (h : readDecimal c rest = .ok (some kind, n)) : kind.IsLexed := by
  unfold readDecimal at h
  dsimp only at h
  split at h
  · rename_i value hvalue
    cases h
    rw [Decimal.read?_cons hc] at hvalue
    exact Decimal.Binary64.isUnsigned_of_readUnsigned? hvalue
  · cases h

theorem isLexed_readHexadecimal (h : readHexadecimal rest = .ok (some kind, n)) :
    kind.IsLexed := by
  unfold readHexadecimal at h
  dsimp only at h
  split at h
  · cases h
    exact Decimal.Binary64.isUnsigned_nearest _ 1
  · cases h

theorem isLexed_readNumber (hc : startsNumber c rest = true)
    (h : readNumber c rest = .ok (some kind, n)) : kind.IsLexed := by
  unfold readNumber at h
  split at h
  · exact isLexed_readHexadecimal h
  · exact isLexed_readHexadecimal h
  · refine isLexed_readDecimal ?_ h
    rw [startsNumber, Bool.or_eq_true, Bool.and_eq_true, beq_iff_eq] at hc
    exact hc.imp_right And.left

/-- The part of a text before the closing quote is closed by it. -/
theorem shortLength?_take {quote : Char} (hquote : quote ≠ '\\') {cs : List Char}
    (h : shortLength? quote cs = some n) :
    (cs.take n).length = n ∧ shortLength? quote (cs.take n ++ [quote]) = some n := by
  -- The cases are an escape (3), the closing quote (4), a line end (5) and any other character (6).
  induction cs using shortLength?.induct quote generalizing n with
  | case1 => cases h
  | case2 => cases h
  | case3 d tail ih =>
    obtain ⟨k, hk, rfl⟩ := Option.map_eq_some_iff.1 h
    obtain ⟨hlength, htake⟩ := ih hk
    refine ⟨congrArg (· + 2) hlength, ?_⟩
    exact Option.map_eq_some_iff.2 ⟨k, htake, rfl⟩
  | case4 d tail hend hpair heq =>
    have hd : d ≠ '\\' := ne_of_no_escape hend hpair
    rw [shortLength?_cons hd, if_pos heq] at h
    obtain rfl := Option.some.inj h
    refine ⟨rfl, ?_⟩
    rw [List.take_zero, List.nil_append, shortLength?_cons hquote, if_pos (beq_self_eq_true quote)]
  | case5 d tail hend hpair hne hline =>
    have hd : d ≠ '\\' := ne_of_no_escape hend hpair
    rw [shortLength?_cons hd, if_neg hne, if_pos hline] at h
    cases h
  | case6 d tail hend hpair hne hline ih =>
    have hd : d ≠ '\\' := ne_of_no_escape hend hpair
    rw [shortLength?_cons hd, if_neg hne, if_neg hline] at h
    obtain ⟨k, hk, rfl⟩ := Option.map_eq_some_iff.1 h
    obtain ⟨hlength, htake⟩ := ih hk
    refine ⟨congrArg (· + 1) hlength, ?_⟩
    rw [List.take_succ_cons, List.cons_append, shortLength?_cons hd, if_neg hne, if_neg hline,
      htake, Option.map_some]

theorem isLexed_readShort {quote : Char} {delimiter : Delimiter}
    (hquote : quote = '\x22' ∧ delimiter = .double ∨ quote = '\x27' ∧ delimiter = .single)
    (h : readShort quote delimiter rest = .ok (some kind, n)) : kind.IsLexed := by
  unfold readShort at h
  split at h
  · rename_i k hk
    cases h
    have hescape : quote ≠ '\\' := by
      obtain ⟨rfl, -⟩ | ⟨rfl, -⟩ := hquote <;> decide
    obtain ⟨hlength, htake⟩ := shortLength?_take hescape hk
    refine .inl ⟨quote, ?_, hquote, ?_⟩
    · obtain ⟨rfl, rfl⟩ | ⟨rfl, rfl⟩ := hquote
      · simp [Literal.spelling]
      · simp [Literal.spelling]
    · rw [String.toList_ofList, htake, hlength]
  · cases h

/-- The part of a text before the closing bracket is closed by it. -/
theorem longLength?_take {level : Nat} {cs : List Char} (h : longLength? level cs = some n) :
    (cs.take n).length = n ∧ cs.take n ++ ']' :: longClose level <+: cs ∧
      longLength? level (cs.take n ++ ']' :: longClose level) = some n := by
  induction cs generalizing n with
  | nil => cases h
  | cons d cs ih =>
    rw [longLength?] at h
    split at h
    · rename_i hclose
      obtain rfl := Option.some.inj h
      obtain ⟨hd, hprefix⟩ := Bool.and_eq_true_iff.1 hclose
      obtain rfl := beq_iff_eq.1 hd
      refine ⟨rfl, (List.prefix_cons_inj _).2 (List.isPrefixOf_iff_prefix.1 hprefix), ?_⟩
      rw [List.take_zero, List.nil_append, longLength?, if_pos]
      rw [beq_self_eq_true, Bool.true_and, List.isPrefixOf_iff_prefix]
    · rename_i hopen
      obtain ⟨k, hk, rfl⟩ := Option.map_eq_some_iff.1 h
      obtain ⟨hlength, hprefix, htake⟩ := ih hk
      refine ⟨congrArg (· + 1) hlength, (List.prefix_cons_inj _).2 hprefix, ?_⟩
      rw [List.take_succ_cons, List.cons_append, longLength?, if_neg, htake, Option.map_some]
      -- A bracket that closed the part would close the text there as well.
      intro hclose
      obtain ⟨hd, hclosed⟩ := Bool.and_eq_true_iff.1 hclose
      exact hopen (Bool.and_eq_true_iff.2 ⟨hd, List.isPrefixOf_iff_prefix.2
        ((List.isPrefixOf_iff_prefix.1 hclosed).trans hprefix)⟩)

theorem isLong_of_readLong {level : Nat} {content : List Char × Nat}
    (h : readLong level rest = .ok content) :
    Literal.IsLong ⟨String.ofList content.1, .long level⟩ := by
  unfold readLong at h
  dsimp only at h
  split at h
  · rename_i k hk
    cases h
    obtain ⟨hlength, -, htake⟩ := longLength?_take hk
    exact ⟨level, rfl, by rw [String.toList_ofList, htake, hlength]⟩
  · cases h

theorem isLexed_readSymbol (h : readSymbol c rest = .ok (some kind, n)) : kind.IsLexed := by
  unfold readSymbol at h
  split at h
  · cases h
    trivial
  · cases h

theorem isLexed_readBracket (h : readBracket rest = .ok (some kind, n)) : kind.IsLexed := by
  unfold readBracket at h
  split at h
  · rename_i level hlevel
    cases hcontent : readLong level rest with
    | error fault =>
      rw [hcontent] at h
      cases h
    | ok content =>
      rw [hcontent] at h
      cases h
      exact .inr (isLong_of_readLong hcontent)
  · exact isLexed_readSymbol h

theorem isLexed_step (h : step c rest = .ok (some kind, n)) : kind.IsLexed := by
  unfold step at h
  -- Each branch of `step` reads one class of tokens, and blanks and comments give none.
  split_ifs at h with hblank hcomment hname hnumber hdouble hsingle hbracket
  · cases h
  · cases hlength : commentLength (rest.drop 1) with
    | error fault =>
      rw [hlength] at h
      cases h
    | ok k =>
      rw [hlength] at h
      cases h
  · exact isLexed_readWord hname h
  · exact isLexed_readNumber hnumber h
  · exact isLexed_readShort (.inl ⟨beq_iff_eq.1 hdouble, rfl⟩) h
  · exact isLexed_readShort (.inr ⟨beq_iff_eq.1 hsingle, rfl⟩) h
  · exact isLexed_readBracket h
  · exact isLexed_readSymbol h

/-! ## The whole text -/

theorem isLexed_tokensFrom {p : Position} {cs : List Char} {tokens : List Token}
    (h : tokensFrom p cs = .ok tokens) : ∀ token ∈ tokens, token.kind.IsLexed := by
  fun_induction tokensFrom p cs generalizing tokens with
  | case1 p =>
    cases h
    exact List.forall_mem_singleton.2 trivial
  | case2 => cases h
  | case3 => cases h
  | case4 p c rest n tokens' htokens hstep ih => exact ih (htokens.trans h)
  | case5 p c rest n tokens' htokens kind hstep ih =>
    cases h
    exact List.forall_mem_cons.2 ⟨isLexed_step hstep, ih htokens⟩

end Lexer

theorem isLexed_tokenize {source : String} {tokens : List Token}
    (h : tokenize source = .ok tokens) : ∀ token ∈ tokens, token.kind.IsLexed :=
  Lexer.isLexed_tokensFrom h

/-! ## Reading back -/

theorem unsigned_of_isUnsigned {x : Float} (h : IsUnsigned x) : unsigned x = x := by
  have hlt : x.toBits.toNat < 2 ^ 63 := lt_of_le_of_lt h (by decide)
  have hbits : x.toBits &&& 0x7FFFFFFFFFFFFFFF = x.toBits := by
    rw [← UInt64.toNat_inj, UInt64.toNat_and]
    exact (Nat.and_two_pow_sub_one_eq_mod _ 63).trans (Nat.mod_eq_of_lt hlt)
  rw [unsigned, hbits, Float.ofBits_toBits]

theorem hasNumeral_of_isUnsigned {x : Float} (h : IsUnsigned x)
    (hfinite : Decimal.Binary64.ofFloat x ≠ .infinite false) : HasNumeral x := by
  obtain ⟨m, q, hx, ⟨first, rest, htext, hfirst, hrest⟩, hread⟩ :=
    Decimal.exists_numeral h hfinite
  constructor
  · rw [numberPieces, hx, unsigned_of_isUnsigned h]
    rfl
  · refine ⟨first, rest, ?_, hfirst, hrest, htext ▸ hread⟩
    rw [Piece.text, hx]
    exact htext

/-- Whether a token is neither a string in long brackets nor an infinite number. -/
def TokenKind.isPlain : TokenKind → Bool
  | number x =>
    match Decimal.Binary64.ofFloat x with
    | .infinite _ => false
    | _ => true
  | string ⟨_, .long _⟩ => false
  | _ => true

/-- A plain token that was read can be read back. -/
theorem TokenKind.IsLexed.isReadable {kind : TokenKind} (h : kind.IsLexed)
    (hplain : kind.isPlain = true) (heof : kind ≠ .eof) : kind.IsReadable := by
  cases kind with
  | name n => exact h
  | number x =>
    refine hasNumeral_of_isUnsigned h fun hx => ?_
    rw [isPlain, hx] at hplain
    cases hplain
  | string literal =>
    refine h.resolve_right ?_
    rintro ⟨level, hlevel, -⟩
    obtain ⟨raw, delimiter⟩ := literal
    cases hlevel
    cases hplain
  | keyword w => trivial
  | symbol s => trivial
  | eof => exact absurd rfl heof

end LuaUnpack.Lua
