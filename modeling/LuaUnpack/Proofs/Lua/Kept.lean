import LuaUnpack.Proofs.Lua.Lexing

/-!
# What is kept of strings in long brackets

A string in long brackets can change what is read in two ways: an opening bracket before it is
taken for the start of the string, and a carriage return at its start for a part of the line end
that is left out. In both cases the first token that differs is a string that was not written
(`step_unkept`). So a text of pieces is read back as the tokens it is made of just if the opening
brackets and the strings that are read are at first the ones that were written
(`keeps_of_brackets_prefix`).
-/

namespace LuaUnpack.Lua

/-- Whether a token is an opening bracket or a string. -/
def TokenKind.isBracket : TokenKind → Bool
  | .string _ | .symbol .leftBracket => true
  | _ => false

/-- The opening brackets and the strings of pieces. -/
def Piece.brackets (pieces : List Piece) : List TokenKind :=
  (kinds pieces).filter TokenKind.isBracket

/-- The opening brackets and the strings of tokens. -/
def bracketsOf (tokens : List Token) : List TokenKind :=
  (tokens.map Token.kind).filter TokenKind.isBracket

namespace Lexer

variable {long : Prop} {c : Char} {cs rest : List Char}

/-! ## Shorter contents -/

theorem longLength?_tail {level n : Nat} (h : longLength? level (c :: cs) = some (n + 1)) :
    longLength? level cs = some n := by
  rw [longLength?] at h
  split at h
  · cases h
  · obtain ⟨k, hk, hn⟩ := Option.map_eq_some_iff.1 h
    obtain rfl := Nat.succ.inj hn
    exact hk

theorem longLength?_drop {level n : Nat} (h : longLength? level cs = some n) {k : Nat}
    (hk : k ≤ n) : longLength? level (cs.drop k) = some (n - k) := by
  induction k generalizing cs n with
  | zero => exact h
  | succ k ih =>
    obtain ⟨n, rfl⟩ : ∃ m, n = m + 1 := ⟨n - 1, by omega⟩
    cases cs with
    | nil => cases h
    | cons c cs =>
      rw [List.drop_succ_cons, Nat.add_sub_add_right]
      exact ih (longLength?_tail h) (Nat.le_of_succ_le_succ hk)

/-- A carriage return before the closing bracket is left out, alone or with the line end after
    it. -/
theorem leadingLineEnd_return (raw close : List Char) (hclose : close.head? ≠ some '\n') :
    0 < leadingLineEnd ('\r' :: (raw ++ close)) ∧
      leadingLineEnd ('\r' :: (raw ++ close)) ≤ raw.length + 1 := by
  -- The line end is two characters long only if a line feed follows.
  have hone : ∀ cs : List Char, cs.head? ≠ some '\n' → leadingLineEnd ('\r' :: cs) = 1 := by
    intro cs hcs
    cases cs with
    | nil => rfl
    | cons d cs =>
      have hd : d ≠ '\n' := fun h => hcs (congrArg some h)
      unfold leadingLineEnd
      split <;> simp_all
  cases raw with
  | nil =>
    rw [List.nil_append, hone close hclose]
    exact ⟨Nat.one_pos, Nat.le_refl 1⟩
  | cons d raw =>
    by_cases hd : d = '\n'
    · subst hd
      exact ⟨Nat.two_pos, Nat.le_add_left 2 raw.length⟩
    · rw [List.cons_append, hone _ (by simpa using hd)]
      exact ⟨Nat.one_pos, by omega⟩

/-! ## The first token that differs -/

/-- A long string that starts with a carriage return is read as a shorter one. -/
theorem step_long_of_startsReturn {literal : Literal} (hliteral : literal.IsLong)
    (hreturn : literal.startsReturn = true) (htext : literal.spelling.toList = c :: cs) :
    ∃ literal' n, step c (cs ++ rest) = .ok (some (.string literal'), n) ∧ literal' ≠ literal := by
  obtain ⟨level, hdelimiter, hlength⟩ := hliteral
  obtain ⟨rfl, rfl⟩ := List.cons.inj (htext.symm.trans (toList_spelling_long hdelimiter))
  obtain ⟨raw, hraw⟩ : ∃ raw, literal.raw.toList = '\r' :: raw :=
    List.head?_eq_some_iff.1 (beq_iff_eq.1 hreturn)
  have hopened : (List.replicate level '=' ++ '[' :: (lineEndBefore literal.raw.toList ++
      (literal.raw.toList ++ ']' :: longClose level)) ++ rest).drop (level + 1) =
      '\r' :: (raw ++ (']' :: longClose level ++ rest)) := by
    have hbefore : lineEndBefore literal.raw.toList = [] := by
      rw [hraw]
      rfl
    rw [hbefore, hraw, List.append_assoc, List.drop_append, List.length_replicate,
      List.drop_eq_nil_of_le (by rw [List.length_replicate]; omega)]
    simp
  have hlevel : longLevel? (List.replicate level '=' ++ '[' :: (lineEndBefore literal.raw.toList ++
      (literal.raw.toList ++ ']' :: longClose level)) ++ rest) = some level := by
    rw [List.append_assoc, List.cons_append]
    exact longLevel?_bars level _
  obtain ⟨hpos, hle⟩ := leadingLineEnd_return raw (']' :: longClose level ++ rest) (by rintro ⟨⟩)
  rw [step_bracket, readBracket, hlevel]
  dsimp only
  rw [readLong, hopened]
  generalize leadingLineEnd ('\r' :: (raw ++ (']' :: longClose level ++ rest))) = k at hpos hle
  have hcontent : longLength? level (literal.raw.toList ++ ']' :: longClose level ++ rest) =
      some literal.raw.toList.length := longLength?_append hlength
  rw [hraw, List.append_assoc, List.cons_append, List.length_cons] at hcontent
  rw [longLength?_drop hcontent hle]
  -- What is read is shorter than what was written, by the line end that was left out.
  refine ⟨_, _, rfl, fun heq => ?_⟩
  have hlengths := congrArg (fun l : Literal => l.raw.toList.length) heq
  simp only [hraw, String.toList_ofList, List.length_take, List.length_cons] at hlengths
  omega

/-- What is not kept is read as a string that was not written, or not read at all. -/
theorem step_unkept {kind : TokenKind} (hkind : kind.IsSpelled long)
    (htext : (Piece.text (.token kind)).toList = c :: cs) (hkeeps : ¬ kind.Keeps rest.head?) :
    (∃ fault, step c (cs ++ rest) = .error fault) ∨
      ∃ literal n, step c (cs ++ rest) = .ok (some (.string literal), n) ∧
        .string literal ≠ kind ∧ kind.isBracket = true := by
  -- Only an opening bracket and a long string can fail to be kept.
  cases kind with
  | string literal =>
    have hlong : literal.IsLong := (hkind.resolve_left fun h => hkeeps (.inl h)).2
    have hreturn : literal.startsReturn = true := by
      cases h : literal.startsReturn with
      | true => rfl
      | false => exact absurd (.inr h) hkeeps
    obtain ⟨literal', n, hstep, hne⟩ :
        ∃ literal' n, step c (cs ++ rest) = .ok (some (.string literal'), n) ∧ literal' ≠ literal :=
      step_long_of_startsReturn hlong hreturn htext
    exact .inr ⟨literal', n, hstep, fun h => hne (TokenKind.string.inj h), rfl⟩
  | symbol sign =>
    cases sign with
    | leftBracket =>
      have hspelling : c :: cs = ['['] := htext.symm
      obtain ⟨rfl, rfl⟩ := List.cons.inj hspelling
      obtain ⟨rest, rfl⟩ := List.head?_eq_some_iff.1 (not_not.1 hkeeps)
      rw [List.nil_append, step_bracket, readBracket,
        show longLevel? ('[' :: rest) = some 0 from rfl]
      dsimp only
      cases hcontent : readLong 0 ('[' :: rest) with
      | error fault => exact .inl ⟨fault, rfl⟩
      | ok content => exact .inr ⟨_, _, rfl, TokenKind.noConfusion, rfl⟩
    | _ => exact absurd trivial hkeeps
  | _ => exact absurd trivial hkeeps

end Lexer

/-! ## Pieces that are kept -/

open Piece

/-- If the opening brackets and the strings that were written are the first ones that are read,
    then all pieces are kept. -/
theorem Lexer.keeps_of_brackets_prefix {long : Prop} {pieces : List Piece} {p : Position}
    {tokens : List Token} (h : Fits long none pieces)
    (htokens : tokensFrom p (render pieces).toList = .ok tokens)
    (hbrackets : brackets pieces <+: bracketsOf tokens) : Keeps none pieces := by
  induction pieces generalizing p tokens with
  | nil => trivial
  | cons piece pieces ih =>
    rw [toList_render_cons] at htokens
    cases piece with
    | space text =>
      rw [Piece.text, tokensFrom_blanks h.1] at htokens
      exact ih h.2 htokens hbrackets
    | token kind =>
      obtain ⟨hkind, hends, hfits⟩ := h
      obtain ⟨c, cs, htext⟩ := List.exists_cons_of_ne_nil (text_ne_nil hkind)
      rw [htext, List.cons_append, tokensFrom] at htokens
      rw [brackets, bracketsOf, kinds_token] at hbrackets
      -- A token that is kept is read as itself, the first one that is not as another string.
      by_cases hkeep : kind.Keeps (lead none pieces)
      · rw [← head?_render] at hends hkeep
        rw [step_token hkind htext hends hkeep] at htokens
        dsimp only at htokens
        rw [List.take_left, List.drop_left] at htokens
        split at htokens
        · cases htokens
        · rename_i tokens' htokens'
          cases htokens
          rw [head?_render] at hkeep
          refine ⟨hkeep, ih hfits htokens' ?_⟩
          rw [List.map_cons, List.filter_cons, List.filter_cons] at hbrackets
          split at hbrackets
          · exact (List.cons_prefix_cons.1 hbrackets).2
          · exact hbrackets
      · rw [← head?_render] at hkeep
        obtain ⟨fault, hstep⟩ | ⟨literal, n, hstep, hne, hbracket⟩ :=
          step_unkept hkind htext hkeep
        · rw [hstep] at htokens
          cases htokens
        · rw [hstep] at htokens
          dsimp only at htokens
          split at htokens
          · cases htokens
          · cases htokens
            have hread : (TokenKind.string literal).isBracket = true := rfl
            rw [List.map_cons, List.filter_cons_of_pos hbracket,
              List.filter_cons_of_pos hread] at hbrackets
            exact absurd (List.cons_prefix_cons.1 hbrackets).1.symm hne

/-! ## Whole texts -/

/-- A text of pieces that fit is read back as their tokens just if all of these are kept. -/
theorem tokenize_render_iff {long : Prop} {pieces : List Piece} (h : Fits long none pieces) :
    (∃ tokens, tokenize (render pieces) = .ok tokens ∧
      tokens.map Token.kind = kinds pieces ++ [TokenKind.eof]) ↔ Keeps none pieces := by
  constructor
  · rintro ⟨tokens, htokens, hkinds⟩
    rw [tokenize_render_eq h] at htokens
    refine Lexer.keeps_of_brackets_prefix h htokens ?_
    rw [bracketsOf, hkinds, List.filter_append]
    exact List.prefix_append _ _
  · exact tokenize_render h

end LuaUnpack.Lua
