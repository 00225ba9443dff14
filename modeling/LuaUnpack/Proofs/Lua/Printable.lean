import LuaUnpack.Proofs.Lua.RoundTrip
import LuaUnpack.Proofs.Lua.Taken

/-!
# Scripts that are read back from their text

Exactly when printing a script and reading the text gives the script again
(`parse_print_iff`): it has the shape of what is read, its tokens end where they should, no string
in long brackets changes what is read, and no statement is taken for a part of the one before.

If the text is read as the script, then the strings and opening brackets of the text are those of
the script, so all tokens were kept. The numbers among them have a numeral, and they are the
numbers of the script, so none of these is infinite.
-/

namespace LuaUnpack.Lua

open Piece LuaUnpack.Lua.Parser

/-- Whether a script is one that is read back from its text. -/
structure Block.IsPrintable (b : Block) : Prop where
  isWritten : b.IsWritten
  fits : Fits True none (blockPieces defaultIndent 0 b)
  keeps : Keeps none (blockPieces defaultIndent 0 b)
  allSeparated : b.AllSeparated

theorem Block.IsPrintable.parse_print {b : Block} (h : b.IsPrintable) : parse b.print = .ok b := by
  have heof : endsBlock .eof = true := rfl
  obtain ⟨hnot, -⟩ | ⟨v, hv, hparse⟩ := whole_render Parser.block h.fits h.keeps heof
    fun depth hdepth => h.isWritten.isRead defaultIndent 0 depth (by omega)
  · exact absurd h.allSeparated hnot
  · exact hparse.trans (congrArg Except.ok (hv.same h.allSeparated))

/-! ## What was read from its own text -/

/-- A word that was read is printed as itself or as an infinite number. -/
theorem TokenKind.IsLexed.isPrinted {kind : TokenKind} (h : kind.IsLexed) (heof : kind ≠ .eof) :
    kind.IsPrinted True := by
  cases kind with
  | name n => exact h
  | number x =>
    by_cases hfinite : Decimal.Binary64.ofFloat x = .infinite false
    · right
      rw [numberPieces, hfinite]
      rfl
    · exact .inl (hasNumeral_of_isUnsigned h hfinite)
  | string literal => exact h.imp_right fun hlong => ⟨trivial, hlong⟩
  | keyword w => trivial
  | symbol s => trivial
  | eof => exact absurd rfl heof

theorem Piece.Fits.isSpelled {long : Prop} {next : Option Char} {pieces : List Piece}
    (h : Fits long next pieces) : ∀ kind ∈ kinds pieces, kind.IsSpelled long := by
  induction pieces with
  | nil => exact nofun
  | cons piece pieces ih =>
    cases piece with
    | token kind => exact List.forall_mem_cons.2 ⟨h.1, ih h.2.2⟩
    | space text => exact ih h.2

/-- The words of a node are not the end of a text. -/
theorem Node.IsShaped.words_mono {W W' : TokenKind → Prop} {node : Node} (h : node.IsShaped W)
    (hW : ∀ kind, W kind → kind ≠ .eof → W' kind) : node.IsShaped W' where
  words word hword := hW word (h.words word hword) (Node.ne_eof_of_mem_words hword)
  parts := h.parts
  bodies := h.bodies

/-- The nodes of what was read have the shape of what is printed. -/
theorem Block.printed_of_parse {source : String} {b : Block} (h : parse source = .ok b) :
    Printed True b.nodes := by
  obtain ⟨tokens, htokens, hread⟩ := bind_eq_ok_iff.1 h
  have hshaped := of_whole (fun depth => (shapes_isLexed depth).block)
    (isLexed_tokenize htokens) hread
  exact hshaped.2.mono fun _ hnode => hnode.words_mono fun _ => TokenKind.IsLexed.isPrinted

/-- The brackets and strings of a script are the first ones of the tokens it was read from. -/
theorem brackets_prefix_of_whole {tokens : List Token} {b : Block}
    (h : whole Parser.block tokens = .ok b) :
    brackets (blockPieces defaultIndent 0 b) <+: bracketsOf tokens := by
  obtain ⟨⟨value, rest⟩, hrun, hrest⟩ := bind_eq_ok_iff.1 h
  dsimp only at hrest
  split at hrest
  · obtain rfl := pure_eq_ok_iff.1 hrest
    exact ⟨bracketsOf rest, ((takesAll _).block 0 tokens value rest hrun).symm⟩
  · cases hrest

/-- A script that is read back from its text is printable. -/
theorem Block.isPrintable_of_parse_print {b : Block} (h : parse b.print = .ok b) :
    b.IsPrintable := by
  have hfits := fits_blockPieces 0 (Block.printed_of_parse h) none
  obtain ⟨tokens, htokens, hread⟩ := bind_eq_ok_iff.1 h
  have hlexed : Lexer.tokensFrom {} (render (blockPieces defaultIndent 0 b)).toList = .ok tokens :=
    (tokenize_render_eq hfits).symm.trans htokens
  have hkeeps := Lexer.keeps_of_brackets_prefix hfits hlexed (brackets_prefix_of_whole hread)
  -- All tokens were kept, so the numbers of the script are numbers of its text.
  obtain ⟨tokens', htokens', hkinds⟩ := tokenize_render hfits hkeeps
  obtain rfl : tokens = tokens' := Except.ok.inj (htokens.symm.trans htokens')
  have hspelled : ∀ token ∈ tokens, token.kind.IsSpelled True ∨ token.kind = .eof := by
    intro token htoken
    have hkind : token.kind ∈ kinds (blockPieces defaultIndent 0 b) ++ [TokenKind.eof] :=
      hkinds ▸ List.mem_map_of_mem htoken
    exact (List.mem_append.1 hkind).imp (hfits.isSpelled _) List.mem_singleton.1
  have hshaped := of_whole
    (fun depth => (shapes (W := fun kind => kind.IsSpelled True ∨ kind = .eof) (.inr rfl)
      (.inl (by decide : isIdentifier "self" = true)) depth).block) hspelled hread
  have hwritten : b.IsWritten := by
    refine ⟨hshaped.1, hshaped.2.mono fun _ hnode => hnode.words_mono fun kind hkind heof => ?_⟩
    cases kind with
    | number x => exact (hkind.resolve_right heof : HasNumeral x).pieces
    | _ => trivial
  refine ⟨hwritten, hfits, hkeeps, ?_⟩
  have heof : endsBlock .eof = true := rfl
  obtain ⟨-, error, herror⟩ | ⟨v, hv, hparse⟩ := whole_render Parser.block hfits hkeeps heof
    fun depth hdepth => hwritten.isRead defaultIndent 0 depth (by omega)
  · cases h.symm.trans herror
  · obtain rfl : v = b := Except.ok.inj (hparse.symm.trans h)
    exact hv.separated rfl

/-- A script is read back from its text just if it is printable. -/
theorem parse_print_iff {b : Block} : parse b.print = .ok b ↔ b.IsPrintable :=
  ⟨Block.isPrintable_of_parse_print, Block.IsPrintable.parse_print⟩

end LuaUnpack.Lua
