import LuaUnpack.Proofs.Lua.Lexed
import LuaUnpack.Proofs.Lua.Parsed
import LuaUnpack.Proofs.Lua.ReadBack
import LuaUnpack.Proofs.Lua.Spacing

/-!
# Printing and reading back

An expression that was read and has no functions is printed in such a way that it is read
back as it is (`parseExpr_print_eq`). With blocks this holds of a script just if no statement
can be read as a part of the one before (`parse_print_outline_iff`), because a line end is all
that stands between two statements. Strings in long brackets and infinite numbers are left
out: their spelling is not kept.
-/

namespace LuaUnpack.Lua

open Piece LuaUnpack.Lua.Parser

/-! ## Trees that can be written -/

/-- A word that can be read is written as one token. -/
theorem TokenKind.IsReadable.isWhole {kind : TokenKind} (h : kind.IsReadable) : kind.IsWhole := by
  cases kind with
  | number x => exact h.pieces
  | _ => trivial

theorem TokenKind.IsReadable.isPrinted {kind : TokenKind} (h : kind.IsReadable) (long : Prop) :
    kind.IsPrinted long := by
  cases kind with
  | number x => exact .inl h
  | string literal => exact .inl h
  | _ => exact h

theorem Node.IsShaped.mono {W W' : TokenKind → Prop} {node : Node} (h : node.IsShaped W)
    (hW : ∀ kind, W kind → W' kind) : node.IsShaped W' where
  words word hword := hW word (h.words word hword)
  parts := h.parts
  bodies := h.bodies

/-- Whether an expression has the shape of one that was read, and can be read back. -/
def Expr.IsWritable (e : Expr) : Prop := Node.All (Node.IsShaped TokenKind.IsReadable) e.nodes

/-- Whether a script has the shape of one that was read, and can be read back. -/
structure Block.IsWritable (b : Block) : Prop where
  returnsLast : b.ReturnsLast
  nodes : Node.All (Node.IsShaped TokenKind.IsReadable) b.nodes

theorem Expr.IsWritable.isWritten {e : Expr} (h : e.IsWritable) : e.IsWritten :=
  Node.All.mono h fun _ hnode => hnode.mono fun _ => TokenKind.IsReadable.isWhole

theorem Expr.IsWritable.fits {e : Expr} (h : e.IsWritable) : Fits False none e.pieces :=
  have hprinted : Printed False e.nodes :=
    Node.All.mono h fun _ hnode => hnode.mono fun _ hword => hword.isPrinted False
  (Expr.isFit hprinted).fits rfl

theorem Block.IsWritable.isWritten {b : Block} (h : b.IsWritable) : b.IsWritten :=
  ⟨h.returnsLast, h.nodes.mono fun _ hnode => hnode.mono fun _ => TokenKind.IsReadable.isWhole⟩

theorem Block.IsWritable.fits {b : Block} (h : b.IsWritable) :
    Fits False none (blockPieces defaultIndent 0 b) :=
  have hprinted : Printed False b.nodes :=
    h.nodes.mono fun _ hnode => hnode.mono fun _ hword => hword.isPrinted False
  fits_blockPieces 0 hprinted none

/-! ## Reading back -/

/-- A reader that takes all tokens, on the text of pieces. -/
theorem whole_render {α : Type} (reader : Nat → Parser α) {long : Prop} {pieces : List Piece}
    {F : TokenKind → Prop} {S : Prop} {P : α → Prop} (hfits : Fits long none pieces)
    (hkeeps : Keeps none pieces) (heof : F .eof)
    (h : ∀ depth, 16 * (kinds pieces).length + 16 ≤ depth →
      Reads (reader depth) (kinds pieces) F S P pure) :
    (¬ S ∧ ∃ error, (tokenize (render pieces) >>= whole reader) = .error error) ∨
      ∃ a, P a ∧ (tokenize (render pieces) >>= whole reader) = .ok a := by
  obtain ⟨tokens, htokens, hkinds⟩ := tokenize_render hfits hkeeps
  obtain ⟨tokens, last, rfl, hpieces, hlast⟩ := List.map_eq_append_iff.1 hkinds
  obtain ⟨⟨_, line⟩, rfl, rfl⟩ := List.map_eq_singleton_iff.1 hlast
  -- The reader is given depth enough for all of its tokens.
  have hdepth : 16 * (kinds pieces).length + 16 ≤ depthFor (tokens ++ [⟨.eof, line⟩]) := by
    rw [← hpieces, depthFor, List.length_append, List.length_map]
    omega
  rw [htokens]
  change (¬ S ∧ ∃ error, whole reader _ = _) ∨ ∃ a, P a ∧ whole reader _ = _
  unfold whole
  obtain ⟨hS, error, herror⟩ | ⟨a, ha, hrun⟩ := h _ hdepth tokens [⟨.eof, line⟩] hpieces heof
  · rw [herror]
    exact .inl ⟨hS, error, rfl⟩
  · rw [hrun]
    exact .inr ⟨a, ha, rfl⟩

/-- A writable expression with separated blocks is read back as it is. -/
theorem Expr.IsWritable.parseExpr_print {e : Expr} (h : e.IsWritable) (hseparated : e.IsSeparated) :
    parseExpr e.print = .ok e := by
  have hclose : e.Closes .eof := ⟨fun _ => rfl, rfl⟩
  obtain ⟨hnot, -⟩ | ⟨v, hv, hparse⟩ := whole_render Parser.expression h.fits h.fits.keeps hclose
    fun depth hdepth => h.isWritten.isRead.expression (by omega)
  · exact absurd hseparated hnot
  · obtain rfl := hv.counts.same hseparated
    exact hparse

/-- A writable script is read back as it is, with fewer statements, or not at all. -/
theorem Block.IsWritable.parse_print {b : Block} (h : b.IsWritable) :
    (¬ b.AllSeparated ∧ ∃ error, parse b.print = .error error) ∨
      ∃ v, b.Rereads v ∧ parse b.print = .ok v := by
  have heof : endsBlock .eof = true := rfl
  exact whole_render Parser.block h.fits h.fits.keeps heof fun depth hdepth =>
    h.isWritten.isRead defaultIndent 0 depth (by omega)

/-! ## What was read -/

/-- What a reader gives is what a text is read as. -/
theorem of_whole {α : Type} {W : TokenKind → Prop} {P : α → Prop} {reader : Nat → Parser α}
    (hreader : ∀ depth, Gives W (reader depth) P) {tokens : List Token} {a : α}
    (htokens : ∀ token ∈ tokens, W token.kind) (h : whole reader tokens = .ok a) : P a := by
  obtain ⟨⟨value, rest⟩, hrun, hrest⟩ := bind_eq_ok_iff.1 h
  obtain ⟨hvalue, -⟩ := hreader _ tokens value rest htokens hrun
  dsimp only at hrest
  split at hrest
  · obtain rfl := pure_eq_ok_iff.1 hrest
    exact hvalue
  · cases hrest

/-- A node is shaped by tokens that were read. -/
theorem shapes_isLexed (depth : Nat) : Shapes TokenKind.IsLexed depth :=
  shapes trivial (by decide : isIdentifier "self" = true) depth

/-- Whether a node is neither a string in long brackets nor an infinite number. -/
def Node.isPlain (node : Node) : Bool := node.words.all TokenKind.isPlain

/-- Whether a node is a function without a name. -/
def Node.isFunction : Node → Bool
  | .expr (.function _) => true
  | _ => false

theorem Node.ne_eof_of_mem_words {node : Node} {word : TokenKind} (h : word ∈ node.words) :
    word ≠ .eof := by
  rintro rfl
  unfold words at h
  split at h <;> simp at h

theorem Node.IsShaped.isReadable {node : Node} (h : node.IsShaped TokenKind.IsLexed)
    (hplain : node.isPlain = true) : node.IsShaped TokenKind.IsReadable where
  words word hword :=
    (h.words word hword).isReadable (List.all_eq_true.1 hplain word hword)
      (Node.ne_eof_of_mem_words hword)
  parts := h.parts
  bodies := h.bodies

theorem Expr.isWritable_of_parseExpr {source : String} {e : Expr} (h : parseExpr source = .ok e)
    (hplain : ∀ node ∈ e.nodes, node.isPlain = true) : e.IsWritable := by
  obtain ⟨tokens, htokens, hread⟩ := bind_eq_ok_iff.1 h
  have hshaped := of_whole (fun depth => (shapes_isLexed depth).expression)
    (isLexed_tokenize htokens) hread
  exact fun node hnode => (hshaped node hnode).isReadable (hplain node hnode)

theorem Block.isWritable_of_parse {source : String} {b : Block} (h : parse source = .ok b)
    (hplain : ∀ node ∈ b.nodes, node.isPlain = true) : b.IsWritable := by
  obtain ⟨tokens, htokens, hread⟩ := bind_eq_ok_iff.1 h
  have hshaped := of_whole (fun depth => (shapes_isLexed depth).block)
    (isLexed_tokenize htokens) hread
  exact ⟨hshaped.1, fun node hnode => (hshaped.2 node hnode).isReadable (hplain node hnode)⟩

/-! ## Expressions -/

mutual

/-- Without functions an expression has no blocks. -/
theorem Expr.isSeparated_of_isFunction :
    (e : Expr) → (∀ node ∈ e.nodes, node.isFunction = false) → e.IsSeparated
  | .nil, _ | .boolean _, _ | .number _, _ | .string _, _ | .vararg, _ | .name _, _ =>
    (Expr.isSeparated_above rfl).2 Node.all_nil
  | .member t _, h | .unary _ t, h | .paren t, h =>
    (Expr.isSeparated_above rfl).2 (t.isSeparated_of_isFunction (List.forall_mem_cons.1 h).2)
  | .index t k, h | .binary _ t k, h =>
    have h := List.forall_mem_append.1 (List.forall_mem_cons.1 h).2
    (Expr.isSeparated_above rfl).2 (Node.all_append_iff.2
      ⟨t.isSeparated_of_isFunction h.1, k.isSeparated_of_isFunction h.2⟩)
  | .call t args, h | .methodCall t _ args, h =>
    have h := List.forall_mem_append.1 (List.forall_mem_cons.1 h).2
    (Expr.isSeparated_above rfl).2 (Node.all_append_iff.2
      ⟨t.isSeparated_of_isFunction h.1, isSeparated_ofExprs args h.2⟩)
  | .function ⟨_, _, _⟩, h => nomatch (List.forall_mem_cons.1 h).1
  | .table fields, h =>
    (Expr.isSeparated_above rfl).2 (isSeparated_ofFields fields (List.forall_mem_cons.1 h).2)

theorem isSeparated_ofExprs : (es : List Expr) →
    (∀ node ∈ Node.ofExprs (fun _ => true) es, node.isFunction = false) →
    Node.All Node.IsSeparated (Node.ofExprs (fun _ => true) es)
  | [], _ => Node.all_nil
  | e :: es, h =>
    have h := List.forall_mem_append.1 h
    Node.all_append_iff.2 ⟨e.isSeparated_of_isFunction h.1, isSeparated_ofExprs es h.2⟩

theorem isSeparated_ofField : (f : Field) →
    (∀ node ∈ Node.ofField (fun _ => true) f, node.isFunction = false) →
    Node.All Node.IsSeparated (Node.ofField (fun _ => true) f)
  | .positional e, h | .named _ e, h => e.isSeparated_of_isFunction h
  | .keyed k e, h =>
    have h := List.forall_mem_append.1 h
    Node.all_append_iff.2 ⟨k.isSeparated_of_isFunction h.1, e.isSeparated_of_isFunction h.2⟩

theorem isSeparated_ofFields : (fs : List Field) →
    (∀ node ∈ Node.ofFields (fun _ => true) fs, node.isFunction = false) →
    Node.All Node.IsSeparated (Node.ofFields (fun _ => true) fs)
  | [], _ => Node.all_nil
  | f :: fs, h =>
    have h := List.forall_mem_append.1 h
    Node.all_append_iff.2 ⟨isSeparated_ofField f h.1, isSeparated_ofFields fs h.2⟩

end

/-- An expression that was read and has no functions is read back from its text. -/
theorem parseExpr_print_eq {source : String} {e : Expr} (h : parseExpr source = .ok e)
    (hfunction : ∀ node ∈ e.nodes, node.isFunction = false)
    (hplain : ∀ node ∈ e.nodes, node.isPlain = true) : parseExpr e.print = .ok e :=
  (e.isWritable_of_parseExpr h hplain).parseExpr_print (e.isSeparated_of_isFunction hfunction)

/-- A text with parentheses that are not needed, and two that are. -/
def nestedText : String := "-(a) ^ 2.50 .. (\"x\"):rep((f()))"

/-- What it is read as. -/
def nestedExpr : Expr :=
  .binary .concat
    (.unary .negate (.binary .pow (.name "a") (.number (Decimal.nearest 5 2))))
    (.methodCall (.string ⟨"x", .double⟩) "rep" [.paren (.call (.name "f") [])])

theorem parseExpr_nestedText : parseExpr nestedText = .ok nestedExpr := by
  have htokens : tokenize nestedText = .ok (List.map (fun kind => ⟨kind, 1⟩)
      [.symbol .minus, .symbol .leftParen, .name "a", .symbol .rightParen, .symbol .caret,
       .number (Decimal.nearest 5 2), .symbol .dotDot, .symbol .leftParen,
       .string ⟨"x", .double⟩, .symbol .rightParen, .symbol .colon, .name "rep",
       .symbol .leftParen, .symbol .leftParen, .name "f", .symbol .leftParen,
       .symbol .rightParen, .symbol .rightParen, .symbol .rightParen, .eof]) := by
    decide +kernel
  rw [parseExpr, htokens]
  rfl

theorem parseExpr_print_nestedExpr :
    parseExpr nestedText = .ok nestedExpr ∧ parseExpr nestedExpr.print = .ok nestedExpr :=
  ⟨parseExpr_nestedText, parseExpr_print_eq parseExpr_nestedText
    (fun node hnode => by revert node hnode; decide)
    (fun node hnode => by revert node hnode; decide)⟩

/-! ## Scripts -/

/-- Whether a mark belongs to the outline of a script: a statement, or the beginning or the
    end of a block. -/
def Mark.isOutline : Mark → Bool
  | .statement _ | .enter | .leave => true
  | _ => false

/-- The kinds of the statements of a script in their order, with the blocks in which they
    stand. -/
def Block.outline (b : Block) : List Mark := b.marks.filter Mark.isOutline

/-- The outline of a script tells how many statements it has. -/
theorem Mark.count_eq_of_outline {b b' : Block} (h : b'.outline = b.outline) :
    Mark.count b'.marks = Mark.count b.marks := by
  have hcount : ∀ b : Block, Mark.count b.marks = b.outline.countP Mark.isStatement := by
    intro b
    rw [Mark.count, Block.outline, List.countP_filter]
    refine List.countP_congr fun mark _ => ?_
    cases mark <;> simp [Mark.isStatement, Mark.isOutline]
  rw [hcount, hcount, h]

/-- Printing keeps the outline of a script just if no statement can be read as a part of the
    one before, and then the script is read back as it is. -/
theorem parse_print_outline_iff {source : String} {b : Block} (h : parse source = .ok b)
    (hplain : ∀ node ∈ b.nodes, node.isPlain = true) :
    ((∃ b', parse b.print = .ok b' ∧ b'.outline = b.outline) ↔ b.AllSeparated) ∧
      (b.AllSeparated → parse b.print = .ok b) := by
  obtain ⟨hnot, error, herror⟩ | ⟨v, hv, hparse⟩ := (b.isWritable_of_parse h hplain).parse_print
  · refine ⟨⟨?_, fun hseparated => absurd hseparated hnot⟩, fun hseparated => absurd hseparated hnot⟩
    rintro ⟨b', hparse, -⟩
    rw [herror] at hparse
    cases hparse
  · have hsame : b.AllSeparated → parse b.print = .ok b := fun hseparated =>
      hparse.trans (congrArg Except.ok (hv.same hseparated))
    refine ⟨⟨?_, fun hseparated => ⟨b, hsame hseparated, rfl⟩⟩, hsame⟩
    rintro ⟨b', hparse', houtline⟩
    obtain rfl := Except.ok.inj (hparse.symm.trans hparse')
    exact hv.separated (Mark.count_eq_of_outline houtline)

/-- A script in which a statement starts with a parenthesis, after one that has ended. -/
def separatedText : String := "f = function() a = true; (\"x\"):g() end; return (f)()"

/-- What it is read as. -/
def separatedBlock : Block :=
  [.assign [.name "f"] [.function ⟨[], false,
    [.assign [.name "a"] [.boolean true],
     .call (.methodCall (.string ⟨"x", .double⟩) "g" [])]⟩],
   .ret [.call (.name "f") []]]

theorem parse_separatedText : parse separatedText = .ok separatedBlock := by
  have htokens : tokenize separatedText = .ok (List.map (fun kind => ⟨kind, 1⟩)
      [.name "f", .symbol .equal, .keyword .kwFunction, .symbol .leftParen, .symbol .rightParen,
       .name "a", .symbol .equal, .keyword .kwTrue, .symbol .semicolon, .symbol .leftParen,
       .string ⟨"x", .double⟩, .symbol .rightParen, .symbol .colon, .name "g",
       .symbol .leftParen, .symbol .rightParen, .keyword .kwEnd, .symbol .semicolon,
       .keyword .kwReturn, .symbol .leftParen, .name "f", .symbol .rightParen,
       .symbol .leftParen, .symbol .rightParen, .eof]) := by
    decide +kernel
  rw [parse, htokens]
  rfl

theorem parse_print_separatedBlock :
    parse separatedText = .ok separatedBlock ∧ separatedBlock.AllSeparated ∧
      parse separatedBlock.print = .ok separatedBlock :=
  have hseparated : separatedBlock.AllSeparated := by decide
  ⟨parse_separatedText, hseparated,
    (parse_print_outline_iff parse_separatedText
      (fun node hnode => by revert node hnode; decide)).2 hseparated⟩

/-- A script in which a statement starts with a parenthesis, after a name that can be called. -/
def joinedText : String := "a = b; (\"x\"):f()"

/-- What it is read as: two statements. -/
def joinedBlock : Block :=
  [.assign [.name "a"] [.name "b"], .call (.methodCall (.string ⟨"x", .double⟩) "f" [])]

/-- The text of the two statements is read as one. -/
theorem outline_joinedBlock_lost :
    parse joinedText = .ok joinedBlock ∧ (∀ node ∈ joinedBlock.nodes, node.isPlain = true) ∧
      ¬ ∃ b', parse joinedBlock.print = .ok b' ∧ b'.outline = joinedBlock.outline := by
  have htokens : tokenize joinedText = .ok (List.map (fun kind => ⟨kind, 1⟩)
      [.name "a", .symbol .equal, .name "b", .symbol .semicolon, .symbol .leftParen,
       .string ⟨"x", .double⟩, .symbol .rightParen, .symbol .colon, .name "f",
       .symbol .leftParen, .symbol .rightParen, .eof]) := by
    decide +kernel
  have hread : parse joinedText = .ok joinedBlock := by
    rw [parse, htokens]
    rfl
  have hplain : ∀ node ∈ joinedBlock.nodes, node.isPlain = true := by decide
  have hprinted : tokenize joinedBlock.print = .ok
      [⟨.name "a", 1⟩, ⟨.symbol .equal, 1⟩, ⟨.name "b", 1⟩, ⟨.symbol .leftParen, 2⟩,
       ⟨.string ⟨"x", .double⟩, 2⟩, ⟨.symbol .rightParen, 2⟩, ⟨.symbol .colon, 2⟩,
       ⟨.name "f", 2⟩, ⟨.symbol .leftParen, 2⟩, ⟨.symbol .rightParen, 2⟩, ⟨.eof, 3⟩] := by
    decide +kernel
  have hjoined : parse joinedBlock.print =
      .ok [.assign [.name "a"] [.methodCall (.call (.name "b") [.string ⟨"x", .double⟩]) "f" []]] := by
    rw [parse, hprinted]
    rfl
  refine ⟨hread, hplain, ?_⟩
  rintro ⟨b', hparse, houtline⟩
  obtain rfl := Except.ok.inj (hjoined.symm.trans hparse)
  revert houtline
  decide

end LuaUnpack.Lua
