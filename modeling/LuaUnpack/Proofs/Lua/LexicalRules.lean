import LuaUnpack.Proofs.Lua.Lexed

/-!
# Lexical rules

What can stand at a place of a text, said without reading it from the left: a blank, a comment, or
a token with the characters that spell it (`Spells`). A rule names the characters and says where
they end: a name before the first character that is none of a name, a symbol where no longer one
starts, a comment with its line. One step of the lexer finds what the rules say (`hasRule_of_step`,
`step_of_spells`), so that at most one of them applies at a place.
-/

namespace LuaUnpack.Lua

/-! ## Rules -/

/-- What a stretch of a text is. -/
inductive Role where
  | interpreterLine
  | blank
  | comment
  | token (kind : TokenKind)

/-- The token that a stretch is. -/
def Role.kind? : Role → Option TokenKind
  | token kind => some kind
  | _ => none

/-- Whether a line ends before some characters. -/
def EndsLine (rest : List Char) : Prop := ∀ c ∈ rest.head?, c = '\n'

/-- The opening of a long bracket. -/
def longOpening (level : Nat) : List Char := '[' :: (List.replicate level '=' ++ ['['])

/-- The closing of a long bracket. -/
def longClosing (level : Nat) : List Char := ']' :: Lexer.longClose level

/-- Whether characters start with the opening of a long bracket. -/
def OpensLong (cs : List Char) : Prop := ∃ level, longOpening level <+: cs

/-- The line ends that can follow the opening of a long bracket, or none. -/
def lineEnds : List (List Char) := [[], ['\n'], ['\r'], ['\r', '\n']]

/-- Whether characters are the line end at the start of a text. -/
structure IsLineEndOf (cs lineEnd : List Char) : Prop where
  mem : lineEnd ∈ lineEnds
  starts : lineEnd <+: cs
  longest : ∀ other ∈ lineEnds, other <+: cs → other.length ≤ lineEnd.length

/-- Whether the closing of a long bracket comes up first behind a content. -/
def ClosesFirst (level : Nat) (content : List Char) : Prop :=
  ∀ k < content.length, ¬ longClosing level <+: (content ++ longClosing level).drop k

/-- Whether characters are a long bracket from its opening to its closing. A line end right after
    the opening does not belong to the content. -/
def IsLongBracket (level : Nat) (content text : List Char) : Prop :=
  ∃ lineEnd, text = longOpening level ++ (lineEnd ++ (content ++ longClosing level)) ∧
    IsLineEndOf (lineEnd ++ (content ++ longClosing level)) lineEnd ∧ ClosesFirst level content

/-- Whether characters can stand between quotes: no quote and no line end among them but after a
    backslash, and no backslash at their end. -/
inductive IsQuotable (quote : Char) : List Char → Prop
  | nil : IsQuotable quote []
  | plain {c : Char} {cs : List Char} (backslash : c ≠ '\\') (same : c ≠ quote) (line : c ≠ '\n')
      (more : IsQuotable quote cs) : IsQuotable quote (c :: cs)
  | escape {c : Char} {cs : List Char} (more : IsQuotable quote cs) :
      IsQuotable quote ('\\' :: c :: cs)

/-- The quotes around short strings. -/
def quotes : List (Char × Delimiter) := [('\x22', .double), ('\x27', .single)]

/-- Whether characters can follow one after the other in a decimal. -/
def Lexer.NumberPart.Reads : NumberPart → List Char → Prop
  | _, [] => True
  | part, c :: cs => ∃ next, part.next? c = some next ∧ next.Reads cs

/-- The marks of hexadecimal numbers. -/
def hexMarks : List Char := ['x', 'X']

/-- Whether something longer than a symbol starts like one: a comment, a long string, or a number
    with a point before its digits. -/
def StartsNoSymbol (cs : List Char) : Prop :=
  ['-', '-'] <+: cs ∨ OpensLong cs ∨ ∃ d, Text.isDigit d = true ∧ ['.', d] <+: cs

open Lexer in
/-- Whether characters spell something where other ones follow them. -/
inductive Spells : Role → (text rest : List Char) → Prop
  | blank {c : Char} {rest : List Char} (blank : Text.isBlank c = true) : Spells .blank [c] rest
  | lineComment {body rest : List Char} (line : '\n' ∉ body) (ends : EndsLine rest)
      (short : ¬ OpensLong (body ++ rest)) : Spells .comment ('-' :: '-' :: body) rest
  | longComment {level : Nat} {content bracket rest : List Char}
      (long : IsLongBracket level content bracket) : Spells .comment ('-' :: '-' :: bracket) rest
  | name {n : String} {rest : List Char} (name : isIdentifier n = true)
      (ends : ∀ c ∈ rest.head?, isNameChar c = false) : Spells (.token (.name n)) n.toList rest
  | keyword {w : Keyword} {rest : List Char} (ends : ∀ c ∈ rest.head?, isNameChar c = false) :
      Spells (.token (.keyword w)) w.text.toList rest
  | hexadecimal {mark : Char} {digits rest : List Char} {n : Nat} (mark_mem : mark ∈ hexMarks)
      (digits_all : ∀ c ∈ digits, Text.isHexDigit c = true)
      (value : Text.readNat? 16 (maxUnsigned 64) digits = some n)
      (ends : ∀ c ∈ rest.head?, Text.isHexDigit c = false) :
      Spells (.token (.number (Decimal.nearest n 1))) ('0' :: mark :: digits) rest
  | decimal {c : Char} {cs rest : List Char} {x : Float}
      (first : Text.isDigit c = true ∨ c = '.' ∧ ∃ d ∈ cs.head?, Text.isDigit d = true)
      (reads : NumberPart.mantissa.Reads cs) (value : Decimal.read? (c :: cs) = some x)
      (ends : ∀ d ∈ rest.head?, ¬ NumberPart.mantissa.Reads (cs ++ [d]))
      (notHex : ∀ mark ∈ hexMarks, ¬ ['0', mark] <+: c :: (cs ++ rest)) :
      Spells (.token (.number x)) (c :: cs) rest
  | short {quote : Char} {delimiter : Delimiter} {raw : String} {rest : List Char}
      (quote_mem : (quote, delimiter) ∈ quotes) (body : IsQuotable quote raw.toList) :
      Spells (.token (.string ⟨raw, delimiter⟩)) (quote :: (raw.toList ++ [quote])) rest
  | long {level : Nat} {raw : String} {bracket rest : List Char}
      (long : IsLongBracket level raw.toList bracket) :
      Spells (.token (.string ⟨raw, .long level⟩)) bracket rest
  | symbol {s : Symbol} {rest : List Char} (longest : ∀ other : Symbol,
      other.text.toList <+: s.text.toList ++ rest → other.text.length ≤ s.text.length)
      (other : ¬ StartsNoSymbol (s.text.toList ++ rest)) :
      Spells (.token (.symbol s)) s.text.toList rest

namespace Lexer

/-- Whether a rule gives a step: what starts with a character, and how many characters after it
    belong to it. -/
def HasRule (c : Char) (rest : List Char) (kind : Option TokenKind) (n : Nat) : Prop :=
  ∃ text after, rest = text ++ after ∧ text.length = n ∧
    ∃ role : Role, role.kind? = kind ∧ Spells role (c :: text) after

variable {c : Char} {cs rest : List Char} {kind : Option TokenKind} {n level : Nat}

theorem drop_length_takeWhile (p : Char → Bool) (cs : List Char) :
    cs.drop (cs.takeWhile p).length = cs.dropWhile p := by
  conv_lhs =>
    arg 2
    rw [← List.takeWhile_append_dropWhile (p := p) (l := cs)]
  exact List.drop_left

theorem head?_dropWhile {p : Char → Bool} (hc : c ∈ (cs.dropWhile p).head?) : p c = false := by
  have hnot := List.head?_dropWhile_not p cs
  rwa [Option.mem_def.1 hc] at hnot

/-! ## Long brackets -/

theorem longLevel?_eq_some_iff :
    longLevel? cs = some level ↔ longOpening level <+: '[' :: cs := by
  rw [longOpening, List.prefix_cons_inj]
  constructor
  · intro h
    unfold longLevel? at h
    dsimp only at h
    split at h
    · rename_i rest hdrop
      obtain rfl := Option.some.inj h
      -- What is taken are equals signs only, so it is as many of them as its length says.
      have hbars : cs.takeWhile (· == '=') =
          List.replicate (cs.takeWhile (· == '=')).length '=' :=
        List.eq_replicate_iff.2 ⟨rfl, fun d hd => by simpa using List.mem_takeWhile_imp hd⟩
      refine ⟨rest, ?_⟩
      rw [← hbars, List.append_assoc, List.singleton_append, ← hdrop,
        drop_length_takeWhile, List.takeWhile_append_dropWhile]
    · cases h
  · rintro ⟨rest, rfl⟩
    rw [List.append_assoc]
    exact longLevel?_bars level rest

theorem opensLong_bracket_iff : OpensLong ('[' :: cs) ↔ longLevel? cs ≠ none := by
  rw [Option.ne_none_iff_exists']
  exact exists_congr fun _ => longLevel?_eq_some_iff.symm

theorem head?_of_opensLong (h : OpensLong cs) : cs.head? = some '[' := by
  obtain ⟨level, rest, rfl⟩ := h
  rfl

/-- The content of a long bracket goes up to the first closing. -/
theorem longLength?_eq_some_iff : longLength? level cs = some n ↔
    ∃ content after, cs = content ++ (longClosing level ++ after) ∧ content.length = n ∧
      ClosesFirst level content := by
  induction cs generalizing n with
  | nil =>
    refine iff_of_false nofun ?_
    rintro ⟨content, after, h, -, -⟩
    simp [longClosing] at h
  | cons c cs ih =>
    have hclose : (c == ']' && (longClose level).isPrefixOf cs) = true ↔
        longClosing level <+: c :: cs := by
      rw [Bool.and_eq_true, beq_iff_eq, List.isPrefixOf_iff_prefix, longClosing,
        List.cons_prefix_cons, eq_comm]
    rw [longLength?]
    by_cases hc : longClosing level <+: c :: cs
    · rw [if_pos (hclose.2 hc), Option.some_inj]
      constructor
      · rintro rfl
        obtain ⟨after, hafter⟩ := hc
        exact ⟨[], after, hafter.symm, rfl, fun k hk => absurd hk (Nat.not_lt_zero k)⟩
      · rintro ⟨content, after, htext, rfl, hfirst⟩
        by_contra hne
        -- The closing stands at the start, so it cannot be the one behind a content.
        refine hfirst 0 (Nat.pos_of_ne_zero fun h => hne h.symm) ?_
        rw [htext, ← List.append_assoc] at hc
        exact List.prefix_of_prefix_length_le hc (List.prefix_append _ after) (by simp)
    · rw [if_neg (hclose.not.2 hc), Option.map_eq_some_iff]
      constructor
      · rintro ⟨k, hk, rfl⟩
        obtain ⟨content, after, rfl, rfl, hfirst⟩ := ih.1 hk
        -- Further places of `c :: content` are places of `content`; the first one is new.
        refine ⟨c :: content, after, rfl, rfl, fun j hj hlead => ?_⟩
        cases j with
        | zero =>
          refine hc (hlead.trans ?_)
          rw [List.drop_zero, ← List.append_assoc, ← List.cons_append]
          exact List.prefix_append _ after
        | succ j => exact hfirst j (Nat.lt_of_succ_lt_succ hj) hlead
      · rintro ⟨content, after, htext, rfl, hfirst⟩
        cases content with
        | nil => exact absurd ⟨after, htext.symm⟩ hc
        | cons d content =>
          obtain ⟨rfl, rfl⟩ := List.cons.inj htext
          exact ⟨content.length, ih.2 ⟨content, after, rfl, rfl,
            fun j hj => hfirst (j + 1) (Nat.succ_lt_succ hj)⟩, rfl⟩

theorem leadingLineEnd_le (cs : List Char) : leadingLineEnd cs ≤ cs.length := by
  unfold leadingLineEnd
  split <;> simp

theorem length_le_leadingLineEnd {lineEnd : List Char} (hmem : lineEnd ∈ lineEnds)
    (h : lineEnd <+: cs) : lineEnd.length ≤ leadingLineEnd cs := by
  simp only [lineEnds, List.mem_cons, List.not_mem_nil, or_false] at hmem
  obtain ⟨rest, rfl⟩ := h
  obtain rfl | rfl | rfl | rfl := hmem
  · exact Nat.zero_le _
  · exact Nat.le_refl 1
  · cases rest with
    | nil => exact Nat.le_refl 1
    | cons d rest =>
      by_cases hd : d = '\n'
      · subst hd
        exact Nat.le_succ 1
      · simp [leadingLineEnd, hd]
  · exact Nat.le_refl 2

theorem isLineEndOf_take (cs : List Char) : IsLineEndOf cs (cs.take (leadingLineEnd cs)) where
  mem := by
    unfold leadingLineEnd
    split <;> simp [lineEnds]
  starts := List.take_prefix _ cs
  longest other hmem hlead := by
    rw [List.length_take_of_le (leadingLineEnd_le cs)]
    exact length_le_leadingLineEnd hmem hlead

theorem leadingLineEnd_eq {lineEnd : List Char} (h : IsLineEndOf cs lineEnd) :
    leadingLineEnd cs = lineEnd.length := by
  refine Nat.le_antisymm ?_ (length_le_leadingLineEnd h.mem h.starts)
  rw [← List.length_take_of_le (leadingLineEnd_le cs)]
  exact h.longest _ (isLineEndOf_take cs).mem (List.take_prefix _ cs)

/-- A line end is seen from two characters. -/
theorem isLineEndOf_append_iff {lineEnd : List Char} (h : 2 ≤ cs.length) (rest : List Char) :
    IsLineEndOf (cs ++ rest) lineEnd ↔ IsLineEndOf cs lineEnd := by
  have hlead : ∀ other ∈ lineEnds, other <+: cs ++ rest ↔ other <+: cs := by
    intro other hmem
    refine ⟨fun hother => List.prefix_of_prefix_length_le hother (List.prefix_append cs rest) ?_,
      fun hother => hother.trans (List.prefix_append cs rest)⟩
    refine Nat.le_trans ?_ h
    simp only [lineEnds, List.mem_cons, List.not_mem_nil, or_false] at hmem
    obtain rfl | rfl | rfl | rfl := hmem <;> decide
  constructor
  · rintro ⟨hmem, hstarts, hlongest⟩
    exact ⟨hmem, (hlead _ hmem).1 hstarts,
      fun other hother h => hlongest other hother ((hlead other hother).2 h)⟩
  · rintro ⟨hmem, hstarts, hlongest⟩
    exact ⟨hmem, (hlead _ hmem).2 hstarts,
      fun other hother h => hlongest other hother ((hlead other hother).1 h)⟩

theorem two_le_length_closed (lineEnd content : List Char) (level : Nat) :
    2 ≤ (lineEnd ++ (content ++ longClosing level)).length := by
  simp [longClosing, longClose]
  omega

theorem drop_opening (level : Nat) (opened : List Char) :
    (List.replicate level '=' ++ '[' :: opened).drop (level + 1) = opened := by
  rw [List.drop_append, List.length_replicate, List.drop_of_length_le (by simp)]
  simp

/-- What is read as a long bracket is one. -/
theorem exists_isLongBracket {content : List Char} (hlevel : longLevel? cs = some level)
    (h : readLong level cs = .ok (content, n)) :
    ∃ text after, cs = text ++ after ∧ text.length = n ∧
      IsLongBracket level content ('[' :: text) := by
  obtain ⟨opened, hopened⟩ := longLevel?_eq_some_iff.1 hlevel
  obtain rfl : cs = List.replicate level '=' ++ '[' :: opened := by
    simpa [longOpening] using hopened.symm
  unfold readLong at h
  rw [drop_opening] at h
  dsimp only at h
  split at h
  · rename_i k hk
    obtain ⟨rfl, rfl⟩ := Prod.mk.inj (Except.ok.inj h)
    obtain ⟨content, after, hinner, rfl, hfirst⟩ := longLength?_eq_some_iff.1 hk
    obtain ⟨lineEnd, hlineEnd⟩ : ∃ lineEnd, opened.take (leadingLineEnd opened) = lineEnd :=
      ⟨_, rfl⟩
    have hleading : IsLineEndOf opened lineEnd := hlineEnd ▸ isLineEndOf_take opened
    -- The text falls into the line end that is left out, the content and the closing bracket.
    have hwhole : opened = lineEnd ++ (content ++ longClosing level) ++ after := by
      rw [List.append_assoc, List.append_assoc, ← hinner, ← hlineEnd, List.take_append_drop]
    refine ⟨List.replicate level '=' ++ '[' :: (lineEnd ++ (content ++ longClosing level)), after,
      ?_, ?_, lineEnd, ?_, ?_, ?_⟩
    · rw [hwhole]
      simp
    · rw [leadingLineEnd_eq hleading]
      simp [longClosing, longClose]
      omega
    · rw [hinner, List.take_left]
      simp [longOpening]
    · rw [hwhole] at hleading
      rw [hinner, List.take_left]
      exact (isLineEndOf_append_iff (two_le_length_closed lineEnd content level) after).1 hleading
    · rwa [hinner, List.take_left]
  · cases h

/-- A long bracket is read as one, whatever comes after it. -/
theorem readLong_of_isLongBracket {content : List Char}
    (h : IsLongBracket level content ('[' :: cs)) (rest : List Char) :
    longLevel? (cs ++ rest) = some level ∧
      readLong level (cs ++ rest) = .ok (content, cs.length) := by
  obtain ⟨lineEnd, htext, hleading, hfirst⟩ := h
  obtain rfl : cs = List.replicate level '=' ++
      '[' :: (lineEnd ++ (content ++ longClosing level)) := by
    simpa [longOpening] using htext
  have hlineEnd := leadingLineEnd_eq
    ((isLineEndOf_append_iff (two_le_length_closed lineEnd content level) rest).2 hleading)
  have hlength : longLength? level (content ++ (longClosing level ++ rest)) =
      some content.length := longLength?_eq_some_iff.2 ⟨content, rest, rfl, rfl, hfirst⟩
  rw [List.append_assoc (List.replicate level '='), List.cons_append]
  refine ⟨longLevel?_bars level _, ?_⟩
  rw [readLong, drop_opening, hlineEnd, List.append_assoc lineEnd, List.drop_left,
    List.append_assoc content, hlength]
  dsimp only
  rw [List.take_left]
  refine congrArg (fun n => Except.ok (content, n)) ?_
  simp [longClosing, longClose]
  omega

/-! ## Comments -/

theorem takeWhile_line {body : List Char} (hline : '\n' ∉ body) (hends : EndsLine rest) :
    (body ++ rest).takeWhile (· != '\n') = body := by
  refine takeWhile_append_of_head? (fun d hd => bne_iff_ne.2 ?_) fun d hd => ?_
  · rintro rfl
    exact hline hd
  · rw [hends d hd]
    rfl

theorem commentLength_of_not_opensLong (h : ¬ OpensLong cs) :
    commentLength cs = .ok (cs.takeWhile (· != '\n')).length := by
  unfold commentLength
  split
  · rename_i bracket
    rw [opensLong_bracket_iff, not_not] at h
    rw [h]
  · rfl

/-- What is left out as a comment is one. -/
theorem exists_spells_comment (h : commentLength cs = .ok n) :
    ∃ text after, cs = text ++ after ∧ text.length = n ∧
      Spells .comment ('-' :: '-' :: text) after := by
  -- A comment is long if a long bracket opens right behind the dashes.
  by_cases hlong : OpensLong cs
  · obtain ⟨bracket, rfl⟩ := List.head?_eq_some_iff.1 (head?_of_opensLong hlong)
    obtain ⟨level, hlevel⟩ := Option.ne_none_iff_exists'.1 (opensLong_bracket_iff.1 hlong)
    simp only [commentLength, hlevel] at h
    cases hread : readLong level bracket with
    | error fault =>
      rw [hread] at h
      cases h
    | ok content =>
      rw [hread] at h
      obtain rfl := Except.ok.inj h
      obtain ⟨text, after, rfl, hlength, hbracket⟩ := exists_isLongBracket hlevel hread
      exact ⟨'[' :: text, after, rfl, congrArg (· + 1) hlength, .longComment hbracket⟩
  · rw [commentLength_of_not_opensLong hlong] at h
    obtain rfl := Except.ok.inj h
    have hsplit := List.takeWhile_append_dropWhile (p := (· != '\n')) (l := cs)
    refine ⟨_, _, hsplit.symm, rfl, .lineComment (fun hline => ?_) (fun d hd => ?_) ?_⟩
    · simpa using List.mem_takeWhile_imp hline
    · simpa using head?_dropWhile hd
    · rwa [hsplit]

/-! ## Words -/

theorem hasRule_readWord (hc : isNameStart c = true) (h : readWord c rest = .ok (kind, n)) :
    HasRule c rest kind n := by
  obtain ⟨rfl, rfl⟩ := Prod.mk.inj (Except.ok.inj h)
  have hends : ∀ d ∈ (rest.dropWhile isNameChar).head?, isNameChar d = false :=
    fun d hd => head?_dropWhile hd
  refine ⟨_, _, List.takeWhile_append_dropWhile.symm, rfl, .token _, rfl, ?_⟩
  -- Both rules speak of the text of the word, the reader of its characters.
  obtain ⟨text, htext⟩ : ∃ text, String.ofList (c :: rest.takeWhile isNameChar) = text := ⟨_, rfl⟩
  have hlist : c :: rest.takeWhile isNameChar = text.toList := by
    rw [← htext, String.toList_ofList]
  have hlexed : TokenKind.IsLexed (word text) := htext ▸ isLexed_readWord hc rfl
  rw [htext, hlist]
  unfold word at hlexed ⊢
  split at hlexed
  · rename_i w hw
    have hspelling : w.text = text := by
      have hfind : Keyword.all.find? (·.text == text) = some w := hw
      have hsame := List.find?_some hfind
      exact beq_iff_eq.1 hsame
    rw [← hspelling]
    exact .keyword hends
  · exact .name hlexed hends

/-! ## Numbers -/

theorem hasRule_readHexadecimal {mark : Char} (hmark : mark ∈ hexMarks)
    (h : readHexadecimal rest = .ok (kind, n)) : HasRule '0' (mark :: rest) kind n := by
  unfold readHexadecimal at h
  dsimp only at h
  split at h
  · rename_i value hvalue
    obtain ⟨rfl, rfl⟩ := Prod.mk.inj (Except.ok.inj h)
    have hsplit := List.takeWhile_append_dropWhile (p := Text.isHexDigit) (l := rest)
    exact ⟨mark :: rest.takeWhile Text.isHexDigit, _, congrArg (mark :: ·) hsplit.symm, rfl,
      .token _, rfl, .hexadecimal hmark (fun d hd => List.mem_takeWhile_imp hd) hvalue
        fun d hd => head?_dropWhile hd⟩
  · cases h

theorem numberLength_le (part : NumberPart) (cs : List Char) :
    numberLength part cs ≤ cs.length := by
  fun_induction numberLength part cs with
  | case1 => exact Nat.le_refl 0
  | case2 => exact Nat.zero_le _
  | case3 part c rest next hnext ih => exact Nat.succ_le_succ ih

/-- A decimal takes characters as long as they can follow in one. -/
theorem reads_take_numberLength (part : NumberPart) (cs : List Char) :
    part.Reads (cs.take (numberLength part cs)) ∧
      ∀ d ∈ (cs.drop (numberLength part cs)).head?,
        ¬ part.Reads (cs.take (numberLength part cs) ++ [d]) := by
  fun_induction numberLength part cs with
  | case1 => exact ⟨trivial, nofun⟩
  | case2 part c rest hnext =>
    refine ⟨trivial, ?_⟩
    rintro d ⟨⟩ ⟨next, hsome, -⟩
    rw [hnext] at hsome
    cases hsome
  | case3 part c rest next hnext ih =>
    obtain ⟨hreads, hends⟩ := ih
    refine ⟨⟨next, hnext, hreads⟩, ?_⟩
    rintro d hd ⟨next', hnext', hmore⟩
    obtain rfl := Option.some.inj (hnext.symm.trans hnext')
    exact hends d hd hmore

theorem numberLength_of_reads {part : NumberPart} (hreads : part.Reads cs)
    (hends : ∀ d ∈ rest.head?, ¬ part.Reads (cs ++ [d])) :
    numberLength part (cs ++ rest) = cs.length := by
  induction cs generalizing part with
  | nil =>
    cases rest with
    | nil => rfl
    | cons d rest =>
      -- If the part went on with `d`, the number would not end here.
      have hnext : part.next? d = none := by
        by_contra hne
        obtain ⟨next, hnext⟩ := Option.ne_none_iff_exists'.1 hne
        exact hends d rfl ⟨next, hnext, trivial⟩
      rw [List.nil_append, numberLength, hnext]
      rfl
  | cons c cs ih =>
    obtain ⟨next, hnext, hreads⟩ := hreads
    rw [List.cons_append, numberLength, hnext]
    exact congrArg (· + 1) (ih hreads fun d hd hmore => hends d hd ⟨next, hnext, hmore⟩)

theorem hasRule_readDecimal (hc : startsNumber c rest = true)
    (hhex : ∀ mark ∈ hexMarks, ¬ ['0', mark] <+: c :: rest)
    (h : readDecimal c rest = .ok (kind, n)) : HasRule c rest kind n := by
  unfold readDecimal at h
  dsimp only at h
  split at h
  · rename_i value hvalue
    obtain ⟨rfl, rfl⟩ := Prod.mk.inj (Except.ok.inj h)
    obtain ⟨hreads, hends⟩ := reads_take_numberLength .mantissa rest
    refine ⟨_, _, (List.take_append_drop _ rest).symm,
      List.length_take_of_le (numberLength_le _ rest), .token _, rfl,
      .decimal ?_ hreads hvalue hends ?_⟩
    · rw [startsNumber, Bool.or_eq_true, Bool.and_eq_true, beq_iff_eq, Option.any_eq_true] at hc
      -- A digit behind a point is taken with it, so it is among the characters of the number.
      refine hc.imp_right fun hpoint => ⟨hpoint.1, ?_⟩
      obtain ⟨-, d, hd, hdigit⟩ := hpoint
      obtain ⟨tail, rfl⟩ := List.head?_eq_some_iff.1 hd
      have hnext : NumberPart.mantissa.next? d = some .mantissa := by
        rw [NumberPart.next?, hdigit, Bool.true_or, if_pos rfl]
      refine ⟨d, ?_, hdigit⟩
      rw [numberLength, hnext]
      rfl
    · rwa [List.take_append_drop]
  · cases h

theorem hasRule_readNumber (hc : startsNumber c rest = true)
    (h : readNumber c rest = .ok (kind, n)) : HasRule c rest kind n := by
  unfold readNumber at h
  split at h
  · exact hasRule_readHexadecimal (by decide) h
  · exact hasRule_readHexadecimal (by decide) h
  · rename_i hlower hupper
    refine hasRule_readDecimal hc ?_ h
    rintro mark hmark ⟨digits, hdigits⟩
    obtain ⟨rfl, rfl⟩ := List.cons.inj hdigits
    simp only [hexMarks, List.mem_cons, List.not_mem_nil, or_false] at hmark
    obtain rfl | rfl := hmark
    · exact hlower digits rfl rfl
    · exact hupper digits rfl rfl

/-! ## Strings -/

theorem ne_backslash_of_mem {quote : Char} {delimiter : Delimiter}
    (h : (quote, delimiter) ∈ quotes) : quote ≠ '\\' := by
  rintro rfl
  simp [quotes] at h

theorem shortLength?_eq_some_iff {quote : Char} (hquote : quote ≠ '\\') :
    shortLength? quote cs = some n ↔
      ∃ body after, cs = body ++ quote :: after ∧ body.length = n ∧ IsQuotable quote body := by
  constructor
  · intro h
    induction cs using shortLength?.induct quote generalizing n with
    | case1 => cases h
    | case2 => cases h
    | case3 c tail ih =>
      obtain ⟨k, hk, rfl⟩ := Option.map_eq_some_iff.1 h
      obtain ⟨body, after, rfl, rfl, hbody⟩ := ih hk
      exact ⟨_ :: _ :: body, after, rfl, rfl, .escape hbody⟩
    | case4 c tail hend hpair heq =>
      rw [shortLength?_cons (ne_of_no_escape hend hpair), if_pos heq] at h
      obtain rfl := Option.some.inj h
      exact ⟨[], tail, by rw [eq_of_beq heq]; rfl, rfl, .nil⟩
    | case5 c tail hend hpair hne hline =>
      rw [shortLength?_cons (ne_of_no_escape hend hpair), if_neg hne, if_pos hline] at h
      cases h
    | case6 c tail hend hpair hne hline ih =>
      have hslash := ne_of_no_escape hend hpair
      rw [shortLength?_cons hslash, if_neg hne, if_neg hline] at h
      obtain ⟨k, hk, rfl⟩ := Option.map_eq_some_iff.1 h
      obtain ⟨body, after, rfl, rfl, hbody⟩ := ih hk
      exact ⟨c :: body, after, rfl, rfl,
        .plain hslash (by simpa using hne) (by simpa using hline) hbody⟩
  · rintro ⟨body, after, rfl, rfl, hbody⟩
    induction hbody with
    | nil => rw [List.nil_append, shortLength?_cons hquote, if_pos (beq_self_eq_true quote)]; rfl
    | plain hslash hsame hline hmore ih =>
      rw [List.cons_append, shortLength?_cons hslash, if_neg (by simpa using hsame),
        if_neg (by simpa using hline), ih]
      rfl
    | escape hmore ih => exact Option.map_eq_some_iff.2 ⟨_, ih, rfl⟩

theorem hasRule_readShort {quote : Char} {delimiter : Delimiter}
    (hquote : (quote, delimiter) ∈ quotes)
    (h : readShort quote delimiter rest = .ok (kind, n)) : HasRule quote rest kind n := by
  unfold readShort at h
  split at h
  · rename_i k hk
    obtain ⟨rfl, rfl⟩ := Prod.mk.inj (Except.ok.inj h)
    obtain ⟨body, after, rfl, rfl, hbody⟩ :=
      (shortLength?_eq_some_iff (ne_backslash_of_mem hquote)).1 hk
    have hraw : (String.ofList body).toList = body := String.toList_ofList
    refine ⟨body ++ [quote], after, by simp, by simp, .token _, rfl, ?_⟩
    rw [List.take_left]
    have hrule : Spells (.token (.string ⟨String.ofList body, delimiter⟩))
        (quote :: ((String.ofList body).toList ++ [quote])) after :=
      .short hquote (hraw.symm ▸ hbody)
    rwa [hraw] at hrule
  · cases h

theorem hasRule_readLong {content : List Char} (hlevel : longLevel? rest = some level)
    (h : readLong level rest = .ok (content, n)) :
    HasRule '[' rest (some (.string ⟨String.ofList content, .long level⟩)) n := by
  obtain ⟨text, after, rfl, hlength, hbracket⟩ := exists_isLongBracket hlevel h
  refine ⟨text, after, rfl, hlength, .token _, rfl, .long ?_⟩
  rwa [String.toList_ofList]

/-! ## Symbols -/

theorem mem_longestFirst (s : Symbol) : s ∈ Symbol.longestFirst := by
  cases s <;> decide

theorem ofChars?_eq_some_iff {s : Symbol} : Symbol.ofChars? cs = some s ↔
    s.text.toList <+: cs ∧
      ∀ other : Symbol, other.text.toList <+: cs → other.text.length ≤ s.text.length := by
  have hsorted : Symbol.longestFirst.Pairwise fun s t => t.text.length ≤ s.text.length := by decide
  have hfind : ∀ t, Symbol.ofChars? cs = some t → t.text.toList <+: cs ∧
      ∀ other : Symbol, other.text.toList <+: cs → other.text.length ≤ t.text.length := by
    intro t ht
    rw [Symbol.ofChars?, List.find?_eq_some_iff_append] at ht
    obtain ⟨hlead, before, after, hall, hbefore⟩ := ht
    refine ⟨List.isPrefixOf_iff_prefix.1 hlead, fun other hother => ?_⟩
    have hmem := mem_longestFirst other
    rw [hall] at hsorted hmem
    rw [List.pairwise_append, List.pairwise_cons] at hsorted
    rw [List.mem_append, List.mem_cons] at hmem
    obtain hmem | rfl | hmem := hmem
    · have hnot := hbefore other hmem
      rw [List.isPrefixOf_iff_prefix.2 hother] at hnot
      cases hnot
    · exact Nat.le_refl _
    · exact hsorted.2.1.1 other hmem
  -- The symbol found and `s` are both the longest, so they have one text; no two symbols do.
  refine ⟨hfind s, fun h => ?_⟩
  obtain ⟨hlead, hlongest⟩ := h
  have hsome : Symbol.ofChars? cs ≠ none := by
    rw [Symbol.ofChars?, Ne, List.find?_eq_none]
    exact fun hnone => hnone s (mem_longestFirst s) (List.isPrefixOf_iff_prefix.2 hlead)
  obtain ⟨t, ht⟩ := Option.ne_none_iff_exists'.1 hsome
  obtain ⟨htlead, htlongest⟩ := hfind t ht
  have htext : t.text = s.text := by
    refine String.toList_inj.1 (List.IsPrefix.eq_of_length
      (List.prefix_of_prefix_length_le htlead hlead ?_) ?_)
    · simpa only [String.length_toList] using hlongest t htlead
    · simpa only [String.length_toList] using
        Nat.le_antisymm (hlongest t htlead) (htlongest s hlead)
  have hinj : ∀ s ∈ Symbol.longestFirst, ∀ t ∈ Symbol.longestFirst, t.text = s.text → t = s := by
    decide
  rw [ht, hinj s (mem_longestFirst s) t (mem_longestFirst t) htext]

/-- What a symbol starts with starts nothing else, if no longer thing starts like it. -/
theorem exists_first (s : Symbol) : ∃ c cs, s.text.toList = c :: cs ∧ Text.isBlank c = false ∧
    isNameStart c = false ∧ Text.isDigit c = false ∧ c ≠ '\x22' ∧ c ≠ '\x27' := by
  cases s <;> exact ⟨_, _, rfl, by decide, by decide, by decide, by decide, by decide⟩

theorem startsNoSymbol_iff : StartsNoSymbol (c :: rest) ↔
    c = '-' ∧ rest.head? = some '-' ∨ c = '[' ∧ longLevel? rest ≠ none ∨
      c = '.' ∧ ∃ d ∈ rest.head?, Text.isDigit d = true := by
  have hpair : ∀ first second : Char, [first, second] <+: c :: rest ↔
      c = first ∧ second ∈ rest.head? := by
    intro first second
    rw [List.cons_prefix_cons, eq_comm]
    cases rest <;> simp [eq_comm]
  refine or_congr (hpair _ _) (or_congr ⟨fun h => ?_, ?_⟩ ?_)
  · obtain rfl := Option.some.inj (head?_of_opensLong h)
    exact ⟨rfl, opensLong_bracket_iff.1 h⟩
  · rintro ⟨rfl, h⟩
    exact opensLong_bracket_iff.2 h
  · simp only [hpair]
    exact ⟨fun ⟨d, hdigit, hc, hd⟩ => ⟨hc, d, hd, hdigit⟩,
      fun ⟨hc, d, hd, hdigit⟩ => ⟨d, hdigit, hc, hd⟩⟩

theorem hasRule_readSymbol (hother : ¬ StartsNoSymbol (c :: rest))
    (h : readSymbol c rest = .ok (kind, n)) : HasRule c rest kind n := by
  unfold readSymbol at h
  split at h
  · rename_i s hs
    obtain ⟨rfl, rfl⟩ := Prod.mk.inj (Except.ok.inj h)
    obtain ⟨⟨after, hafter⟩, hlongest⟩ := ofChars?_eq_some_iff.1 hs
    have hrule : Spells (.token (.symbol s)) s.text.toList after :=
      .symbol (hafter ▸ hlongest) (hafter ▸ hother)
    have hlength : s.text.toList.length = s.text.length := String.length_toList
    obtain ⟨d, text, htext, -⟩ := exists_first s
    rw [htext] at hafter hrule hlength
    obtain ⟨rfl, rfl⟩ := List.cons.inj hafter
    exact ⟨text, after, rfl, by rw [← hlength]; rfl, .token _, rfl, hrule⟩
  · cases h

theorem hasRule_readBracket (h : readBracket rest = .ok (kind, n)) : HasRule '[' rest kind n := by
  unfold readBracket at h
  split at h
  · rename_i level hlevel
    cases hread : readLong level rest with
    | error fault =>
      rw [hread] at h
      cases h
    | ok content =>
      rw [hread] at h
      obtain ⟨rfl, rfl⟩ := Prod.mk.inj (Except.ok.inj h)
      exact hasRule_readLong hlevel hread
  · -- With no long bracket it is a symbol, and none of the texts that look like one.
    rename_i hlevel
    refine hasRule_readSymbol (fun hother => ?_) h
    obtain ⟨hc, -⟩ | ⟨-, hlong⟩ | ⟨hc, -⟩ := startsNoSymbol_iff.1 hother
    · cases hc
    · exact hlong hlevel
    · cases hc

/-! ## One step -/

/-- What the lexer finds at a place follows a rule. -/
theorem hasRule_of_step (h : step c rest = .ok (kind, n)) : HasRule c rest kind n := by
  unfold step at h
  split_ifs at h with hblank hcomment hname hnumber hdouble hsingle hbracket
  · obtain ⟨rfl, rfl⟩ := Prod.mk.inj (Except.ok.inj h)
    exact ⟨[], rest, rfl, rfl, .blank, rfl, .blank hblank⟩
  · obtain ⟨hc, hhead⟩ := Bool.and_eq_true_iff.1 hcomment
    obtain rfl := beq_iff_eq.1 hc
    obtain ⟨body, rfl⟩ := List.head?_eq_some_iff.1 (beq_iff_eq.1 hhead)
    rw [List.drop_one, List.tail_cons] at h
    cases hlength : commentLength body with
    | error fault =>
      rw [hlength] at h
      cases h
    | ok k =>
      rw [hlength] at h
      obtain ⟨rfl, rfl⟩ := Prod.mk.inj (Except.ok.inj h)
      obtain ⟨text, after, rfl, rfl, hrule⟩ := exists_spells_comment hlength
      exact ⟨'-' :: text, after, rfl, rfl, .comment, rfl, hrule⟩
  · exact hasRule_readWord hname h
  · exact hasRule_readNumber hnumber h
  · obtain rfl := beq_iff_eq.1 hdouble
    exact hasRule_readShort (by decide) h
  · obtain rfl := beq_iff_eq.1 hsingle
    exact hasRule_readShort (by decide) h
  · obtain rfl := beq_iff_eq.1 hbracket
    exact hasRule_readBracket h
  · refine hasRule_readSymbol (fun hother => ?_) h
    obtain ⟨rfl, hhead⟩ | ⟨rfl, -⟩ | ⟨rfl, d, hd, hdigit⟩ := startsNoSymbol_iff.1 hother
    · exact hcomment (by rw [hhead]; rfl)
    · exact hbracket rfl
    · exact hnumber (by rw [startsNumber, Option.mem_def.1 hd, Option.any_some, hdigit]; rfl)

theorem step_comment (rest : List Char) :
    step '-' ('-' :: rest) = (commentLength rest).map fun n => (none, n + 1) := rfl

theorem step_lineComment {body : List Char} (hline : '\n' ∉ body) (hends : EndsLine rest)
    (hshort : ¬ OpensLong (body ++ rest)) :
    step '-' ('-' :: body ++ rest) = .ok (none, body.length + 1) := by
  rw [List.cons_append, step_comment, commentLength_of_not_opensLong hshort,
    takeWhile_line hline hends]
  rfl

theorem exists_cons_of_isLongBracket {content bracket : List Char}
    (h : IsLongBracket level content bracket) : ∃ cs, bracket = '[' :: cs := by
  obtain ⟨lineEnd, rfl, -⟩ := h
  exact ⟨_, rfl⟩

theorem step_longComment {content : List Char} (h : IsLongBracket level content ('[' :: cs))
    (rest : List Char) : step '-' ('-' :: '[' :: cs ++ rest) = .ok (none, cs.length + 2) := by
  obtain ⟨hlevel, hread⟩ := readLong_of_isLongBracket h rest
  rw [List.cons_append, step_comment, List.cons_append]
  simp only [commentLength, hlevel, hread]
  rfl

theorem step_hexadecimal {mark : Char} {value : Nat} (hmark : mark ∈ hexMarks)
    (hdigits : ∀ d ∈ cs, Text.isHexDigit d = true)
    (hvalue : Text.readNat? 16 (maxUnsigned 64) cs = some value)
    (hends : ∀ d ∈ rest.head?, Text.isHexDigit d = false) :
    step '0' (mark :: cs ++ rest) =
      .ok (some (.number (Decimal.nearest value 1)), cs.length + 1) := by
  have hread : step '0' (mark :: cs ++ rest) = readHexadecimal (cs ++ rest) := by
    simp only [hexMarks, List.mem_cons, List.not_mem_nil, or_false] at hmark
    obtain rfl | rfl := hmark <;> rfl
  rw [hread, readHexadecimal, takeWhile_append_of_head? hdigits hends, hvalue]

/-- What a number starts with starts no blank, comment or word. -/
theorem step_eq_readNumber (hc : startsNumber c rest = true) : step c rest = readNumber c rest := by
  have hfirst : c = '.' ∨ 48 ≤ c.toNat ∧ c.toNat ≤ 57 := by
    rw [startsNumber, Bool.or_eq_true, Bool.and_eq_true, beq_iff_eq, isDigit_iff] at hc
    exact hc.symm.imp_left And.left
  -- A point and a digit are none of the characters that `step` asks about first.
  obtain rfl | hrange := hfirst
  · rw [step, hc]
    rfl
  · have hblank : Text.isBlank c = false := isBlank_eq_false (by omega) (by omega)
    have hname : isNameStart c = false := by
      rw [← Bool.not_eq_true, isNameStart_iff]
      omega
    have hminus : (c == '-') = false := by
      rw [beq_eq_false_iff_ne]
      rintro rfl
      exact absurd hrange.1 (by decide)
    rw [step, hblank, hminus, hname, hc]
    rfl

theorem step_decimal {x : Float}
    (hfirst : Text.isDigit c = true ∨ c = '.' ∧ ∃ d ∈ cs.head?, Text.isDigit d = true)
    (hreads : NumberPart.mantissa.Reads cs) (hvalue : Decimal.read? (c :: cs) = some x)
    (hends : ∀ d ∈ rest.head?, ¬ NumberPart.mantissa.Reads (cs ++ [d]))
    (hhex : ∀ mark ∈ hexMarks, ¬ ['0', mark] <+: c :: (cs ++ rest)) :
    step c (cs ++ rest) = .ok (some (.number x), cs.length) := by
  have hstarts : startsNumber c (cs ++ rest) = true := by
    rw [startsNumber, Bool.or_eq_true, Bool.and_eq_true, beq_iff_eq, Option.any_eq_true]
    refine hfirst.imp_right fun hpoint => ⟨hpoint.1, ?_⟩
    obtain ⟨-, d, hd, hdigit⟩ := hpoint
    refine ⟨d, ?_, hdigit⟩
    rw [List.head?_append, Option.mem_def.1 hd, Option.some_or]
  -- There is no mark of a hexadecimal number behind the first digit.
  have hdecimal : readNumber c (cs ++ rest) = readDecimal c (cs ++ rest) := by
    unfold readNumber
    split
    · rename_i digits heq
      exact absurd ⟨digits, by rw [heq]; rfl⟩ (hhex 'x' (by decide))
    · rename_i digits heq
      exact absurd ⟨digits, by rw [heq]; rfl⟩ (hhex 'X' (by decide))
    · rfl
  rw [step_eq_readNumber hstarts, hdecimal, readDecimal, numberLength_of_reads hreads hends,
    List.take_left, hvalue]

theorem step_short {quote : Char} {delimiter : Delimiter} {raw : String}
    (hquote : (quote, delimiter) ∈ quotes) (hbody : IsQuotable quote raw.toList)
    (rest : List Char) : step quote (raw.toList ++ [quote] ++ rest) =
      .ok (some (.string ⟨raw, delimiter⟩), (raw.toList ++ [quote]).length) := by
  have hlength : shortLength? quote (raw.toList ++ [quote]) = some raw.toList.length :=
    (shortLength?_eq_some_iff (ne_backslash_of_mem hquote)).2 ⟨raw.toList, [], rfl, rfl, hbody⟩
  simp only [quotes, List.mem_cons, Prod.mk.injEq, List.not_mem_nil, or_false] at hquote
  have hspelling : (⟨raw, delimiter⟩ : Literal).spelling.toList =
      quote :: (raw.toList ++ [quote]) := by
    obtain ⟨rfl, rfl⟩ | ⟨rfl, rfl⟩ := hquote <;> simp [Literal.spelling]
  exact step_string ⟨quote, hspelling, hquote, hlength⟩ hspelling

theorem step_longString {raw : String} (h : IsLongBracket level raw.toList ('[' :: cs))
    (rest : List Char) :
    step '[' (cs ++ rest) = .ok (some (.string ⟨raw, .long level⟩), cs.length) := by
  obtain ⟨hlevel, hread⟩ := readLong_of_isLongBracket h rest
  rw [step_bracket, readBracket, hlevel]
  dsimp only
  rw [hread]
  simp only [Except.map, String.ofList_toList]

theorem step_longest {s : Symbol} (htext : s.text.toList = c :: cs)
    (hlongest : ∀ other : Symbol, other.text.toList <+: s.text.toList ++ rest →
      other.text.length ≤ s.text.length)
    (hother : ¬ StartsNoSymbol (s.text.toList ++ rest)) :
    step c (cs ++ rest) = .ok (some (.symbol s), cs.length) := by
  have hsymbol : readSymbol c (cs ++ rest) = .ok (some (.symbol s), cs.length) := by
    have hs := ofChars?_eq_some_iff.2 ⟨List.prefix_append _ rest, hlongest⟩
    have hlength : s.text.toList.length = s.text.length := String.length_toList
    rw [htext] at hs hlength
    rw [readSymbol, ← List.cons_append, hs]
    dsimp only
    rw [← hlength]
    rfl
  -- No class that `step` asks about before symbols starts like this one.
  obtain ⟨d, ds, hd, hblank, hname, hdigit, hdouble, hsingle⟩ := exists_first s
  obtain ⟨rfl, rfl⟩ := List.cons.inj (htext.symm.trans hd)
  rw [htext, List.cons_append, startsNoSymbol_iff, not_or, not_or] at hother
  obtain ⟨hcomment, hlong, hpoint⟩ := hother
  have hnumber : startsNumber c (cs ++ rest) = false := by
    rw [startsNumber, hdigit, Bool.false_or, ← Bool.not_eq_true, Bool.and_eq_true, beq_iff_eq,
      Option.any_eq_true]
    exact hpoint
  rw [step, hblank, hname, hnumber, if_neg Bool.false_ne_true, if_neg, if_neg Bool.false_ne_true,
    if_neg Bool.false_ne_true, if_neg (by simpa using hdouble), if_neg (by simpa using hsingle)]
  · split
    · rename_i hbracket
      obtain rfl := beq_iff_eq.1 hbracket
      have hnone : longLevel? (cs ++ rest) = none := by
        by_contra hne
        exact hlong ⟨rfl, hne⟩
      rw [readBracket, hnone]
      exact hsymbol
    · exact hsymbol
  · rw [Bool.and_eq_true, beq_iff_eq, beq_iff_eq]
    exact hcomment

/-- What follows a rule is what the lexer finds. -/
theorem step_of_spells {role : Role} {text : List Char} (h : Spells role text rest) :
    ∃ c cs, text = c :: cs ∧ step c (cs ++ rest) = .ok (role.kind?, cs.length) := by
  cases h with
  | blank hblank =>
    refine ⟨_, [], rfl, ?_⟩
    rw [step, if_pos hblank]
    rfl
  | lineComment hline hends hshort =>
    exact ⟨'-', _, rfl, step_lineComment hline hends hshort⟩
  | longComment hlong =>
    obtain ⟨cs, rfl⟩ := exists_cons_of_isLongBracket hlong
    exact ⟨'-', _, rfl, step_longComment hlong rest⟩
  | name hname hends =>
    rename_i n
    obtain ⟨c, cs, htext⟩ : ∃ c cs, n.toList = c :: cs := by
      refine List.exists_cons_of_ne_nil fun hnil => ?_
      rw [isIdentifier, hnil] at hname
      cases hname
    exact ⟨c, cs, htext, step_name hname htext hends⟩
  | keyword hends =>
    rename_i w
    obtain ⟨c, cs, htext⟩ : ∃ c cs, w.text.toList = c :: cs := by
      cases w <;> exact ⟨_, _, rfl⟩
    exact ⟨c, cs, htext, step_keyword htext hends⟩
  | hexadecimal hmark hdigits hvalue hends =>
    exact ⟨'0', _, rfl, step_hexadecimal hmark hdigits hvalue hends⟩
  | decimal hfirst hreads hvalue hends hhex =>
    exact ⟨_, _, rfl, step_decimal hfirst hreads hvalue hends hhex⟩
  | short hquote hbody => exact ⟨_, _, rfl, step_short hquote hbody rest⟩
  | long hlong =>
    obtain ⟨cs, rfl⟩ := exists_cons_of_isLongBracket hlong
    exact ⟨'[', cs, rfl, step_longString hlong rest⟩
  | symbol hlongest hother =>
    rename_i s
    obtain ⟨c, cs, htext, -⟩ := exists_first s
    exact ⟨c, cs, htext, step_longest htext hlongest hother⟩

end Lexer

/-! ## At most one rule -/

section

variable {role role' : Role} {text text' rest rest' : List Char}

theorem Spells.role_eq (h : Spells role text rest) :
    role = match role.kind? with
      | some kind => .token kind
      | none => if text.head? = some '-' then .comment else .blank := by
  cases h with
  | blank hblank =>
    refine (if_neg fun hhead => ?_).symm
    obtain rfl := Option.some.inj hhead
    cases hblank
  | _ => rfl

theorem not_spells_eof : ¬ Spells (.token .eof) text rest := nofun

/-- At most one rule applies at a place. -/
theorem Spells.unique (h : Spells role text rest) (h' : Spells role' text' rest')
    (heq : text ++ rest = text' ++ rest') : role = role' ∧ text = text' ∧ rest = rest' := by
  obtain ⟨c, cs, rfl, hstep⟩ := Lexer.step_of_spells h
  obtain ⟨c', cs', rfl, hstep'⟩ := Lexer.step_of_spells h'
  rw [List.cons_append, List.cons_append] at heq
  obtain ⟨rfl, hmore⟩ := List.cons.inj heq
  rw [hmore] at hstep
  -- Both are what the one step at the place finds.
  obtain ⟨hkind, hlength⟩ := Prod.mk.inj (Except.ok.inj (hstep.symm.trans hstep'))
  obtain ⟨rfl, rfl⟩ := List.append_inj hmore hlength
  refine ⟨?_, rfl, rfl⟩
  rw [h.role_eq, h'.role_eq, hkind]

/-- A token does not start with a blank. -/
theorem Spells.isBlank_eq_false {kind : TokenKind} (h : Spells (.token kind) text rest) :
    ∃ c cs, text = c :: cs ∧ Text.isBlank c = false := by
  obtain ⟨c, cs, rfl, hstep⟩ := Lexer.step_of_spells h
  refine ⟨c, cs, rfl, ?_⟩
  rw [← Bool.not_eq_true]
  intro hblank
  rw [Lexer.step, if_pos hblank] at hstep
  cases hstep

end

end LuaUnpack.Lua
