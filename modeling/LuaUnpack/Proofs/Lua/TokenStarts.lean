import LuaUnpack.Proofs.Lua.LexicalRules
import LuaUnpack.Proofs.Lua.Unescaping

/-!
# Where tokens start

A text that can be read is laid out in stretches: an interpreter line, if it starts with one, and
then blanks, comments and tokens one after the other, each of which follows a lexical rule. The
layout says all there is to say about the tokens. A text has tokens just if it has a layout, and
they are the tokens of its stretches (`tokenize_eq_ok_iff`); it has one layout at most
(`IsLayout.unique`). In particular every token knows the line on which its stretch starts
(`tokenize_startsAt`): what is left out and what belongs to other tokens is counted as well.
-/

namespace LuaUnpack.Lua

/-! ## Layouts -/

/-- Some characters of a text that are one thing, and how many characters stand before them. -/
structure Stretch where
  start : Nat
  text : List Char
  role : Role

namespace Stretch

/-- Whether the character at a place of the text belongs to a stretch. -/
def Covers (s : Stretch) (place : Nat) : Prop :=
  s.start ≤ place ∧ place < s.start + s.text.length

/-- The token that a stretch of a text is. -/
def token? (source : List Char) (s : Stretch) : Option Token :=
  s.role.kind?.map fun kind => ⟨kind, 1 + (source.take s.start).count '\n'⟩

end Stretch

/-- Whether characters are laid out in stretches, the first of which has a given start. -/
inductive LaidOut : Nat → List Char → List Stretch → Prop
  | nil {start : Nat} : LaidOut start [] []
  | cons {start : Nat} {role : Role} {text rest : List Char} {stretches : List Stretch}
      (rule : Spells role text rest) (more : LaidOut (start + text.length) rest stretches) :
      LaidOut start (text ++ rest) (⟨start, text, role⟩ :: stretches)

/-- How an interpreter line starts. -/
def interpreterMark : List Char := ['#', '!']

/-- Whether a text is laid out in stretches. Only at its start there can be an interpreter line,
    which nothing else is mistaken for. -/
inductive IsLayout (source : List Char) : List Stretch → Prop
  | plain {stretches : List Stretch} (unmarked : ¬ interpreterMark <+: source)
      (laidOut : LaidOut 0 source stretches) : IsLayout source stretches
  | marked {line rest : List Char} {stretches : List Stretch}
      (source_eq : source = interpreterMark ++ line ++ rest) (line_end : '\n' ∉ line)
      (ends : EndsLine rest)
      (laidOut : LaidOut (interpreterMark ++ line).length rest stretches) :
      IsLayout source (⟨0, interpreterMark ++ line, .interpreterLine⟩ :: stretches)

/-- The tokens of a text that is laid out in stretches. -/
def tokensOf (source : List Char) (stretches : List Stretch) : List Token :=
  stretches.filterMap (Stretch.token? source) ++ [⟨.eof, 1 + source.count '\n'⟩]

section

variable {start : Nat} {before cs source : List Char} {stretches : List Stretch}
  {tokens : List Token}

/-! ## Tokens of a layout -/

theorem tokensOf_cons (source : List Char) (s : Stretch) (stretches : List Stretch) :
    tokensOf source (s :: stretches) =
      (s.token? source).toList ++ tokensOf source stretches := by
  rw [tokensOf, List.filterMap_cons]
  cases s.token? source <;> rfl

theorem token?_append (before cs text : List Char) (role : Role) :
    (⟨before.length, text, role⟩ : Stretch).token? (before ++ cs) =
      role.kind?.map fun kind => ⟨kind, 1 + before.count '\n'⟩ := by
  rw [Stretch.token?, List.take_left]

namespace Lexer

/-- A step gives a token or none, and goes on behind what belongs to it. -/
theorem tokensFrom_of_step {p : Position} {c : Char} {text rest : List Char}
    {kind : Option TokenKind} (h : step c (text ++ rest) = .ok (kind, text.length)) :
    tokensFrom p (c :: (text ++ rest)) = (tokensFrom (p.after (c :: text)) rest).map
      ((kind.map fun kind => ⟨kind, p.line⟩).toList ++ ·) := by
  rw [tokensFrom, h]
  dsimp only
  rw [List.take_left, List.drop_left]
  cases tokensFrom (p.after (c :: text)) rest with
  | error error => rfl
  | ok tokens => cases kind <;> rfl

theorem line_after_append {p : Position} (hp : p.line = 1 + before.count '\n')
    (text : List Char) : (p.after text).line = 1 + (before ++ text).count '\n' := by
  rw [line_after, hp, List.count_append, Nat.add_assoc]

/-- What is laid out has the tokens of its stretches. -/
theorem tokensFrom_of_laidOut (before : List Char) (h : LaidOut start cs stretches)
    {p : Position} (hstart : start = before.length) (hp : p.line = 1 + before.count '\n') :
    tokensFrom p cs = .ok (tokensOf (before ++ cs) stretches) := by
  -- Stretches count their places from the start of the text: `before` grows by each of them.
  induction h generalizing p before with
  | nil => rw [tokensFrom, hp, tokensOf, List.filterMap_nil, List.append_nil]; rfl
  | cons rule more ih =>
    rename_i start role text rest stretches
    obtain ⟨c, text, rfl, hstep⟩ := step_of_spells rule
    subst hstart
    have hmore := ih (before ++ c :: text) List.length_append.symm (line_after_append hp _)
    rw [List.append_assoc] at hmore
    rw [List.cons_append, tokensFrom_of_step hstep, hmore, tokensOf_cons, token?_append, hp]
    rfl

/-- A step adds the stretch in front of which it stands. -/
theorem exists_laidOut_step {c : Char} {rest : List Char} {kind : Option TokenKind} {n : Nat}
    (hrule : HasRule c rest kind n)
    (hmore : ∃ stretches, LaidOut (before ++ c :: rest.take n).length (rest.drop n) stretches ∧
      tokens = tokensOf (before ++ c :: rest.take n ++ rest.drop n) stretches) :
    ∃ stretches, LaidOut before.length (c :: rest) stretches ∧
      (kind.map fun kind => ⟨kind, 1 + before.count '\n'⟩).toList ++ tokens =
        tokensOf (before ++ c :: rest) stretches := by
  obtain ⟨text, after, rfl, rfl, role, rfl, rule⟩ := hrule
  obtain ⟨stretches, hlaid, rfl⟩ := hmore
  rw [List.take_left, List.drop_left] at hlaid ⊢
  rw [List.length_append] at hlaid
  refine ⟨⟨before.length, c :: text, role⟩ :: stretches, .cons rule hlaid, ?_⟩
  rw [tokensOf_cons, token?_append, List.append_assoc, List.cons_append]

/-- What has tokens is laid out. -/
theorem exists_laidOut (before : List Char) {p : Position} (hp : p.line = 1 + before.count '\n')
    (h : tokensFrom p cs = .ok tokens) :
    ∃ stretches, LaidOut before.length cs stretches ∧
      tokens = tokensOf (before ++ cs) stretches := by
  -- Blanks and comments (4) are stretches without a token, all others (5) have one.
  fun_induction tokensFrom p cs generalizing before tokens with
  | case1 p =>
    obtain rfl := Except.ok.inj h
    refine ⟨[], .nil, ?_⟩
    rw [tokensOf, List.filterMap_nil, List.append_nil, hp]
    rfl
  | case2 => cases h
  | case3 => cases h
  | case4 p c rest n tokens' htokens hstep ih =>
    obtain rfl := Except.ok.inj h
    obtain ⟨stretches, hlaid, htext⟩ :=
      exists_laidOut_step (hasRule_of_step hstep) (ih _ (line_after_append hp _) htokens)
    exact ⟨stretches, hlaid, htext⟩
  | case5 p c rest n tokens' htokens kind hstep ih =>
    obtain rfl := Except.ok.inj h
    obtain ⟨stretches, hlaid, htext⟩ :=
      exists_laidOut_step (hasRule_of_step hstep) (ih _ (line_after_append hp _) htokens)
    rw [hp]
    exact ⟨stretches, hlaid, htext⟩

theorem dropInterpreterLine_of_not (h : ¬ interpreterMark <+: cs) :
    dropInterpreterLine cs = cs := by
  unfold dropInterpreterLine
  split
  · exact absurd ⟨_, rfl⟩ h
  · rfl

theorem dropInterpreterLine_append {line rest : List Char} (hline : '\n' ∉ line)
    (hends : EndsLine rest) :
    dropInterpreterLine (interpreterMark ++ line ++ rest) = rest := by
  have hdrop := List.takeWhile_append_dropWhile (p := (· != '\n')) (l := line ++ rest)
  rw [takeWhile_line hline hends] at hdrop
  exact List.append_cancel_left hdrop

end Lexer

theorem count_interpreterLine {line : List Char} (h : '\n' ∉ line) :
    (interpreterMark ++ line).count '\n' = 0 :=
  List.count_eq_zero.2 fun hmem => (List.mem_append.1 hmem).elim (by decide) h

/-- A text has tokens just if it has a layout, and they are those of the layout. -/
theorem tokenize_eq_ok_iff {source : String} {tokens : List Token} :
    tokenize source = .ok tokens ↔ ∃ stretches, IsLayout source.toList stretches ∧
      tokens = tokensOf source.toList stretches := by
  rw [tokenize]
  constructor
  · intro h
    -- The interpreter line, if there is one, is a stretch of its own before the others.
    by_cases hmark : interpreterMark <+: source.toList
    · obtain ⟨text, htext⟩ := hmark
      have hsplit := List.takeWhile_append_dropWhile (p := (· != '\n')) (l := text)
      have hline : '\n' ∉ text.takeWhile (· != '\n') := fun hmem => by
        simpa using List.mem_takeWhile_imp hmem
      have hends : EndsLine (text.dropWhile (· != '\n')) := fun c hc => by
        simpa using Lexer.head?_dropWhile hc
      rw [← hsplit, ← List.append_assoc] at htext
      rw [← htext, Lexer.dropInterpreterLine_append hline hends] at h
      obtain ⟨stretches, hlaid, htokens⟩ :=
        Lexer.exists_laidOut _ (congrArg (1 + ·) (count_interpreterLine hline).symm) h
      refine ⟨_ :: stretches, .marked htext.symm hline hends hlaid, ?_⟩
      rw [htokens, htext, tokensOf_cons]
      rfl
    · rw [Lexer.dropInterpreterLine_of_not hmark] at h
      obtain ⟨stretches, hlaid, htokens⟩ := Lexer.exists_laidOut [] rfl h
      exact ⟨stretches, .plain hmark hlaid, htokens⟩
  · rintro ⟨stretches, hlayout, rfl⟩
    cases hlayout with
    | plain hmark hlaid =>
      rw [Lexer.dropInterpreterLine_of_not hmark]
      exact Lexer.tokensFrom_of_laidOut [] hlaid rfl rfl
    | marked htext hline hends hlaid =>
      rw [htext, Lexer.dropInterpreterLine_append hline hends, tokensOf_cons]
      exact Lexer.tokensFrom_of_laidOut _ hlaid rfl
        (congrArg (1 + ·) (count_interpreterLine hline).symm)

/-! ## Uniqueness -/

theorem LaidOut.unique {cs' : List Char} {stretches' : List Stretch}
    (h : LaidOut start cs stretches) (h' : LaidOut start cs' stretches') (heq : cs = cs') :
    stretches = stretches' := by
  induction h generalizing cs' stretches' with
  | nil =>
    cases h' with
    | nil => rfl
    | cons rule more =>
      obtain ⟨c, cs, rfl, -⟩ := Lexer.step_of_spells rule
      cases heq
  | cons rule more ih =>
    cases h' with
    | nil =>
      obtain ⟨c, cs, rfl, -⟩ := Lexer.step_of_spells rule
      cases heq
    | cons rule' more' =>
      obtain ⟨rfl, rfl, rfl⟩ := rule.unique rule' heq
      rw [ih more' rfl]

/-- A text has at most one layout. -/
theorem IsLayout.unique {stretches' : List Stretch} (h : IsLayout source stretches)
    (h' : IsLayout source stretches') : stretches = stretches' := by
  cases h with
  | plain hmark hlaid =>
    cases h' with
    | plain hmark' hlaid' => exact hlaid.unique hlaid' rfl
    | marked htext =>
      rw [htext, List.append_assoc] at hmark
      exact absurd (List.prefix_append _ _) hmark
  | marked htext hline hends hlaid =>
    cases h' with
    | plain hmark' =>
      rw [htext, List.append_assoc] at hmark'
      exact absurd (List.prefix_append _ _) hmark'
    | marked htext' hline' hends' hlaid' =>
      rename_i line rest stretches line' rest' stretches'
      rw [htext, List.append_assoc, List.append_assoc] at htext'
      have hmore : line ++ rest = line' ++ rest' := List.append_cancel_left htext'
      -- Both lines end at the first line break.
      obtain rfl : line = line' := by
        rw [← Lexer.takeWhile_line hline hends, hmore, Lexer.takeWhile_line hline' hends']
      obtain rfl : rest = rest' := List.append_cancel_left hmore
      rw [hlaid.unique hlaid' rfl]

/-! ## Places -/

theorem LaidOut.start_le (h : LaidOut start cs stretches) : ∀ s ∈ stretches, start ≤ s.start := by
  induction h with
  | nil => nofun
  | cons rule more ih =>
    refine List.forall_mem_cons.2 ⟨Nat.le_refl _, fun s hs => ?_⟩
    exact Nat.le_trans (Nat.le_add_right _ _) (ih s hs)

/-- Stretches follow one another. -/
theorem LaidOut.pairwise (h : LaidOut start cs stretches) :
    stretches.Pairwise fun s t => s.start + s.text.length ≤ t.start := by
  induction h with
  | nil => exact List.Pairwise.nil
  | cons rule more ih => exact List.Pairwise.cons more.start_le ih

/-- A stretch is what stands at its place. -/
theorem LaidOut.exists_spells (before : List Char) (h : LaidOut start cs stretches)
    (hstart : start = before.length) :
    ∀ s ∈ stretches, ∃ rest, (before ++ cs).drop s.start = s.text ++ rest ∧
      Spells s.role s.text rest := by
  induction h generalizing before with
  | nil => nofun
  | cons rule more ih =>
    rename_i start role text rest stretches
    subst hstart
    refine List.forall_mem_cons.2 ⟨⟨rest, List.drop_left, rule⟩, ?_⟩
    have hmore := ih (before ++ text) List.length_append.symm
    rwa [List.append_assoc] at hmore

theorem IsLayout.pairwise (h : IsLayout source stretches) :
    stretches.Pairwise fun s t => s.start + s.text.length ≤ t.start := by
  cases h with
  | plain hmark hlaid => exact hlaid.pairwise
  | marked htext hline hends hlaid =>
    refine List.Pairwise.cons (fun s hs => ?_) hlaid.pairwise
    rw [Nat.zero_add]
    exact hlaid.start_le s hs

theorem IsLayout.exists_spells (h : IsLayout source stretches) {s : Stretch} (hs : s ∈ stretches)
    (hrole : s.role ≠ .interpreterLine) :
    ∃ rest, source.drop s.start = s.text ++ rest ∧ Spells s.role s.text rest := by
  cases h with
  | plain hmark hlaid => exact hlaid.exists_spells [] rfl s hs
  | marked htext hline hends hlaid =>
    rw [htext]
    obtain rfl | hs := List.mem_cons.1 hs
    · exact absurd rfl hrole
    · exact hlaid.exists_spells _ rfl s hs

/-- No two stretches cover the same place. -/
theorem IsLayout.eq_of_covers (h : IsLayout source stretches) {s t : Stretch} {place : Nat}
    (hs : s ∈ stretches) (ht : t ∈ stretches) (hcovers : s.Covers place)
    (hcovers' : t.Covers place) : s = t := by
  by_contra hne
  -- The order of the two is not known, and both orders leave them apart.
  have hapart : stretches.Pairwise fun s t =>
      s.start + s.text.length ≤ t.start ∨ t.start + t.text.length ≤ s.start :=
    h.pairwise.imp Or.inl
  have : Std.Symm fun s t : Stretch =>
      s.start + s.text.length ≤ t.start ∨ t.start + t.text.length ≤ s.start :=
    ⟨fun _ _ => Or.symm⟩
  obtain ⟨hleast, hmost⟩ := hcovers
  obtain ⟨hleast', hmost'⟩ := hcovers'
  have := hapart.forall hs ht hne
  omega

/-! ## Starts -/

/-- Whether a token starts at a place of a text: it is on the line of the place, and unless it
    stands for the end of the text, it is a stretch that starts there with a character that is no
    blank, and no other stretch covers the place. -/
structure Token.StartsAt (source : List Char) (stretches : List Stretch) (token : Token)
    (place : Nat) : Prop where
  line_eq : token.line = 1 + (source.take place).count '\n'
  stretch : token.kind ≠ .eof → ∃ own ∈ stretches, own.start = place ∧
    own.role = .token token.kind ∧ (∃ c ∈ source[place]?, Text.isBlank c = false) ∧
    ∀ s ∈ stretches, s.Covers place → s = own
  place_eq : token.kind = .eof → place = source.length

theorem Stretch.role_of_token? {s : Stretch} {token : Token} (h : s.token? source = some token) :
    s.role = .token token.kind ∧ token.line = 1 + (source.take s.start).count '\n' := by
  obtain ⟨kind, hkind, rfl⟩ := Option.map_eq_some_iff.1 h
  refine ⟨?_, rfl⟩
  cases hrole : s.role <;> rw [hrole] at hkind <;> cases hkind
  rfl

theorem IsLayout.spells_token (h : IsLayout source stretches) {s : Stretch} (hs : s ∈ stretches)
    {token : Token} (htoken : s.token? source = some token) :
    ∃ rest, source.drop s.start = s.text ++ rest ∧ Spells (.token token.kind) s.text rest := by
  obtain ⟨hrole, -⟩ := Stretch.role_of_token? htoken
  rw [← hrole]
  exact h.exists_spells hs (by rw [hrole]; nofun)

theorem IsLayout.covers_start (h : IsLayout source stretches) {s : Stretch} (hs : s ∈ stretches)
    {token : Token} (htoken : s.token? source = some token) : s.Covers s.start := by
  obtain ⟨rest, -, hrule⟩ := h.spells_token hs htoken
  obtain ⟨c, cs, htext, -⟩ := hrule.isBlank_eq_false
  exact ⟨Nat.le_refl _, by simp [htext]⟩

/-- A stretch that is a token starts with a character that is no blank. -/
theorem IsLayout.exists_getElem? (h : IsLayout source stretches) {s : Stretch}
    (hs : s ∈ stretches) {token : Token} (htoken : s.token? source = some token) :
    ∃ c ∈ source[s.start]?, Text.isBlank c = false := by
  obtain ⟨rest, hdrop, hrule⟩ := h.spells_token hs htoken
  obtain ⟨c, cs, htext, hblank⟩ := hrule.isBlank_eq_false
  refine ⟨c, ?_, hblank⟩
  rw [← List.head?_drop, hdrop, htext]
  rfl

theorem IsLayout.startsAt (h : IsLayout source stretches) {s : Stretch} (hs : s ∈ stretches)
    {token : Token} (htoken : s.token? source = some token) :
    token.kind ≠ .eof ∧ token.StartsAt source stretches s.start ∧ s.start < source.length := by
  obtain ⟨hrole, hline⟩ := Stretch.role_of_token? htoken
  obtain ⟨rest, -, hrule⟩ := h.spells_token hs htoken
  obtain ⟨c, hc, hblank⟩ := h.exists_getElem? hs htoken
  have hne : token.kind ≠ .eof := fun heof => not_spells_eof (heof ▸ hrule)
  obtain ⟨hlt, -⟩ := List.getElem?_eq_some_iff.1 hc
  refine ⟨hne, ⟨hline, fun _ => ⟨s, hs, rfl, hrole, ⟨c, hc, hblank⟩, fun t ht hcovers => ?_⟩,
    fun heof => absurd heof hne⟩, hlt⟩
  exact h.eq_of_covers ht hs hcovers (h.covers_start hs htoken)

/-- The tokens of a text and their places. -/
def placedTokens (source : List Char) (stretches : List Stretch) : List (Token × Nat) :=
  stretches.filterMap (fun s => (s.token? source).map (·, s.start)) ++
    [(⟨.eof, 1 + source.count '\n'⟩, source.length)]

theorem map_fst_placedTokens (source : List Char) (stretches : List Stretch) :
    (placedTokens source stretches).map Prod.fst = tokensOf source stretches := by
  rw [placedTokens, tokensOf, List.map_append, List.map_filterMap]
  simp only [Option.map_map, Function.comp_def, Option.map_id']
  rfl

theorem IsLayout.startsAt_of_mem (h : IsLayout source stretches) :
    ∀ entry ∈ placedTokens source stretches, entry.1.StartsAt source stretches entry.2 := by
  rw [placedTokens, List.forall_mem_append, List.forall_mem_singleton]
  constructor
  · intro entry hentry
    obtain ⟨s, hs, hmap⟩ := List.mem_filterMap.1 hentry
    obtain ⟨token, htoken, rfl⟩ := Option.map_eq_some_iff.1 hmap
    exact (h.startsAt hs htoken).2.1
  · refine ⟨?_, fun hne => absurd rfl hne, fun _ => rfl⟩
    rw [List.take_length]

theorem IsLayout.pairwise_places (h : IsLayout source stretches) :
    ((placedTokens source stretches).map Prod.snd).Pairwise (· < ·) := by
  rw [List.pairwise_map, placedTokens, List.pairwise_append]
  refine ⟨?_, List.pairwise_singleton _ _, ?_⟩
  · rw [List.pairwise_filterMap]
    refine h.pairwise.imp_of_mem fun hs ht hafter entry hentry entry' hentry' => ?_
    obtain ⟨token, htoken, rfl⟩ := Option.map_eq_some_iff.1 hentry
    obtain ⟨token', htoken', rfl⟩ := Option.map_eq_some_iff.1 hentry'
    exact Nat.lt_of_lt_of_le (h.covers_start hs htoken).2 hafter
  · intro entry hentry last hlast
    obtain rfl := List.mem_singleton.1 hlast
    obtain ⟨s, hs, hmap⟩ := List.mem_filterMap.1 hentry
    obtain ⟨token, htoken, rfl⟩ := Option.map_eq_some_iff.1 hmap
    exact (h.startsAt hs htoken).2.2

/-- Every token starts at a place of its own, further on than those before it, and its line is the
    number of line ends before the place, plus one. The text has only one layout; in it, the place
    of a token belongs to no blank, comment, interpreter line or other token. Only the last token
    stands for the end of the text, which is its place. -/
theorem tokenize_startsAt {source : String} {tokens : List Token}
    (h : tokenize source = .ok tokens) :
    ∃ stretches places,
      IsLayout source.toList stretches ∧
      (∀ other, IsLayout source.toList other → other = stretches) ∧
      List.Forall₂ (Token.StartsAt source.toList stretches) tokens places ∧
      places.Pairwise (· < ·) ∧
      ∃ others line, tokens = others ++ [⟨.eof, line⟩] ∧ ∀ token ∈ others, token.kind ≠ .eof := by
  obtain ⟨stretches, hlayout, rfl⟩ := tokenize_eq_ok_iff.1 h
  refine ⟨stretches, (placedTokens source.toList stretches).map Prod.snd, hlayout,
    fun other hother => hother.unique hlayout, ?_, hlayout.pairwise_places, _, _, rfl, ?_⟩
  · rw [← map_fst_placedTokens, List.forall₂_map_left_iff, List.forall₂_map_right_iff,
      List.forall₂_same]
    exact hlayout.startsAt_of_mem
  · intro token htoken
    obtain ⟨s, hs, hsome⟩ := List.mem_filterMap.1 htoken
    exact (hlayout.startsAt hs hsome).1

/-- A text with an interpreter line, comments, a string that goes on in the next line, and one in
    long brackets that starts with a line end. -/
def unevenText : String := "#!lua\n--[[\n]] a = 'b\\\n' [[\nc]]\n-- d"

/-- The tokens of the text. -/
def unevenTokens : List Token :=
  [⟨.name "a", 3⟩, ⟨.symbol .equal, 3⟩, ⟨.string ⟨"b\\\n", .single⟩, 3⟩,
    ⟨.string ⟨"c", .long 0⟩, 4⟩, ⟨.eof, 6⟩]

theorem tokenize_startsAt_unevenText :
    tokenize unevenText = .ok unevenTokens ∧
    ∃ stretches places,
      IsLayout unevenText.toList stretches ∧
      (∀ other, IsLayout unevenText.toList other → other = stretches) ∧
      List.Forall₂ (Token.StartsAt unevenText.toList stretches) unevenTokens places ∧
      places.Pairwise (· < ·) ∧
      ∃ others line, unevenTokens = others ++ [⟨.eof, line⟩] ∧
        ∀ token ∈ others, token.kind ≠ .eof := by
  have htokens : tokenize unevenText = .ok unevenTokens := by decide +kernel
  exact ⟨htokens, tokenize_startsAt htokens⟩

end

end LuaUnpack.Lua
