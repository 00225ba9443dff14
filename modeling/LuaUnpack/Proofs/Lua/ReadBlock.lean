import LuaUnpack.Proofs.Lua.ReadStmt

/-!
# Reading back blocks

A block is read statement by statement, if no statement goes on with the next one. What
follows a statement starts the next one or ends the block; of these tokens only a parenthesis
can be taken for a part of the statement before (`Stmt.follows_of_bounds`).
-/

namespace LuaUnpack.Lua

open Piece LuaUnpack.Lua.Parser

/-! ## The first token of a statement -/

/-- Whether a statement other than `return` can start with a token. -/
def startsStmt : TokenKind → Bool
  | .name _ | .symbol .leftParen | .symbol .doubleColon => true
  | .keyword .kwLocal | .keyword .kwFunction | .keyword .kwDo | .keyword .kwWhile
  | .keyword .kwRepeat | .keyword .kwIf | .keyword .kwFor | .keyword .kwBreak
  | .keyword .kwGoto => true
  | _ => false

/-- Whether a token can follow a statement in a block. -/
def boundsStmt (kind : TokenKind) : Bool :=
  endsBlock kind || startsStmt kind || kind = .keyword .kwReturn

/-- Of what can follow a statement only a parenthesis can stand in an expression. -/
theorem boundsStmt_cases {kind : TokenKind} (h : boundsStmt kind = true) :
    binaryOp? kind = none ∧ kind ≠ .symbol .comma ∧ kind ≠ .symbol .equal ∧
      (startsSuffix kind = true → kind = .symbol .leftParen) := by
  cases kind with
  | name n => exact ⟨rfl, nofun, nofun, nofun⟩
  | symbol sign => cases sign <;> first | decide | cases h
  | keyword word => cases word <;> first | decide | cases h
  | eof => decide
  | number x => cases h
  | string literal => cases h

namespace Stmt

variable {s : Stmt} {kind : TokenKind}

/-- Whether a statement has the shape of one that was read, and is written word by word. -/
def IsWritten (s : Stmt) : Prop :=
  Written (Node.ofStmt (fun _ => true) s)

theorem IsWritten.shaped (h : s.IsWritten) : Node.IsShaped TokenKind.IsWhole (.stmt s) := by
  unfold IsWritten Node.ofStmt at h
  split at h <;> exact (Node.all_above_iff.1 h).1

/-- A parenthesis comes first only where the statement is said to start with it. -/
theorem IsWritten.starts (h : s.IsWritten) (hreturn : s.isReturn = false) (indent : String)
    (level : Nat) : ∃ kind rest, kinds (s.pieces indent level) = kind :: rest ∧
      startsStmt kind = true ∧ (kind = .symbol .leftParen ↔ s.startsParen = true) := by
  have hopens : ∀ {isParen kinds}, Expr.OpensPrimary isParen kinds → ∃ kind rest,
      kinds = kind :: rest ∧ startsStmt kind = true ∧
        (kind = .symbol .leftParen ↔ isParen = true) := by
    rintro isParen _ ⟨kind, rest, rfl, hkind, hparen⟩
    refine ⟨kind, rest, rfl, ?_, hparen⟩
    cases kind with
    | name n => rfl
    | symbol sign => cases sign <;> first | rfl | cases hkind
    | _ => cases hkind
  have hparts := h.shaped.parts
  -- Calls and assignments start as their first expression does, all others with a word.
  cases s with
  | call e =>
    rw [pieces, kinds_line]
    exact hopens (Expr.opensPrimary_pieces (Expr.takesSuffix_of_isCall hparts))
  | assign targets values =>
    obtain ⟨hne, -, hassignable⟩ := hparts
    obtain ⟨t, ts, rfl⟩ := List.exists_cons_of_ne_nil hne
    have htarget := Expr.takesSuffix_of_isAssignable (hassignable t List.mem_cons_self)
    rw [pieces, kinds_line, listPieces, List.append_assoc, List.append_assoc, kinds_append]
    exact hopens ((Expr.opensPrimary_pieces htarget).append _)
  | ret values => cases hreturn
  | localFunction n f => cases f; simp [pieces, startsStmt, startsParen]
  | functionDecl root path method f => cases f; simp [pieces, startsStmt, startsParen]
  | numericFor n start limit step b => cases step <;> simp [pieces, startsStmt, startsParen]
  | _ => simp [pieces, startsStmt, startsParen]

theorem follows_of_boundsStmt (hkind : boundsStmt kind = true)
    (hopen : s.endsOpen = true → kind ≠ .symbol .leftParen) : s.Follows kind := by
  obtain ⟨hbinary, hcomma, hequal, hsuffix⟩ := boundsStmt_cases hkind
  have hclose : s.endsOpen = true → startsSuffix kind = false := fun h =>
    Bool.eq_false_iff.2 fun hstarts => hopen h (hsuffix hstarts)
  have hlist : ∀ {values : List Expr}, (values.getLast?.any Expr.endsOpen = true →
      startsSuffix kind = false) → ListCloses values kind := by
    refine fun h => ⟨hcomma, fun e he => ⟨fun hopen => h ?_, hbinary⟩⟩
    rw [he, Option.any_some, hopen]
  cases s with
  | localVars names values => exact ⟨hlist hclose, fun _ => hequal⟩
  | assign targets values => exact hlist hclose
  | call e => exact ⟨⟨hclose, hbinary⟩, hequal, hcomma⟩
  | repeatLoop b c => exact ⟨hclose, hbinary⟩
  | _ => trivial

end Stmt

/-! ## Blocks -/

namespace Block

variable {s : Stmt} {b : Block}

/-- Whether a block has the shape of one that was read, and is written word by word. -/
structure IsWritten (b : Block) : Prop where
  returnsLast : b.ReturnsLast
  nodes : Written b.nodes

theorem IsWritten.head (h : IsWritten (s :: b)) : s.IsWritten :=
  (Node.all_append_iff.1 h.nodes).1

theorem IsWritten.tail (h : IsWritten (s :: b)) : b.IsWritten where
  returnsLast t ht := by
    cases b with
    | nil => cases ht
    | cons t' b => exact h.returnsLast t (List.mem_cons_of_mem s ht)
  nodes := (Node.all_append_iff.1 h.nodes).2

theorem IsWritten.isReturn (h : IsWritten (s :: b)) (hne : b ≠ []) : s.isReturn = false := by
  refine h.returnsLast s ?_
  rw [List.dropLast_cons_of_ne_nil hne]
  exact List.mem_cons_self

/-- What is written after a statement. -/
theorem IsWritten.firstIs (h : b.IsWritten) (indent : String) (level : Nat) :
    FirstIs (fun kind => boundsStmt kind = true ∧
        (kind = .symbol .leftParen → ∃ t ∈ b.head?, t.startsParen = true))
      (endsBlock · = true) (kinds (blockPieces indent level b)) := by
  cases b with
  | nil =>
    refine fun kind hkind => ⟨?_, ?_⟩
    · rw [boundsStmt, hkind]
      rfl
    · rintro rfl
      cases hkind
  | cons s b =>
    rw [blockPieces, kinds_append]
    cases hreturn : s.isReturn with
    | true =>
      cases s with
      | ret values =>
        rw [Stmt.pieces, kinds_line, kinds_kw]
        exact ⟨rfl, fun h => TokenKind.noConfusion h⟩
      | _ => cases hreturn
    | false =>
      obtain ⟨kind, rest, hkinds, hstarts, hparen⟩ := h.head.starts hreturn indent level
      rw [hkinds]
      refine ⟨?_, fun hkind => ⟨s, rfl, hparen.1 hkind⟩⟩
      simp [boundsStmt, hstarts]

theorem allSeparated_cons_iff : AllSeparated (s :: b) ↔
    (∀ t ∈ b.head?, ¬ s.Joins t) ∧ s.IsSeparated ∧ b.AllSeparated := by
  rw [AllSeparated, IsSeparated, List.isChain_cons, nodes, Node.ofStmts, Node.all_append_iff]
  exact ⟨fun h => ⟨h.1.1, h.2.1, h.1.2, h.2.2⟩, fun h => ⟨⟨h.1, h.2.2.1⟩, h.2.1, h.2.2.2⟩⟩

theorem count_marks_cons (s : Stmt) (b : Block) :
    Mark.count (marks (s :: b)) = Mark.count (Mark.ofStmt s) + Mark.count b.marks + 1 := by
  have hcons : marks (s :: b) = .statement s.kindName :: (Mark.ofStmt s ++ b.marks) := rfl
  rw [hcons, Mark.count, List.countP_cons_of_pos rfl, List.countP_append]
  rfl

theorem isRead_nil : IsRead [] := by
  intro indent level depth hdepth
  obtain ⟨depth, rfl⟩ : ∃ n, depth = n + 1 := ⟨depth - 1, by omega⟩
  rw [blockPieces, kinds_nil, block]
  refine reads_peek_nil fun token htoken => ?_
  rw [if_pos htoken]
  exact reads_next (.rfl ⟨List.isChain_nil, Node.all_nil⟩ rfl)

/-- A block with a first statement other than `return`. -/
theorem reads_block_of_starts {tokens : List TokenKind} {kind : TokenKind} {F : TokenKind → Prop}
    {S : Prop} {P : Block → Prop} {depth : Nat} (hkind : startsStmt kind = true)
    (h : Reads (do
      let s ← statement depth
      return s :: (← block depth)) (kind :: tokens) F S P pure) :
    Reads (block (depth + 1)) (kind :: tokens) F S P pure := by
  have hends : endsBlock kind = false := by
    revert hkind
    unfold startsStmt endsBlock
    grind
  have hsemicolon : kind ≠ .symbol .semicolon := by
    rintro rfl
    cases hkind
  have hreturn : kind ≠ .keyword .kwReturn := by
    rintro rfl
    cases hkind
  rw [block]
  refine reads_peek fun line => ?_
  simp only [hends, if_neg hsemicolon, if_neg hreturn]
  exact h

/-- A statement that does not go on with the next one. -/
theorem isRead_cons (hw : IsWritten (s :: b)) (hreturn : s.isReturn = false) (hs : s.IsRead)
    (hb : b.IsRead) (hjoins : ∀ t ∈ b.head?, ¬ s.Joins t) : IsRead (s :: b) := by
  intro indent level depth hdepth
  obtain ⟨kind, rest, hkinds, hstarts, -⟩ := hw.head.starts hreturn indent level
  have hlength : 1 ≤ (kinds (s.pieces indent level)).length := by
    rw [hkinds, List.length_cons]
    omega
  rw [blockPieces, kinds_append] at hdepth ⊢
  rw [List.length_append] at hdepth
  obtain ⟨depth, rfl⟩ : ∃ n, depth = n + 1 := ⟨depth - 1, by omega⟩
  suffices h : Reads (do
      let s ← statement depth
      return s :: (← block depth))
      (kinds (s.pieces indent level) ++ kinds (blockPieces indent level b)) (endsBlock · = true)
      (AllSeparated (s :: b)) (Rereads (s :: b)) pure by
    rw [hkinds, List.cons_append] at h ⊢
    exact reads_block_of_starts hstarts h
  refine (hs indent level depth (by omega)).bind (fun h => (allSeparated_cons_iff.1 h).2.1)
    ((hw.tail.firstIs indent level).imp ?_) fun v hv => ?_
  · rintro kind ⟨hbounds, hparen⟩
    refine Stmt.follows_of_boundsStmt hbounds fun hopen hkind => ?_
    obtain ⟨t, ht, hstarts⟩ := hparen hkind
    exact hjoins t ht ⟨hopen, hstarts⟩
  refine (hb indent level depth (by omega)).bind_nil (fun h => (allSeparated_cons_iff.1 h).2.2)
    (fun _ hkind => hkind) fun w hw => reads_next ?_
  refine ((hv.and hw).and (.rfl (n := 1) trivial trivial)).of (count_marks_cons s b)
    (count_marks_cons v w) ?_ ?_
  · rw [allSeparated_cons_iff]
    exact ⟨fun h => ⟨h.2, trivial⟩, fun h => ⟨hjoins, h.1⟩⟩
  · rintro ⟨⟨rfl, rfl⟩, -⟩
    rfl

/-- The values of a `return` are read up to the end of the block. -/
theorem reads_returnValues {values : List Expr} {depth : Nat} (h : ∀ e ∈ values, e.IsRead)
    (hdepth : 16 * (kinds (listPieces values)).length + 7 ≤ depth) :
    Reads (returnValues depth) (kinds (listPieces values)) (endsBlock · = true)
      (Node.All Node.IsSeparated (Node.ofExprs (fun _ => true) values))
      (fun v => ∃ vs, ExprsReread values vs ∧ v = .ret vs) pure := by
  obtain ⟨depth, rfl⟩ : ∃ n, depth = n + 1 := ⟨depth - 1, by omega⟩
  have hsemicolon : ∀ kind, endsBlock kind = true → kind ≠ .symbol .semicolon := by
    rintro _ hkind rfl
    cases hkind
  rw [returnValues]
  cases values with
  | nil =>
    refine reads_peek_nil fun token htoken => ?_
    simp only [htoken, Bool.true_or, if_true, pure_bind]
    exact reads_accept_not hsemicolon (reads_next ⟨[], exprsReread_nil, rfl⟩)
  | cons e values =>
    have hvalues := reads_expressionList (List.cons_ne_nil _ _) h (show _ ≤ depth by omega)
    obtain ⟨kind, rest, hkinds, hkind⟩ := opens_listPieces e values
    have hfirst : (endsBlock kind || decide (kind = .symbol .semicolon)) = false := by
      revert hkind
      unfold opensExpr endsBlock
      grind
    rw [hkinds] at hvalues ⊢
    refine reads_peek fun line => ?_
    simp only [hfirst, Bool.false_eq_true, if_false]
    refine hvalues.bind_nil id (fun kind hkind => ?_) fun vs hvs =>
      reads_accept_not hsemicolon (reads_next ⟨vs, hvs, rfl⟩)
    have hbounds : boundsStmt kind = true := by
      rw [boundsStmt, hkind]
      rfl
    obtain ⟨hbinary, hcomma, -, hsuffix⟩ := boundsStmt_cases hbounds
    refine ⟨hcomma, fun e _ => ⟨fun _ => Bool.eq_false_iff.2 fun hstarts => ?_, hbinary⟩⟩
    rw [hsuffix hstarts] at hkind
    cases hkind

/-- A block that is only a `return`. -/
theorem isRead_return {values : List Expr} (h : ∀ e ∈ values, e.IsRead) :
    IsRead [.ret values] := by
  intro indent level depth hdepth
  have hkinds : kinds (blockPieces indent level [.ret values]) =
      .keyword .kwReturn :: kinds (listPieces values) := by
    rw [blockPieces, blockPieces, List.append_nil, Stmt.pieces, kinds_line, kinds_kw]
    cases values <;> rfl
  have hseparated : AllSeparated [.ret values] ↔
      Node.All Node.IsSeparated (Node.ofExprs (fun _ => true) values) := by
    rw [allSeparated_cons_iff]
    refine ⟨fun h => (Expr.isSeparated_above rfl).1 h.2.1,
      fun h => ⟨fun _ ht => absurd ht (Option.not_mem_none _),
        (Expr.isSeparated_above rfl).2 h, List.isChain_nil, Node.all_nil⟩⟩
  rw [hkinds] at hdepth ⊢
  rw [List.length_cons] at hdepth
  obtain ⟨depth, rfl⟩ : ∃ n, depth = n + 1 := ⟨depth - 1, by omega⟩
  rw [block]
  refine reads_peek fun line => reads_advance ?_
  refine (reads_returnValues h (by omega)).bind_nil hseparated.1 (fun _ hkind => hkind) ?_
  rintro _ ⟨vs, hvs, rfl⟩
  refine reads_next ((hvs.counts.and (.rfl (n := 1) trivial trivial)).of ?_ ?_ ?_ ?_)
  · exact count_marks_cons (.ret values) []
  · exact count_marks_cons (.ret vs) []
  · exact hseparated.trans (and_iff_left trivial).symm
  · rintro ⟨rfl, -⟩
    rfl

end Block

end LuaUnpack.Lua
