import LuaUnpack.Proofs.Lua.ReadExpr

/-!
# Reading back lists of expressions

Lists of expressions, the arguments of calls, the entries of tables and the parameters of
functions, and the expressions that they are parts of.
-/

namespace LuaUnpack.Lua

open Piece LuaUnpack.Lua.Parser

/-! ## Lists of expressions -/

/-- Whether expressions are ones that can be read from the tokens of others. -/
structure ExprsReread (es vs : List Expr) : Prop where
  roles : vs.map Expr.role = es.map Expr.role
  counts : Rereads (Mark.count (Mark.ofExprs es)) (Mark.count (Mark.ofExprs vs))
    (Node.All Node.IsSeparated (Node.ofExprs (fun _ => true) es)) (vs = es)

theorem exprsReread_nil : ExprsReread [] [] := ⟨rfl, .rfl Node.all_nil rfl⟩

theorem ExprsReread.cons {e v : Expr} {es vs : List Expr} (h : e.Rereads v)
    (hs : ExprsReread es vs) : ExprsReread (e :: es) (v :: vs) where
  roles := congrArg₂ List.cons h.role hs.roles
  counts := by
    refine (h.counts.append hs.counts).of rfl rfl Node.all_append_iff ?_
    rintro ⟨rfl, rfl⟩
    rfl

/-- Whether a token can follow a list of expressions. -/
def ListCloses (es : List Expr) (kind : TokenKind) : Prop :=
  kind ≠ .symbol .comma ∧ ∀ e ∈ es.getLast?, e.Closes kind

attribute [local simp] listPieces moreListPieces fieldsPieces moreFieldsPieces Field.pieces

theorem Expr.closes_comma (e : Expr) : e.Closes (.symbol .comma) := ⟨fun _ => rfl, rfl⟩

theorem kinds_listPieces_cons_cons (e e' : Expr) (es : List Expr) :
    kinds (listPieces (e :: e' :: es)) =
      kinds e.pieces ++ .symbol .comma :: kinds (listPieces (e' :: es)) := by
  simp

theorem kinds_listPieces_singleton (e : Expr) : kinds (listPieces [e]) = kinds e.pieces := by
  simp

/-- Expressions with commas between them are read up to a token that is no comma. -/
theorem reads_expressionList {es : List Expr} {depth : Nat} (hne : es ≠ []) (h : ∀ e ∈ es, e.IsRead)
    (hdepth : 16 * (kinds (listPieces es)).length + 6 ≤ depth) :
    Reads (expressionList depth) (kinds (listPieces es)) (ListCloses es)
      (Node.All Node.IsSeparated (Node.ofExprs (fun _ => true) es)) (ExprsReread es) pure := by
  induction es generalizing depth with
  | nil => exact absurd rfl hne
  | cons e es ih =>
    obtain ⟨depth, rfl⟩ : ∃ n, depth = n + 1 := ⟨depth - 1, by omega⟩
    have he := h e List.mem_cons_self
    rw [expressionList]
    -- A comma goes on with the list, and only behind the last expression there is none.
    cases es with
    | nil =>
      rw [kinds_listPieces_singleton] at hdepth ⊢
      refine (he.expression (by omega)).bind_nil (fun h => (Node.all_append_iff.1 h).1)
        (fun kind hkind => hkind.2 e rfl) fun v hv => ?_
      refine reads_accept_else (fun kind hkind => hkind.1) (reads_next ?_)
      exact .cons hv exprsReread_nil
    | cons e' es =>
      rw [kinds_listPieces_cons_cons, List.length_append, List.length_cons] at hdepth
      rw [kinds_listPieces_cons_cons]
      refine (he.expression (by omega)).bind (fun h => (Node.all_append_iff.1 h).1)
        e.closes_comma fun v hv => reads_accept_then ?_
      refine (ih (List.cons_ne_nil _ _) (fun e he => h e (List.mem_cons_of_mem _ he))
        (by omega)).bind_nil (fun h => (Node.all_append_iff.1 h).2)
        (fun kind hkind => ⟨hkind.1, fun e he => hkind.2 e ?_⟩) fun vs hvs => reads_next (.cons hv hvs)
      rwa [List.getLast?_cons_cons]

/-! ## Calls -/

theorem opens_listPieces (e : Expr) (es : List Expr) :
    ∃ kind rest, kinds (listPieces (e :: es)) = kind :: rest ∧ opensExpr kind = true := by
  obtain ⟨kind, rest, hpieces, hkind, -⟩ := e.opens_pieces
  refine ⟨kind, kinds (rest ++ moreListPieces es), ?_, hkind⟩
  rw [listPieces, hpieces, List.cons_append, kinds_token]

/-- Arguments between parentheses. -/
theorem reads_arguments {args : List Expr} (h : ∀ e ∈ args, e.IsRead) {depth : Nat}
    (hdepth : 16 * (kinds (inParens (listPieces args))).length + 1 ≤ depth) :
    Reads (arguments depth) (kinds (inParens (listPieces args))) (fun _ => True)
      (Node.All Node.IsSeparated (Node.ofExprs (fun _ => true) args)) (ExprsReread args) pure := by
  obtain ⟨depth, rfl⟩ : ∃ n, depth = n + 1 := ⟨depth - 1, by omega⟩
  rw [kinds_inParens, List.length_cons, List.length_append] at hdepth
  rw [kinds_inParens, arguments]
  refine reads_peek fun line => reads_advance ?_
  -- No arguments are told by the closing parenthesis, with which no expression opens.
  cases args with
  | nil => exact reads_accept_then (reads_next exprsReread_nil)
  | cons e es =>
    obtain ⟨kind, rest, hkinds, hkind⟩ := opens_listPieces e es
    refine reads_accept_else ?_ ?_
    · rw [hkinds]
      rintro rfl
      cases hkind
    · refine (reads_expressionList (List.cons_ne_nil _ _) h (by omega)).bind id
        ⟨nofun, fun e _ => ⟨fun _ => rfl, rfl⟩⟩ fun vs hvs => ?_
      exact reads_expectSymbol (reads_next hvs)

namespace Expr

theorem isRead_call {f : Expr} {args : List Expr} (hf : f.IsRead) (hvararg : f ≠ .vararg)
    (h : ∀ e ∈ args, e.IsRead) : (Expr.call f args).IsRead := by
  have hpieces : (Expr.call f args).pieces =
      parensIf (!f.takesSuffix) f.pieces ++ inParens (listPieces args) := by rw [pieces]
  have hseparated : (Expr.call f args).IsSeparated ↔ f.IsSeparated ∧
      Node.All Node.IsSeparated (Node.ofExprs (fun _ => true) args) :=
    (isSeparated_above rfl).trans Node.all_append_iff
  refine isRead_of_suffix hf hvararg rfl hpieces (fun h => (hseparated.1 h).1)
    (by rw [kinds_inParens]; exact List.cons_ne_nil _ _) fun depth v hv hdepth => ?_
  have harguments := reads_arguments h hdepth
  rw [kinds_inParens] at harguments ⊢
  rw [suffixes]
  refine reads_peek fun line => ?_
  refine harguments.bind_nil (fun h => (hseparated.1 h).2) (fun _ _ => trivial) fun vs hvs =>
    reads_next ⟨rfl, ?_⟩
  refine (hv.counts.append hvs.counts).of rfl rfl hseparated ?_
  rintro ⟨rfl, rfl⟩
  rfl

theorem isRead_methodCall {o : Expr} {m : String} {args : List Expr} (ho : o.IsRead)
    (hvararg : o ≠ .vararg) (h : ∀ e ∈ args, e.IsRead) : (Expr.methodCall o m args).IsRead := by
  have hpieces : (Expr.methodCall o m args).pieces = parensIf (!o.takesSuffix) o.pieces ++
      sym .colon :: ident m :: inParens (listPieces args) := by rw [pieces]
  have hseparated : (Expr.methodCall o m args).IsSeparated ↔ o.IsSeparated ∧
      Node.All Node.IsSeparated (Node.ofExprs (fun _ => true) args) :=
    (isSeparated_above rfl).trans Node.all_append_iff
  refine isRead_of_suffix ho hvararg rfl hpieces (fun h => (hseparated.1 h).1)
    (List.cons_ne_nil _ _) fun depth v hv hdepth => ?_
  simp only [kinds_sym, kinds_ident, List.length_cons] at hdepth ⊢
  rw [suffixes]
  refine reads_peek fun line => reads_advance (reads_expectName ?_)
  refine (reads_arguments h (by omega)).bind_nil (fun h => (hseparated.1 h).2)
    (fun _ _ => trivial) fun vs hvs => reads_next ⟨rfl, ?_⟩
  refine (hv.counts.append hvs.counts).of rfl rfl hseparated ?_
  rintro ⟨rfl, rfl⟩
  rfl

end Expr

/-! ## Tables -/

namespace Field

/-- Whether all blocks in a table entry are separated. -/
def IsSeparated (f : Field) : Prop := Node.All Node.IsSeparated (Node.ofField (fun _ => true) f)

/-- Whether an entry is one that can be read from the tokens of another. -/
def Rereads (f v : Field) : Prop :=
  Lua.Rereads (Mark.count (Mark.ofField f)) (Mark.count (Mark.ofField v)) f.IsSeparated (v = f)

/-- What is read from the tokens of a table entry. -/
structure IsRead (f : Field) : Prop where
  first : ∃ kind rest, kinds f.pieces = kind :: rest ∧ kind ≠ .symbol .rightBrace
  field : ∀ depth, 16 * (kinds f.pieces).length + 6 ≤ depth →
    Reads (Parser.field depth) (kinds f.pieces)
      (fun kind => kind = .symbol .comma ∨ kind = .symbol .rightBrace) f.IsSeparated f.Rereads pure

theorem closes_of_ends {e : Expr} {kind : TokenKind}
    (h : kind = .symbol .comma ∨ kind = .symbol .rightBrace) : e.Closes kind := by
  rcases h with rfl | rfl <;> exact ⟨fun _ => rfl, rfl⟩

theorem isRead_positional {e : Expr} (h : e.IsRead) : (Field.positional e).IsRead where
  first := by
    obtain ⟨kind, rest, hpieces, hkind, -⟩ := e.opens_pieces
    refine ⟨kind, kinds rest, by rw [pieces, hpieces, kinds_token], ?_⟩
    rintro rfl
    cases hkind
  field depth hdepth := by
    obtain ⟨depth, rfl⟩ : ∃ n, depth = n + 1 := ⟨depth - 1, by omega⟩
    rw [pieces] at hdepth ⊢
    have hread : Reads (do return .positional (← Parser.expression depth)) (kinds e.pieces)
        (fun kind => kind = .symbol .comma ∨ kind = .symbol .rightBrace)
        (Field.positional e).IsSeparated (Field.positional e).Rereads pure :=
      (h.expression (by omega)).bind_nil id (fun _ => closes_of_ends) fun v hv =>
        reads_next (hv.counts.of rfl rfl Iff.rfl (congrArg positional))
    rw [Parser.field]
    refine reads_get fun tokens rest htokens hrest => ?_
    -- What follows a name is the second token of the expression or the token after it.
    obtain ⟨kind, rest', hpieces, hkind, hname⟩ := e.opens_pieces
    rw [hpieces, kinds_token] at htokens
    obtain ⟨token, tokens, rfl, rfl, htokens'⟩ := List.map_eq_cons_iff.1 htokens
    rw [← htokens'] at hname
    dsimp only [List.cons_append, head, List.tail_cons]
    split
    · rename_i heq
      rw [heq] at hkind
      cases hkind
    · rename_i heq heq'
      cases tokens with
      | nil =>
        change (head rest).kind = _ at heq'
        rw [heq'] at hrest
        rcases hrest with h | h <;> cases h
      | cons token' tokens => exact absurd (congrArg some heq') (hname _ heq)
    · exact hread

theorem isRead_named {n : String} {e : Expr} (h : e.IsRead) : (Field.named n e).IsRead where
  first := ⟨.name n, _, rfl, nofun⟩
  field depth hdepth := by
    obtain ⟨depth, rfl⟩ : ∃ n, depth = n + 1 := ⟨depth - 1, by omega⟩
    simp only [pieces, List.cons_append, List.nil_append, kinds_ident, kinds_blank, kinds_sym,
      List.length_cons] at hdepth ⊢
    rw [Parser.field]
    refine reads_get fun tokens rest htokens hrest => ?_
    obtain ⟨⟨_, line⟩, tokens, rfl, rfl, hrest'⟩ := List.map_eq_cons_iff.1 htokens
    obtain ⟨⟨_, line'⟩, tokens, rfl, rfl, -⟩ := List.map_eq_cons_iff.1 hrest'
    refine reads_advance (reads_advance ?_)
    exact (h.expression (by omega)).bind_nil id (fun _ => closes_of_ends) fun v hv =>
      reads_next (hv.counts.of rfl rfl Iff.rfl (congrArg (named n)))

theorem isRead_keyed {k e : Expr} (hk : k.IsRead) (he : e.IsRead) : (Field.keyed k e).IsRead where
  first := ⟨.symbol .leftBracket, _, rfl, nofun⟩
  field depth hdepth := by
    obtain ⟨depth, rfl⟩ : ∃ n, depth = n + 1 := ⟨depth - 1, by omega⟩
    simp only [pieces, List.cons_append, List.append_assoc, List.nil_append, kinds_append,
      kinds_blank, kinds_sym, List.length_cons, List.length_append] at hdepth ⊢
    rw [Parser.field]
    refine reads_get fun tokens rest htokens hrest => ?_
    obtain ⟨⟨_, line⟩, tokens, rfl, rfl, -⟩ := List.map_eq_cons_iff.1 htokens
    refine reads_advance ?_
    refine (hk.expression (by omega)).bind (fun h => (Node.all_append_iff.1 h).1)
      ⟨fun _ => rfl, rfl⟩ fun v hv => reads_expectSymbol (reads_expectSymbol ?_)
    refine (he.expression (by omega)).bind_nil (fun h => (Node.all_append_iff.1 h).2)
      (fun _ => closes_of_ends) fun w hw => reads_next ?_
    refine (hv.counts.append hw.counts).of rfl rfl Node.all_append_iff ?_
    rintro ⟨rfl, rfl⟩
    rfl

end Field

/-- Whether entries are ones that can be read from the tokens of others. -/
def FieldsReread (fs vs : List Field) : Prop :=
  Rereads (Mark.count (Mark.ofFields fs)) (Mark.count (Mark.ofFields vs))
    (Node.All Node.IsSeparated (Node.ofFields (fun _ => true) fs)) (vs = fs)

theorem fieldsReread_nil : FieldsReread [] [] := .rfl Node.all_nil rfl

theorem FieldsReread.cons {f v : Field} {fs vs : List Field} (h : f.Rereads v)
    (hs : FieldsReread fs vs) : FieldsReread (f :: fs) (v :: vs) := by
  refine (h.append hs).of rfl rfl Node.all_append_iff ?_
  rintro ⟨rfl, rfl⟩
  rfl

theorem kinds_fieldsPieces_cons_cons (f f' : Field) (fs : List Field) :
    kinds (fieldsPieces (f :: f' :: fs)) =
      kinds f.pieces ++ .symbol .comma :: kinds (fieldsPieces (f' :: fs)) := by
  simp

theorem kinds_fieldsPieces_singleton (f : Field) : kinds (fieldsPieces [f]) = kinds f.pieces := by
  simp

/-- Table entries are read up to the closing brace. -/
theorem reads_fields {fs : List Field} {depth : Nat} (h : ∀ f ∈ fs, f.IsRead)
    (hdepth : 16 * (kinds (fieldsPieces fs)).length + 7 ≤ depth) :
    Reads (fields depth) (kinds (fieldsPieces fs)) (· = .symbol .rightBrace)
      (Node.All Node.IsSeparated (Node.ofFields (fun _ => true) fs)) (FieldsReread fs) pure := by
  induction fs generalizing depth with
  | nil =>
    obtain ⟨depth, rfl⟩ : ∃ n, depth = n + 1 := ⟨depth - 1, by omega⟩
    rw [fields]
    refine reads_peek_nil fun token htoken => ?_
    rw [if_pos htoken]
    exact reads_next fieldsReread_nil
  | cons f fs ih =>
    obtain ⟨depth, rfl⟩ : ∃ n, depth = n + 1 := ⟨depth - 1, by omega⟩
    have hf := h f List.mem_cons_self
    obtain ⟨kind, rest, hkinds, hkind⟩ := hf.first
    -- The first token is no closing brace, so an entry is read.
    suffices hentry : Reads (do
        let entry ← field depth
        if ← accept (.symbol .comma) then return entry :: (← fields depth)
        else if ← accept (.symbol .semicolon) then return entry :: (← fields depth)
        else return [entry]) (kinds (fieldsPieces (f :: fs))) (· = .symbol .rightBrace)
        (Node.All Node.IsSeparated (Node.ofFields (fun _ => true) (f :: fs)))
        (FieldsReread (f :: fs)) pure by
      rw [fieldsPieces, kinds_append, hkinds, List.cons_append] at hentry ⊢
      rw [fields]
      refine reads_peek fun line => ?_
      rw [if_neg hkind]
      exact hentry
    cases fs with
    | nil =>
      rw [kinds_fieldsPieces_singleton] at hdepth ⊢
      refine (hf.field depth (by omega)).bind_nil (fun h => (Node.all_append_iff.1 h).1)
        (fun _ => .inr) fun v hv => ?_
      refine reads_accept_else (fun kind hkind => by rw [hkind]; nofun) ?_
      refine reads_accept_else (fun kind hkind => by rw [hkind]; nofun) (reads_next ?_)
      exact .cons hv fieldsReread_nil
    | cons f' fs =>
      rw [kinds_fieldsPieces_cons_cons, List.length_append, List.length_cons] at hdepth
      rw [kinds_fieldsPieces_cons_cons]
      refine (hf.field depth (by omega)).bind (fun h => (Node.all_append_iff.1 h).1)
        (.inl rfl) fun v hv => reads_accept_then ?_
      refine (ih (fun f hf => h f (List.mem_cons_of_mem _ hf)) (by omega)).bind_nil
        (fun h => (Node.all_append_iff.1 h).2) (fun _ hkind => hkind) fun vs hvs =>
          reads_next (.cons hv hvs)

theorem Expr.isRead_table {fs : List Field} (h : ∀ f ∈ fs, f.IsRead) : (Expr.table fs).IsRead := by
  have hkinds : kinds (Expr.table fs).pieces =
      .symbol .leftBrace :: (kinds (fieldsPieces fs) ++ [TokenKind.symbol .rightBrace]) := by
    simp [pieces]
  refine isRead_of_simple rfl (by rw [hkinds]; rfl) (by rw [hkinds]; exact List.cons_ne_nil _ _)
    fun depth hdepth => ?_
  rw [hkinds] at hdepth ⊢
  simp only [List.length_cons, List.length_append] at hdepth
  obtain ⟨depth, rfl⟩ : ∃ n, depth = n + 2 := ⟨depth - 2, by omega⟩
  rw [simple]
  refine reads_peek fun line => ?_
  change Reads (Parser.table (depth + 1)) _ _ _ _ _
  rw [Parser.table]
  refine reads_expectSymbol ?_
  refine (reads_fields h (by omega)).bind (isSeparated_above rfl).1 rfl fun vs hvs =>
    reads_expectSymbol (reads_next ⟨rfl, ?_⟩)
  exact hvs.of rfl rfl (isSeparated_above rfl) (congrArg Expr.table)

end LuaUnpack.Lua
