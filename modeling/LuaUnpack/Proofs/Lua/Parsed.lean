import LuaUnpack.Proofs.Lua.Reading
import LuaUnpack.Proofs.Lua.Shape

/-!
# The shape of what is read

Every tree that is read has the shape that `Node.IsShaped` describes, with the names, numbers
and strings of its tokens (`Parser.shapes`). What a reader gives is followed through its
steps (`Gives`), and through the depth of the calls by induction.
-/

namespace LuaUnpack.Lua

namespace Parser

/-! ## What readers give -/

section

variable {α β : Type} {W : TokenKind → Prop} {P Q : α → Prop} {R : β → Prop}

/-- Whether a reader gives only values with a property, and leaves only tokens with one, if it
    is given such tokens. -/
def Gives (W : TokenKind → Prop) (act : Parser α) (P : α → Prop) : Prop :=
  ∀ tokens a rest, (∀ token ∈ tokens, W token.kind) → act.run tokens = .ok (a, rest) →
    P a ∧ ∀ token ∈ rest, W token.kind

theorem gives_pure {a : α} (h : P a) : Gives W (pure a) P := by
  rintro tokens _ _ htokens ⟨⟩
  exact ⟨h, htokens⟩

theorem gives_fail (error : ParseError) : Gives W (fail error) P := by
  rintro tokens _ _ _ ⟨⟩

theorem Gives.bind {act : Parser α} {f : α → Parser β} (h : Gives W act P)
    (hf : ∀ a, P a → Gives W (f a) R) : Gives W (act >>= f) R := by
  intro tokens b rest htokens hrun
  rw [StateT.run_bind] at hrun
  cases hact : act.run tokens with
  | error e =>
    rw [hact] at hrun
    cases hrun
  | ok result =>
    obtain ⟨a, middle⟩ := result
    obtain ⟨ha, hmiddle⟩ := h tokens a middle htokens hact
    rw [hact] at hrun
    exact hf a ha middle b rest hmiddle hrun

theorem Gives.mono {act : Parser α} (h : Gives W act P) (hPQ : ∀ a, P a → Q a) : Gives W act Q :=
  fun tokens a rest htokens hrun =>
    ⟨hPQ a (h tokens a rest htokens hrun).1, (h tokens a rest htokens hrun).2⟩

theorem gives_get {f : List Token → Parser β}
    (h : ∀ tokens, (∀ token ∈ tokens, W token.kind) → Gives W (f tokens) R) :
    Gives W (get >>= f) R :=
  fun tokens b rest htokens hrun => h tokens htokens tokens b rest htokens hrun

theorem gives_peek {f : Token → Parser β} (heof : W .eof)
    (h : ∀ token, W token.kind → Gives W (f token) R) : Gives W (peek >>= f) R := by
  intro tokens b rest htokens hrun
  refine h (head tokens) ?_ tokens b rest htokens hrun
  cases tokens with
  | nil => exact heof
  | cons token tokens => exact htokens token List.mem_cons_self

theorem gives_advance {f : Unit → Parser β} (h : Gives W (f ()) R) : Gives W (advance >>= f) R :=
  fun tokens b rest htokens hrun =>
    h tokens.tail b rest (fun token htoken => htokens token (List.mem_of_mem_tail htoken)) hrun

theorem gives_accept {kind : TokenKind} {f : Bool → Parser β} (h : ∀ taken, Gives W (f taken) R) :
    Gives W (accept kind >>= f) R := by
  intro tokens b rest htokens hrun
  rw [StateT.run_bind] at hrun
  by_cases hkind : (head tokens).kind = kind
  · rw [run_accept_of_eq hkind] at hrun
    exact h true tokens.tail b rest
      (fun token htoken => htokens token (List.mem_of_mem_tail htoken)) hrun
  · rw [run_accept_of_ne hkind] at hrun
    exact h false tokens b rest htokens hrun

theorem gives_expect {kind : TokenKind} {what : String} {f : Unit → Parser β} (heof : W .eof)
    (h : Gives W (f ()) R) : Gives W (expect kind what >>= f) R := by
  rw [expect, bind_assoc]
  refine gives_accept fun taken => ?_
  cases taken with
  | true => exact h
  | false =>
    change Gives W (expectedInstead what >>= f) R
    rw [expectedInstead, bind_assoc]
    exact gives_peek heof fun token _ => (gives_fail (P := fun _ => True) _).bind fun _ _ => h

theorem gives_expectName {f : String → Parser β} (heof : W .eof)
    (h : ∀ name, W (.name name) → Gives W (f name) R) : Gives W (expectName >>= f) R := by
  rw [expectName, bind_assoc]
  refine gives_peek heof fun token htoken => ?_
  split
  · rename_i name hname
    rw [bind_assoc]
    refine gives_advance ?_
    rw [pure_bind]
    exact h name (hname ▸ htoken)
  · rw [expectedInstead, bind_assoc]
    exact gives_peek heof fun token _ => (gives_fail (P := fun _ => False) _).bind fun _ => False.elim

theorem gives_unexpected (heof : W .eof) : Gives W unexpected P :=
  gives_peek heof fun _ _ => gives_fail _

/-! ## Names -/

theorem gives_namesAfter (heof : W .eof) (separator : Symbol) (depth : Nat) :
    Gives W (namesAfter separator depth) fun names => ∀ n ∈ names, W (.name n) := by
  induction depth with
  | zero => exact gives_fail _
  | succ depth ih =>
    rw [namesAfter]
    refine gives_accept fun taken => ?_
    split
    · refine gives_expectName heof fun name hname => ih.bind fun names hnames => gives_pure ?_
      exact List.forall_mem_cons.2 ⟨hname, hnames⟩
    · exact gives_pure fun _ h => absurd h List.not_mem_nil

theorem gives_params (heof : W .eof) (depth : Nat) :
    Gives W (params depth) fun params => ∀ n ∈ params.1, W (.name n) := by
  induction depth with
  | zero => exact gives_fail _
  | succ depth ih =>
    rw [params]
    refine gives_accept fun taken => ?_
    split
    · exact gives_pure fun _ h => absurd h List.not_mem_nil
    refine gives_expectName heof fun name hname => gives_accept fun taken => ?_
    split
    · refine ih.bind fun params hparams => gives_pure ?_
      exact List.forall_mem_cons.2 ⟨hname, hparams⟩
    · exact gives_pure (List.forall_mem_cons.2 ⟨hname, fun _ h => absurd h List.not_mem_nil⟩)

theorem gives_paramList (heof : W .eof) (depth : Nat) :
    Gives W (paramList depth) fun params => ∀ n ∈ params.1, W (.name n) := by
  rw [paramList]
  refine gives_expect heof (gives_peek heof fun token _ => ?_)
  split
  · rw [pure_bind]
    exact gives_expect heof (gives_pure fun _ h => absurd h List.not_mem_nil)
  · exact (gives_params heof depth).bind fun params hparams =>
      gives_expect heof (gives_pure hparams)

end

/-! ## The readers -/

/-- Whether the nodes of a part of a tree have the shape of ones that were read. -/
abbrev Shaped (W : TokenKind → Prop) (nodes : List Node) : Prop := Node.All (Node.IsShaped W) nodes

/-- What all readers give at a depth. -/
structure Shapes (W : TokenKind → Prop) (depth : Nat) : Prop where
  block : Gives W (block depth) fun b => Block.ReturnsLast b ∧ Shaped W (Block.nodes b)
  statement : Gives W (statement depth) fun s =>
    s.isReturn = false ∧ Shaped W (Node.ofStmt (fun _ => true) s)
  localStatement : Gives W (localStatement depth) fun s =>
    s.isReturn = false ∧ Shaped W (Node.ofStmt (fun _ => true) s)
  functionStatement : Gives W (functionStatement depth) fun s =>
    s.isReturn = false ∧ Shaped W (Node.ofStmt (fun _ => true) s)
  forStatement : Gives W (forStatement depth) fun s =>
    s.isReturn = false ∧ Shaped W (Node.ofStmt (fun _ => true) s)
  expressionStatement : Gives W (expressionStatement depth) fun s =>
    s.isReturn = false ∧ Shaped W (Node.ofStmt (fun _ => true) s)
  returnValues : Gives W (returnValues depth) fun s => Shaped W (Node.ofStmt (fun _ => true) s)
  funcBody : Gives W (funcBody depth) fun f =>
    (∀ n ∈ f.params, W (.name n)) ∧ Block.ReturnsLast f.body ∧ Shaped W (Block.nodes f.body)
  clause : Gives W (clause depth) fun c => Shaped W (Node.ofExpr (fun _ => true) c.1) ∧
    Block.ReturnsLast c.2 ∧ Shaped W (Block.nodes c.2)
  elsePart : Gives W (elsePart depth) fun o =>
    (∀ body ∈ o.bodies, body.ReturnsLast) ∧ Shaped W (Node.ofElse (fun _ => true) o)
  moreTargets : Gives W (moreTargets depth) fun es => Shaped W (Node.ofExprs (fun _ => true) es)
  expressionList : Gives W (expressionList depth) fun es =>
    es ≠ [] ∧ Shaped W (Node.ofExprs (fun _ => true) es)
  expression : Gives W (expression depth) fun e => Shaped W (Node.ofExpr (fun _ => true) e)
  operand : ∀ limit, Gives W (operand depth limit) fun e => Shaped W (Node.ofExpr (fun _ => true) e)
  chain : ∀ limit left, Shaped W (Node.ofExpr (fun _ => true) left) →
    Gives W (chain depth limit left) fun e => Shaped W (Node.ofExpr (fun _ => true) e)
  simple : Gives W (simple depth) fun e => Shaped W (Node.ofExpr (fun _ => true) e)
  primary : Gives W (primary depth) fun e =>
    e ≠ .vararg ∧ Shaped W (Node.ofExpr (fun _ => true) e)
  suffixed : Gives W (suffixed depth) fun e =>
    e ≠ .vararg ∧ Shaped W (Node.ofExpr (fun _ => true) e)
  suffixes : ∀ e, e ≠ .vararg → Shaped W (Node.ofExpr (fun _ => true) e) →
    Gives W (suffixes depth e) fun e => e ≠ .vararg ∧ Shaped W (Node.ofExpr (fun _ => true) e)
  arguments : Gives W (arguments depth) fun es => Shaped W (Node.ofExprs (fun _ => true) es)
  table : Gives W (table depth) fun e => Shaped W (Node.ofExpr (fun _ => true) e)
  fields : Gives W (fields depth) fun fs =>
    (∀ n ∈ fs.filterMap Node.fieldName?, W (.name n)) ∧ Shaped W (Node.ofFields (fun _ => true) fs)
  field : Gives W (field depth) fun f =>
    (∀ n ∈ Node.fieldName? f, W (.name n)) ∧ Shaped W (Node.ofField (fun _ => true) f)

theorem shapes_zero (W : TokenKind → Prop) : Shapes W 0 := by
  constructor
  all_goals first
    | exact gives_fail _
    | exact fun _ => gives_fail _
    | exact fun _ _ _ => gives_fail _

/-! ### Expressions -/

section

variable {W : TokenKind → Prop} {depth : Nat}

/-- A token that is an expression is a word of it. -/
theorem shaped_atom {kind : TokenKind} {e : Expr} (hkind : W kind) (hatom : atom? kind = some e) :
    Shaped W (Node.ofExpr (fun _ => true) e) := by
  unfold atom? at hatom
  split at hatom <;> cases hatom
  all_goals
    refine Node.all_above_iff.2 ⟨⟨?_, trivial, nofun⟩, Node.all_nil⟩
    first
      | exact List.forall_mem_singleton.2 hkind
      | exact nofun

theorem Shapes.expressionList_succ (h : Shapes W depth) :
    Gives W (Parser.expressionList (depth + 1)) fun es =>
      es ≠ [] ∧ Shaped W (Node.ofExprs (fun _ => true) es) := by
  rw [Parser.expressionList]
  refine h.expression.bind fun e he => gives_accept fun taken => ?_
  split
  · refine h.expressionList.bind fun es hes => gives_pure ?_
    exact ⟨List.cons_ne_nil _ _, Node.all_append_iff.2 ⟨he, hes.2⟩⟩
  · exact gives_pure ⟨List.cons_ne_nil _ _, Node.all_append_iff.2 ⟨he, Node.all_nil⟩⟩

theorem Shapes.moreTargets_succ (h : Shapes W depth) :
    Gives W (Parser.moreTargets (depth + 1)) fun es =>
      Shaped W (Node.ofExprs (fun _ => true) es) := by
  rw [Parser.moreTargets]
  refine gives_accept fun taken => ?_
  split
  · refine h.suffixed.bind fun e he => h.moreTargets.bind fun es hes => gives_pure ?_
    exact Node.all_append_iff.2 ⟨he.2, hes⟩
  · exact gives_pure Node.all_nil

theorem Shapes.operand_succ (h : Shapes W depth) (heof : W .eof) (limit : Nat) :
    Gives W (Parser.operand (depth + 1) limit) fun e =>
      Shaped W (Node.ofExpr (fun _ => true) e) := by
  rw [Parser.operand]
  refine gives_peek heof fun token _ => ?_
  split
  · refine gives_advance ((h.operand _).bind fun e he => h.chain _ _ ?_)
    exact Node.all_above_iff.2 ⟨⟨nofun, trivial, nofun⟩, he⟩
  · exact h.simple.bind fun e he => h.chain _ _ he

theorem Shapes.chain_succ (h : Shapes W depth) (heof : W .eof) (limit : Nat) (left : Expr)
    (hleft : Shaped W (Node.ofExpr (fun _ => true) left)) :
    Gives W (Parser.chain (depth + 1) limit left) fun e =>
      Shaped W (Node.ofExpr (fun _ => true) e) := by
  rw [Parser.chain]
  refine gives_peek heof fun token _ => ?_
  split
  · split
    · exact gives_pure hleft
    · refine gives_advance ((h.operand _).bind fun e he => h.chain _ _ ?_)
      exact Node.all_above_iff.2 ⟨⟨nofun, trivial, nofun⟩, Node.all_append_iff.2 ⟨hleft, he⟩⟩
  · exact gives_pure hleft

theorem Shapes.simple_succ (h : Shapes W depth) (heof : W .eof) :
    Gives W (Parser.simple (depth + 1)) fun e => Shaped W (Node.ofExpr (fun _ => true) e) := by
  rw [Parser.simple]
  refine gives_peek heof fun token htoken => ?_
  dsimp only
  split
  · rename_i e hatom
    exact gives_advance (gives_pure (shaped_atom htoken hatom))
  · split
    · exact h.table
    · split
      · refine gives_advance (h.funcBody.bind fun f hf => gives_pure ?_)
        obtain ⟨hparams, hreturns, hbody⟩ := hf
        obtain ⟨params, isVararg, body⟩ := f
        exact Node.all_above_iff.2 ⟨⟨List.forall_mem_map.2 hparams, trivial,
          List.forall_mem_singleton.2 hreturns⟩, hbody⟩
      · exact h.suffixed.mono fun e he => he.2

theorem Shapes.primary_succ (h : Shapes W depth) (heof : W .eof) :
    Gives W (Parser.primary (depth + 1)) fun e =>
      e ≠ .vararg ∧ Shaped W (Node.ofExpr (fun _ => true) e) := by
  rw [Parser.primary]
  refine gives_peek heof fun token htoken => ?_
  split
  · rename_i text hkind
    refine gives_advance (gives_pure ⟨nofun, ?_⟩)
    refine Node.all_above_iff.2 ⟨⟨?_, trivial, nofun⟩, Node.all_nil⟩
    exact List.forall_mem_singleton.2 (hkind ▸ htoken)
  · refine gives_advance (h.expression.bind fun e he => gives_expect heof (gives_pure ?_))
    -- Parentheses are kept around what has many values, elsewhere the expression stands alone.
    rw [parenthesized]
    split
    · rename_i hmultiple
      exact ⟨nofun, Node.all_above_iff.2 ⟨⟨nofun, hmultiple, nofun⟩, he⟩⟩
    · rename_i hmultiple
      refine ⟨?_, he⟩
      rintro rfl
      exact hmultiple rfl
  · exact gives_unexpected heof

theorem Shapes.suffixed_succ (h : Shapes W depth) : Gives W (Parser.suffixed (depth + 1)) fun e =>
    e ≠ .vararg ∧ Shaped W (Node.ofExpr (fun _ => true) e) := by
  rw [Parser.suffixed]
  exact h.primary.bind fun e he => h.suffixes e he.1 he.2

theorem Shapes.suffixes_succ (h : Shapes W depth) (heof : W .eof) (e : Expr) (hne : e ≠ .vararg)
    (he : Shaped W (Node.ofExpr (fun _ => true) e)) :
    Gives W (Parser.suffixes (depth + 1) e) fun e =>
      e ≠ .vararg ∧ Shaped W (Node.ofExpr (fun _ => true) e) := by
  have hcall : ∀ args, Shaped W (Node.ofExprs (fun _ => true) args) →
      Shaped W (Node.ofExpr (fun _ => true) (.call e args)) := fun args hargs =>
    Node.all_above_iff.2 ⟨⟨nofun, hne, nofun⟩, Node.all_append_iff.2 ⟨he, hargs⟩⟩
  rw [Parser.suffixes]
  refine gives_peek heof fun token _ => ?_
  -- One suffix is taken, and the reader goes on with an expression that is no vararg.
  split
  · refine gives_advance (gives_expectName heof fun key hkey => h.suffixes _ nofun ?_)
    exact Node.all_above_iff.2 ⟨⟨List.forall_mem_singleton.2 hkey, hne, nofun⟩, he⟩
  · refine gives_advance (h.expression.bind fun key hkey => gives_expect heof
      (h.suffixes _ nofun ?_))
    exact Node.all_above_iff.2 ⟨⟨nofun, hne, nofun⟩, Node.all_append_iff.2 ⟨he, hkey⟩⟩
  · refine gives_advance (gives_expectName heof fun method hmethod =>
      h.arguments.bind fun args hargs => h.suffixes _ nofun ?_)
    exact Node.all_above_iff.2 ⟨⟨List.forall_mem_singleton.2 hmethod, hne, nofun⟩,
      Node.all_append_iff.2 ⟨he, hargs⟩⟩
  · exact h.arguments.bind fun args hargs => h.suffixes _ nofun (hcall args hargs)
  · exact h.arguments.bind fun args hargs => h.suffixes _ nofun (hcall args hargs)
  · exact h.arguments.bind fun args hargs => h.suffixes _ nofun (hcall args hargs)
  · exact gives_pure ⟨hne, he⟩

theorem Shapes.arguments_succ (h : Shapes W depth) (heof : W .eof) :
    Gives W (Parser.arguments (depth + 1)) fun es =>
      Shaped W (Node.ofExprs (fun _ => true) es) := by
  rw [Parser.arguments]
  refine gives_peek heof fun token htoken => ?_
  split
  · rename_i literal hkind
    have hatom : Shaped W (Node.ofExpr (fun _ => true) (.string literal)) :=
      shaped_atom (show W (.string literal) from hkind ▸ htoken) rfl
    exact gives_advance (gives_pure (Node.all_append_iff.2 ⟨hatom, Node.all_nil⟩))
  · exact h.table.bind fun e he => gives_pure (Node.all_append_iff.2 ⟨he, Node.all_nil⟩)
  · refine gives_advance (gives_accept fun taken => ?_)
    split
    · exact gives_pure Node.all_nil
    · exact h.expressionList.bind fun es hes => gives_expect heof (gives_pure hes.2)
  · exact gives_unexpected heof

/-! ### Tables -/

theorem Shapes.table_succ (h : Shapes W depth) (heof : W .eof) :
    Gives W (Parser.table (depth + 1)) fun e => Shaped W (Node.ofExpr (fun _ => true) e) := by
  rw [Parser.table]
  refine gives_expect heof (h.fields.bind fun fs hfs => gives_expect heof (gives_pure ?_))
  exact Node.all_above_iff.2 ⟨⟨List.forall_mem_map.2 hfs.1, trivial, nofun⟩, hfs.2⟩

theorem Shapes.fields_succ (h : Shapes W depth) (heof : W .eof) :
    Gives W (Parser.fields (depth + 1)) fun fs =>
      (∀ n ∈ fs.filterMap Node.fieldName?, W (.name n)) ∧
        Shaped W (Node.ofFields (fun _ => true) fs) := by
  have hcons : ∀ f fs, (∀ n ∈ Node.fieldName? f, W (.name n)) →
      (∀ n ∈ fs.filterMap Node.fieldName?, W (.name n)) →
      ∀ n ∈ (f :: fs).filterMap Node.fieldName?, W (.name n) := by
    intro f fs hf hfs n hn
    obtain ⟨g, hg, hname⟩ := List.mem_filterMap.1 hn
    obtain rfl | hg := List.mem_cons.1 hg
    · exact hf n hname
    · exact hfs n (List.mem_filterMap.2 ⟨g, hg, hname⟩)
  rw [Parser.fields]
  refine gives_peek heof fun token _ => ?_
  split
  · exact gives_pure ⟨nofun, Node.all_nil⟩
  -- After an entry comes a comma, a semicolon, or the end of the table.
  refine h.field.bind fun f hf => gives_accept fun taken => ?_
  split
  · refine h.fields.bind fun fs hfs => gives_pure ?_
    exact ⟨hcons f fs hf.1 hfs.1, Node.all_append_iff.2 ⟨hf.2, hfs.2⟩⟩
  refine gives_accept fun taken => ?_
  split
  · refine h.fields.bind fun fs hfs => gives_pure ?_
    exact ⟨hcons f fs hf.1 hfs.1, Node.all_append_iff.2 ⟨hf.2, hfs.2⟩⟩
  · exact gives_pure ⟨hcons f [] hf.1 nofun, Node.all_append_iff.2 ⟨hf.2, Node.all_nil⟩⟩

theorem Shapes.field_succ (h : Shapes W depth) (heof : W .eof) :
    Gives W (Parser.field (depth + 1)) fun f =>
      (∀ n ∈ Node.fieldName? f, W (.name n)) ∧ Shaped W (Node.ofField (fun _ => true) f) := by
  rw [Parser.field]
  refine gives_get fun tokens htokens => ?_
  split
  · refine gives_advance (h.expression.bind fun key hkey => gives_expect heof (gives_expect heof
      (h.expression.bind fun value hvalue => gives_pure ⟨nofun, ?_⟩)))
    exact Node.all_append_iff.2 ⟨hkey, hvalue⟩
  · rename_i text hkind _
    refine gives_advance (gives_advance (h.expression.bind fun value hvalue =>
      gives_pure ⟨?_, hvalue⟩))
    rintro _ ⟨⟩
    cases tokens with
    | nil => cases hkind
    | cons token tokens =>
      have htoken := htokens token List.mem_cons_self
      rwa [show token.kind = .name text from hkind] at htoken
  · exact h.expression.bind fun value hvalue => gives_pure ⟨nofun, hvalue⟩

/-! ### Statements -/

theorem returnsLast_cons {s : Stmt} {b : Block} (hs : s.isReturn = false) (hb : b.ReturnsLast) :
    Block.ReturnsLast (s :: b) := by
  intro t ht
  cases b with
  | nil => cases ht
  | cons t' b =>
    rw [List.dropLast_cons_of_ne_nil (List.cons_ne_nil _ _)] at ht
    obtain rfl | ht := List.mem_cons.1 ht
    · exact hs
    · exact hb t ht

theorem Shapes.block_succ (h : Shapes W depth) (heof : W .eof) :
    Gives W (Parser.block (depth + 1)) fun b => Block.ReturnsLast b ∧ Shaped W (Block.nodes b) := by
  rw [Parser.block]
  refine gives_peek heof fun token _ => ?_
  dsimp only
  split
  · exact gives_pure ⟨nofun, Node.all_nil⟩
  split
  · exact gives_advance h.block
  split
  · refine gives_advance (h.returnValues.bind fun s hs => gives_pure ?_)
    exact ⟨nofun, Node.all_append_iff.2 ⟨hs, Node.all_nil⟩⟩
  · refine h.statement.bind fun s hs => h.block.bind fun b hb => gives_pure ?_
    exact ⟨returnsLast_cons hs.1 hb.1, Node.all_append_iff.2 ⟨hs.2, hb.2⟩⟩

theorem Shapes.statement_succ (h : Shapes W depth) (heof : W .eof) :
    Gives W (Parser.statement (depth + 1)) fun s =>
      s.isReturn = false ∧ Shaped W (Node.ofStmt (fun _ => true) s) := by
  rw [Parser.statement]
  refine gives_peek heof fun token _ => ?_
  -- One case for each word that a statement starts with, in the order of the reader.
  split
  · exact gives_advance h.localStatement
  · exact gives_advance h.functionStatement
  · refine gives_advance (h.clause.bind fun c hc => h.elsePart.bind fun o ho =>
      gives_pure ⟨rfl, ?_⟩)
    exact Node.all_above_iff.2 ⟨⟨nofun, trivial, List.forall_mem_cons.2 ⟨hc.2.1, ho.1⟩⟩,
      Node.all_append_iff.2 ⟨Node.all_append_iff.2 ⟨hc.1, hc.2.2⟩, ho.2⟩⟩
  · refine gives_advance (h.expression.bind fun c hc => gives_expect heof (h.block.bind fun b hb =>
      gives_expect heof (gives_pure ⟨rfl, ?_⟩)))
    exact Node.all_above_iff.2 ⟨⟨nofun, trivial, List.forall_mem_singleton.2 hb.1⟩,
      Node.all_append_iff.2 ⟨hc, hb.2⟩⟩
  · exact gives_advance h.forStatement
  · refine gives_advance (h.block.bind fun b hb => gives_expect heof
      (h.expression.bind fun c hc => gives_pure ⟨rfl, ?_⟩))
    exact Node.all_above_iff.2 ⟨⟨nofun, trivial, List.forall_mem_singleton.2 hb.1⟩,
      Node.all_append_iff.2 ⟨hb.2, hc⟩⟩
  · refine gives_advance (h.block.bind fun b hb => gives_expect heof (gives_pure ⟨rfl, ?_⟩))
    exact Node.all_above_iff.2 ⟨⟨nofun, trivial, List.forall_mem_singleton.2 hb.1⟩, hb.2⟩
  · exact gives_advance (gives_pure ⟨rfl, Node.all_above_iff.2
      ⟨⟨nofun, trivial, nofun⟩, Node.all_nil⟩⟩)
  · refine gives_advance (gives_expectName heof fun n hn => gives_pure ⟨rfl, ?_⟩)
    exact Node.all_above_iff.2 ⟨⟨List.forall_mem_singleton.2 hn, trivial, nofun⟩, Node.all_nil⟩
  · refine gives_advance (gives_expectName heof fun n hn => gives_expect heof
      (gives_pure ⟨rfl, ?_⟩))
    exact Node.all_above_iff.2 ⟨⟨List.forall_mem_singleton.2 hn, trivial, nofun⟩, Node.all_nil⟩
  · exact h.expressionStatement

theorem Shapes.localStatement_succ (h : Shapes W depth) (heof : W .eof) :
    Gives W (Parser.localStatement (depth + 1)) fun s =>
      s.isReturn = false ∧ Shaped W (Node.ofStmt (fun _ => true) s) := by
  rw [Parser.localStatement]
  refine gives_accept fun taken => ?_
  split
  · refine gives_expectName heof fun n hn => h.funcBody.bind fun f hf => gives_pure ⟨rfl, ?_⟩
    obtain ⟨params, isVararg, body⟩ := f
    exact Node.all_above_iff.2 ⟨⟨List.forall_mem_map.2 (List.forall_mem_cons.2 ⟨hn, hf.1⟩), trivial,
      List.forall_mem_singleton.2 hf.2.1⟩, hf.2.2⟩
  refine gives_expectName heof fun n hn => (gives_namesAfter heof _ _).bind fun names hnames =>
    gives_accept fun taken => ?_
  have hwords : ∀ word ∈ (n :: names).map TokenKind.name, W word :=
    List.forall_mem_map.2 (List.forall_mem_cons.2 ⟨hn, hnames⟩)
  split
  · refine h.expressionList.bind fun es hes => gives_pure ⟨rfl, ?_⟩
    exact Node.all_above_iff.2 ⟨⟨hwords, List.cons_ne_nil _ _, nofun⟩, hes.2⟩
  · exact gives_pure ⟨rfl, Node.all_above_iff.2
      ⟨⟨hwords, List.cons_ne_nil _ _, nofun⟩, Node.all_nil⟩⟩

theorem Shapes.functionStatement_succ (h : Shapes W depth) (heof : W .eof)
    (hself : W (.name "self")) : Gives W (Parser.functionStatement (depth + 1)) fun s =>
      s.isReturn = false ∧ Shaped W (Node.ofStmt (fun _ => true) s) := by
  rw [Parser.functionStatement]
  refine gives_expectName heof fun root hroot => (gives_namesAfter heof _ _).bind
    fun path hpath => gives_accept fun taken => ?_
  split
  · refine gives_expectName heof fun m hm => h.funcBody.bind fun f hf => gives_pure ⟨rfl, ?_⟩
    refine Node.all_above_iff.2 ⟨⟨List.forall_mem_map.2 ?_, rfl,
      List.forall_mem_singleton.2 hf.2.1⟩, hf.2.2⟩
    simp only [List.cons_append, List.append_assoc, List.forall_mem_cons, List.forall_mem_append,
      Option.toList_some, List.nil_append]
    exact ⟨hroot, hpath, hm, hself, hf.1⟩
  · refine h.funcBody.bind fun f hf => gives_pure ⟨rfl, ?_⟩
    obtain ⟨params, isVararg, body⟩ := f
    refine Node.all_above_iff.2 ⟨⟨List.forall_mem_map.2 ?_, trivial,
      List.forall_mem_singleton.2 hf.2.1⟩, hf.2.2⟩
    simp only [List.cons_append, List.append_assoc, List.forall_mem_cons, List.forall_mem_append,
      Option.toList_none, List.nil_append]
    exact ⟨hroot, hpath, hf.1⟩

theorem Shapes.forStatement_succ (h : Shapes W depth) (heof : W .eof) :
    Gives W (Parser.forStatement (depth + 1)) fun s =>
      s.isReturn = false ∧ Shaped W (Node.ofStmt (fun _ => true) s) := by
  rw [Parser.forStatement]
  refine gives_expectName heof fun n hn => gives_accept fun taken => ?_
  split
  · refine h.expression.bind fun start hstart => gives_expect heof (h.expression.bind
      fun limit hlimit => gives_accept fun taken => ?_)
    split
    · rw [map_eq_pure_bind, bind_assoc]
      refine h.expression.bind fun step hstep => ?_
      rw [pure_bind]
      refine gives_expect heof (h.block.bind fun b hb => gives_expect heof (gives_pure ⟨rfl, ?_⟩))
      refine Node.all_above_iff.2 ⟨⟨List.forall_mem_singleton.2 hn, trivial,
        List.forall_mem_singleton.2 hb.1⟩, ?_⟩
      simp only [Node.all_append_iff]
      exact ⟨⟨⟨hstart, hlimit⟩, hstep⟩, hb.2⟩
    · rw [pure_bind]
      refine gives_expect heof (h.block.bind fun b hb => gives_expect heof (gives_pure ⟨rfl, ?_⟩))
      refine Node.all_above_iff.2 ⟨⟨List.forall_mem_singleton.2 hn, trivial,
        List.forall_mem_singleton.2 hb.1⟩, ?_⟩
      simp only [Node.all_append_iff]
      exact ⟨⟨hstart, hlimit⟩, hb.2⟩
  · refine (gives_namesAfter heof _ _).bind fun names hnames => gives_expect heof
      (h.expressionList.bind fun es hes => gives_expect heof (h.block.bind fun b hb =>
        gives_expect heof (gives_pure ⟨rfl, ?_⟩)))
    exact Node.all_above_iff.2
      ⟨⟨List.forall_mem_map.2 (List.forall_mem_cons.2 ⟨hn, hnames⟩),
        ⟨List.cons_ne_nil _ _, hes.1⟩, List.forall_mem_singleton.2 hb.1⟩,
        Node.all_append_iff.2 ⟨hes.2, hb.2⟩⟩

theorem Shapes.expressionStatement_succ (h : Shapes W depth) (heof : W .eof) :
    Gives W (Parser.expressionStatement (depth + 1)) fun s =>
      s.isReturn = false ∧ Shaped W (Node.ofStmt (fun _ => true) s) := by
  rw [Parser.expressionStatement]
  refine gives_peek heof fun token _ => h.suffixed.bind fun e he => gives_peek heof fun token' _ => ?_
  dsimp only
  -- With a comma or an equals sign it is an assignment, and otherwise it has to be a call.
  split
  · refine h.moreTargets.bind fun ts hts => gives_expect heof (h.expressionList.bind
      fun es hes => ?_)
    split
    · rename_i hall
      refine gives_pure ⟨rfl, ?_⟩
      exact Node.all_above_iff.2
        ⟨⟨nofun, ⟨List.cons_ne_nil _ _, hes.1, List.all_eq_true.1 hall⟩, nofun⟩,
          Node.all_append_iff.2 ⟨Node.all_append_iff.2 ⟨he.2, hts⟩, hes.2⟩⟩
    · exact gives_fail _
  · split
    · rename_i hcall
      exact gives_pure ⟨rfl, Node.all_above_iff.2 ⟨⟨nofun, hcall, nofun⟩, he.2⟩⟩
    · exact gives_fail _

theorem Shapes.returnValues_succ (h : Shapes W depth) (heof : W .eof) :
    Gives W (Parser.returnValues (depth + 1)) fun s =>
      Shaped W (Node.ofStmt (fun _ => true) s) := by
  have hreturn : ∀ es, Shaped W (Node.ofExprs (fun _ => true) es) →
      Shaped W (Node.ofStmt (fun _ => true) (.ret es)) := fun es hes =>
    Node.all_above_iff.2 ⟨⟨nofun, trivial, nofun⟩, hes⟩
  rw [Parser.returnValues]
  refine gives_peek heof fun token _ => ?_
  dsimp only
  split
  · rw [pure_bind]
    exact gives_accept fun _ => gives_pure (hreturn [] Node.all_nil)
  · exact h.expressionList.bind fun es hes => gives_accept fun _ => gives_pure (hreturn es hes.2)

theorem Shapes.funcBody_succ (h : Shapes W depth) (heof : W .eof) :
    Gives W (Parser.funcBody (depth + 1)) fun f => (∀ n ∈ f.params, W (.name n)) ∧
      Block.ReturnsLast f.body ∧ Shaped W (Block.nodes f.body) := by
  rw [Parser.funcBody]
  exact (gives_paramList heof depth).bind fun params hparams => h.block.bind fun b hb =>
    gives_expect heof (gives_pure ⟨hparams, hb⟩)

theorem Shapes.clause_succ (h : Shapes W depth) (heof : W .eof) :
    Gives W (Parser.clause (depth + 1)) fun c => Shaped W (Node.ofExpr (fun _ => true) c.1) ∧
      Block.ReturnsLast c.2 ∧ Shaped W (Block.nodes c.2) := by
  rw [Parser.clause]
  exact h.expression.bind fun c hc => gives_expect heof (h.block.bind fun b hb =>
    gives_pure ⟨hc, hb⟩)

theorem Shapes.elsePart_succ (h : Shapes W depth) (heof : W .eof) :
    Gives W (Parser.elsePart (depth + 1)) fun o =>
      (∀ body ∈ o.bodies, body.ReturnsLast) ∧ Shaped W (Node.ofElse (fun _ => true) o) := by
  rw [Parser.elsePart]
  refine gives_accept fun taken => ?_
  split
  · refine h.clause.bind fun c hc => h.elsePart.bind fun o ho => gives_pure ?_
    exact ⟨List.forall_mem_cons.2 ⟨hc.2.1, ho.1⟩,
      Node.all_append_iff.2 ⟨Node.all_append_iff.2 ⟨hc.1, hc.2.2⟩, ho.2⟩⟩
  refine gives_accept fun taken => ?_
  split
  · refine h.block.bind fun b hb => gives_expect heof (gives_pure ?_)
    exact ⟨List.forall_mem_singleton.2 hb.1, hb.2⟩
  · exact gives_expect heof (gives_pure ⟨nofun, Node.all_nil⟩)

end

/-- Every reader gives trees with the shape of what is read. -/
theorem shapes {W : TokenKind → Prop} (heof : W .eof) (hself : W (.name "self")) (depth : Nat) :
    Shapes W depth := by
  -- All readers at once: each is given the others at the depth below.
  induction depth with
  | zero => exact shapes_zero W
  | succ depth ih =>
    exact
      { block := ih.block_succ heof
        statement := ih.statement_succ heof
        localStatement := ih.localStatement_succ heof
        functionStatement := ih.functionStatement_succ heof hself
        forStatement := ih.forStatement_succ heof
        expressionStatement := ih.expressionStatement_succ heof
        returnValues := ih.returnValues_succ heof
        funcBody := ih.funcBody_succ heof
        clause := ih.clause_succ heof
        elsePart := ih.elsePart_succ heof
        moreTargets := ih.moreTargets_succ
        expressionList := ih.expressionList_succ
        expression := ih.operand 0
        operand := ih.operand_succ heof
        chain := ih.chain_succ heof
        simple := ih.simple_succ heof
        primary := ih.primary_succ heof
        suffixed := ih.suffixed_succ
        suffixes := ih.suffixes_succ heof
        arguments := ih.arguments_succ heof
        table := ih.table_succ heof
        fields := ih.fields_succ heof
        field := ih.field_succ heof }

end Parser

end LuaUnpack.Lua
