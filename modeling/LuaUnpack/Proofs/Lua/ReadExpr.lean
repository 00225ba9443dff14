import LuaUnpack.Proofs.Lua.Follow
import LuaUnpack.Proofs.Lua.Marks
import LuaUnpack.Proofs.Lua.Reading

/-!
# Reading back expressions

What the readers of expressions do on the tokens of an expression (`Expr.IsRead`). Where an
operand is expected, the operators that follow it are left to the chain of operands; where
accesses and calls may follow, they are left to the reader of suffixes. An expression is read
back as it is if all blocks in it are separated. Otherwise some of its statements may be read
as parts of others, but then there are fewer of them (`Rereads`).

The depth that a reader is given suffices: it is sixteen for every token and a few more, and
no more than sixteen readers call each other before a token is taken.
-/

namespace LuaUnpack.Lua

open Piece LuaUnpack.Lua.Parser

/-! ## What is read back -/

/-- Whether what is read has no more statements than what was written; it is the same if
    what was written is separated, and if it has as many statements, then it was. -/
structure Rereads (count count' : Nat) (separated same : Prop) : Prop where
  count_le : count' ≤ count
  same : separated → same
  separated : count' = count → separated

namespace Rereads

variable {n n' n₁ n₁' n₂ n₂' : Nat} {S S₁ S₂ E E₁ E₂ : Prop}

theorem rfl (hS : S) (hE : E) : Rereads n n S E := ⟨Nat.le_refl n, fun _ => hE, fun _ => hS⟩

theorem and (h₁ : Rereads n₁ n₁' S₁ E₁) (h₂ : Rereads n₂ n₂' S₂ E₂) :
    Rereads (n₁ + n₂) (n₁' + n₂') (S₁ ∧ S₂) (E₁ ∧ E₂) where
  count_le := Nat.add_le_add h₁.count_le h₂.count_le
  same h := ⟨h₁.same h.1, h₂.same h.2⟩
  separated h := by
    have hle₁ := h₁.count_le
    have hle₂ := h₂.count_le
    exact ⟨h₁.separated (by omega), h₂.separated (by omega)⟩

theorem of (h : Rereads n₁ n₁' S₁ E₁) (hn : n = n₁) (hn' : n' = n₁') (hS : S ↔ S₁)
    (hE : E₁ → E) : Rereads n n' S E := by
  subst hn hn'
  exact ⟨h.count_le, fun hs => hE (h.same (hS.1 hs)), fun hn => hS.2 (h.separated hn)⟩

end Rereads

/-- The number of statements in a part of a script. -/
def Mark.count (marks : List Mark) : Nat := marks.countP Mark.isStatement

@[simp]
theorem Mark.count_nil : Mark.count [] = 0 := by rfl

@[simp]
theorem Mark.count_append (left right : List Mark) :
    Mark.count (left ++ right) = Mark.count left + Mark.count right := List.countP_append

/-- Two parts of a script that are read one after the other. -/
theorem Rereads.append {left left' right right' : List Mark} {S₁ S₂ E₁ E₂ : Prop}
    (h₁ : Rereads (Mark.count left) (Mark.count left') S₁ E₁)
    (h₂ : Rereads (Mark.count right) (Mark.count right') S₂ E₂) :
    Rereads (Mark.count (left ++ right)) (Mark.count (left' ++ right')) (S₁ ∧ S₂) (E₁ ∧ E₂) := by
  rw [Mark.count_append, Mark.count_append]
  exact h₁.and h₂

namespace Expr

/-- The number of statements in an expression. -/
def count (e : Expr) : Nat := Mark.count (Mark.ofExpr e)

/-- Whether all blocks in an expression are separated. -/
def IsSeparated (e : Expr) : Prop := Node.All Node.IsSeparated e.nodes

/-- Whether an expression has the shape of one that was read, and is written word by word. -/
def IsWritten (e : Expr) : Prop := Written e.nodes

/-- What readers ask of an expression. -/
def role (e : Expr) : Bool × Bool × Bool := (e.isMultiple, e.isCall, e.isAssignable)

/-- Whether an expression is one that can be read from the tokens of another. -/
structure Rereads (e v : Expr) : Prop where
  role : v.role = e.role
  counts : Lua.Rereads e.count v.count e.IsSeparated (v = e)

/-- What is read from the tokens of an expression, by the readers that leave it to others
    what follows. -/
structure IsRead (e : Expr) : Prop where
  operand : ∀ depth limit, 16 * (kinds e.pieces).length + 4 ≤ depth →
    (∀ op l r, e = .binary op l r → limit < op.leftStrength) →
    ∃ depth', depth ≤ depth' + (kinds e.pieces).length ∧
      Reads (Parser.operand depth limit) (kinds e.pieces) e.Follows e.IsSeparated e.Rereads
        (chain depth' limit)
  suffixed : e.takesSuffix = true → ∀ depth, 16 * (kinds e.pieces).length + 2 ≤ depth →
    ∃ depth', depth ≤ depth' + (kinds e.pieces).length ∧
      Reads (Parser.suffixed depth) (kinds e.pieces) (fun _ => True) e.IsSeparated e.Rereads
        (suffixes depth')

end Expr

/-! ## Chains -/

/-- A chain ends before an operator that binds too weakly. -/
theorem reads_chain_end {depth limit : Nat} {v : Expr} {F : TokenKind → Prop} {S : Prop}
    {P : Expr → Prop} (hdepth : 1 ≤ depth) (hv : P v)
    (hF : ∀ kind, F kind → ∀ op, binaryOp? kind = some op → op.leftStrength ≤ limit) :
    Reads (chain depth limit v) [] F S P pure := by
  obtain ⟨depth, rfl⟩ := Nat.exists_eq_add_of_le' hdepth
  rw [chain]
  refine reads_peek_nil fun token htoken => ?_
  split
  · rename_i op hop
    rw [if_pos (hF _ htoken op hop)]
    exact reads_next hv
  · exact reads_next hv

/-- The suffixes end before a token that starts none. -/
theorem reads_suffixes_end {depth : Nat} {v : Expr} {F : TokenKind → Prop} {S : Prop}
    {P : Expr → Prop} (hdepth : 1 ≤ depth) (hv : P v)
    (hF : ∀ kind, F kind → startsSuffix kind = false) :
    Reads (suffixes depth v) [] F S P pure := by
  obtain ⟨depth, rfl⟩ := Nat.exists_eq_add_of_le' hdepth
  rw [suffixes]
  refine reads_peek_nil fun token htoken => ?_
  have hsuffix := hF _ htoken
  split
  case h_7 => exact reads_next hv
  all_goals
    rename_i hkind
    rw [hkind] at hsuffix
    cases hsuffix

namespace Expr

variable {e : Expr} {depth : Nat}

theorem leftStrength_pos (op : BinaryOp) : 0 < op.leftStrength := by
  cases op <;> decide

/-- A whole expression is read to its end. -/
theorem IsRead.expression (h : e.IsRead) (hdepth : 16 * (kinds e.pieces).length + 5 ≤ depth) :
    Reads (Parser.expression depth) (kinds e.pieces) e.Closes e.IsSeparated e.Rereads pure := by
  obtain ⟨depth, rfl⟩ : ∃ n, depth = n + 1 := ⟨depth - 1, by omega⟩
  rw [Parser.expression]
  obtain ⟨depth', hdepth', hread⟩ :=
    h.operand depth 0 (by omega) fun op _ _ _ => leftStrength_pos op
  refine hread.trans_nil id (fun kind hkind => hkind.follows) fun v hv => ?_
  refine reads_chain_end (by omega) hv fun kind hkind op hop => ?_
  rw [hkind.2] at hop
  cases hop

/-- An expression without operators is one operand. -/
theorem isRead_of_simple (hsuffix : e.takesSuffix = false)
    (hunary : FirstIs (unaryOp? · = none) (fun _ => True) (kinds e.pieces))
    (hkinds : kinds e.pieces ≠ [])
    (h : ∀ depth, 16 * (kinds e.pieces).length + 3 ≤ depth →
      Reads (simple depth) (kinds e.pieces) e.Follows e.IsSeparated e.Rereads pure) :
    e.IsRead where
  operand depth limit hdepth _ := by
    obtain ⟨depth, rfl⟩ : ∃ n, depth = n + 1 := ⟨depth - 1, by omega⟩
    have hlength : 1 ≤ (kinds e.pieces).length := List.length_pos_iff.2 hkinds
    refine ⟨depth, by omega, ?_⟩
    obtain ⟨kind, rest, heq⟩ := List.exists_cons_of_ne_nil hkinds
    have hread := h depth (by omega)
    rw [heq] at hunary hread ⊢
    rw [Parser.operand]
    refine reads_peek fun line => ?_
    -- No unary operator comes first, so the operand is a simple expression and a chain.
    rw [show unaryOp? (Token.mk kind line).kind = none from hunary]
    exact hread.bind_nil id (fun _ hkind => hkind) fun v hv => reads_next hv
  suffixed htakes := by
    rw [hsuffix] at htakes
    cases htakes

/-! ## Accesses and calls -/

/-- Suffixes that are read to their end leave the chain to what follows. -/
theorem reads_operand_of_suffixed {tokens : List TokenKind} {S : Prop} {P : Expr → Prop}
    {isParen : Bool} (hopens : OpensPrimary isParen tokens)
    (h : ∀ depth, 16 * tokens.length + 2 ≤ depth → ∃ depth', depth ≤ depth' + tokens.length ∧
      Reads (Parser.suffixed depth) tokens (fun _ => True) S P (suffixes depth'))
    (hdepth : 16 * tokens.length + 4 ≤ depth) (limit : Nat) :
    ∃ depth', depth ≤ depth' + tokens.length ∧
      Reads (Parser.operand depth limit) tokens (startsSuffix · = false) S P
        (chain depth' limit) := by
  obtain ⟨depth, rfl⟩ : ∃ n, depth = n + 2 := ⟨depth - 2, by omega⟩
  obtain ⟨kind, rest, rfl, hkind, -⟩ := hopens
  obtain ⟨depth', hdepth', hread⟩ := h depth (by omega)
  have hsuffixed : Reads (Parser.suffixed depth) (kind :: rest) (startsSuffix · = false) S P pure :=
    hread.trans_nil id (fun _ _ => trivial) fun v hv =>
      reads_suffixes_end (by rw [List.length_cons] at *; omega) hv fun _ hkind => hkind
  -- Of the tokens that a suffixed expression can open with, none starts anything else.
  have hsimple : Reads (simple (depth + 1)) (kind :: rest) (startsSuffix · = false) S P pure := by
    rw [simple]
    refine reads_peek fun line => ?_
    revert hsuffixed
    cases kind with
    | name text => exact id
    | symbol sign =>
      cases sign
      case leftParen => exact id
      all_goals cases hkind
    | _ => cases hkind
  refine ⟨depth + 1, by rw [List.length_cons]; omega, ?_⟩
  have hunary : unaryOp? kind = none := by
    revert hkind
    unfold opensPrimary unaryOp?
    grind
  rw [Parser.operand]
  refine reads_peek fun line => ?_
  rw [show unaryOp? (Token.mk kind line).kind = none from hunary]
  exact hsimple.bind_nil id (fun _ hkind => hkind) fun v hv => reads_next hv

theorem isRead_of_suffixed (hsuffix : e.takesSuffix = true)
    (h : ∀ depth, 16 * (kinds e.pieces).length + 2 ≤ depth →
      ∃ depth', depth ≤ depth' + (kinds e.pieces).length ∧
        Reads (Parser.suffixed depth) (kinds e.pieces) (fun _ => True) e.IsSeparated e.Rereads
          (suffixes depth')) : e.IsRead where
  operand depth limit hdepth _ := by
    have hopen : e.endsOpen = true := by
      cases e <;> first | exact hsuffix | cases hsuffix
    obtain ⟨depth', hdepth', hread⟩ :=
      reads_operand_of_suffixed (opensPrimary_pieces hsuffix) h hdepth limit
    exact ⟨depth', hdepth', hread.mono (fun _ hkind => hkind.1 hopen) id fun _ hv => hv⟩
  suffixed _ := h

/-- An expression in parentheses is read by the reader of what takes suffixes. -/
theorem IsRead.parens (h : e.IsRead) (hdepth : 16 * (kinds (inParens e.pieces)).length + 2 ≤ depth) :
    ∃ depth', depth ≤ depth' + (kinds (inParens e.pieces)).length ∧
      Reads (Parser.suffixed depth) (kinds (inParens e.pieces)) (fun _ => True) e.IsSeparated
        (fun v => ∃ inner, e.Rereads inner ∧ v = parenthesized inner) (suffixes depth') := by
  simp only [kinds_inParens, List.length_cons, List.length_append, List.length_nil] at hdepth ⊢
  obtain ⟨depth, rfl⟩ : ∃ n, depth = n + 2 := ⟨depth - 2, by omega⟩
  refine ⟨depth + 1, by omega, ?_⟩
  rw [Parser.suffixed, primary, bind_assoc]
  refine reads_peek fun line => ?_
  dsimp only
  rw [bind_assoc]
  refine reads_advance ?_
  rw [bind_assoc]
  refine (h.expression (by omega)).bind id ⟨fun _ => rfl, rfl⟩ fun inner hinner => ?_
  rw [bind_assoc]
  refine reads_expectSymbol ?_
  rw [pure_bind]
  exact reads_next ⟨inner, hinner, rfl⟩

theorem parenthesized_of_isMultiple {inner : Expr} (h : inner.isMultiple = false) :
    parenthesized inner = inner := by
  rw [parenthesized, h, if_neg Bool.false_ne_true]

theorem Rereads.isMultiple {v : Expr} (h : e.Rereads v) : v.isMultiple = e.isMultiple :=
  congrArg Prod.fst h.role

theorem Rereads.parenthesized {v : Expr} (h : e.Rereads v) (hmultiple : e.isMultiple = false) :
    parenthesized v = v :=
  parenthesized_of_isMultiple (h.isMultiple.trans hmultiple)

theorem IsRead.parens_of_isMultiple (h : e.IsRead) (hmultiple : e.isMultiple = false)
    (hdepth : 16 * (kinds (inParens e.pieces)).length + 2 ≤ depth) :
    ∃ depth', depth ≤ depth' + (kinds (inParens e.pieces)).length ∧
      Reads (Parser.suffixed depth) (kinds (inParens e.pieces)) (fun _ => True) e.IsSeparated
        e.Rereads (suffixes depth') := by
  obtain ⟨depth', hdepth', hread⟩ := h.parens hdepth
  refine ⟨depth', hdepth', hread.mono (fun _ _ => trivial) id ?_⟩
  rintro _ ⟨inner, hinner, rfl⟩
  rwa [hinner.parenthesized hmultiple]

/-- What accesses and calls follow is written in parentheses unless it takes them. -/
theorem IsRead.base (h : e.IsRead) (hvararg : e ≠ .vararg)
    (hdepth : 16 * (kinds (parensIf (!e.takesSuffix) e.pieces)).length + 2 ≤ depth) :
    ∃ depth', depth ≤ depth' + (kinds (parensIf (!e.takesSuffix) e.pieces)).length ∧
      Reads (Parser.suffixed depth) (kinds (parensIf (!e.takesSuffix) e.pieces)) (fun _ => True)
        e.IsSeparated e.Rereads (suffixes depth') := by
  cases hsuffix : e.takesSuffix with
  | true =>
    rw [hsuffix] at hdepth
    exact h.suffixed hsuffix depth hdepth
  | false =>
    rw [hsuffix] at hdepth
    refine h.parens_of_isMultiple ?_ hdepth
    cases e <;> first | rfl | exact absurd rfl hvararg | cases hsuffix

/-- An operand is written in parentheses if a condition holds. -/
theorem IsRead.operand_parensIf {limit : Nat} {condition : Bool} (h : e.IsRead)
    (hmultiple : condition = true → e.isMultiple = false)
    (hlimit : condition = false → ∀ op l r, e = .binary op l r → limit < op.leftStrength)
    (hdepth : 16 * (kinds (parensIf condition e.pieces)).length + 4 ≤ depth) :
    ∃ depth', depth ≤ depth' + (kinds (parensIf condition e.pieces)).length ∧
      Reads (Parser.operand depth limit) (kinds (parensIf condition e.pieces))
        (fun kind => if condition then startsSuffix kind = false else e.Follows kind)
        e.IsSeparated e.Rereads (chain depth' limit) := by
  -- In parentheses any expression is an operand, and the limit does not matter.
  cases condition with
  | false => exact h.operand depth limit hdepth (hlimit rfl)
  | true =>
    change ∃ depth', depth ≤ depth' + (kinds (inParens e.pieces)).length ∧
      Reads (Parser.operand depth limit) (kinds (inParens e.pieces)) (startsSuffix · = false)
        e.IsSeparated e.Rereads (chain depth' limit)
    have hopens : OpensPrimary true (kinds (inParens e.pieces)) := by
      rw [kinds_inParens]
      exact opensPrimary_paren _
    exact reads_operand_of_suffixed hopens
      (fun depth hdepth => h.parens_of_isMultiple (hmultiple rfl) hdepth) hdepth limit

/-! ## The forms of expressions -/

theorem isSeparated_above {node : Node} {below : List Node} (h : node.bodies = []) :
    Node.All Node.IsSeparated (Node.above (fun _ => true) node below) ↔
      Node.All Node.IsSeparated below := by
  rw [Node.all_above_iff, Node.IsSeparated, h]
  exact and_iff_right fun body hbody => absurd hbody List.not_mem_nil

/-- A single token. -/
theorem isRead_atom {kind : TokenKind} (hkinds : kinds e.pieces = [kind])
    (hatom : atom? kind = some e) (hsuffix : e.takesSuffix = false) (hseparated : e.IsSeparated) :
    e.IsRead := by
  have hunary : unaryOp? kind = none := by
    revert hatom
    unfold atom? unaryOp?
    grind
  refine isRead_of_simple hsuffix (by rwa [hkinds]) (by rw [hkinds]; exact List.cons_ne_nil _ _)
    fun depth hdepth => ?_
  obtain ⟨depth, rfl⟩ : ∃ n, depth = n + 1 := ⟨depth - 1, by omega⟩
  rw [hkinds, simple]
  refine reads_peek fun line => ?_
  dsimp only
  rw [hatom]
  exact reads_advance (reads_next ⟨rfl, .rfl hseparated rfl⟩)

theorem isRead_name (n : String) : (Expr.name n).IsRead := by
  refine isRead_of_suffixed rfl fun depth hdepth => ?_
  obtain ⟨depth, rfl⟩ : ∃ n, depth = n + 2 := ⟨depth - 2, by omega⟩
  refine ⟨depth + 1, Nat.le_refl _, ?_⟩
  rw [Parser.suffixed, primary, bind_assoc]
  refine reads_peek fun line => ?_
  dsimp only
  rw [bind_assoc]
  refine reads_advance ?_
  rw [pure_bind]
  exact reads_next ⟨rfl, .rfl ((isSeparated_above rfl).2 Node.all_nil) rfl⟩

theorem isRead_paren (h : e.IsRead) (hmultiple : e.isMultiple = true) : (Expr.paren e).IsRead := by
  refine isRead_of_suffixed rfl fun depth hdepth => ?_
  obtain ⟨depth', hdepth', hread⟩ := h.parens hdepth
  refine ⟨depth', hdepth', hread.mono (fun _ _ => trivial) (isSeparated_above rfl).1 ?_⟩
  rintro _ ⟨inner, hinner, rfl⟩
  rw [Parser.parenthesized, hinner.isMultiple, if_pos hmultiple]
  exact ⟨rfl, hinner.counts.of rfl rfl (isSeparated_above rfl) (congrArg paren)⟩

/-- A suffix is read after what it follows. -/
theorem isRead_of_suffix {t : Expr} {suffix : List Piece} (ht : t.IsRead)
    (hvararg : t ≠ .vararg) (hsuffix : e.takesSuffix = true)
    (hpieces : e.pieces = parensIf (!t.takesSuffix) t.pieces ++ suffix)
    (hseparated : e.IsSeparated → t.IsSeparated) (hne : kinds suffix ≠ [])
    (h : ∀ depth v, t.Rereads v → 16 * (kinds suffix).length + 1 ≤ depth →
      Reads (suffixes (depth + 1) v) (kinds suffix) (fun _ => True) e.IsSeparated e.Rereads
        (suffixes depth)) : e.IsRead := by
  refine isRead_of_suffixed hsuffix fun depth hdepth => ?_
  rw [hpieces, kinds_append, List.length_append] at hdepth ⊢
  have hlength : 1 ≤ (kinds suffix).length := List.length_pos_iff.2 hne
  have hbase : 16 * (kinds (parensIf (!t.takesSuffix) t.pieces)).length + 2 ≤ depth := by omega
  obtain ⟨depth', hdepth', hread⟩ := ht.base hvararg hbase
  obtain ⟨depth', rfl⟩ : ∃ n, depth' = n + 1 := ⟨depth' - 1, by omega⟩
  exact ⟨depth', by omega,
    hread.trans hseparated (.of_all fun _ => trivial) fun v hv => h depth' v hv (by omega)⟩

theorem isRead_member {t : Expr} {k : String} (ht : t.IsRead) (hvararg : t ≠ .vararg) :
    (Expr.member t k).IsRead := by
  have hpieces : (Expr.member t k).pieces =
      parensIf (!t.takesSuffix) t.pieces ++ [sym .dot, ident k] := by rw [pieces]
  refine isRead_of_suffix ht hvararg rfl hpieces (isSeparated_above rfl).1
    (List.cons_ne_nil _ _) fun depth v hv _ => ?_
  rw [suffixes]
  refine reads_peek fun line => reads_advance (reads_expectName (reads_next ⟨rfl, ?_⟩))
  exact hv.counts.of rfl rfl (isSeparated_above rfl) (congrArg (member · k))

theorem isRead_index {t k : Expr} (ht : t.IsRead) (hvararg : t ≠ .vararg) (hk : k.IsRead) :
    (Expr.index t k).IsRead := by
  have hpieces : (Expr.index t k).pieces = parensIf (!t.takesSuffix) t.pieces ++
      sym .leftBracket :: (k.pieces ++ [sym .rightBracket]) := by
    rw [pieces, List.append_assoc, List.cons_append]
  have hseparated : (Expr.index t k).IsSeparated ↔ t.IsSeparated ∧ k.IsSeparated :=
    (isSeparated_above rfl).trans Node.all_append_iff
  refine isRead_of_suffix ht hvararg rfl hpieces (fun h => (hseparated.1 h).1)
    (List.cons_ne_nil _ _) fun depth v hv hdepth => ?_
  simp only [kinds_append, kinds_sym, kinds_nil, List.length_cons, List.length_append,
    List.length_nil] at hdepth ⊢
  rw [suffixes]
  refine reads_peek fun line => reads_advance ?_
  refine (hk.expression (by omega)).bind (fun h => (hseparated.1 h).2) ⟨fun _ => rfl, rfl⟩
    fun w hw => reads_expectSymbol (reads_next ⟨rfl, ?_⟩)
  refine (hv.counts.append hw.counts).of rfl rfl hseparated ?_
  rintro ⟨rfl, rfl⟩
  rfl

/-! ## Operators -/

theorem isMultiple_of_strength? (h : e.strength?.isSome = true) : e.isMultiple = false := by
  cases e <;> first | rfl | cases h

theorem isMultiple_of_needsParens {op : BinaryOp} {isLeft : Bool}
    (h : e.needsParens op isLeft = true) : e.isMultiple = false := by
  refine isMultiple_of_strength? ?_
  rw [needsParens] at h
  split at h
  · cases h
  · rename_i hstrength
    rw [hstrength, Option.isSome_some]

theorem isMultiple_of_needsParensUnder {op : UnaryOp} (h : e.needsParensUnder op = true) :
    e.isMultiple = false := by
  cases e <;> first | rfl | cases op <;> cases h

theorem isRead_unary {op : UnaryOp} (he : e.IsRead) : (Expr.unary op e).IsRead where
  operand depth limit hdepth _ := by
    have hseparated : (Expr.unary op e).IsSeparated ↔ e.IsSeparated := isSeparated_above rfl
    simp only [pieces, kinds_append, UnaryOp.kinds_pieces, List.cons_append, List.nil_append,
      List.length_cons] at hdepth ⊢
    obtain ⟨depth, rfl⟩ : ∃ n, depth = n + 1 := ⟨depth - 1, by omega⟩
    have hinner : 16 * (kinds (parensIf (e.needsParensUnder op) e.pieces)).length + 4 ≤ depth := by
      omega
    have hbinary : e.needsParensUnder op = false → ∀ op' l r, e = .binary op' l r →
        UnaryOp.strength < op'.leftStrength := by
      rintro hparens op' l r rfl
      exact (strength_lt_of_needsParensUnder hparens).1
    obtain ⟨depth', hdepth', hread⟩ :=
      he.operand_parensIf isMultiple_of_needsParensUnder hbinary hinner
    refine ⟨depth, by omega, ?_⟩
    rw [Parser.operand]
    refine reads_peek fun line => ?_
    simp only [UnaryOp.unaryOp?_kind]
    refine reads_advance ?_
    -- After the operand no operator comes that would take it from this one.
    have hoperand : Reads (Parser.operand depth UnaryOp.strength)
        (kinds (parensIf (e.needsParensUnder op) e.pieces)) (Expr.unary op e).Follows e.IsSeparated
        e.Rereads pure := by
      refine hread.trans_nil id (fun kind hkind => ?_) fun v hv =>
        reads_chain_end (by omega) hv fun kind hkind op' hop' => hkind.2 op' hop' _ rfl
      split
      · rename_i hparens
        exact hkind.1 (Bool.or_eq_true_iff.2 (.inl hparens))
      · rename_i hparens
        exact hkind.operand (Bool.eq_false_iff.2 hparens)
    exact hoperand.bind_nil hseparated.1 (fun _ hkind => hkind) fun v hv =>
      reads_next ⟨rfl, hv.counts.of rfl rfl hseparated (congrArg (unary op))⟩
  suffixed hsuffix := nomatch hsuffix

theorem isRead_binary {op : BinaryOp} {l r : Expr} (hl : l.IsRead) (hr : r.IsRead) :
    (Expr.binary op l r).IsRead where
  operand depth limit hdepth hlimit := by
    have hseparated : (Expr.binary op l r).IsSeparated ↔ l.IsSeparated ∧ r.IsSeparated :=
      (isSeparated_above rfl).trans Node.all_append_iff
    have hstrength : limit < op.leftStrength := hlimit op l r rfl
    simp only [pieces, kinds_append, BinaryOp.piece_eq, kinds_blank, kinds_token, List.length_append,
      List.length_cons] at hdepth ⊢
    have hdepthLeft : 16 * (kinds (parensIf (l.needsParens op true) l.pieces)).length + 4 ≤ depth := by
      omega
    -- Without parentheses the left side binds at least as strongly as `op`, the right side
    -- more strongly: so the one is read within the limit, the other behind the operator.
    have hlimitLeft : l.needsParens op true = false → ∀ op' l' r', l = .binary op' l' r' →
        limit < op'.leftStrength := by
      rintro hparens op' l' r' rfl
      have hadmits := (needsParens_binary_eq_false_iff.1 hparens).leftStrength_le
      exact hstrength.trans_le (hadmits.trans op'.rightStrength_le)
    obtain ⟨depth', hdepth', hleft⟩ :=
      hl.operand_parensIf isMultiple_of_needsParens hlimitLeft hdepthLeft
    obtain ⟨depth', rfl⟩ : ∃ n, depth' = n + 1 := ⟨depth' - 1, by omega⟩
    have hdepthRight :
        16 * (kinds (parensIf (r.needsParens op false) r.pieces)).length + 4 ≤ depth' := by
      omega
    have hlimitRight : r.needsParens op false = false → ∀ op' l' r', r = .binary op' l' r' →
        op.rightStrength < op'.leftStrength := by
      rintro hparens op' l' r' rfl
      exact (needsParens_binary_eq_false_iff.1 hparens).rightStrength_le.2
    obtain ⟨depth'', hdepth'', hright⟩ :=
      hr.operand_parensIf isMultiple_of_needsParens hlimitRight hdepthRight
    refine ⟨depth', by omega, ?_⟩
    refine hleft.trans (fun h => (hseparated.1 h).1) ?_ fun v hv => ?_
    · change if _ then _ else _
      split
      · exact startsSuffix_binary op
      · rename_i hparens
        exact follows_of_needsParens_left (Bool.eq_false_iff.2 hparens)
    rw [chain]
    refine reads_peek fun line => ?_
    simp only [BinaryOp.binaryOp?_kind, if_neg (Nat.not_le.2 hstrength)]
    refine reads_advance ?_
    have hoperand : Reads (Parser.operand depth' op.rightStrength)
        (kinds (parensIf (r.needsParens op false) r.pieces)) (Expr.binary op l r).Follows
        r.IsSeparated r.Rereads pure := by
      refine hright.trans_nil id (fun kind hkind => ?_) fun w hw =>
        reads_chain_end (by omega) hw fun kind hkind op' hop' => hkind.2 op' hop' _ rfl
      split
      · rename_i hparens
        exact hkind.1 (Bool.or_eq_true_iff.2 (.inl hparens))
      · rename_i hparens
        exact hkind.right (Bool.eq_false_iff.2 hparens)
    refine hoperand.bind_nil (fun h => (hseparated.1 h).2) (fun _ hkind => hkind) fun w hw =>
      reads_next ⟨rfl, ?_⟩
    refine (hv.counts.append hw.counts).of rfl rfl hseparated ?_
    rintro ⟨rfl, rfl⟩
    rfl
  suffixed hsuffix := nomatch hsuffix

end Expr

end LuaUnpack.Lua
