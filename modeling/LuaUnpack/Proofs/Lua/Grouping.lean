import LuaUnpack.Proofs.Lua.FlatText

/-!
# Which expressions need no parentheses

The words of a plain expression are read as the expression itself just if its operators
bind as its tree says and no negation is negated (`parseExpr_flatText_iff`).

If they do, the reader is followed over the words (`IsBound.isReadFlat`). For the converse
nothing has to be known about the expression: whatever plain expression a reader gives, its
operators bind as its tree says, and its words are those that were taken (`regroups`).
-/

namespace LuaUnpack.Lua

open Piece LuaUnpack.Lua.Parser

theorem BinaryOp.kind_ne_eof (op : BinaryOp) : op.kind ≠ .eof := by
  intro h
  cases op <;> cases h

theorem UnaryOp.kind_ne_eof (op : UnaryOp) : op.kind ≠ .eof := by
  intro h
  cases op <;> cases h

namespace Expr

/-! ## Binding -/

/-- How strongly an operation with two operands binds the left one. -/
def grip? : Expr → Option Nat
  | .binary op _ _ => some op.leftStrength
  | _ => none

/-- Whether operators bind as the tree of an expression says, if it is written without
    parentheses: an operator follows a left operand that ends before it, and a right operand
    goes on as long as its operators bind more strongly. -/
def IsBound : Expr → Prop
  | .binary op l r => l.IsBound ∧ r.IsBound ∧ (∀ s ∈ l.reach?, op.leftStrength ≤ s) ∧
      ∀ s ∈ r.grip?, op.rightStrength < s
  | .unary _ e => e.IsBound ∧ ∀ s ∈ e.grip?, UnaryOp.strength < s
  | _ => True

/-- Whether an expression can do without parentheses. -/
structure IsGrouped (e : Expr) : Prop where
  bound : e.IsBound
  minus : e.hasDoubleMinus = false

variable {e l r : Expr} {kind : TokenKind}

/-- Whether a token can follow an expression without parentheses in a chain of operands. -/
def Ends (e : Expr) (kind : TokenKind) : Prop :=
  startsSuffix kind = false ∧ ∀ op, binaryOp? kind = some op → ∀ s ∈ e.reach?, op.leftStrength ≤ s

theorem Ends.follows (h : e.Ends kind) : e.Follows kind := ⟨fun _ => h.1, h.2⟩

theorem ends_operator {op : BinaryOp} (h : ∀ s ∈ e.reach?, op.leftStrength ≤ s) :
    e.Ends op.kind := by
  refine ⟨startsSuffix_binary op, fun op' hop' => ?_⟩
  rw [BinaryOp.binaryOp?_kind] at hop'
  cases hop'
  exact h

theorem ends_eof : e.Ends .eof := ⟨rfl, fun _ hop => by cases hop⟩

/-- What some operator can bind as a part of its right operand, a unary operator can. -/
theorem leftStrength_le_strength {op op' : BinaryOp} (h : op.leftStrength ≤ op'.rightStrength) :
    op.leftStrength ≤ UnaryOp.strength := by
  revert h
  cases op <;> cases op' <;> decide

/-- What binds its left operand more strongly than an operator its right one binds its own
    right operand at least as strongly. -/
theorem le_rightStrength {op op' : BinaryOp} (h : op.rightStrength < op'.leftStrength) :
    op.rightStrength ≤ op'.rightStrength := by
  revert h
  cases op <;> cases op' <;> decide

/-- What can follow an operation can follow its right operand. -/
theorem Ends.right {op : BinaryOp} (h : (Expr.binary op l r).Ends kind)
    (hr : ∀ s ∈ r.grip?, op.rightStrength < s) : r.Ends kind := by
  refine ⟨h.1, fun op' hop' s hs => ?_⟩
  have hle : op'.leftStrength ≤ op.rightStrength := h.2 op' hop' _ rfl
  cases r with
  | binary op'' l r =>
    cases hs
    exact hle.trans (le_rightStrength (hr _ rfl))
  | unary op'' e =>
    cases hs
    exact leftStrength_le_strength hle
  | _ => cases hs

/-- What can follow a unary operation can follow its operand. -/
theorem Ends.operand {op : UnaryOp} (h : (Expr.unary op e).Ends kind)
    (he : ∀ s ∈ e.grip?, UnaryOp.strength < s) : e.Ends kind := by
  refine ⟨h.1, fun op' hop' s hs => ?_⟩
  have hle : op'.leftStrength ≤ UnaryOp.strength := h.2 op' hop' _ rfl
  cases e with
  | binary op'' l r =>
    cases hs
    refine hle.trans ?_
    have hlt := he _ rfl
    revert hlt
    cases op'' <;> decide
  | unary op'' e =>
    cases hs
    exact hle
  | _ => cases hs

/-! ## Reading an expression that is bound -/

/-- What is read from the words of an expression, where an operand is expected: the
    expression itself. -/
def IsReadFlat (e : Expr) : Prop :=
  ∀ depth limit, 16 * (kinds e.flatPieces).length + 4 ≤ depth → (∀ s ∈ e.grip?, limit < s) →
    ∃ depth', depth ≤ depth' + (kinds e.flatPieces).length ∧
      Reads (Parser.operand depth limit) (kinds e.flatPieces) e.Ends True (· = e)
        (chain depth' limit)

theorem IsWord.isSeparated (h : e.IsWord) : e.IsSeparated := by
  cases e <;> first | exact (isSeparated_above rfl).2 Node.all_nil | cases h

theorem IsWord.isReadFlat (h : e.IsWord) : e.IsReadFlat := by
  intro depth limit hdepth _
  rw [h.flatPieces_eq] at hdepth ⊢
  have hbinary : ∀ op l r, e = .binary op l r → limit < op.leftStrength := by
    rintro op l r rfl
    cases h
  obtain ⟨depth', hdepth', hread⟩ :=
    h.isWritable.isWritten.isRead.operand depth limit hdepth hbinary
  exact ⟨depth', hdepth', hread.mono (fun _ => Ends.follows) (fun _ => h.isSeparated)
    fun v hv => hv.counts.same h.isSeparated⟩

theorem isReadFlat_unary {op : UnaryOp} (he : e.IsReadFlat)
    (hgrip : ∀ s ∈ e.grip?, UnaryOp.strength < s) : (Expr.unary op e).IsReadFlat := by
  intro depth limit hdepth _
  simp only [flatPieces, kinds_append, UnaryOp.kinds_pieces, List.cons_append, List.nil_append,
    List.length_cons] at hdepth ⊢
  obtain ⟨depth, rfl⟩ : ∃ n, depth = n + 1 := ⟨depth - 1, by omega⟩
  -- The operand is read up to what is weaker than a unary operator, so it ends with `e`.
  obtain ⟨depth', hdepth', hread⟩ := he depth UnaryOp.strength (by omega) hgrip
  refine ⟨depth, by omega, ?_⟩
  rw [Parser.operand]
  refine reads_peek fun line => ?_
  simp only [UnaryOp.unaryOp?_kind]
  refine reads_advance ?_
  have hoperand : Reads (Parser.operand depth UnaryOp.strength) (kinds e.flatPieces)
      (Expr.unary op e).Ends True (· = e) pure :=
    hread.trans_nil id (fun kind hkind => hkind.operand hgrip) fun v hv =>
      reads_chain_end (by omega) hv fun kind hkind op' hop' => hkind.2 op' hop' _ rfl
  exact hoperand.bind_nil id (fun _ hkind => hkind) fun v hv =>
    reads_next (congrArg (unary op) hv)

theorem isReadFlat_binary {op : BinaryOp} (hl : l.IsReadFlat) (hr : r.IsReadFlat)
    (hreach : ∀ s ∈ l.reach?, op.leftStrength ≤ s)
    (hgrip : ∀ s ∈ r.grip?, op.rightStrength < s) : (Expr.binary op l r).IsReadFlat := by
  intro depth limit hdepth hlimit
  have hstrength : limit < op.leftStrength := hlimit _ rfl
  simp only [flatPieces, kinds_append, BinaryOp.piece_eq, kinds_blank, kinds_token,
    List.length_append, List.length_cons] at hdepth ⊢
  -- The left side is bound at least as strongly as the operator, so it is read within the limit.
  have hgripLeft : ∀ s ∈ l.grip?, limit < s := by
    intro s hs
    cases l with
    | binary op' l' r' =>
      cases hs
      exact hstrength.trans_le ((hreach _ rfl).trans op'.rightStrength_le)
    | _ => cases hs
  obtain ⟨depth', hdepth', hleft⟩ := hl depth limit (by omega) hgripLeft
  obtain ⟨depth', rfl⟩ : ∃ n, depth' = n + 1 := ⟨depth' - 1, by omega⟩
  obtain ⟨depth'', hdepth'', hright⟩ := hr depth' op.rightStrength (by omega) hgrip
  refine ⟨depth', by omega, ?_⟩
  refine hleft.trans id (ends_operator hreach : l.Ends op.kind) ?_
  rintro v rfl
  rw [chain]
  refine reads_peek fun line => ?_
  simp only [BinaryOp.binaryOp?_kind, if_neg (Nat.not_le.2 hstrength)]
  refine reads_advance ?_
  have hoperand : Reads (Parser.operand depth' op.rightStrength) (kinds r.flatPieces)
      (Expr.binary op v r).Ends True (· = r) pure :=
    hright.trans_nil id (fun kind hkind => hkind.right hgrip) fun w hw =>
      reads_chain_end (by omega) hw fun kind hkind op' hop' => hkind.2 op' hop' _ rfl
  exact hoperand.bind_nil id (fun _ hkind => hkind) fun w hw =>
    reads_next (congrArg (binary op v) hw)

/-- The words of a plain expression that is bound are read as the expression. -/
theorem IsPlain.isReadFlat (h : e.IsPlain) (hbound : e.IsBound) : e.IsReadFlat := by
  induction h with
  | word h => exact h.isReadFlat
  | unary op h ih => exact isReadFlat_unary (ih hbound.1) hbound.2
  | binary op hl hr ihl ihr =>
    obtain ⟨hlb, hrb, hreach, hgrip⟩ := hbound
    exact isReadFlat_binary (ihl hlb) (ihr hrb) hreach hgrip

end Expr

/-! ## Reading gives what is bound -/

namespace Parser

variable {α : Type} {tokens rest : List Token} {e v : Expr} {depth limit : Nat}

/-- Whether a token starts an expression with others between its ends. -/
def opensNested : TokenKind → Bool
  | .symbol .leftParen | .symbol .leftBrace | .keyword .kwFunction => true
  | _ => false

/-- Whether no token starts an expression with others between its ends. -/
def IsOpen (tokens : List Token) : Prop := ∀ token ∈ tokens, opensNested token.kind = false

theorem IsOpen.head (h : IsOpen tokens) : opensNested (head tokens).kind = false := by
  cases tokens with
  | nil => rfl
  | cons token tokens => exact h token List.mem_cons_self

theorem IsOpen.tail (h : IsOpen tokens) : IsOpen tokens.tail :=
  fun token htoken => h token (List.mem_of_mem_tail htoken)

theorem isOpen_of_operand (h : IsOpen tokens)
    (hrun : (operand depth limit).run tokens = .ok (e, rest)) : IsOpen rest :=
  ((shapes (W := fun kind => opensNested kind = false) rfl rfl depth).operand limit tokens e rest
    h hrun).2

theorem exists_of_run_bind {act : Parser α} {f : α → Parser Expr}
    (h : (act >>= f).run tokens = .ok (e, rest)) :
    ∃ a middle, act.run tokens = .ok (a, middle) ∧ (f a).run middle = .ok (e, rest) := by
  rw [StateT.run_bind] at h
  obtain ⟨⟨a, middle⟩, hact, hf⟩ := bind_eq_ok_iff.1 h
  exact ⟨a, middle, hact, hf⟩

/-- The next token of a kind that is not the end is the first one. -/
theorem map_kind_of_head {kind : TokenKind} (h : (head tokens).kind = kind) (heof : kind ≠ .eof) :
    tokens.map Token.kind = kind :: tokens.tail.map Token.kind := by
  cases tokens with
  | nil => exact absurd h.symm heof
  | cons token tokens => exact congrArg (· :: _) h

/-! ### Words -/

/-- Whether a reader gives no plain expression. -/
def Spoils (act : Parser Expr) : Prop :=
  ∀ tokens v rest, act.run tokens = .ok (v, rest) → ¬ v.IsPlain

theorem spoils_bind {act : Parser α} {f : α → Parser Expr} (h : ∀ a, Spoils (f a)) :
    Spoils (act >>= f) := by
  intro tokens v rest hrun
  obtain ⟨a, middle, -, hf⟩ := exists_of_run_bind hrun
  exact h a middle v rest hf

theorem not_isPlain_of_not_isWord (hword : ¬ e.IsWord) (hreach : e.reach? = none) :
    ¬ e.IsPlain := by
  intro h
  cases h with
  | word h => exact hword h
  | unary | binary => cases hreach

/-- With an access or a call an expression is not plain. -/
theorem spoils_suffixes (h : ¬ e.IsPlain) : Spoils (suffixes depth e) := by
  induction depth generalizing e with
  | zero => exact fun _ _ _ hrun => nomatch hrun
  | succ depth ih =>
    -- After any suffix the expression is again none that is plain.
    have hmember (key : String) := @ih (.member e key) (not_isPlain_of_not_isWord nofun rfl)
    have hindex (key : Expr) := @ih (.index e key) (not_isPlain_of_not_isWord nofun rfl)
    have hcall (args : List Expr) := @ih (.call e args) (not_isPlain_of_not_isWord nofun rfl)
    have hmethod (name : String) (args : List Expr) :=
      @ih (.methodCall e name args) (not_isPlain_of_not_isWord nofun rfl)
    rw [suffixes]
    refine spoils_bind fun token => ?_
    split
    · exact spoils_bind fun _ => spoils_bind hmember
    · exact spoils_bind fun _ => spoils_bind fun key => spoils_bind fun _ => hindex key
    · exact spoils_bind fun _ => spoils_bind fun name => spoils_bind (hmethod name)
    · exact spoils_bind hcall
    · exact spoils_bind hcall
    · exact spoils_bind hcall
    · rintro tokens v rest ⟨⟩
      exact h

/-- A plain expression is not followed by accesses and calls. -/
theorem eq_of_suffixes (hrun : (suffixes depth e).run tokens = .ok (v, rest)) (h : v.IsPlain) :
    v = e ∧ rest = tokens := by
  cases depth with
  | zero => cases hrun
  | succ depth =>
    have hmember (key : String) :=
      @spoils_suffixes (.member e key) depth (not_isPlain_of_not_isWord nofun rfl)
    have hindex (key : Expr) :=
      @spoils_suffixes (.index e key) depth (not_isPlain_of_not_isWord nofun rfl)
    have hcall (args : List Expr) :=
      @spoils_suffixes (.call e args) depth (not_isPlain_of_not_isWord nofun rfl)
    have hmethod (name : String) (args : List Expr) :=
      @spoils_suffixes (.methodCall e name args) depth (not_isPlain_of_not_isWord nofun rfl)
    rw [suffixes] at hrun
    obtain ⟨token, middle, ⟨⟩, hrun⟩ := exists_of_run_bind hrun
    split at hrun
    · exact absurd h (spoils_bind (fun _ => spoils_bind hmember) _ _ _ hrun)
    · exact absurd h (spoils_bind (fun _ => spoils_bind fun key => spoils_bind fun _ => hindex key)
        _ _ _ hrun)
    · exact absurd h (spoils_bind (fun _ => spoils_bind fun name => spoils_bind (hmethod name))
        _ _ _ hrun)
    · exact absurd h (spoils_bind hcall _ _ _ hrun)
    · exact absurd h (spoils_bind hcall _ _ _ hrun)
    · exact absurd h (spoils_bind hcall _ _ _ hrun)
    · cases hrun
      exact ⟨rfl, rfl⟩

/-- A plain expression that is a single token is a word. -/
theorem word_of_atom {kind : TokenKind} (hatom : atom? kind = some e) (h : e.IsPlain) :
    e.IsWord ∧ kinds e.flatPieces = [kind] := by
  unfold atom? at hatom
  split at hatom <;> cases hatom
  · exact ⟨trivial, rfl⟩
  · exact ⟨trivial, rfl⟩
  · exact ⟨trivial, rfl⟩
  · cases h with | word h =>
    have hnumeral : HasNumeral _ := h
    refine ⟨h, ?_⟩
    rw [h.flatPieces_eq, Expr.pieces, hnumeral.pieces]
    rfl
  · cases h with | word h => exact ⟨h, rfl⟩
  · cases h with | word h => exact h.elim

/-- A plain expression without operators is a word. -/
theorem word_of_simple (hopen : IsOpen tokens)
    (hrun : (simple depth).run tokens = .ok (e, rest)) (h : e.IsPlain) :
    e.IsWord ∧ tokens.map Token.kind = kinds e.flatPieces ++ rest.map Token.kind := by
  cases depth with
  | zero => cases hrun
  | succ depth =>
    rw [simple] at hrun
    obtain ⟨token, middle, ⟨⟩, hrun⟩ := exists_of_run_bind hrun
    dsimp only at hrun
    -- Tables, functions and parentheses open something nested, which the tokens do not have.
    split at hrun
    · rename_i expr hatom
      cases hrun
      obtain ⟨hword, hkinds⟩ := word_of_atom hatom h
      refine ⟨hword, ?_⟩
      rw [hkinds]
      refine map_kind_of_head rfl fun heof => ?_
      rw [heof] at hatom
      cases hatom
    · split at hrun
      · rename_i hbrace
        have hhead := hopen.head
        rw [hbrace] at hhead
        cases hhead
      · split at hrun
        · rename_i hfunction
          have hhead := hopen.head
          rw [hfunction] at hhead
          cases hhead
        · cases depth with
          | zero => cases hrun
          | succ depth =>
            rw [suffixed] at hrun
            obtain ⟨first, middle, hprimary, hrun⟩ := exists_of_run_bind hrun
            obtain ⟨rfl, rfl⟩ := eq_of_suffixes hrun h
            cases depth with
            | zero => cases hprimary
            | succ depth =>
              rw [primary] at hprimary
              obtain ⟨token, _, ⟨⟩, hprimary⟩ := exists_of_run_bind hprimary
              split at hprimary
              · rename_i text hname
                cases hprimary
                cases h with | word h => exact ⟨h, map_kind_of_head hname fun heof => by cases heof⟩
              · rename_i hparen
                have hhead := hopen.head
                rw [hparen] at hhead
                cases hhead
              · cases hprimary

/-! ### Chains -/

/-- Whether an expression is bound, binds more strongly than a limit, and ends before tokens
    of which no operator does. -/
structure Stops (limit : Nat) (e : Expr) (rest : List Token) : Prop where
  bound : e.IsBound
  grip : ∀ s ∈ e.grip?, limit < s
  reach : ∀ op, binaryOp? (head rest).kind = some op → ∀ s ∈ e.reach?, op.leftStrength ≤ s

/-- Whether no operator that binds more strongly than a limit comes first. -/
def StopsAt (limit : Nat) (rest : List Token) : Prop :=
  ∀ op, binaryOp? (head rest).kind = some op → op.leftStrength ≤ limit

/-- A unary operation stops where its operand does. -/
theorem Stops.unary {op : UnaryOp} (h : Stops UnaryOp.strength e rest)
    (hat : StopsAt UnaryOp.strength rest) : Stops limit (.unary op e) rest where
  bound := ⟨h.bound, h.grip⟩
  grip _ hs := by cases hs
  reach op' hop' s hs := by
    cases hs
    exact hat op' hop'

/-- An operation whose left operand stops before it stops where its right operand does. -/
theorem Stops.binary {op : BinaryOp} (h : Stops op.rightStrength e rest)
    (hv : Stops limit v tokens) (hop : binaryOp? (head tokens).kind = some op)
    (hlimit : limit < op.leftStrength) (hat : StopsAt op.rightStrength rest) :
    Stops limit (.binary op v e) rest where
  bound := ⟨hv.bound, h.bound, hv.reach op hop, h.grip⟩
  grip s hs := by
    cases hs
    exact hlimit
  reach op' hop' s hs := by
    cases hs
    exact hat op' hop'

theorem isPlain_of_chain (hrun : (chain depth limit v).run tokens = .ok (e, rest))
    (h : e.IsPlain) : v.IsPlain := by
  induction depth generalizing v tokens with
  | zero => cases hrun
  | succ depth ih =>
    rw [chain] at hrun
    obtain ⟨token, middle, ⟨⟩, hrun⟩ := exists_of_run_bind hrun
    split at hrun
    · split at hrun
      · cases hrun
        exact h
      · obtain ⟨_, _, ⟨⟩, hrun⟩ := exists_of_run_bind hrun
        obtain ⟨right, middle, -, hrun⟩ := exists_of_run_bind hrun
        exact (ih hrun).of_binary.1
    · cases hrun
      exact h

/-- What is read as an expression, where operators bind more strongly than a limit. -/
structure Regrouped (limit : Nat) (words : List TokenKind) (e : Expr) (rest : List Token) :
    Prop where
  words_eq : words = kinds e.flatPieces ++ rest.map Token.kind
  stops : Stops limit e rest
  stopsAt : StopsAt limit rest

/-- What the readers of operands give at a depth. -/
structure Regroups (depth : Nat) : Prop where
  operand : ∀ {limit tokens e rest}, IsOpen tokens →
    (operand depth limit).run tokens = .ok (e, rest) → e.IsPlain →
    Regrouped limit (tokens.map Token.kind) e rest
  chain : ∀ {limit v tokens e rest}, IsOpen tokens → Stops limit v tokens →
    (chain depth limit v).run tokens = .ok (e, rest) → e.IsPlain →
    Regrouped limit (kinds v.flatPieces ++ tokens.map Token.kind) e rest

theorem kind_of_binaryOp? {kind : TokenKind} {op : BinaryOp} (h : binaryOp? kind = some op) :
    kind = op.kind := by
  unfold binaryOp? at h
  split at h <;> cases h <;> rfl

theorem kind_of_unaryOp? {kind : TokenKind} {op : UnaryOp} (h : unaryOp? kind = some op) :
    kind = op.kind := by
  unfold unaryOp? at h
  split at h <;> cases h <;> rfl

theorem stops_of_isWord (h : e.IsWord) : Stops limit e rest := by
  cases e with
  | nil | boolean | number | string | name => exact ⟨trivial, nofun, fun _ _ => nofun⟩
  | _ => cases h

theorem Regroups.operand_succ (h : Regroups depth) (hopen : IsOpen tokens)
    (hrun : (Parser.operand (depth + 1) limit).run tokens = .ok (e, rest)) (hplain : e.IsPlain) :
    Regrouped limit (tokens.map Token.kind) e rest := by
  rw [Parser.operand] at hrun
  obtain ⟨token, middle, ⟨⟩, hrun⟩ := exists_of_run_bind hrun
  split at hrun
  · -- A unary operator takes its operand first and goes on as the left side of a chain.
    rename_i op hop
    obtain ⟨_, _, ⟨⟩, hrun⟩ := exists_of_run_bind hrun
    obtain ⟨inner, middle, hinner, hrun⟩ := exists_of_run_bind hrun
    have hunary := (isPlain_of_chain hrun hplain).of_unary
    obtain ⟨hwords, hstops, hat⟩ := h.operand hopen.tail hinner hunary
    have hmiddle := isOpen_of_operand hopen.tail hinner
    obtain ⟨hchain, hstops', hat'⟩ := h.chain hmiddle (hstops.unary hat) hrun hplain
    refine ⟨?_, hstops', hat'⟩
    have hkind := kind_of_unaryOp? hop
    rw [map_kind_of_head hkind op.kind_ne_eof, hwords, ← hchain]
    simp [Expr.flatPieces]
  · obtain ⟨left, middle, hleft, hrun⟩ := exists_of_run_bind hrun
    obtain ⟨hword, hwords⟩ := word_of_simple hopen hleft (isPlain_of_chain hrun hplain)
    have hmiddle : IsOpen middle :=
      ((shapes (W := fun kind => opensNested kind = false) rfl rfl depth).simple tokens left middle
        hopen hleft).2
    rw [hwords]
    exact h.chain hmiddle (stops_of_isWord hword) hrun hplain

theorem Regroups.chain_succ (h : Regroups depth) (hopen : IsOpen tokens)
    (hv : Stops limit v tokens)
    (hrun : (Parser.chain (depth + 1) limit v).run tokens = .ok (e, rest)) (hplain : e.IsPlain) :
    Regrouped limit (kinds v.flatPieces ++ tokens.map Token.kind) e rest := by
  rw [Parser.chain] at hrun
  obtain ⟨token, middle, ⟨⟩, hrun⟩ := exists_of_run_bind hrun
  -- The chain ends where the next operator is not stronger than the limit.
  split at hrun
  · rename_i op hop
    split at hrun
    · rename_i hle
      cases hrun
      exact ⟨rfl, hv, fun op' hop' => by rw [hop] at hop'; cases hop'; exact hle⟩
    · rename_i hlt
      obtain ⟨_, _, ⟨⟩, hrun⟩ := exists_of_run_bind hrun
      obtain ⟨right, middle, hright, hrun⟩ := exists_of_run_bind hrun
      have hbinary := (isPlain_of_chain hrun hplain).of_binary
      obtain ⟨hwords, hstops, hat⟩ := h.operand hopen.tail hright hbinary.2
      have hleft := hstops.binary hv hop (Nat.lt_of_not_le hlt) hat
      have hmiddle := isOpen_of_operand hopen.tail hright
      obtain ⟨hchain, hstops', hat'⟩ := h.chain hmiddle hleft hrun hplain
      refine ⟨?_, hstops', hat'⟩
      have hkind := kind_of_binaryOp? hop
      rw [map_kind_of_head hkind op.kind_ne_eof, hwords, ← hchain]
      simp [Expr.flatPieces, BinaryOp.piece_eq]
  · rename_i hnone
    cases hrun
    exact ⟨rfl, hv, fun op' hop' => by rw [hnone] at hop'; cases hop'⟩

/-- A plain expression that is read from tokens without parentheses is bound, and its words are
    the tokens. -/
theorem regroups (depth : Nat) : Regroups depth := by
  induction depth with
  | zero => exact ⟨fun _ hrun => (by cases hrun), fun _ _ hrun => (by cases hrun)⟩
  | succ depth ih => exact ⟨ih.operand_succ, ih.chain_succ⟩

end Parser

namespace Expr

variable {e l r : Expr}

/-! ## Minus signs -/

/-- What is bound below a negation is another one, or starts with no minus sign. -/
theorem IsPlain.lead_ne_minus {next : Option Char} (h : e.IsPlain) (hbound : e.IsBound)
    (hgrip : ∀ s ∈ e.grip?, UnaryOp.strength < s) (hnegation : e.isNegation = false) :
    Piece.lead next e.flatPieces ≠ some '-' := by
  have hword {e : Expr} (h : e.IsWord) (next : Option Char) :
      Piece.lead next e.flatPieces ≠ some '-' := by
    intro hlead
    obtain ⟨c, hc, -, hminus⟩ := (IsPlain.word h).lead next
    rw [hc] at hlead
    obtain ⟨rest, hrest, -⟩ := hminus (Option.some.inj hlead)
    rw [h.flatPieces_eq] at hrest
    refine head?_ne_minus_of_reach? (Node.All.mono h.isWritable fun _ hnode =>
      hnode.mono fun _ hword => hword.isPrinted False) h.reach? ?_
    rw [hrest]
    rfl
  cases h with
  | word h => exact hword h next
  | unary op h =>
    cases op with
    | negate => cases hnegation
    | not | length => exact fun h => absurd (Option.some.inj h) (by decide)
  | @binary op l r hl _ =>
    rw [flatPieces, lead_append]
    obtain ⟨-, -, hreach, -⟩ := hbound
    have hstrength : UnaryOp.strength < op.leftStrength := hgrip _ rfl
    -- Only a power binds so strongly, and no operation ends before it.
    cases hl with
    | word h => exact hword h _
    | unary op' _ => exact absurd (hreach _ rfl) (Nat.not_le.2 hstrength)
    | binary op' _ _ =>
      have hle : op.leftStrength ≤ op'.rightStrength := hreach _ rfl
      exfalso
      revert hstrength hle
      cases op <;> cases op' <;> decide

/-- The words of a plain expression that can do without parentheses stay apart. -/
theorem IsGrouped.fits {next : Option Char} (h : e.IsGrouped) (hplain : e.IsPlain)
    (hnext : endsNumber next = true) : Fits False next e.flatPieces := by
  obtain ⟨hbound, hminus⟩ := h
  -- What comes after the left side is the blank before the operator.
  induction hplain generalizing next with
  | word h =>
    rw [h.flatPieces_eq]
    exact (isFit (Node.All.mono h.isWritable fun _ hnode =>
      hnode.mono fun _ hword => hword.isPrinted False)).fits hnext
  | unary op h ih =>
    obtain ⟨hdouble, hminus⟩ := Bool.or_eq_false_iff.1 hminus
    refine fits_unaryOperator op (ih hnext hbound.1 hminus) fun hop => ?_
    subst hop
    exact h.lead_ne_minus hbound.1 hbound.2 (by simpa using hdouble)
  | binary op _ _ ihl ihr =>
    obtain ⟨hlminus, hrminus⟩ := Bool.or_eq_false_iff.1 hminus
    exact fits_append_iff.2
      ⟨ihl rfl hbound.1 hlminus, fits_operator op (ihr hnext hbound.2.1 hrminus)⟩

/-! ## Reading back -/

theorem IsPlain.isOpen (h : e.IsPlain) : ∀ kind ∈ kinds e.flatPieces, opensNested kind = false := by
  induction h with
  | @word e h =>
    cases e with
    | number x =>
      have hnumeral : HasNumeral x := h
      rw [h.flatPieces_eq, pieces, hnumeral.pieces]
      exact List.forall_mem_singleton.2 rfl
    | boolean value => cases value <;> exact List.forall_mem_singleton.2 rfl
    | nil | string | name => exact List.forall_mem_singleton.2 rfl
    | _ => cases h
  | unary op h ih =>
    rw [flatPieces, kinds_append, UnaryOp.kinds_pieces]
    exact List.forall_mem_cons.2 ⟨by cases op <;> rfl, ih⟩
  | binary op _ _ ihl ihr =>
    rw [flatPieces, kinds_append, BinaryOp.piece_eq, kinds_blank, kinds_token, kinds_blank]
    exact List.forall_mem_append.2 ⟨ihl, List.forall_mem_cons.2 ⟨by cases op <;> rfl, ihr⟩⟩

theorem IsReadFlat.reads (h : e.IsReadFlat) {depth : Nat}
    (hdepth : 16 * (kinds e.flatPieces).length + 5 ≤ depth) :
    Reads (Parser.expression depth) (kinds e.flatPieces) (.eof = ·) True (· = e) pure := by
  obtain ⟨depth, rfl⟩ : ∃ n, depth = n + 1 := ⟨depth - 1, by omega⟩
  rw [Parser.expression]
  have hgrip : ∀ s ∈ e.grip?, 0 < s := by
    intro s hs
    cases e with
    | binary op _ _ =>
      cases hs
      exact leftStrength_pos op
    | _ => cases hs
  obtain ⟨depth', hdepth', hread⟩ := h depth 0 (by omega) hgrip
  refine hread.trans_nil id (fun kind hkind => by subst hkind; exact ends_eof) fun v hv => ?_
  exact reads_chain_end (by omega) hv fun kind hkind op hop => by subst hkind; cases hop

/-- A plain expression that can do without parentheses is read back from its words. -/
theorem IsGrouped.parseExpr_eq (h : e.IsGrouped) (hplain : e.IsPlain) :
    parseExpr e.flatText = .ok e := by
  have hfits : Fits False none e.flatPieces := h.fits hplain rfl
  have heof : TokenKind.eof = .eof := rfl
  obtain ⟨hnot, -⟩ | ⟨v, hv, hparse⟩ := whole_render Parser.expression hfits hfits.keeps heof
    fun depth hdepth => (hplain.isReadFlat h.bound).reads (by omega : _ ≤ depth)
  · exact absurd trivial hnot
  · obtain rfl : v = e := hv
    exact hparse

/-- What is read as a plain expression is bound as its tree says, and is the tokens. -/
theorem regrouped_of_whole {tokens : List Token} (hopen : IsOpen tokens) (hplain : e.IsPlain)
    (h : Parser.whole Parser.expression tokens = .ok e) :
    e.IsBound ∧ ∃ rest : List Token,
      tokens.map Token.kind = kinds e.flatPieces ++ rest.map Token.kind := by
  obtain ⟨⟨value, rest⟩, hrun, hrest⟩ := bind_eq_ok_iff.1 h
  have hvalue : value = e := by
    dsimp only at hrest
    split at hrest
    · exact pure_eq_ok_iff.1 hrest
    · cases hrest
  subst hvalue
  cases hdepth : depthFor tokens with
  | zero => rw [hdepth] at hrun; cases hrun
  | succ depth =>
    rw [hdepth, Parser.expression] at hrun
    obtain ⟨hwords, hstops, -⟩ := (regroups depth).operand hopen hrun hplain
    exact ⟨hstops.bound, rest, hwords⟩

theorem isOpen_of_kinds {tokens : List Token} {kinds : List TokenKind}
    (htokens : tokens.map Token.kind = kinds ++ [TokenKind.eof])
    (hkinds : ∀ kind ∈ kinds, opensNested kind = false) : IsOpen tokens := by
  intro token htoken
  have hmem : token.kind ∈ kinds ++ [TokenKind.eof] := htokens ▸ List.mem_map_of_mem htoken
  rcases List.mem_append.1 hmem with hmem | hmem
  · exact hkinds _ hmem
  · rw [List.mem_singleton.1 hmem]
    rfl

/-- The words of a plain expression are read as the expression just if it can do without
    parentheses. -/
theorem IsPlain.parseExpr_flatText_iff (h : e.IsPlain) :
    parseExpr e.flatText = .ok e ↔ e.IsGrouped := by
  refine ⟨fun hparse => ?_, fun hgrouped => hgrouped.parseExpr_eq h⟩
  obtain ⟨tokens, htokens, hwhole⟩ := bind_eq_ok_iff.1 hparse
  have hnext : endsNumber none = true := rfl
  rcases h.fits_or_comment hnext with hfits | hcomment
  · obtain ⟨tokens', htokens', hkinds⟩ := tokenize_render hfits hfits.keeps
    obtain rfl : tokens' = tokens := Except.ok.inj (htokens'.symm.trans htokens)
    refine ⟨(regrouped_of_whole (isOpen_of_kinds hkinds h.isOpen) h hwhole).1, ?_⟩
    by_contra hminus
    obtain ⟨before, rest, hpieces⟩ := h.exists_doubleMinus (Bool.of_not_eq_false hminus)
    rw [hpieces] at hfits
    exact not_fits_of_doubleMinus before rest hfits
  · -- The words that a comment hides are missing.
    obtain ⟨tokens', before, rest, htokens', hpieces, hkinds⟩ :=
      tokenize_render_comment hcomment h.not_mem_toList
    obtain rfl : tokens' = tokens := Except.ok.inj (htokens'.symm.trans htokens)
    have hopen := h.isOpen
    rw [hpieces, kinds_append] at hopen
    obtain ⟨-, rest', hwords⟩ := regrouped_of_whole
      (isOpen_of_kinds hkinds fun kind hkind => hopen kind (List.mem_append_left _ hkind)) h hwhole
    have hlength := congrArg List.length (hkinds.symm.trans hwords)
    rw [hpieces, kinds_append, kinds_sym, kinds_sym] at hlength
    simp only [List.length_append, List.length_cons, List.length_nil] at hlength
    omega

end Expr

end LuaUnpack.Lua
