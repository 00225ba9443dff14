import LuaUnpack.Proofs.Lua.ReadBlock

/-!
# Statements that are read as one

A statement that ends with an expression goes on if a parenthesis follows: the parenthesis is
read as the arguments of a call. So the tokens of two statements that join are those of one
statement, or of one before a token with which no statement can start (`Stmt.Joins.joined`).
-/

namespace LuaUnpack.Lua

open Piece LuaUnpack.Lua.Parser

/-! ## Expressions that go on -/

namespace Expr

/-- The expression that is read from `o` and a parenthesis after it, which becomes the
    arguments of a call; what follows the parenthesis is kept. -/
def continuedBy (o : Expr) : Expr → Expr
  | .member t k => .member (o.continuedBy t) k
  | .index t k => .index (o.continuedBy t) k
  | .call f args => .call (o.continuedBy f) args
  | .methodCall p m args => .methodCall (o.continuedBy p) m args
  | .paren e => .call o [e]
  | e => .call o [e]

/-- The expression that is read if the last operand of `e` goes on with a parenthesis. -/
def extendedBy : Expr → Expr → Expr
  | .unary op e, f =>
    .unary op (if e.needsParensUnder op then e.continuedBy f else e.extendedBy f)
  | .binary op l r, f =>
    .binary op l (if r.needsParens op false then r.continuedBy f else r.extendedBy f)
  | e, f => e.continuedBy f

variable {e o f : Expr}

theorem takesSuffix_continuedBy (o f : Expr) : (o.continuedBy f).takesSuffix = true := by
  cases f <;> rfl

theorem count_continuedBy (o : Expr) : ∀ f : Expr, (o.continuedBy f).count = o.count + f.count
  -- By induction along the suffixes, down to what they are taken from.
  | .member t k => count_continuedBy o t
  | .index t k => by
    simp only [continuedBy, count, Mark.ofExpr, Mark.count_append]
    rw [← count, count_continuedBy o t, count, count]
    omega
  | .call f args => by
    simp only [continuedBy, count, Mark.ofExpr, Mark.count_append]
    rw [← count, count_continuedBy o f, count, count]
    omega
  | .methodCall p m args => by
    simp only [continuedBy, count, Mark.ofExpr, Mark.count_append]
    rw [← count, count_continuedBy o p, count, count]
    omega
  | .nil | .boolean _ | .number _ | .string _ | .vararg | .name _ | .function _ | .table _
  | .binary _ _ _ | .unary _ _ | .paren _ => by
    simp [continuedBy, count, Mark.ofExpr, Mark.ofExprs]

/-- What goes on is written as the two expressions one after the other. -/
theorem kinds_continuedBy (o : Expr) : ∀ f : Expr, (!f.takesSuffix || f.startsParen) = true →
    kinds (o.continuedBy f).pieces = kinds (parensIf (!o.takesSuffix) o.pieces)
      ++ kinds (parensIf (!f.takesSuffix) f.pieces)
  | .member t k, h => by
    simp only [continuedBy, pieces, kinds_append, takesSuffix_continuedBy]
    change kinds (o.continuedBy t).pieces ++ _ = _ ++ kinds ((Expr.member t k).pieces)
    rw [kinds_continuedBy o t h, pieces, kinds_append, List.append_assoc]
  | .index t k, h => by
    simp only [continuedBy, pieces, kinds_append, takesSuffix_continuedBy]
    change kinds (o.continuedBy t).pieces ++ _ ++ _ = _ ++ kinds ((Expr.index t k).pieces)
    rw [kinds_continuedBy o t h, pieces, kinds_append, kinds_append, List.append_assoc,
      List.append_assoc, List.append_assoc]
  | .call f args, h => by
    simp only [continuedBy, pieces, kinds_append, takesSuffix_continuedBy]
    change kinds (o.continuedBy f).pieces ++ _ = _ ++ kinds ((Expr.call f args).pieces)
    rw [kinds_continuedBy o f h, pieces, kinds_append, List.append_assoc]
  | .methodCall p m args, h => by
    simp only [continuedBy, pieces, kinds_append, takesSuffix_continuedBy]
    change kinds (o.continuedBy p).pieces ++ _ = _ ++ kinds ((Expr.methodCall p m args).pieces)
    rw [kinds_continuedBy o p h, pieces, kinds_append, List.append_assoc]
  | .paren e, _ => by
    simp [continuedBy, pieces, listPieces, moreListPieces, takesSuffix, parensIf]
  | .nil, _ | .boolean _, _ | .number _, _ | .string _, _ | .vararg, _ | .function _, _ | .table _, _
  | .binary _ _ _, _ | .unary _ _, _ => by
    simp [continuedBy, pieces, listPieces, moreListPieces, takesSuffix, parensIf]

theorem continuedBy_ne_vararg (o f : Expr) : o.continuedBy f ≠ .vararg := by
  cases f <;> exact nofun

theorem isWritten_call_singleton (ho : o.IsWritten) (hvararg : o ≠ .vararg) (he : e.IsWritten) :
    (Expr.call o [e]).IsWritten := by
  refine Node.all_above_iff.2 ⟨⟨nofun, hvararg, nofun⟩, Node.all_append_iff.2 ⟨ho, ?_⟩⟩
  exact Node.all_append_iff.2 ⟨he, Node.all_nil⟩

theorem isWritten_continuedBy (ho : o.IsWritten) (hvararg : o ≠ .vararg) :
    ∀ f : Expr, f.IsWritten → (o.continuedBy f).IsWritten
  | .member t k, h => by
    obtain ⟨hnode, ht⟩ := Node.all_above_iff.1 h
    exact Node.all_above_iff.2 ⟨⟨hnode.words, continuedBy_ne_vararg o t, nofun⟩,
      isWritten_continuedBy ho hvararg t ht⟩
  | .index t k, h => by
    obtain ⟨hnode, hparts⟩ := Node.all_above_iff.1 h
    obtain ⟨ht, hk⟩ := Node.all_append_iff.1 hparts
    exact Node.all_above_iff.2 ⟨⟨hnode.words, continuedBy_ne_vararg o t, nofun⟩,
      Node.all_append_iff.2 ⟨isWritten_continuedBy ho hvararg t ht, hk⟩⟩
  | .call f args, h => by
    obtain ⟨hnode, hparts⟩ := Node.all_above_iff.1 h
    obtain ⟨hf, hargs⟩ := Node.all_append_iff.1 hparts
    exact Node.all_above_iff.2 ⟨⟨hnode.words, continuedBy_ne_vararg o f, nofun⟩,
      Node.all_append_iff.2 ⟨isWritten_continuedBy ho hvararg f hf, hargs⟩⟩
  | .methodCall p m args, h => by
    obtain ⟨hnode, hparts⟩ := Node.all_above_iff.1 h
    obtain ⟨hp, hargs⟩ := Node.all_append_iff.1 hparts
    exact Node.all_above_iff.2 ⟨⟨hnode.words, continuedBy_ne_vararg o p, nofun⟩,
      Node.all_append_iff.2 ⟨isWritten_continuedBy ho hvararg p hp, hargs⟩⟩
  | .paren e, h => isWritten_call_singleton ho hvararg (Node.all_above_iff.1 h).2
  | .nil, h | .boolean _, h | .number _, h | .string _, h | .vararg, h | .name _, h
  | .function _, h | .table _, h | .binary _ _ _, h | .unary _ _, h =>
    isWritten_call_singleton ho hvararg h

theorem isCall_continuedBy (h : f.isCall = true) : (o.continuedBy f).isCall = true := by
  cases f <;> first | rfl | cases h

theorem isAssignable_continuedBy (h : f.isAssignable = true) (hparen : f.startsParen = true) :
    (o.continuedBy f).isAssignable = true := by
  cases f <;> first | rfl | (cases hparen; done) | cases h

/-! ## The last operand -/

theorem strength?_continuedBy (o f : Expr) : (o.continuedBy f).strength? = none := by
  cases f <;> rfl

theorem extendedBy_of_takesSuffix (h : e.takesSuffix = true) (f : Expr) :
    e.extendedBy f = e.continuedBy f := by
  cases e <;> first | rfl | cases h

theorem strength?_extendedBy (h : e.endsOpen = true) (f : Expr) :
    (e.extendedBy f).strength? = e.strength? := by
  cases e <;> first | rfl | exact strength?_continuedBy _ f | cases h

theorem needsParens_extendedBy {op : BinaryOp} {isLeft : Bool} (h : e.endsOpen = true) (f : Expr) :
    (e.extendedBy f).needsParens op isLeft = e.needsParens op isLeft := by
  rw [needsParens, needsParens, strength?_extendedBy h f]

theorem needsParensUnder_continuedBy {op : UnaryOp} (o f : Expr) :
    (o.continuedBy f).needsParensUnder op = false := by
  cases op <;> cases f <;> rfl

theorem needsParensUnder_extendedBy {op : UnaryOp} (h : e.endsOpen = true) (f : Expr) :
    (e.extendedBy f).needsParensUnder op = e.needsParensUnder op := by
  cases e
  case unary op' e => cases op' <;> rfl
  case binary => rfl
  all_goals first
    | (cases h; done)
    | exact (needsParensUnder_continuedBy _ f).trans (by cases op <;> rfl)

theorem takesSuffix_of_needsParens {op : BinaryOp} {isLeft : Bool}
    (h : e.needsParens op isLeft = true) : e.takesSuffix = false := by
  cases e <;> first | rfl | cases h

theorem takesSuffix_of_needsParensUnder {op : UnaryOp} (h : e.needsParensUnder op = true) :
    e.takesSuffix = false := by
  cases e <;> first | rfl | cases op <;> cases h

section

variable (hsuffix : f.takesSuffix = true) (hparen : f.startsParen = true)

include hsuffix hparen

theorem kinds_continuedBy_of_takesSuffix (h : e.takesSuffix = true) :
    kinds (e.continuedBy f).pieces = kinds e.pieces ++ kinds f.pieces := by
  rw [kinds_continuedBy e f (by rw [hparen, Bool.or_true]), h, hsuffix]
  rfl

theorem kinds_continuedBy_of_parens (h : e.takesSuffix = false) :
    kinds (e.continuedBy f).pieces = kinds (inParens e.pieces) ++ kinds f.pieces := by
  rw [kinds_continuedBy e f (by rw [hparen, Bool.or_true]), h, hsuffix]
  rfl

theorem kinds_extendedBy : ∀ {e : Expr}, e.endsOpen = true →
    kinds (e.extendedBy f).pieces = kinds e.pieces ++ kinds f.pieces
  | .unary op e, h => by
    rw [extendedBy, pieces, pieces, kinds_append, kinds_append, List.append_assoc]
    refine congrArg _ ?_
    -- An operand in parentheses is itself what goes on; otherwise its own last operand is.
    cases hparens : e.needsParensUnder op with
    | true =>
      rw [if_pos rfl, needsParensUnder_continuedBy]
      exact kinds_continuedBy_of_parens hsuffix hparen (takesSuffix_of_needsParensUnder hparens)
    | false =>
      have hopen : e.endsOpen = true := by simpa [endsOpen, hparens] using h
      rw [if_neg Bool.false_ne_true, needsParensUnder_extendedBy hopen, hparens]
      exact kinds_extendedBy hopen
  | .binary op l r, h => by
    rw [extendedBy, pieces, pieces, kinds_append, kinds_append, List.append_assoc, kinds_blank,
      kinds_blank, BinaryOp.piece_eq, kinds_token, kinds_token, kinds_blank, kinds_blank,
      List.cons_append]
    refine congrArg (fun kinds => _ ++ op.kind :: kinds) ?_
    cases hparens : r.needsParens op false with
    | true =>
      have hnone : (r.continuedBy f).needsParens op false = false := by
        rw [needsParens, strength?_continuedBy]
      rw [if_pos rfl, hnone]
      exact kinds_continuedBy_of_parens hsuffix hparen (takesSuffix_of_needsParens hparens)
    | false =>
      have hopen : r.endsOpen = true := by simpa [endsOpen, hparens] using h
      rw [if_neg Bool.false_ne_true, needsParens_extendedBy hopen, hparens]
      exact kinds_extendedBy hopen
  | .name _, _ | .member _ _, _ | .index _ _, _ | .call _ _, _ | .methodCall _ _ _, _
  | .paren _, _ => kinds_continuedBy_of_takesSuffix hsuffix hparen rfl

end

theorem count_extendedBy (f : Expr) : ∀ e : Expr, (e.extendedBy f).count = e.count + f.count
  | .unary op e => by
    change (if e.needsParensUnder op then e.continuedBy f else e.extendedBy f).count = _
    split
    · exact count_continuedBy e f
    · exact count_extendedBy f e
  | .binary op l r => by
    have hright : (if r.needsParens op false then r.continuedBy f else r.extendedBy f).count =
        r.count + f.count := by
      split
      · exact count_continuedBy r f
      · exact count_extendedBy f r
    have hcount : ∀ r, (Expr.binary op l r).count = l.count + r.count := fun r =>
      Mark.count_append _ _
    rw [extendedBy, hcount, hcount, hright, Nat.add_assoc]
  | .nil | .boolean _ | .number _ | .string _ | .vararg | .name _ | .member _ _ | .index _ _
  | .call _ _ | .methodCall _ _ _ | .function _ | .table _ | .paren _ => count_continuedBy _ f

theorem isWritten_extendedBy (hf : f.IsWritten) :
    ∀ {e : Expr}, e.endsOpen = true → e.IsWritten → (e.extendedBy f).IsWritten
  | .unary op e, h, he => by
    obtain ⟨-, he⟩ := Node.all_above_iff.1 he
    refine Node.all_above_iff.2 ⟨⟨nofun, trivial, nofun⟩, ?_⟩
    split
    · -- In parentheses only what has many values would be cut, and that is not extended.
      rename_i hparens
      refine isWritten_continuedBy he ?_ f hf
      rintro rfl
      cases isMultiple_of_needsParensUnder hparens
    · rename_i hparens
      exact isWritten_extendedBy hf (by simpa [endsOpen, hparens] using h) he
  | .binary op l r, h, he => by
    obtain ⟨-, hparts⟩ := Node.all_above_iff.1 he
    obtain ⟨hl, hr⟩ := Node.all_append_iff.1 hparts
    refine Node.all_above_iff.2 ⟨⟨nofun, trivial, nofun⟩, Node.all_append_iff.2 ⟨hl, ?_⟩⟩
    split
    · rename_i hparens
      refine isWritten_continuedBy hr ?_ f hf
      rintro rfl
      cases isMultiple_of_needsParens hparens
    · rename_i hparens
      exact isWritten_extendedBy hf (by simpa [endsOpen, hparens] using h) hr
  | .name _, _, he | .member _ _, _, he | .index _ _, _, he | .call _ _, _, he
  | .methodCall _ _ _, _, he | .paren _, _, he => isWritten_continuedBy he nofun f hf

end Expr

/-! ## Lists that go on -/

/-- The list that is read if its last expression goes on with `f`, and others follow. -/
def extendLast (f : Expr) (more : List Expr) : List Expr → List Expr
  | [] => more
  | [e] => e.extendedBy f :: more
  | e :: e' :: es => e :: extendLast f more (e' :: es)

section

variable {f : Expr} {es more : List Expr}

theorem kinds_moreListPieces_cons (e : Expr) (es : List Expr) :
    kinds (moreListPieces (e :: es)) = .symbol .comma :: kinds (listPieces (e :: es)) := by
  simp [listPieces, moreListPieces]

theorem extendLast_ne_nil (f : Expr) (more : List Expr) (h : es ≠ []) :
    extendLast f more es ≠ [] := by
  cases es with
  | nil => exact absurd rfl h
  | cons e es => cases es <;> exact List.cons_ne_nil _ _

theorem kinds_extendLast (hsuffix : f.takesSuffix = true) (hparen : f.startsParen = true)
    (hopen : es.getLast?.any Expr.endsOpen = true) :
    kinds (listPieces (extendLast f more es)) =
      kinds (listPieces es) ++ kinds (listPieces (f :: more)) := by
  induction es with
  | nil => cases hopen
  | cons e es ih =>
    -- Only the last expression goes on; the ones before it are written as they were.
    cases es with
    | nil =>
      have he : e.endsOpen = true := hopen
      have hlist : ∀ e more, kinds (listPieces (e :: more)) =
          kinds e.pieces ++ kinds (moreListPieces more) := fun e more => by
        rw [listPieces, kinds_append]
      rw [extendLast, hlist, hlist f, kinds_listPieces_singleton,
        Expr.kinds_extendedBy hsuffix hparen he, List.append_assoc]
    | cons e' es =>
      have hrest := ih (by rwa [List.getLast?_cons_cons] at hopen)
      obtain ⟨e'', es', heq⟩ :=
        List.exists_cons_of_ne_nil (extendLast_ne_nil f more (List.cons_ne_nil e' es))
      rw [extendLast, heq, kinds_listPieces_cons_cons, ← heq, hrest, kinds_listPieces_cons_cons,
        List.append_assoc, List.cons_append]

theorem count_extendLast (f : Expr) (more : List Expr) (h : es ≠ []) :
    Mark.count (Mark.ofExprs (extendLast f more es)) =
      Mark.count (Mark.ofExprs es) + Mark.count (Mark.ofExprs (f :: more)) := by
  have hcons : ∀ e es, Mark.count (Mark.ofExprs (e :: es)) =
      e.count + Mark.count (Mark.ofExprs es) := fun e es => Mark.count_append _ _
  induction es with
  | nil => exact absurd rfl h
  | cons e es ih =>
    cases es with
    | nil =>
      rw [extendLast, hcons, hcons, hcons, Expr.count_extendedBy, Mark.ofExprs, Mark.count_nil]
      omega
    | cons e' es => rw [extendLast, hcons, ih (List.cons_ne_nil _ _), hcons e, Nat.add_assoc]

theorem shaped_extendLast
    (hes : Written (Node.ofExprs (fun _ => true) es))
    (hopen : es.getLast?.any Expr.endsOpen = true) (hf : f.IsWritten)
    (hmore : Written (Node.ofExprs (fun _ => true) more)) :
    Node.All (Node.IsShaped TokenKind.IsWhole)
      (Node.ofExprs (fun _ => true) (extendLast f more es)) := by
  induction es with
  | nil => exact hmore
  | cons e es ih =>
    obtain ⟨he, hes⟩ := Node.all_append_iff.1 hes
    cases es with
    | nil => exact Node.all_append_iff.2 ⟨Expr.isWritten_extendedBy hf hopen he, hmore⟩
    | cons e' es =>
      exact Node.all_append_iff.2 ⟨he, ih hes (by rwa [List.getLast?_cons_cons] at hopen)⟩

end

/-! ## Statements that go on -/

namespace Stmt

/-- Whether tokens after a statement are none, or start with one with which nothing starts. -/
def Stops (u : Stmt) (rest : List TokenKind) : Prop :=
  rest = [] ∨ ∃ kind more, rest = kind :: more ∧ u.Follows kind ∧
    (kind = .symbol .equal ∨ kind = .symbol .comma)

/-- Whether the tokens of two statements are those of one, or of one before a token with which
    nothing starts. -/
structure JoinedAs (s t u : Stmt) : Prop where
  writable : u.IsWritten
  isReturn : u.isReturn = false
  count_le : Mark.count (Mark.ofStmt u) ≤ Mark.count (Mark.ofStmt s) + Mark.count (Mark.ofStmt t)
  kinds : ∃ rest, u.Stops rest ∧ ∀ indent level,
    kinds (s.pieces indent level) ++ kinds (t.pieces indent level) =
      kinds (u.pieces indent level) ++ rest

/-- What is read where a statement starts with a parenthesis: a list of expressions of which
    the first one does, then nothing or the values of an assignment. -/
structure StartsWith (t : Stmt) (f : Expr) (more : List Expr) (rest : List TokenKind) : Prop where
  takesSuffix : f.takesSuffix = true
  startsParen : f.startsParen = true
  writable : f.IsWritten
  shaped : Written (Node.ofExprs (fun _ => true) more)
  kinds : ∀ indent level,
    kinds (t.pieces indent level) = kinds (listPieces (f :: more)) ++ rest
  count_le : Mark.count (Mark.ofExprs (f :: more)) ≤ Mark.count (Mark.ofStmt t)
  rest : rest = [] ∧ more = [] ∨ ∃ values, rest = .symbol .equal :: values

variable {s t : Stmt} {f e : Expr} {names : List String} {b : Block}
  {es ts more values : List Expr} {rest : List TokenKind}

theorem startsWith_call (h : (Stmt.call e).IsWritten) (hparen : e.startsParen = true) :
    (Stmt.call e).StartsWith e [] [] where
  takesSuffix := Expr.takesSuffix_of_isCall h.shaped.parts
  startsParen := hparen
  writable := (Node.all_above_iff.1 h).2
  shaped := Node.all_nil
  kinds indent level := by rw [pieces, kinds_line, kinds_listPieces_singleton, List.append_nil]
  count_le := by simp [Mark.ofExprs, Mark.ofStmt]
  rest := .inl ⟨rfl, rfl⟩

theorem startsWith_assign (h : (Stmt.assign (f :: more) values).IsWritten)
    (hparen : f.startsParen = true) : (Stmt.assign (f :: more) values).StartsWith f more
      (.symbol .equal :: Piece.kinds (listPieces values)) where
  takesSuffix := Expr.takesSuffix_of_isAssignable (h.shaped.parts.2.2 f List.mem_cons_self)
  startsParen := hparen
  writable := (Node.all_append_iff.1 (Node.all_append_iff.1 (Node.all_above_iff.1 h).2).1).1
  shaped := (Node.all_append_iff.1 (Node.all_append_iff.1 (Node.all_above_iff.1 h).2).1).2
  kinds indent level := by simp [pieces]
  count_le := by simp [Mark.ofStmt]
  rest := .inr ⟨_, rfl⟩

theorem listCloses_equal (es : List Expr) : ListCloses es (.symbol .equal) :=
  ⟨nofun, fun _ _ => ⟨fun _ => rfl, rfl⟩⟩

theorem StartsWith.stops {u : Stmt} (h : t.StartsWith f more rest) (hu : u.Follows (.symbol .equal)) :
    u.Stops rest := by
  rcases h.rest with ⟨rfl, -⟩ | ⟨values, rfl⟩
  · exact .inl rfl
  · exact .inr ⟨_, values, rfl, hu, .inl rfl⟩

theorem ne_nil_of_getLast? (h : es.getLast?.any Expr.endsOpen = true) : es ≠ [] := by
  rintro rfl
  cases h

/-- The values of a declaration go on. -/
theorem joinedAs_localVars (hs : (Stmt.localVars names es).IsWritten)
    (hopen : es.getLast?.any Expr.endsOpen = true) (ht : t.StartsWith f more rest) :
    (Stmt.localVars names es).JoinedAs t (.localVars names (extendLast f more es)) where
  writable := by
    obtain ⟨hnode, hes⟩ := Node.all_above_iff.1 hs
    exact Node.all_above_iff.2 ⟨⟨hnode.words, hnode.parts, nofun⟩,
      shaped_extendLast hes hopen ht.writable ht.shaped⟩
  isReturn := rfl
  count_le := by
    have hcount := count_extendLast f more (ne_nil_of_getLast? hopen)
    have hle := ht.count_le
    simp only [Mark.ofStmt, Mark.count_append, Mark.count_declares]
    omega
  kinds := by
    have hne := ne_nil_of_getLast? hopen
    have hkinds : ∀ es ≠ [], ∀ indent level,
        Piece.kinds ((Stmt.localVars names es).pieces indent level) =
          .keyword .kwLocal :: (Piece.kinds (Piece.names names) ++
            .symbol .equal :: Piece.kinds (listPieces es)) := by
      intro es hne indent level
      cases es with
      | nil => exact absurd rfl hne
      | cons e es => simp [pieces]
    refine ⟨rest, ht.stops ⟨listCloses_equal _, fun h => absurd h (extendLast_ne_nil f more hne)⟩,
      fun indent level => ?_⟩
    rw [ht.kinds, hkinds es hne, hkinds _ (extendLast_ne_nil f more hne),
      kinds_extendLast ht.takesSuffix ht.startsParen hopen]
    simp

/-- The values of an assignment go on. -/
theorem joinedAs_assign (hs : (Stmt.assign ts es).IsWritten)
    (hopen : es.getLast?.any Expr.endsOpen = true) (ht : t.StartsWith f more rest) :
    (Stmt.assign ts es).JoinedAs t (.assign ts (extendLast f more es)) where
  writable := by
    obtain ⟨hnode, hparts⟩ := Node.all_above_iff.1 hs
    obtain ⟨hts, hes⟩ := Node.all_append_iff.1 hparts
    obtain ⟨htargets, hvalues, hassignable⟩ := hnode.parts
    exact Node.all_above_iff.2
      ⟨⟨nofun, ⟨htargets, extendLast_ne_nil f more hvalues, hassignable⟩, nofun⟩,
        Node.all_append_iff.2 ⟨hts, shaped_extendLast hes hopen ht.writable ht.shaped⟩⟩
  isReturn := rfl
  count_le := by
    have hcount := count_extendLast f more (ne_nil_of_getLast? hopen)
    have hle := ht.count_le
    simp only [Mark.ofStmt, Mark.count_append]
    omega
  kinds := by
    have hkinds : ∀ es indent level, Piece.kinds ((Stmt.assign ts es).pieces indent level) =
        Piece.kinds (listPieces ts) ++ .symbol .equal :: Piece.kinds (listPieces es) := by
      intro es indent level
      simp [pieces]
    refine ⟨rest, ht.stops (listCloses_equal _), fun indent level => ?_⟩
    rw [ht.kinds, hkinds, hkinds, kinds_extendLast ht.takesSuffix ht.startsParen hopen]
    simp

/-- The condition of a loop goes on. -/
theorem joinedAs_repeatLoop (hs : (Stmt.repeatLoop b e).IsWritten) (hopen : e.endsOpen = true)
    (ht : t.StartsWith f more rest) :
    (Stmt.repeatLoop b e).JoinedAs t (.repeatLoop b (e.extendedBy f)) where
  writable := by
    obtain ⟨hnode, hparts⟩ := Node.all_above_iff.1 hs
    obtain ⟨hb, he⟩ := Node.all_append_iff.1 hparts
    exact Node.all_above_iff.2 ⟨⟨nofun, trivial, hnode.bodies⟩,
      Node.all_append_iff.2 ⟨hb, Expr.isWritten_extendedBy ht.writable hopen he⟩⟩
  isReturn := rfl
  count_le := by
    have hcount := Expr.count_extendedBy f e
    have hle := ht.count_le
    simp only [Expr.count] at hcount
    simp only [Mark.ofExprs, Mark.ofStmt, Mark.count_append, Mark.count_enclosed] at hle ⊢
    omega
  kinds := by
    have hkinds : ∀ e indent level, Piece.kinds ((Stmt.repeatLoop b e).pieces indent level) =
        .keyword .kwRepeat :: (Piece.kinds (blockPieces indent (level + 1) b)
          ++ .keyword .kwUntil :: Piece.kinds e.pieces) := by
      intro e indent level
      simp [pieces]
    refine ⟨Piece.kinds (moreListPieces more) ++ rest, ?_, fun indent level => ?_⟩
    · -- What is left over is the second statement from its comma or equals sign on.
      rcases ht.rest with ⟨rfl, rfl⟩ | ⟨values, rfl⟩
      · exact .inl rfl
      · cases more with
        | nil => exact .inr ⟨_, values, rfl, ⟨fun _ => rfl, rfl⟩, .inl rfl⟩
        | cons e' more =>
          rw [kinds_moreListPieces_cons, List.cons_append]
          exact .inr ⟨_, _, rfl, ⟨fun _ => rfl, rfl⟩, .inr rfl⟩
    · rw [ht.kinds, hkinds, hkinds, Expr.kinds_extendedBy ht.takesSuffix ht.startsParen hopen,
        listPieces, kinds_append]
      simp

/-- A call goes on with another one. -/
theorem joinedAs_call_call (hs : (Stmt.call e).IsWritten) (ht : (Stmt.call f).IsWritten)
    (hparen : f.startsParen = true) : (Stmt.call e).JoinedAs (.call f) (.call (e.continuedBy f)) where
  writable := by
    have hcall : e.isCall = true := hs.shaped.parts
    refine Node.all_above_iff.2 ⟨⟨nofun, Expr.isCall_continuedBy ht.shaped.parts, nofun⟩, ?_⟩
    refine Expr.isWritten_continuedBy (Node.all_above_iff.1 hs).2 ?_ f (Node.all_above_iff.1 ht).2
    rintro rfl
    cases hcall
  isReturn := rfl
  count_le := (Expr.count_continuedBy e f).le
  kinds := by
    have hsuffix := Expr.takesSuffix_of_isCall (hs.shaped.parts : e.isCall = true)
    have hsuffix' := Expr.takesSuffix_of_isCall (ht.shaped.parts : f.isCall = true)
    refine ⟨[], .inl rfl, fun indent level => ?_⟩
    simp only [pieces, kinds_line, List.append_nil]
    exact (Expr.kinds_continuedBy_of_takesSuffix hsuffix' hparen hsuffix).symm

/-- A call goes on as the first target of an assignment. -/
theorem joinedAs_call_assign (hs : (Stmt.call e).IsWritten)
    (ht : (Stmt.assign (f :: more) values).IsWritten) (hparen : f.startsParen = true) :
    (Stmt.call e).JoinedAs (.assign (f :: more) values)
      (.assign (e.continuedBy f :: more) values) where
  writable := by
    have hcall : e.isCall = true := hs.shaped.parts
    obtain ⟨hnode, hparts⟩ := Node.all_above_iff.1 ht
    obtain ⟨htargets, hvalues⟩ := Node.all_append_iff.1 hparts
    obtain ⟨hf, hmore⟩ := Node.all_append_iff.1 htargets
    obtain ⟨-, hne, hassignable⟩ := hnode.parts
    refine Node.all_above_iff.2 ⟨⟨nofun, ⟨List.cons_ne_nil _ _, hne, ?_⟩, nofun⟩,
      Node.all_append_iff.2 ⟨Node.all_append_iff.2 ⟨?_, hmore⟩, hvalues⟩⟩
    · rw [List.forall_mem_cons] at hassignable ⊢
      exact ⟨Expr.isAssignable_continuedBy hassignable.1 hparen, hassignable.2⟩
    · refine Expr.isWritten_continuedBy (Node.all_above_iff.1 hs).2 ?_ f hf
      rintro rfl
      cases hcall
  isReturn := rfl
  count_le := by
    have hcount := Expr.count_continuedBy e f
    simp only [Expr.count] at hcount
    simp only [Mark.ofStmt, Mark.ofExprs, Mark.count_append]
    omega
  kinds := by
    have hsuffix := Expr.takesSuffix_of_isCall (hs.shaped.parts : e.isCall = true)
    have hsuffix' :=
      Expr.takesSuffix_of_isAssignable (ht.shaped.parts.2.2 f List.mem_cons_self)
    refine ⟨[], .inl rfl, fun indent level => ?_⟩
    simp [pieces, listPieces, Expr.kinds_continuedBy_of_takesSuffix hsuffix' hparen hsuffix]

/-- Two statements that join are read as one, or as one before what cannot be read. -/
theorem Joins.joined (h : s.Joins t) (hs : s.IsWritten) (ht : t.IsWritten) :
    ∃ u, s.JoinedAs t u := by
  obtain ⟨hopen, hparen⟩ := h
  obtain ⟨f, more, rest, hstarts⟩ : ∃ f more rest, t.StartsWith f more rest := by
    cases t with
    | call e => exact ⟨_, _, _, startsWith_call ht hparen⟩
    | assign targets values =>
      cases targets with
      | nil => cases hparen
      | cons f more => exact ⟨_, _, _, startsWith_assign ht hparen⟩
    | _ => cases hparen
  -- The first statement ends with an open expression, the second one starts with a parenthesis.
  cases s with
  | localVars names es => exact ⟨_, joinedAs_localVars hs hopen hstarts⟩
  | assign targets es => exact ⟨_, joinedAs_assign hs hopen hstarts⟩
  | repeatLoop b e => exact ⟨_, joinedAs_repeatLoop hs hopen hstarts⟩
  | call e =>
    cases t with
    | call f => exact ⟨_, joinedAs_call_call hs ht hparen⟩
    | assign targets values =>
      cases targets with
      | nil => cases hparen
      | cons f more => exact ⟨_, joinedAs_call_assign hs ht hparen⟩
    | _ => cases hparen
  | _ => cases hopen

end Stmt

end LuaUnpack.Lua
