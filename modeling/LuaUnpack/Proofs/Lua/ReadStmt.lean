import LuaUnpack.Proofs.Lua.ReadLists

/-!
# Reading back statements

What the readers of statements do on the lines of a statement (`Stmt.IsRead`), if what it is
made of is read back. What follows a statement must not be taken for a part of it
(`Stmt.Follows`). That leaves only a parenthesis, since nothing else that ends a statement or
starts one can stand in an expression at that place (`Stmt.follows_of_bounds`).
-/

namespace LuaUnpack.Lua

open Piece LuaUnpack.Lua.Parser

/-! ## Names and parameters -/

/-- Names with a symbol before each. -/
def namesBehind (separator : Symbol) (names : List String) : List TokenKind :=
  names.flatMap fun n => [.symbol separator, .name n]

theorem length_le_namesBehind (separator : Symbol) (names : List String) :
    names.length ≤ (namesBehind separator names).length := by
  simp only [namesBehind, List.length_flatMap, List.length_cons, List.length_nil, List.map_const',
    List.sum_replicate_nat]
  omega

theorem kinds_names (n : String) (rest : List String) :
    kinds (names (n :: rest)) = .name n :: namesBehind .comma rest := by
  induction rest generalizing n with
  | nil => rfl
  | cons m rest ih =>
    have hnames : names (n :: m :: rest) = ident n :: comma ++ names (m :: rest) := rfl
    rw [hnames, List.cons_append, kinds_ident, kinds_append, kinds_comma, ih m]
    rfl

section

variable {β : Type} {F : TokenKind → Prop} {S : Prop} {P : β → Prop} {kinds' : List TokenKind}
  {depth : Nat}

theorem reads_namesAfter {separator : Symbol} {names : List String} {f : List String → Parser β}
    (hdepth : names.length + 1 ≤ depth) (hkinds : FirstIs (· ≠ .symbol separator) F kinds')
    (h : Reads (f names) kinds' F S P pure) :
    Reads (namesAfter separator depth >>= f) (namesBehind separator names ++ kinds') F S P pure := by
  induction names generalizing depth f with
  | nil =>
    obtain ⟨depth, rfl⟩ : ∃ n, depth = n + 1 := ⟨depth - 1, by omega⟩
    rw [namesAfter, bind_assoc]
    exact reads_accept_not hkinds h
  | cons n names ih =>
    rw [List.length_cons] at hdepth
    obtain ⟨depth, rfl⟩ : ∃ n, depth = n + 1 := ⟨depth - 1, by omega⟩
    rw [namesAfter, bind_assoc]
    refine reads_accept ?_
    rw [if_pos rfl, bind_assoc]
    refine reads_expectName ?_
    rw [bind_assoc]
    exact ih (by omega) (by rwa [pure_bind])

/-- A comma follows a parameter that is not the last one. -/
theorem kinds_paramPieces_cons {p : String} {ps : List String} {isVararg : Bool}
    (h : ps = [] → isVararg = true) :
    kinds (paramPieces (p :: ps) isVararg) =
      .name p :: .symbol .comma :: kinds (paramPieces ps isVararg) := by
  cases ps with
  | nil =>
    rw [h rfl]
    rfl
  | cons q ps => simp [paramPieces, names]

theorem reads_params {ps : List String} {isVararg : Bool} (hne : ps = [] → isVararg = true)
    (hdepth : (kinds (paramPieces ps isVararg)).length + 1 ≤ depth) :
    Reads (params depth) (kinds (paramPieces ps isVararg)) (· = .symbol .rightParen) S
      (· = (ps, isVararg)) pure := by
  induction ps generalizing depth with
  | nil =>
    obtain ⟨depth, rfl⟩ : ∃ n, depth = n + 1 := ⟨depth - 1, by omega⟩
    rw [hne rfl, params]
    exact reads_accept_then (reads_next rfl)
  | cons p ps ih =>
    obtain ⟨depth, rfl⟩ : ∃ n, depth = n + 1 := ⟨depth - 1, by omega⟩
    rw [params]
    -- There is a comma behind the name just if another name or the dots follow.
    by_cases hmore : ps = [] → isVararg = true
    · rw [kinds_paramPieces_cons hmore, List.length_cons, List.length_cons] at hdepth
      rw [kinds_paramPieces_cons hmore]
      refine reads_accept_else nofun (reads_expectName (reads_accept_then ?_))
      refine (ih hmore (by omega)).bind_nil id (fun _ hkind => hkind) ?_
      rintro _ rfl
      dsimp only
      exact reads_next rfl
    · obtain ⟨rfl, hvararg⟩ := Classical.not_imp.1 hmore
      obtain rfl := Bool.eq_false_iff.2 hvararg
      refine reads_accept_else nofun (reads_expectName (reads_accept_else ?_ (reads_next rfl)))
      rintro _ rfl
      exact nofun

theorem reads_paramList {ps : List String} {isVararg : Bool}
    {f : List String × Bool → Parser β}
    (hdepth : (kinds (paramPieces ps isVararg)).length + 1 ≤ depth)
    (h : Reads (f (ps, isVararg)) kinds' F S P pure) :
    Reads (paramList depth >>= f) (kinds (inParens (paramPieces ps isVararg)) ++ kinds') F S P
      pure := by
  rw [kinds_inParens, paramList, bind_assoc, List.cons_append, List.append_assoc]
  refine reads_expectSymbol ?_
  rw [bind_assoc]
  -- With no parameter and no dots, the list is read as closed at once.
  by_cases hne : ps = [] → isVararg = true
  · obtain ⟨kind, rest, hkinds, hkind⟩ : ∃ kind rest,
        kinds (paramPieces ps isVararg) = kind :: rest ∧ kind ≠ .symbol .rightParen := by
      cases ps with
      | nil =>
        rw [hne rfl]
        exact ⟨_, _, rfl, nofun⟩
      | cons p ps =>
        rw [paramPieces, kinds_append, kinds_names, List.cons_append]
        exact ⟨_, _, rfl, nofun⟩
    have hparams := reads_params (S := S) hne hdepth
    rw [hkinds] at hparams ⊢
    refine reads_peek fun line => ?_
    rw [if_neg hkind, bind_assoc]
    refine hparams.bind id rfl ?_
    rintro _ rfl
    rw [bind_assoc]
    exact reads_expectSymbol (by rwa [pure_bind])
  · obtain ⟨rfl, hvararg⟩ := Classical.not_imp.1 hne
    obtain rfl := Bool.eq_false_iff.2 hvararg
    refine reads_peek fun line => ?_
    rw [if_pos rfl, pure_bind, bind_assoc]
    exact reads_expectSymbol (by rwa [pure_bind])

end

/-! ## Blocks and functions -/

namespace Mark

attribute [local simp] count isStatement

@[simp]
theorem count_enclosed (marks : List Mark) : count (enclosed marks) = count marks := by
  simp [enclosed]

@[simp]
theorem count_declares (names : List String) : count (names.map declare) = 0 := by
  simp

@[simp]
theorem count_cons_declare (name : String) (marks : List Mark) :
    count (declare name :: marks) = count marks := by
  simp

@[simp]
theorem count_cons_use (name : String) (marks : List Mark) :
    count (use name :: marks) = count marks := by
  simp

end Mark

namespace Block

/-- Whether a block is one that can be read from the tokens of another. -/
def Rereads (b v : Block) : Prop :=
  Lua.Rereads (Mark.count b.marks) (Mark.count v.marks) b.AllSeparated (v = b)

/-- What is read from the lines of a block. -/
def IsRead (b : Block) : Prop :=
  ∀ indent level depth, 16 * (kinds (blockPieces indent level b)).length + 8 ≤ depth →
    Reads (block depth) (kinds (blockPieces indent level b)) (endsBlock · = true) b.AllSeparated
      b.Rereads pure

variable {b : Block} {depth level : Nat} {indent : String} {F : TokenKind → Prop}

/-- Parameters and block of a function are read up to its end. -/
theorem IsRead.funcBody {ps : List String} {isVararg : Bool} {F : TokenKind → Prop} (h : b.IsRead)
    (hdepth : 16 * ((kinds (inParens (paramPieces ps isVararg))).length
      + (kinds (blockPieces indent level b)).length) + 16 ≤ depth) :
    Reads (funcBody depth) (kinds (inParens (paramPieces ps isVararg))
      ++ (kinds (blockPieces indent level b) ++ [TokenKind.keyword .kwEnd])) F b.AllSeparated
      (fun f => ∃ v, b.Rereads v ∧ f = ⟨ps, isVararg, v⟩) pure := by
  obtain ⟨depth, rfl⟩ : ∃ n, depth = n + 1 := ⟨depth - 1, by omega⟩
  have hparams : (kinds (paramPieces ps isVararg)).length + 1 ≤ depth := by
    rw [kinds_inParens, List.length_cons, List.length_append] at hdepth
    omega
  rw [Parser.funcBody]
  refine reads_paramList hparams ?_
  refine (h indent level depth (by omega)).bind id rfl fun v hv => reads_expectKeyword ?_
  exact reads_next ⟨v, hv, rfl⟩

end Block

theorem Expr.isRead_function {ps : List String} {isVararg : Bool} {b : Block} (h : b.IsRead) :
    (Expr.function ⟨ps, isVararg, b⟩).IsRead := by
  have hkinds : kinds (Expr.function ⟨ps, isVararg, b⟩).pieces =
      .keyword .kwFunction :: (kinds (inParens (paramPieces ps isVararg))
        ++ (kinds (blockPieces defaultIndent 1 b) ++ [TokenKind.keyword .kwEnd])) := by
    simp [pieces]
  have hseparated : (Expr.function ⟨ps, isVararg, b⟩).IsSeparated ↔ b.AllSeparated := by
    refine Node.all_above_iff.trans (and_congr_left' ?_)
    simp [Node.IsSeparated, Node.bodies]
  refine isRead_of_simple rfl (by rw [hkinds]; rfl) (by rw [hkinds]; exact List.cons_ne_nil _ _)
    fun depth hdepth => ?_
  rw [hkinds, List.length_cons, List.length_append, List.length_append] at hdepth
  rw [hkinds]
  obtain ⟨depth, rfl⟩ : ∃ n, depth = n + 1 := ⟨depth - 1, by omega⟩
  rw [simple]
  refine reads_peek fun line => reads_advance ?_
  refine (h.funcBody (by omega)).bind_nil hseparated.1 (fun _ hkind => hkind) ?_
  -- The body may be read with fewer marks; if it is read as itself, so is the function.
  rintro _ ⟨v, hv, rfl⟩
  refine reads_next ⟨rfl, hv.of ?_ ?_ hseparated ?_⟩
  · simp [count, Mark.ofExpr, Block.marks]
  · simp [count, Mark.ofExpr, Block.marks]
  · rintro rfl
    rfl

/-! ## Statements -/

namespace Stmt

-- What the proof for each statement unfolds.
attribute [local simp] Stmt.pieces Mark.ofStmt Node.ofStmt Block.marks Block.nodes Expr.count

/-- Whether all blocks in a statement are separated. -/
def IsSeparated (s : Stmt) : Prop := Node.All Node.IsSeparated (Node.ofStmt (fun _ => true) s)

attribute [local simp] Node.all_above_iff Node.all_append_iff Node.bodies Node.IsSeparated
  Expr.IsSeparated Stmt.IsSeparated Block.AllSeparated Parser.statement

/-- Whether a statement is one that can be read from the tokens of another. -/
def Rereads (s v : Stmt) : Prop :=
  Lua.Rereads (Mark.count (Mark.ofStmt s)) (Mark.count (Mark.ofStmt v)) s.IsSeparated (v = s)

/-- Whether a token is not taken for a part of the statement before it. -/
def Follows : Stmt → TokenKind → Prop
  | localVars _ values, kind => ListCloses values kind ∧ (values = [] → kind ≠ .symbol .equal)
  | assign _ values, kind => ListCloses values kind
  | call e, kind => e.Closes kind ∧ kind ≠ .symbol .equal ∧ kind ≠ .symbol .comma
  | repeatLoop _ condition, kind => condition.Closes kind
  | _, _ => True

/-- What is read from the lines of a statement other than `return`. -/
def IsRead (s : Stmt) : Prop :=
  ∀ indent level depth, 16 * (kinds (s.pieces indent level)).length + 4 ≤ depth →
    Reads (statement depth) (kinds (s.pieces indent level)) s.Follows s.IsSeparated s.Rereads pure

variable {b : Block} {ps : List String} {isVararg : Bool}

theorem isRead_block (hb : b.IsRead) : (Stmt.block b).IsRead := by
  intro indent level depth hdepth
  have hkinds : kinds ((Stmt.block b).pieces indent level) = .keyword .kwDo ::
      (kinds (blockPieces indent (level + 1) b) ++ [TokenKind.keyword .kwEnd]) := by simp
  have hseparated : (Stmt.block b).IsSeparated ↔ b.AllSeparated := by
    simp
  rw [hkinds] at hdepth ⊢
  simp only [List.length_cons, List.length_append] at hdepth
  obtain ⟨depth, rfl⟩ : ∃ n, depth = n + 1 := ⟨depth - 1, by omega⟩
  rw [statement]
  refine reads_peek fun line => reads_advance ?_
  refine (hb indent (level + 1) depth (by omega)).bind hseparated.1 rfl fun v hv =>
    reads_expectKeyword (reads_next ?_)
  refine hv.of ?_ ?_ hseparated (congrArg Stmt.block)
  · simp
  · simp

theorem isRead_whileLoop {c : Expr} (hc : c.IsRead) (hb : b.IsRead) :
    (Stmt.whileLoop c b).IsRead := by
  intro indent level depth hdepth
  have hkinds : kinds ((Stmt.whileLoop c b).pieces indent level) = .keyword .kwWhile ::
      (kinds c.pieces ++ .keyword .kwDo ::
        (kinds (blockPieces indent (level + 1) b) ++ [TokenKind.keyword .kwEnd])) := by
    simp
  have hseparated : (Stmt.whileLoop c b).IsSeparated ↔ c.IsSeparated ∧ b.AllSeparated := by
    simp [and_left_comm]
  rw [hkinds] at hdepth ⊢
  simp only [List.length_cons, List.length_append] at hdepth
  obtain ⟨depth, rfl⟩ : ∃ n, depth = n + 1 := ⟨depth - 1, by omega⟩
  rw [statement]
  refine reads_peek fun line => reads_advance ?_
  refine (hc.expression (by omega)).bind (fun h => (hseparated.1 h).1) ⟨fun _ => rfl, rfl⟩
    fun v hv => reads_expectKeyword ?_
  refine (hb indent (level + 1) depth (by omega)).bind (fun h => (hseparated.1 h).2) rfl
    fun w hw => reads_expectKeyword (reads_next ?_)
  refine (hv.counts.and hw).of ?_ ?_ hseparated ?_
  · simp
  · simp
  · rintro ⟨rfl, rfl⟩
    rfl

theorem isRead_repeatLoop {c : Expr} (hb : b.IsRead) (hc : c.IsRead) :
    (Stmt.repeatLoop b c).IsRead := by
  intro indent level depth hdepth
  have hkinds : kinds ((Stmt.repeatLoop b c).pieces indent level) = .keyword .kwRepeat ::
      (kinds (blockPieces indent (level + 1) b) ++ .keyword .kwUntil :: kinds c.pieces) := by
    simp
  have hseparated : (Stmt.repeatLoop b c).IsSeparated ↔ b.AllSeparated ∧ c.IsSeparated := by
    simp [and_assoc]
  rw [hkinds] at hdepth ⊢
  simp only [List.length_cons, List.length_append] at hdepth
  obtain ⟨depth, rfl⟩ : ∃ n, depth = n + 1 := ⟨depth - 1, by omega⟩
  rw [statement]
  refine reads_peek fun line => reads_advance ?_
  refine (hb indent (level + 1) depth (by omega)).bind (fun h => (hseparated.1 h).1) rfl
    fun v hv => reads_expectKeyword ?_
  refine (hc.expression (by omega)).bind_nil (fun h => (hseparated.1 h).2) (fun _ hkind => hkind)
    fun w hw => reads_next ?_
  refine (hv.and hw.counts).of ?_ ?_ hseparated ?_
  · simp
  · simp
  · rintro ⟨rfl, rfl⟩
    rfl

theorem isRead_exit : Stmt.exit.IsRead := by
  intro indent level depth hdepth
  have hkinds : kinds (Stmt.exit.pieces indent level) = [.keyword .kwBreak] := by simp
  obtain ⟨depth, rfl⟩ : ∃ n, depth = n + 1 := ⟨depth - 1, by omega⟩
  rw [hkinds, statement]
  exact reads_peek fun line =>
    reads_advance (reads_next (.rfl ((Expr.isSeparated_above rfl).2 Node.all_nil) rfl))

theorem isRead_goto (n : String) : (Stmt.goto n).IsRead := by
  intro indent level depth hdepth
  have hkinds : kinds ((Stmt.goto n).pieces indent level) = [.keyword .kwGoto, .name n] := by
    simp
  obtain ⟨depth, rfl⟩ : ∃ n, depth = n + 1 := ⟨depth - 1, by omega⟩
  rw [hkinds, statement]
  exact reads_peek fun line => reads_advance (reads_expectName
    (reads_next (.rfl ((Expr.isSeparated_above rfl).2 Node.all_nil) rfl)))

theorem isRead_label (n : String) : (Stmt.label n).IsRead := by
  intro indent level depth hdepth
  have hkinds : kinds ((Stmt.label n).pieces indent level) =
      [.symbol .doubleColon, .name n, .symbol .doubleColon] := by simp
  obtain ⟨depth, rfl⟩ : ∃ n, depth = n + 1 := ⟨depth - 1, by omega⟩
  rw [hkinds, statement]
  exact reads_peek fun line => reads_advance (reads_expectName (reads_expectSymbol
    (reads_next (.rfl ((Expr.isSeparated_above rfl).2 Node.all_nil) rfl))))

/-! ### Declarations -/

theorem isRead_localVars {n : String} {names : List String} {values : List Expr}
    (h : ∀ e ∈ values, e.IsRead) : (Stmt.localVars (n :: names) values).IsRead := by
  intro indent level depth hdepth
  have hkinds : kinds ((Stmt.localVars (n :: names) values).pieces indent level) =
      .keyword .kwLocal :: .name n :: (namesBehind .comma names ++
        if values.isEmpty then [] else .symbol .equal :: kinds (listPieces values)) := by
    rw [pieces, kinds_line, List.cons_append, kinds_kw, List.cons_append, kinds_blank, kinds_append,
      kinds_names, List.cons_append]
    split <;> simp
  have hseparated : (Stmt.localVars (n :: names) values).IsSeparated ↔
      Node.All Node.IsSeparated (Node.ofExprs (fun _ => true) values) := Expr.isSeparated_above rfl
  have hnames := length_le_namesBehind .comma names
  rw [hkinds] at hdepth ⊢
  simp only [List.length_cons, List.length_append] at hdepth
  obtain ⟨depth, rfl⟩ : ∃ n, depth = n + 2 := ⟨depth - 2, by omega⟩
  rw [statement]
  refine reads_peek fun line => reads_advance ?_
  rw [localStatement]
  refine reads_accept_else nofun (reads_expectName ?_)
  -- Without values, what follows must be neither a comma nor an equals sign.
  cases values with
  | nil =>
    refine reads_namesAfter (by omega) (fun kind hkind => hkind.1.1) ?_
    refine reads_accept_else (fun kind hkind => hkind.2 rfl) (reads_next ?_)
    exact .rfl (hseparated.2 Node.all_nil) rfl
  | cons e values =>
    simp only [List.isEmpty_cons, Bool.false_eq_true, if_false, List.length_cons] at hdepth
    refine reads_namesAfter (by omega) (.of_ne (by decide)) ?_
    refine reads_accept_then ?_
    refine (reads_expressionList (List.cons_ne_nil _ _) h (by omega)).bind_nil hseparated.1
      (fun kind hkind => hkind.1) fun vs hvs => reads_next ?_
    refine hvs.counts.of ?_ ?_ hseparated (congrArg (Stmt.localVars _))
    · simp
    · simp

theorem isRead_localFunction {n : String} (hb : b.IsRead) :
    (Stmt.localFunction n ⟨ps, isVararg, b⟩).IsRead := by
  intro indent level depth hdepth
  have hkinds : kinds ((Stmt.localFunction n ⟨ps, isVararg, b⟩).pieces indent level) =
      .keyword .kwLocal :: .keyword .kwFunction :: .name n ::
        (kinds (inParens (paramPieces ps isVararg))
          ++ (kinds (blockPieces indent (level + 1) b) ++ [TokenKind.keyword .kwEnd])) := by
    simp
  have hseparated : (Stmt.localFunction n ⟨ps, isVararg, b⟩).IsSeparated ↔ b.AllSeparated := by
    simp
  rw [hkinds] at hdepth ⊢
  simp only [List.length_cons, List.length_append] at hdepth
  obtain ⟨depth, rfl⟩ : ∃ n, depth = n + 2 := ⟨depth - 2, by omega⟩
  rw [statement]
  refine reads_peek fun line => reads_advance ?_
  rw [localStatement]
  refine reads_accept_then (reads_expectName ?_)
  refine (hb.funcBody (by omega)).bind_nil hseparated.1 (fun _ hkind => hkind) ?_
  rintro _ ⟨v, hv, rfl⟩
  refine reads_next (hv.of ?_ ?_ hseparated ?_)
  · simp
  · simp
  · rintro rfl
    rfl

theorem kinds_targetPieces (root : String) (path : List String) (method : Option String) :
    kinds (targetPieces root path method) = .name root :: (namesBehind .dot path ++
      method.toList.flatMap fun m => [TokenKind.symbol .colon, .name m]) := by
  have hpath : kinds (path.flatMap fun n => [sym .dot, ident n]) = namesBehind .dot path := by
    induction path with
    | nil => rfl
    | cons n path ih =>
      rw [List.flatMap_cons, kinds_append, ih]
      rfl
  cases method with
  | none => simp [targetPieces, hpath]
  | some m => simp [targetPieces, hpath]

/-- A method has `self` as its first parameter, which is not written. -/
theorem isRead_functionDecl {root : String} {path : List String} {method : Option String}
    (hmethod : method.isSome = true → ps.head? = some "self") (hb : b.IsRead) :
    (Stmt.functionDecl root path method ⟨ps, isVararg, b⟩).IsRead := by
  intro indent level depth hdepth
  have hkinds : kinds ((Stmt.functionDecl root path method ⟨ps, isVararg, b⟩).pieces indent level) =
      .keyword .kwFunction :: .name root :: (namesBehind .dot path ++
        (method.toList.flatMap (fun m => [TokenKind.symbol .colon, .name m]) ++
          (kinds (inParens (paramPieces (if method.isSome then ps.drop 1 else ps) isVararg))
            ++ (kinds (blockPieces indent (level + 1) b) ++ [TokenKind.keyword .kwEnd])))) := by
    simp [kinds_targetPieces]
  have hseparated : (Stmt.functionDecl root path method ⟨ps, isVararg, b⟩).IsSeparated ↔
      b.AllSeparated := by
    simp
  have hpath := length_le_namesBehind .dot path
  have hresult : ∀ v, b.Rereads v →
      (Stmt.functionDecl root path method ⟨ps, isVararg, b⟩).Rereads
        (.functionDecl root path method ⟨ps, isVararg, v⟩) := by
    intro v hv
    refine hv.of ?_ ?_ hseparated ?_
    · simp
    · simp
    · rintro rfl
      rfl
  rw [hkinds] at hdepth ⊢
  simp only [List.length_cons, List.length_append] at hdepth
  obtain ⟨depth, rfl⟩ : ∃ n, depth = n + 2 := ⟨depth - 2, by omega⟩
  rw [statement]
  refine reads_peek fun line => reads_advance ?_
  rw [functionStatement]
  refine reads_expectName ?_
  refine reads_namesAfter (by omega) ?_ ?_
  · cases method
    · rw [kinds_inParens]
      exact .of_ne (by decide)
    · exact .of_ne (by decide)
  cases method with
  | none =>
    refine reads_accept_else ?_ ?_
    · rw [kinds_inParens]
      exact .of_ne (by decide)
    refine (hb.funcBody (by simp at hdepth ⊢; omega)).bind_nil hseparated.1 (fun _ hkind => hkind) ?_
    rintro _ ⟨v, hv, rfl⟩
    exact reads_next (hresult v hv)
  | some m =>
    -- The reader puts the first parameter of a method back.
    obtain ⟨rest, rfl⟩ : ∃ rest, ps = "self" :: rest := by
      cases ps with
      | nil => cases hmethod rfl
      | cons p ps => exact ⟨ps, congrArg (· :: ps) (Option.some.inj (hmethod rfl))⟩
    refine reads_accept_then (reads_expectName ?_)
    refine (hb.funcBody (by simp at hdepth ⊢; omega)).bind_nil hseparated.1 (fun _ hkind => hkind) ?_
    rintro _ ⟨v, hv, rfl⟩
    exact reads_next (hresult v hv)

/-! ### Loops and branches -/

theorem isRead_numericFor {n : String} {start limit : Expr} (hstart : start.IsRead)
    (hlimit : limit.IsRead) (hb : b.IsRead) : (Stmt.numericFor n start limit none b).IsRead := by
  intro indent level depth hdepth
  have hkinds : kinds ((Stmt.numericFor n start limit none b).pieces indent level) =
      .keyword .kwFor :: .name n :: .symbol .equal :: (kinds start.pieces ++ .symbol .comma ::
        (kinds limit.pieces ++ .keyword .kwDo ::
          (kinds (blockPieces indent (level + 1) b) ++ [TokenKind.keyword .kwEnd]))) := by
    simp
  have hseparated : (Stmt.numericFor n start limit none b).IsSeparated ↔
      start.IsSeparated ∧ limit.IsSeparated ∧ b.AllSeparated := by
    simp [and_left_comm]
  rw [hkinds] at hdepth ⊢
  simp only [List.length_cons, List.length_append] at hdepth
  obtain ⟨depth, rfl⟩ : ∃ n, depth = n + 2 := ⟨depth - 2, by omega⟩
  rw [statement]
  refine reads_peek fun line => reads_advance ?_
  rw [forStatement]
  refine reads_expectName (reads_accept_then ?_)
  refine (hstart.expression (by omega)).bind (fun h => (hseparated.1 h).1) ⟨fun _ => rfl, rfl⟩
    fun v₁ hv₁ => reads_expectSymbol ?_
  refine (hlimit.expression (by omega)).bind (fun h => (hseparated.1 h).2.1) ⟨fun _ => rfl, rfl⟩
    fun v₂ hv₂ => reads_accept_else (.of_ne (by decide)) ?_
  rw [pure_bind]
  refine reads_expectKeyword ?_
  refine (hb indent (level + 1) depth (by omega)).bind (fun h => (hseparated.1 h).2.2) rfl
    fun w hw => reads_expectKeyword (reads_next ?_)
  refine (hv₁.counts.and (hv₂.counts.and hw)).of ?_ ?_ hseparated ?_
  · simp
  · simp
  · rintro ⟨rfl, rfl, rfl⟩
    rfl

theorem isRead_numericFor_step {n : String} {start limit step : Expr} (hstart : start.IsRead)
    (hlimit : limit.IsRead) (hstep : step.IsRead) (hb : b.IsRead) :
    (Stmt.numericFor n start limit (some step) b).IsRead := by
  intro indent level depth hdepth
  have hkinds : kinds ((Stmt.numericFor n start limit (some step) b).pieces indent level) =
      .keyword .kwFor :: .name n :: .symbol .equal :: (kinds start.pieces ++ .symbol .comma ::
        (kinds limit.pieces ++ .symbol .comma :: (kinds step.pieces ++ .keyword .kwDo ::
          (kinds (blockPieces indent (level + 1) b) ++ [TokenKind.keyword .kwEnd])))) := by
    simp
  have hseparated : (Stmt.numericFor n start limit (some step) b).IsSeparated ↔
      start.IsSeparated ∧ limit.IsSeparated ∧ step.IsSeparated ∧ b.AllSeparated := by
    simp [and_left_comm]
  rw [hkinds] at hdepth ⊢
  simp only [List.length_cons, List.length_append] at hdepth
  obtain ⟨depth, rfl⟩ : ∃ n, depth = n + 2 := ⟨depth - 2, by omega⟩
  rw [statement]
  refine reads_peek fun line => reads_advance ?_
  rw [forStatement]
  refine reads_expectName (reads_accept_then ?_)
  refine (hstart.expression (by omega)).bind (fun h => (hseparated.1 h).1) ⟨fun _ => rfl, rfl⟩
    fun v₁ hv₁ => reads_expectSymbol ?_
  refine (hlimit.expression (by omega)).bind (fun h => (hseparated.1 h).2.1) ⟨fun _ => rfl, rfl⟩
    fun v₂ hv₂ => reads_accept_then ?_
  rw [map_eq_pure_bind, bind_assoc]
  refine (hstep.expression (by omega)).bind (fun h => (hseparated.1 h).2.2.1) ⟨fun _ => rfl, rfl⟩
    fun v₃ hv₃ => ?_
  rw [pure_bind]
  refine reads_expectKeyword ?_
  refine (hb indent (level + 1) depth (by omega)).bind (fun h => (hseparated.1 h).2.2.2) rfl
    fun w hw => reads_expectKeyword (reads_next ?_)
  refine (hv₁.counts.and (hv₂.counts.and (hv₃.counts.and hw))).of ?_ ?_ hseparated ?_
  · simp
  · simp
  · rintro ⟨rfl, rfl, rfl, rfl⟩
    rfl

theorem isRead_genericFor {n : String} {names : List String} {exprs : List Expr} (hne : exprs ≠ [])
    (h : ∀ e ∈ exprs, e.IsRead) (hb : b.IsRead) :
    (Stmt.genericFor (n :: names) exprs b).IsRead := by
  intro indent level depth hdepth
  have hkinds : kinds ((Stmt.genericFor (n :: names) exprs b).pieces indent level) =
      .keyword .kwFor :: .name n :: (namesBehind .comma names ++ .keyword .kwIn ::
        (kinds (listPieces exprs) ++ .keyword .kwDo ::
          (kinds (blockPieces indent (level + 1) b) ++ [TokenKind.keyword .kwEnd]))) := by
    simp [kinds_names]
  have hseparated : (Stmt.genericFor (n :: names) exprs b).IsSeparated ↔
      Node.All Node.IsSeparated (Node.ofExprs (fun _ => true) exprs) ∧ b.AllSeparated := by
    simp [and_left_comm]
  have hnames := length_le_namesBehind .comma names
  rw [hkinds] at hdepth ⊢
  simp only [List.length_cons, List.length_append] at hdepth
  obtain ⟨depth, rfl⟩ : ∃ n, depth = n + 2 := ⟨depth - 2, by omega⟩
  rw [statement]
  refine reads_peek fun line => reads_advance ?_
  rw [forStatement]
  refine reads_expectName (reads_accept_else ?_ ?_)
  · cases names <;> exact .of_ne (by decide)
  refine reads_namesAfter (by omega) (.of_ne (by decide)) ?_
  refine reads_expectKeyword ?_
  refine (reads_expressionList hne h (by omega)).bind (fun h => (hseparated.1 h).1)
    ⟨fun h => TokenKind.noConfusion h, fun e _ => ⟨fun _ => rfl, rfl⟩⟩
    fun vs hvs => reads_expectKeyword ?_
  refine (hb indent (level + 1) depth (by omega)).bind (fun h => (hseparated.1 h).2) rfl
    fun w hw => reads_expectKeyword (reads_next ?_)
  refine (hvs.counts.and hw).of ?_ ?_ hseparated ?_
  · simp
  · simp
  · rintro ⟨rfl, rfl⟩
    rfl

end Stmt

/-- A condition and its block. -/
theorem reads_clause {c : Expr} {b : Block} {indent : String} {depth level : Nat} (hc : c.IsRead)
    (hb : b.IsRead) (hdepth : 16 * ((kinds c.pieces).length
      + (kinds (blockPieces indent level b)).length) + 16 ≤ depth) :
    Reads (clause depth) (kinds c.pieces ++ .keyword .kwThen :: kinds (blockPieces indent level b))
      (endsBlock · = true) (c.IsSeparated ∧ b.AllSeparated)
      (fun v => c.Rereads v.1 ∧ b.Rereads v.2) pure := by
  obtain ⟨depth, rfl⟩ : ∃ n, depth = n + 1 := ⟨depth - 1, by omega⟩
  rw [clause]
  refine (hc.expression (by omega)).bind And.left ⟨fun _ => rfl, rfl⟩ fun v hv =>
    reads_expectKeyword ?_
  refine (hb indent level depth (by omega)).bind_nil And.right (fun _ hkind => hkind) fun w hw =>
    reads_next ⟨hv, hw⟩

namespace Else

attribute [local simp] Else.pieces Mark.ofElse Node.ofElse Else.bodies Block.marks Block.nodes
  Block.AllSeparated Expr.count

/-- Whether all blocks in a rest of an `if` are separated. -/
def IsSeparated (o : Else) : Prop :=
  (∀ body ∈ o.bodies, body.IsSeparated) ∧ Node.All Node.IsSeparated (Node.ofElse (fun _ => true) o)

/-- Whether a rest of an `if` is one that can be read from the tokens of another. -/
def Rereads (o v : Else) : Prop :=
  Lua.Rereads (Mark.count (Mark.ofElse o)) (Mark.count (Mark.ofElse v)) o.IsSeparated (v = o)

/-- What is read from the lines after the first block of an `if`. -/
structure IsRead (o : Else) : Prop where
  first : ∀ indent level, ∃ kind rest,
    kinds (o.pieces indent level) = kind :: rest ∧ endsBlock kind = true
  elsePart : ∀ indent level depth, 16 * (kinds (o.pieces indent level)).length + 1 ≤ depth →
    Reads (Parser.elsePart depth) (kinds (o.pieces indent level)) (fun _ => True) o.IsSeparated
      o.Rereads pure

variable {b : Block}

theorem isRead_done : Else.done.IsRead where
  first indent level := ⟨.keyword .kwEnd, [], by simp, rfl⟩
  elsePart indent level depth hdepth := by
    have hkinds : kinds (Else.done.pieces indent level) = [.keyword .kwEnd] := by simp
    obtain ⟨depth, rfl⟩ : ∃ n, depth = n + 1 := ⟨depth - 1, by omega⟩
    rw [hkinds, Parser.elsePart]
    refine reads_accept_else (.of_ne (by decide)) (reads_accept_else (.of_ne (by decide))
      (reads_expectKeyword (reads_next ?_)))
    exact .rfl ⟨fun _ h => absurd h List.not_mem_nil, Node.all_nil⟩ rfl

theorem isRead_block (hb : b.IsRead) : (Else.block b).IsRead where
  first indent level := by simp [endsBlock]
  elsePart indent level depth hdepth := by
    have hkinds : kinds ((Else.block b).pieces indent level) = .keyword .kwElse ::
        (kinds (blockPieces indent (level + 1) b) ++ [TokenKind.keyword .kwEnd]) := by simp
    have hseparated : (Else.block b).IsSeparated ↔ b.AllSeparated := by
      simp [IsSeparated]
    rw [hkinds] at hdepth ⊢
    simp only [List.length_cons, List.length_append] at hdepth
    obtain ⟨depth, rfl⟩ : ∃ n, depth = n + 1 := ⟨depth - 1, by omega⟩
    rw [Parser.elsePart]
    refine reads_accept_else (.of_ne (by decide)) (reads_accept_then ?_)
    refine (hb indent (level + 1) depth (by omega)).bind hseparated.1 rfl fun v hv =>
      reads_expectKeyword (reads_next ?_)
    refine hv.of ?_ ?_ hseparated (congrArg Else.block)
    · simp
    · simp

theorem isRead_elseIf {c : Expr} {o : Else} (hc : c.IsRead) (hb : b.IsRead) (ho : o.IsRead) :
    (Else.elseIf c b o).IsRead where
  first indent level := by simp [endsBlock]
  elsePart indent level depth hdepth := by
    have hkinds : kinds ((Else.elseIf c b o).pieces indent level) = .keyword .kwElseIf ::
        ((kinds c.pieces ++ .keyword .kwThen :: kinds (blockPieces indent (level + 1) b))
          ++ kinds (o.pieces indent level)) := by simp
    have hseparated : (Else.elseIf c b o).IsSeparated ↔
        (c.IsSeparated ∧ b.AllSeparated) ∧ o.IsSeparated := by
      simp only [IsSeparated, Node.ofElse, bodies, Block.AllSeparated, Block.nodes,
        Expr.IsSeparated, Node.all_append_iff, List.forall_mem_cons]
      grind
    rw [hkinds] at hdepth ⊢
    simp only [List.length_cons, List.length_append] at hdepth
    obtain ⟨depth, rfl⟩ : ∃ n, depth = n + 1 := ⟨depth - 1, by omega⟩
    rw [Parser.elsePart]
    refine reads_accept_then ?_
    refine (reads_clause hc hb (by omega)).bind (fun h => (hseparated.1 h).1) ?_ fun v hv => ?_
    · obtain ⟨kind, rest, hfirst, hkind⟩ := ho.first indent level
      rw [hfirst]
      exact hkind
    refine (ho.elsePart indent level depth (by omega)).bind_nil (fun h => (hseparated.1 h).2)
      (fun _ _ => trivial) fun w hw => reads_next ?_
    refine ((hv.1.counts.and hv.2).and hw).of ?_ ?_ hseparated ?_
    · simp [Nat.add_assoc]
    · simp [Nat.add_assoc]
    · rintro ⟨⟨rfl, rfl⟩, rfl⟩
      rfl

end Else

namespace Stmt

theorem isRead_ifThen {c : Expr} {b : Block} {o : Else} (hc : c.IsRead) (hb : b.IsRead)
    (ho : o.IsRead) : (Stmt.ifThen c b o).IsRead := by
  intro indent level depth hdepth
  have hkinds : kinds ((Stmt.ifThen c b o).pieces indent level) = .keyword .kwIf ::
      ((kinds c.pieces ++ .keyword .kwThen :: kinds (blockPieces indent (level + 1) b))
        ++ kinds (o.pieces indent level)) := by simp [pieces]
  have hseparated : (Stmt.ifThen c b o).IsSeparated ↔
      (c.IsSeparated ∧ b.AllSeparated) ∧ o.IsSeparated := by
    simp only [IsSeparated, Else.IsSeparated, Node.ofStmt, Node.all_above_iff, Node.IsSeparated,
      Node.bodies, Block.AllSeparated, Block.nodes, Expr.IsSeparated, Node.all_append_iff,
      List.forall_mem_cons]
    grind
  rw [hkinds] at hdepth ⊢
  simp only [List.length_cons, List.length_append] at hdepth
  obtain ⟨depth, rfl⟩ : ∃ n, depth = n + 1 := ⟨depth - 1, by omega⟩
  rw [statement]
  refine reads_peek fun line => reads_advance ?_
  refine (reads_clause hc hb (by omega)).bind (fun h => (hseparated.1 h).1) ?_ fun v hv => ?_
  · obtain ⟨kind, rest, hfirst, hkind⟩ := ho.first indent level
    rw [hfirst]
    exact hkind
  refine (ho.elsePart indent level depth (by omega)).bind_nil (fun h => (hseparated.1 h).2)
    (fun _ _ => trivial) fun w hw => reads_next ?_
  refine ((hv.1.counts.and hv.2).and hw).of ?_ ?_ hseparated ?_
  · simp [Mark.ofStmt, Block.marks, Expr.count, Nat.add_assoc]
  · simp [Mark.ofStmt, Block.marks, Expr.count, Nat.add_assoc]
  · rintro ⟨⟨rfl, rfl⟩, rfl⟩
    rfl

end Stmt

/-! ### Assignments and calls -/

namespace Expr

variable {e v : Expr}

theorem takesSuffix_of_isCall (h : e.isCall = true) : e.takesSuffix = true := by
  cases e <;> first | rfl | cases h

theorem takesSuffix_of_isAssignable (h : e.isAssignable = true) : e.takesSuffix = true := by
  cases e <;> first | rfl | cases h

theorem Rereads.isCall (h : e.Rereads v) : v.isCall = e.isCall :=
  congrArg (fun role => role.2.1) h.role

/-- An expression that takes suffixes is read up to a token that starts none. -/
theorem IsRead.suffixed_end {depth : Nat} (h : e.IsRead) (hsuffix : e.takesSuffix = true)
    (hdepth : 16 * (kinds e.pieces).length + 2 ≤ depth) :
    Reads (Parser.suffixed depth) (kinds e.pieces) (startsSuffix · = false) e.IsSeparated e.Rereads
      pure := by
  obtain ⟨depth', hdepth', hread⟩ := h.suffixed hsuffix depth hdepth
  exact hread.trans_nil id (fun _ _ => trivial) fun v hv =>
    reads_suffixes_end (by omega) hv fun _ hkind => hkind

end Expr

theorem ExprsReread.all_isAssignable {es vs : List Expr} (h : ExprsReread es vs) :
    vs.all Expr.isAssignable = es.all Expr.isAssignable := by
  have hall : ∀ es : List Expr, es.all Expr.isAssignable =
      (es.map Expr.role).all fun role => role.2.2 := fun es => by
    rw [List.all_map]
    rfl
  rw [hall, hall, h.roles]

/-- The targets after the first one. -/
theorem reads_moreTargets {ts : List Expr} {depth : Nat} (h : ∀ t ∈ ts, t.IsRead)
    (hsuffix : ∀ t ∈ ts, t.takesSuffix = true)
    (hdepth : 16 * (kinds (moreListPieces ts)).length + 1 ≤ depth) :
    Reads (moreTargets depth) (kinds (moreListPieces ts)) (· = .symbol .equal)
      (Node.All Node.IsSeparated (Node.ofExprs (fun _ => true) ts)) (ExprsReread ts) pure := by
  induction ts generalizing depth with
  | nil =>
    obtain ⟨depth, rfl⟩ : ∃ n, depth = n + 1 := ⟨depth - 1, by omega⟩
    rw [moreTargets]
    refine reads_accept_else ?_ (reads_next exprsReread_nil)
    rintro _ rfl
    exact nofun
  | cons t ts ih =>
    have hkinds : kinds (moreListPieces (t :: ts)) =
        .symbol .comma :: (kinds t.pieces ++ kinds (moreListPieces ts)) := by
      simp [moreListPieces]
    rw [hkinds] at hdepth ⊢
    rw [List.length_cons, List.length_append] at hdepth
    obtain ⟨depth, rfl⟩ : ∃ n, depth = n + 1 := ⟨depth - 1, by omega⟩
    rw [moreTargets]
    refine reads_accept_then ?_
    refine ((h t List.mem_cons_self).suffixed_end (hsuffix t List.mem_cons_self)
      (by omega)).bind (fun h => (Node.all_append_iff.1 h).1) ?_ fun v hv => ?_
    · cases ts with
      | nil =>
        rintro _ rfl
        rfl
      | cons t' ts =>
        rw [moreListPieces, List.append_assoc, kinds_append, kinds_comma]
        rfl
    refine (ih (fun t ht => h t (List.mem_cons_of_mem _ ht))
      (fun t ht => hsuffix t (List.mem_cons_of_mem _ ht)) (by omega)).bind_nil
      (fun h => (Node.all_append_iff.1 h).2) (fun _ hkind => hkind) fun vs hvs =>
        reads_next (.cons hv hvs)

namespace Stmt

/-- A statement that starts with a name or a parenthesis is an assignment or a call. -/
theorem reads_statement_of_opens {tokens : List TokenKind} {isParen : Bool} {F : TokenKind → Prop}
    {S : Prop} {P : Stmt → Prop} {depth : Nat} (hopens : Expr.OpensPrimary isParen tokens)
    (h : Reads (expressionStatement depth) tokens F S P pure) :
    Reads (statement (depth + 1)) tokens F S P pure := by
  obtain ⟨kind, rest, rfl, hkind, -⟩ := hopens
  rw [statement]
  refine reads_peek fun line => ?_
  cases kind with
  | name n => exact h
  | symbol sign =>
    cases sign
    case leftParen => exact h
    all_goals cases hkind
  | _ => cases hkind

theorem isRead_call {e : Expr} (he : e.IsRead) (hcall : e.isCall = true) :
    (Stmt.call e).IsRead := by
  intro indent level depth hdepth
  have hsuffix := Expr.takesSuffix_of_isCall hcall
  have hopen : e.endsOpen = true := by
    cases e <;> first | rfl | cases hcall
  have hseparated : (Stmt.call e).IsSeparated ↔ e.IsSeparated := Expr.isSeparated_above rfl
  have hkinds : kinds ((Stmt.call e).pieces indent level) = kinds e.pieces := by
    rw [pieces, kinds_line]
  rw [hkinds] at hdepth ⊢
  obtain ⟨depth, rfl⟩ : ∃ n, depth = n + 2 := ⟨depth - 2, by omega⟩
  refine reads_statement_of_opens (Expr.opensPrimary_pieces hsuffix) ?_
  rw [expressionStatement]
  refine reads_peek_first (.of_all fun _ => trivial) fun token _ => ?_
  refine (he.suffixed_end hsuffix (by omega)).bind_nil hseparated.1
    (fun kind hkind => hkind.1.1 hopen) fun v hv => ?_
  refine reads_peek_nil fun token' htoken' => ?_
  rw [if_neg (by simp [htoken'.2]), if_pos (hv.isCall.trans hcall)]
  exact reads_next (hv.counts.of rfl rfl hseparated (congrArg Stmt.call))

theorem isRead_assign {t : Expr} {ts values : List Expr} (ht : ∀ e ∈ t :: ts, e.IsRead)
    (hassignable : ∀ e ∈ t :: ts, e.isAssignable = true) (hne : values ≠ [])
    (hvalues : ∀ e ∈ values, e.IsRead) : (Stmt.assign (t :: ts) values).IsRead := by
  intro indent level depth hdepth
  have hsuffix : ∀ e ∈ t :: ts, e.takesSuffix = true := fun e he =>
    Expr.takesSuffix_of_isAssignable (hassignable e he)
  have hseparated : (Stmt.assign (t :: ts) values).IsSeparated ↔
      (t.IsSeparated ∧ Node.All Node.IsSeparated (Node.ofExprs (fun _ => true) ts)) ∧
        Node.All Node.IsSeparated (Node.ofExprs (fun _ => true) values) :=
    (Expr.isSeparated_above rfl).trans
      (Node.all_append_iff.trans (and_congr_left' Node.all_append_iff))
  have hkinds : kinds ((Stmt.assign (t :: ts) values).pieces indent level) = kinds t.pieces ++
      (kinds (moreListPieces ts) ++ .symbol .equal :: kinds (listPieces values)) := by
    simp [pieces, listPieces]
  have hmore : ∀ F, FirstIs (fun kind => kind = .symbol .equal ∨ kind = .symbol .comma) F
      (kinds (moreListPieces ts) ++ .symbol .equal :: kinds (listPieces values)) := by
    intro F
    cases ts with
    | nil => exact .inl rfl
    | cons t' ts =>
      rw [moreListPieces, List.append_assoc, kinds_append, kinds_comma]
      exact .inr rfl
  rw [hkinds] at hdepth ⊢
  simp only [List.length_cons, List.length_append] at hdepth
  obtain ⟨depth, rfl⟩ : ∃ n, depth = n + 2 := ⟨depth - 2, by omega⟩
  refine reads_statement_of_opens
    ((Expr.opensPrimary_pieces (hsuffix t List.mem_cons_self)).append _) ?_
  rw [expressionStatement]
  refine reads_peek_first (.of_all fun _ => trivial) fun token _ => ?_
  refine ((ht t List.mem_cons_self).suffixed_end (hsuffix t List.mem_cons_self)
    (by omega)).bind (fun h => (hseparated.1 h).1.1) ((hmore _).imp ?_) fun v hv => ?_
  · rintro _ (rfl | rfl) <;> rfl
  refine reads_peek_first (hmore _) fun token' htoken' => ?_
  rw [if_pos (by simpa using htoken')]
  refine (reads_moreTargets (fun e he => ht e (List.mem_cons_of_mem _ he))
    (fun e he => hsuffix e (List.mem_cons_of_mem _ he)) (by omega)).bind
    (fun h => (hseparated.1 h).1.2) rfl fun vs hvs => reads_expectSymbol ?_
  refine (reads_expressionList hne hvalues (by omega)).bind_nil (fun h => (hseparated.1 h).2)
    (fun _ hkind => hkind) fun ws hws => ?_
  have htargets : ExprsReread (t :: ts) (v :: vs) := .cons hv hvs
  have hall : (v :: vs).all Expr.isAssignable = true := by
    rw [htargets.all_isAssignable, List.all_eq_true]
    exact hassignable
  rw [if_pos hall]
  refine reads_next ((htargets.counts.and hws.counts).of ?_ ?_ ?_ ?_)
  · simp [Mark.ofStmt, Nat.add_comm]
  · simp [Mark.ofStmt, Nat.add_comm]
  · exact (Expr.isSeparated_above rfl).trans Node.all_append_iff
  · rintro ⟨heq, rfl⟩
    exact congrArg (Stmt.assign · _) heq

end Stmt

end LuaUnpack.Lua
