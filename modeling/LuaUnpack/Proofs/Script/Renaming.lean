import LuaUnpack.Lua.Mapper
import LuaUnpack.Proofs.Lua.Marks
import LuaUnpack.Script.Rename
import Mathlib.Data.List.Basic
import Mathlib.Data.List.Induction
import Mathlib.Data.List.Nodup

/-!
# Renaming keeps what names refer to

Renaming walks through a tree with a scope that it passes down. On the marks of a script
the same is a walk from left to right over one list, with a stack of scopes (`Walk`). What
the stack holds at a place is then said by the marks before it: the look-up of a name finds
the last declaration of the name that stays in sight (`Rename.lookup_eq_some`).

From this it follows that every use refers to the same declaration before and after renaming
(`rename_keeps_references`). The new names are pairwise distinct, so that no declaration hides
another one; only a global name that looks like an invented one could be caught by it.
-/

namespace LuaUnpack.Script

open LuaUnpack.Lua

namespace Rename

/-- The name that is invented for a declaration. -/
def inventedName (k : Nat) : String := inventedLead ++ Text.digits 10 k

theorem toList_inventedName (k : Nat) :
    (inventedName k).toList = inventedLead.toList ++ Nat.toDigits 10 k := by
  rw [inventedName, String.toList_append, Text.digits, String.toList_ofList]

theorem inventedName_injective : Function.Injective inventedName := by
  intro i j h
  have hlist := congrArg String.toList h
  rw [toList_inventedName, toList_inventedName, List.append_cancel_left_eq] at hlist
  have hvalue := congrArg (Nat.ofDigitChars 10 · 0) hlist
  simpa only [Nat.ofDigitChars_ten_toDigits] using hvalue

theorem isInvented_inventedName (k : Nat) : isInvented (inventedName k) = true := by
  rw [isInvented, toList_inventedName, List.isPrefixOf_iff_prefix]
  exact List.prefix_append ..

/-! ## The walk over marks -/

/-- The state of renaming on its way through the marks of a script: the scopes that are
    open, the innermost first, and the number of declarations so far. -/
structure Walk where
  scopes : List Scope := [[]]
  count : Nat := 0

namespace Walk

/-- The scope that is left open after leaving a number of scopes. -/
def scope (w : Walk) (levels : Nat) : Scope := w.scopes.getD levels []

/-- The state after a mark. -/
def next (w : Walk) : Mark → Walk
  | .enter => ⟨w.scope 0 :: w.scopes, w.count⟩
  | .leave => ⟨w.scopes.tail, w.count⟩
  | .declare n => ⟨((n, inventedName w.count) :: w.scope 0) :: w.scopes.tail, w.count + 1⟩
  | .use _ | .statement _ => w

/-- A mark with the new name in it. -/
def renamed (w : Walk) : Mark → Mark
  | .declare _ => .declare (inventedName w.count)
  | .use n => .use (resolve (w.scope 0) n)
  | mark => mark

/-- The state after some marks. -/
def after (w : Walk) (marks : List Mark) : Walk := marks.foldl next w

/-- Marks with the new names in them. -/
def relabel (w : Walk) : List Mark → List Mark
  | [] => []
  | mark :: rest => w.renamed mark :: relabel (w.next mark) rest

variable {w : Walk} {marks : List Mark} {mark : Mark} {name : String} {levels p q : Nat}

@[simp]
theorem after_nil : w.after [] = w := rfl

@[simp]
theorem after_append (w : Walk) (left right : List Mark) :
    w.after (left ++ right) = (w.after left).after right := List.foldl_append

theorem after_concat (w : Walk) (marks : List Mark) (mark : Mark) :
    w.after (marks ++ [mark]) = (w.after marks).next mark := List.foldl_concat ..

@[simp]
theorem relabel_append (w : Walk) (left right : List Mark) :
    w.relabel (left ++ right) = w.relabel left ++ (w.after left).relabel right := by
  induction left generalizing w with
  | nil => rfl
  | cons mark left ih => exact congrArg (List.cons _) (ih _)

theorem getElem?_relabel (w : Walk) (marks : List Mark) (q : Nat) :
    (w.relabel marks)[q]? = marks[q]?.map (w.after (marks.take q)).renamed := by
  induction marks generalizing w q with
  | nil => rfl
  | cons mark marks ih =>
    cases q with
    | zero => rfl
    | succ q => exact ih (w.next mark) q

theorem take_relabel (w : Walk) (marks : List Mark) (q : Nat) :
    (w.relabel marks).take q = w.relabel (marks.take q) := by
  induction marks generalizing w q with
  | nil => rw [relabel, List.take_nil, relabel]
  | cons mark marks ih =>
    cases q with
    | zero => rfl
    | succ q => exact congrArg (List.cons _) (ih (w.next mark) q)

theorem drop_relabel (w : Walk) (marks : List Mark) (q : Nat) :
    (w.relabel marks).drop q = (w.after (marks.take q)).relabel (marks.drop q) := by
  induction marks generalizing w q with
  | nil => rw [relabel, List.drop_nil, relabel]
  | cons mark marks ih =>
    cases q with
    | zero => rfl
    | succ q => exact ih (w.next mark) q

theorem deepen_renamed (depth : Option Nat) : Mark.deepen depth (w.renamed mark) =
    Mark.deepen depth mark := by
  cases mark <;> rfl

/-- The new names do not change the scopes. -/
theorem depth?_relabel (w : Walk) (marks : List Mark) :
    Mark.depth? (w.relabel marks) = Mark.depth? marks := by
  rw [Mark.depth?, Mark.depth?]
  generalize some 0 = depth
  induction marks generalizing w depth with
  | nil => rfl
  | cons mark marks ih =>
    rw [relabel, List.foldl_cons, List.foldl_cons, deepen_renamed]
    exact ih _ _

theorem inSight_relabel_iff : Mark.InSight (w.relabel marks) p q ↔ Mark.InSight marks p q := by
  rw [Mark.InSight, Mark.InSight, take_relabel, drop_relabel, depth?_relabel]

theorem count_after (w : Walk) (marks : List Mark) :
    (w.after marks).count = w.count + marks.countP Mark.isDeclaration := by
  induction marks generalizing w with
  | nil => rfl
  | cons mark marks ih =>
    have hnext : (w.next mark).count = w.count + if mark.isDeclaration then 1 else 0 := by
      cases mark <;> rfl
    rw [after, List.foldl_cons, ← after, ih, hnext, List.countP_cons]
    omega

/-! ## What a look-up finds -/

/-- How many scopes have to be left before a mark to be where leaving `levels` scopes leads
    after it. -/
def levelsBefore : Mark → Nat → Nat
  | .enter, levels => levels - 1
  | .leave, levels => levels + 1
  | _, levels => levels

theorem scope_declare_zero :
    (w.next (.declare name)).scope 0 = (name, inventedName w.count) :: w.scope 0 := rfl

theorem scope_next (h : ∀ n, mark = .declare n → levels ≠ 0) :
    (w.next mark).scope levels = w.scope (levelsBefore mark levels) := by
  cases mark with
  | enter => cases levels <;> rfl
  | leave =>
    change w.scopes.tail.getD levels [] = w.scopes.getD (levels + 1) []
    rw [List.getD_eq_getElem?_getD, List.getD_eq_getElem?_getD, List.getElem?_tail]
  | declare n =>
    obtain ⟨level, rfl⟩ := Nat.exists_eq_succ_of_ne_zero (h n rfl)
    change w.scopes.tail.getD level [] = w.scopes.getD (level + 1) []
    rw [List.getD_eq_getElem?_getD, List.getD_eq_getElem?_getD, List.getElem?_tail]
  | use n => rfl
  | statement kind => rfl

end Walk

/-- Whether a name is declared at `p` and stays in sight after leaving a number of scopes at
    the end of the marks. -/
def Stays (marks : List Mark) (name : String) (levels p : Nat) : Prop :=
  marks[p]? = some (.declare name) ∧ ∃ d, Mark.depth? (marks.drop (p + 1)) = some d ∧ levels ≤ d

section

variable {marks : List Mark} {mark : Mark} {name : String} {levels p q : Nat}

theorem Stays.lt (h : Stays marks name levels p) : p < marks.length :=
  (List.getElem?_eq_some_iff.1 h.1).1

theorem exists_deepen_iff (depth : Option Nat) :
    (∃ d, Mark.deepen depth mark = some d ∧ levels ≤ d) ↔
      ∃ d, depth = some d ∧ Walk.levelsBefore mark levels ≤ d := by
  cases mark with
  | enter =>
    cases depth <;> simp [Mark.deepen, Walk.levelsBefore]
  | leave =>
    rcases depth with _ | _ | d <;> simp [Mark.deepen, Walk.levelsBefore]
  | declare n => rfl
  | use n => rfl
  | statement kind => rfl

theorem stays_concat_iff :
    Stays (marks ++ [mark]) name levels p ↔
      Stays marks name (Walk.levelsBefore mark levels) p ∨
        p = marks.length ∧ mark = .declare name ∧ levels = 0 := by
  rcases Nat.lt_trichotomy p marks.length with hp | rfl | hp
  · rw [Stays, List.getElem?_append_left hp, List.drop_append_of_le_length hp, Mark.depth?,
      List.foldl_concat, ← Mark.depth?, exists_deepen_iff]
    simp [Stays, Nat.ne_of_lt hp]
  · simp [Stays, Mark.depth?]
  · have hnot : ∀ {l : List Mark} {k : Nat}, l.length ≤ p → ¬ Stays l name k p :=
      fun hl h => absurd h.lt (Nat.not_lt.2 hl)
    simp [hnot, Nat.le_of_lt hp, Nat.ne_of_gt hp, Nat.succ_le_of_lt hp]

theorem ordinal_append_of_le (h : p ≤ marks.length) (more : List Mark) :
    Mark.ordinal (marks ++ more) p = Mark.ordinal marks p := by
  rw [Mark.ordinal, Mark.ordinal, List.take_append_of_le_length h]

/-- A look-up finds the last declaration that stays in sight. -/
theorem lookup_eq_some (h : Stays marks name levels p)
    (hlast : ∀ r, Stays marks name levels r → r ≤ p) :
    ((Walk.after {} marks).scope levels).lookup name
      = some (inventedName (Mark.ordinal marks p)) := by
  -- From the end of the list: the last mark says which scope was looked at before it.
  induction marks using List.reverseRecOn generalizing levels p with
  | nil => exact absurd h.lt (Nat.not_lt_zero p)
  | append_singleton marks mark ih =>
    simp only [stays_concat_iff] at h hlast
    rw [Walk.after_concat]
    by_cases hnew : mark = .declare name ∧ levels = 0
    · obtain ⟨rfl, rfl⟩ := hnew
      have hp : p = marks.length := by
        refine Nat.le_antisymm ?_ (hlast _ (.inr ⟨rfl, rfl, rfl⟩))
        exact h.elim (fun h => Nat.le_of_lt h.lt) fun h => Nat.le_of_eq h.1
      rw [Walk.scope_declare_zero, List.lookup_cons_self, hp, ordinal_append_of_le (Nat.le_refl _),
        Mark.ordinal, List.take_length, Walk.count_after, Nat.zero_add]
    · have hold : Stays marks name (Walk.levelsBefore mark levels) p :=
        h.resolve_right fun h => hnew h.2
      have hih := ih hold fun r hr => hlast r (.inl hr)
      rw [ordinal_append_of_le (Nat.le_of_lt hold.lt), ← hih]
      by_cases hother : ∃ n, mark = .declare n ∧ levels = 0
      · obtain ⟨n, rfl, rfl⟩ := hother
        have hne : name ≠ n := fun hn => hnew ⟨congrArg _ hn.symm, rfl⟩
        rw [Walk.scope_declare_zero, List.lookup_cons, beq_false_of_ne hne]
        rfl
      · rw [Walk.scope_next fun n hn hlevels => hother ⟨n, hn, hlevels⟩]

/-- A look-up finds nothing if no declaration stays in sight. -/
theorem lookup_eq_none (h : ∀ p, ¬ Stays marks name levels p) :
    ((Walk.after {} marks).scope levels).lookup name = none := by
  induction marks using List.reverseRecOn generalizing levels with
  | nil => cases levels <;> rfl
  | append_singleton marks mark ih =>
    simp only [stays_concat_iff, not_or] at h
    rw [Walk.after_concat, ← ih fun p => (h p).1]
    by_cases hother : ∃ n, mark = .declare n ∧ levels = 0
    · obtain ⟨n, rfl, rfl⟩ := hother
      have hne : name ≠ n := fun hn => (h marks.length).2 ⟨rfl, congrArg _ hn.symm, rfl⟩
      rw [Walk.scope_declare_zero, List.lookup_cons, beq_false_of_ne hne]
      rfl
    · rw [Walk.scope_next fun n hn hlevels => hother ⟨n, hn, hlevels⟩]

end

/-! ## From trees to marks -/

/-- Names that are all the same. -/
def noNames (names : List String) : List String := names.map fun _ => ""

/-- Takes the names out of a tree that can be declared: those of declarations, of name
    expressions and of the roots of declared functions. -/
def nameless : Mapper Id where
  expr _ inner :=
    match inner with
    | .name _ => .name ""
    | .function ⟨params, isVararg, body⟩ => .function ⟨noNames params, isVararg, body⟩
    | e => e
  stmt _ inner :=
    match inner with
    | .localVars names values => .localVars (noNames names) values
    | .localFunction _ ⟨params, isVararg, body⟩ =>
      .localFunction "" ⟨noNames params, isVararg, body⟩
    | .functionDecl _ path method ⟨params, isVararg, body⟩ =>
      .functionDecl "" path method ⟨noNames params, isVararg, body⟩
    | .numericFor _ start limit step body => .numericFor "" start limit step body
    | .genericFor names exprs body => .genericFor (noNames names) exprs body
    | s => s

/-- Whether the walk turns marks into others, from one state to another. -/
structure Walks (w w' : Walk) (old new : List Mark) : Prop where
  new_eq : new = w.relabel old
  after_eq : w.after old = w'

section

variable {w w₁ w₂ : Walk} {old old₁ old₂ new new₁ new₂ : List Mark} {scope inner : Scope}
  {outer : List Scope} {k k' : Nat}

theorem walks_nil : Walks w w [] [] := ⟨rfl, rfl⟩

theorem Walks.append (h₁ : Walks w w₁ old₁ new₁) (h₂ : Walks w₁ w₂ old₂ new₂) :
    Walks w w₂ (old₁ ++ old₂) (new₁ ++ new₂) := by
  refine ⟨?_, ?_⟩
  · rw [Walk.relabel_append, h₁.after_eq, ← h₁.new_eq, ← h₂.new_eq]
  · rw [Walk.after_append, h₁.after_eq, h₂.after_eq]

theorem walks_statement {kind kind' : String} (h : kind' = kind) :
    Walks w w [.statement kind] [.statement kind'] := by
  rw [h]
  exact ⟨rfl, rfl⟩

theorem walks_use (name : String) :
    Walks ⟨scope :: outer, k⟩ ⟨scope :: outer, k⟩ [.use name] [.use (resolve scope name)] :=
  ⟨rfl, rfl⟩

theorem walks_declare (name : String) :
    Walks ⟨scope :: outer, k⟩ ⟨((name, inventedName k) :: scope) :: outer, k + 1⟩
      [.declare name] [.declare (inventedName k)] :=
  ⟨rfl, rfl⟩

/-- What happens in a scope of its own does not change the scope around it. -/
theorem Walks.enclosed
    (h : Walks ⟨scope :: scope :: outer, k⟩ ⟨inner :: scope :: outer, k'⟩ old new) :
    Walks ⟨scope :: outer, k⟩ ⟨scope :: outer, k'⟩ (Mark.enclosed old) (Mark.enclosed new) := by
  have henter : Walks ⟨scope :: outer, k⟩ ⟨scope :: scope :: outer, k⟩ [.enter] [.enter] :=
    ⟨rfl, rfl⟩
  have hleave : Walks ⟨inner :: scope :: outer, k'⟩ ⟨scope :: outer, k'⟩ [.leave] [.leave] :=
    ⟨rfl, rfl⟩
  exact henter.append (h.append hleave)

theorem walks_declareAll (scope : Scope) (outer : List Scope) (names : List String) (k : Nat) :
    Walks ⟨scope :: outer, k⟩
        ⟨((declareAll [] scope names).run k).1.2 :: outer, ((declareAll [] scope names).run k).2⟩
        (names.map .declare) (((declareAll [] scope names).run k).1.1.map .declare) ∧
      noNames ((declareAll [] scope names).run k).1.1 = noNames names := by
  induction names generalizing scope k with
  | nil => exact ⟨walks_nil, rfl⟩
  | cons name names ih =>
    obtain ⟨hwalks, hnames⟩ := ih ((name, inventedName k) :: scope) (k + 1)
    exact ⟨(walks_declare name).append hwalks, congrArg (List.cons "") hnames⟩

end

theorem kindName_onStmt (scope : Scope) (s : Stmt) (k : Nat) :
    ((onStmt [] scope s).run k).1.1.kindName = s.kindName := by
  rcases s with _ | ⟨name, params, isVararg, body⟩ | ⟨root, path, method, params, isVararg, body⟩ |
    _ | _ | _ | _ | _ | _ | ⟨var, start, limit, step, body⟩ | _ | _ | _ | _ | _
  case numericFor => cases step <;> rfl
  all_goals rfl

mutual

theorem walks_onExpr (scope : Scope) (outer : List Scope) : ∀ (e : Expr) (k : Nat),
    Walks ⟨scope :: outer, k⟩ ⟨scope :: outer, ((onExpr [] scope e).run k).2⟩ (Mark.ofExpr e)
        (Mark.ofExpr ((onExpr [] scope e).run k).1) ∧
      nameless.onExpr ((onExpr [] scope e).run k).1 = nameless.onExpr e
  | .nil, _ => ⟨walks_nil, rfl⟩
  | .boolean _, _ => ⟨walks_nil, rfl⟩
  | .number _, _ => ⟨walks_nil, rfl⟩
  | .string _, _ => ⟨walks_nil, rfl⟩
  | .vararg, _ => ⟨walks_nil, rfl⟩
  | .name n, _ => ⟨walks_use n, rfl⟩
  | .member t key, k =>
    have ⟨ht, ht'⟩ := walks_onExpr scope outer t k
    ⟨ht, congrArg (Expr.member · key) ht'⟩
  | .index t i, k =>
    have ⟨ht, ht'⟩ := walks_onExpr scope outer t k
    have ⟨hi, hi'⟩ := walks_onExpr scope outer i _
    ⟨ht.append hi, congrArg₂ Expr.index ht' hi'⟩
  | .call f args, k =>
    have ⟨hf, hf'⟩ := walks_onExpr scope outer f k
    have ⟨hargs, hargs'⟩ := walks_onExprs scope outer args _
    ⟨hf.append hargs, congrArg₂ Expr.call hf' hargs'⟩
  | .methodCall o m args, k =>
    have ⟨ho, ho'⟩ := walks_onExpr scope outer o k
    have ⟨hargs, hargs'⟩ := walks_onExprs scope outer args _
    ⟨ho.append hargs, congrArg₂ (Expr.methodCall · m ·) ho' hargs'⟩
  -- The parameters are declared in a scope of their own, which the body goes on with.
  | .function ⟨params, isVararg, body⟩, k =>
    have ⟨hps, hps'⟩ := walks_declareAll scope (scope :: outer) params k
    have ⟨hbody, hbody'⟩ := walks_onStmts _ (scope :: outer) body _
    ⟨(hps.append hbody).enclosed,
      congrArg₂ (fun ps b => Expr.function ⟨ps, isVararg, b⟩) hps' hbody'⟩
  | .table fields, k =>
    have ⟨hfields, hfields'⟩ := walks_onFields scope outer fields k
    ⟨hfields, congrArg Expr.table hfields'⟩
  | .binary op l r, k =>
    have ⟨hl, hl'⟩ := walks_onExpr scope outer l k
    have ⟨hr, hr'⟩ := walks_onExpr scope outer r _
    ⟨hl.append hr, congrArg₂ (Expr.binary op) hl' hr'⟩
  | .unary op e, k =>
    have ⟨he, he'⟩ := walks_onExpr scope outer e k
    ⟨he, congrArg (Expr.unary op) he'⟩
  | .paren e, k =>
    have ⟨he, he'⟩ := walks_onExpr scope outer e k
    ⟨he, congrArg Expr.paren he'⟩

theorem walks_onExprs (scope : Scope) (outer : List Scope) : ∀ (es : List Expr) (k : Nat),
    Walks ⟨scope :: outer, k⟩ ⟨scope :: outer, ((onExprs [] scope es).run k).2⟩ (Mark.ofExprs es)
        (Mark.ofExprs ((onExprs [] scope es).run k).1) ∧
      nameless.onExprs ((onExprs [] scope es).run k).1 = nameless.onExprs es
  | [], _ => ⟨walks_nil, rfl⟩
  | e :: rest, k =>
    have ⟨he, he'⟩ := walks_onExpr scope outer e k
    have ⟨hrest, hrest'⟩ := walks_onExprs scope outer rest _
    ⟨he.append hrest, congrArg₂ List.cons he' hrest'⟩

theorem walks_onField (scope : Scope) (outer : List Scope) : ∀ (f : Field) (k : Nat),
    Walks ⟨scope :: outer, k⟩ ⟨scope :: outer, ((onField [] scope f).run k).2⟩ (Mark.ofField f)
        (Mark.ofField ((onField [] scope f).run k).1) ∧
      nameless.onField ((onField [] scope f).run k).1 = nameless.onField f
  | .positional e, k =>
    have ⟨he, he'⟩ := walks_onExpr scope outer e k
    ⟨he, congrArg Field.positional he'⟩
  | .named n e, k =>
    have ⟨he, he'⟩ := walks_onExpr scope outer e k
    ⟨he, congrArg (Field.named n) he'⟩
  | .keyed i e, k =>
    have ⟨hi, hi'⟩ := walks_onExpr scope outer i k
    have ⟨he, he'⟩ := walks_onExpr scope outer e _
    ⟨hi.append he, congrArg₂ Field.keyed hi' he'⟩

theorem walks_onFields (scope : Scope) (outer : List Scope) : ∀ (fs : List Field) (k : Nat),
    Walks ⟨scope :: outer, k⟩ ⟨scope :: outer, ((onFields [] scope fs).run k).2⟩ (Mark.ofFields fs)
        (Mark.ofFields ((onFields [] scope fs).run k).1) ∧
      nameless.onFields ((onFields [] scope fs).run k).1 = nameless.onFields fs
  | [], _ => ⟨walks_nil, rfl⟩
  | f :: rest, k =>
    have ⟨hf, hf'⟩ := walks_onField scope outer f k
    have ⟨hrest, hrest'⟩ := walks_onFields scope outer rest _
    ⟨hf.append hrest, congrArg₂ List.cons hf' hrest'⟩

theorem walks_onStmt (scope : Scope) (outer : List Scope) : ∀ (s : Stmt) (k : Nat),
    Walks ⟨scope :: outer, k⟩
        ⟨((onStmt [] scope s).run k).1.2 :: outer, ((onStmt [] scope s).run k).2⟩
        (Mark.ofStmt s) (Mark.ofStmt ((onStmt [] scope s).run k).1.1) ∧
      nameless.onStmt ((onStmt [] scope s).run k).1.1 = nameless.onStmt s
  | .localVars names values, k =>
    have ⟨hvalues, hvalues'⟩ := walks_onExprs scope outer values k
    have ⟨hnames, hnames'⟩ := walks_declareAll scope outer names _
    ⟨hvalues.append hnames, congrArg₂ Stmt.localVars hnames' hvalues'⟩
  | .localFunction name ⟨params, isVararg, body⟩, k =>
    have ⟨hps, hps'⟩ := walks_declareAll ((name, inventedName k) :: scope)
      (((name, inventedName k) :: scope) :: outer) params (k + 1)
    have ⟨hbody, hbody'⟩ := walks_onStmts _ (((name, inventedName k) :: scope) :: outer) body _
    ⟨(walks_declare name).append (hps.append hbody).enclosed,
      congrArg₂ (fun ps b => Stmt.localFunction "" ⟨ps, isVararg, b⟩) hps' hbody'⟩
  | .functionDecl root path method ⟨params, isVararg, body⟩, k =>
    have ⟨hps, hps'⟩ := walks_declareAll scope (scope :: outer) params k
    have ⟨hbody, hbody'⟩ := walks_onStmts _ (scope :: outer) body _
    ⟨(walks_use root).append (hps.append hbody).enclosed,
      congrArg₂ (fun ps b => Stmt.functionDecl "" path method ⟨ps, isVararg, b⟩) hps' hbody'⟩
  | .assign targets values, k =>
    have ⟨hvalues, hvalues'⟩ := walks_onExprs scope outer values k
    have ⟨htargets, htargets'⟩ := walks_onExprs scope outer targets _
    ⟨hvalues.append htargets, congrArg₂ Stmt.assign htargets' hvalues'⟩
  | .call e, k =>
    have ⟨he, he'⟩ := walks_onExpr scope outer e k
    ⟨he, congrArg Stmt.call he'⟩
  | .block body, k =>
    have ⟨hbody, hbody'⟩ := walks_onStmts scope (scope :: outer) body k
    ⟨hbody.enclosed, congrArg Stmt.block hbody'⟩
  | .whileLoop c body, k =>
    have ⟨hc, hc'⟩ := walks_onExpr scope outer c k
    have ⟨hbody, hbody'⟩ := walks_onStmts scope (scope :: outer) body _
    ⟨hc.append hbody.enclosed, congrArg₂ Stmt.whileLoop hc' hbody'⟩
  -- The condition of this loop is still in the scope of its body.
  | .repeatLoop body c, k =>
    have ⟨hbody, hbody'⟩ := walks_onStmts scope (scope :: outer) body k
    have ⟨hc, hc'⟩ := walks_onExpr _ (scope :: outer) c _
    ⟨(hbody.append hc).enclosed, congrArg₂ Stmt.repeatLoop hbody' hc'⟩
  | .ifThen c body otherwise, k =>
    have ⟨hc, hc'⟩ := walks_onExpr scope outer c k
    have ⟨hbody, hbody'⟩ := walks_onStmts scope (scope :: outer) body _
    have ⟨ho, ho'⟩ := walks_onElse scope outer otherwise _
    have hall := congr (congrArg₂ Stmt.ifThen hc' hbody') ho'
    ⟨(hc.append hbody.enclosed).append ho, hall⟩
  | .numericFor var start limit none body, k =>
    have ⟨hstart, hstart'⟩ := walks_onExpr scope outer start k
    have ⟨hlimit, hlimit'⟩ := walks_onExpr scope outer limit _
    have ⟨hbody, hbody'⟩ := walks_onStmts _ (scope :: outer) body _
    have hall := congr (congrArg₂ (Stmt.numericFor "" · · none) hstart' hlimit') hbody'
    ⟨(hstart.append hlimit).append ((walks_declare var).append hbody).enclosed, hall⟩
  | .numericFor var start limit (some step) body, k =>
    have ⟨hstart, hstart'⟩ := walks_onExpr scope outer start k
    have ⟨hlimit, hlimit'⟩ := walks_onExpr scope outer limit _
    have ⟨hstep, hstep'⟩ := walks_onExpr scope outer step _
    have ⟨hbody, hbody'⟩ := walks_onStmts _ (scope :: outer) body _
    have hheader := congr (congrArg₂ (Stmt.numericFor "") hstart' hlimit') (congrArg some hstep')
    have hall := congr hheader hbody'
    ⟨((hstart.append hlimit).append hstep).append ((walks_declare var).append hbody).enclosed, hall⟩
  | .genericFor names exprs body, k =>
    have ⟨hexprs, hexprs'⟩ := walks_onExprs scope outer exprs k
    have ⟨hnames, hnames'⟩ := walks_declareAll scope (scope :: outer) names _
    have ⟨hbody, hbody'⟩ := walks_onStmts _ (scope :: outer) body _
    have hall := congr (congrArg₂ Stmt.genericFor hnames' hexprs') hbody'
    ⟨hexprs.append (hnames.append hbody).enclosed, hall⟩
  | .ret values, k =>
    have ⟨hvalues, hvalues'⟩ := walks_onExprs scope outer values k
    ⟨hvalues, congrArg Stmt.ret hvalues'⟩
  | .exit, _ => ⟨walks_nil, rfl⟩
  | .goto _, _ => ⟨walks_nil, rfl⟩
  | .label _, _ => ⟨walks_nil, rfl⟩

theorem walks_onElse (scope : Scope) (outer : List Scope) : ∀ (o : Else) (k : Nat),
    Walks ⟨scope :: outer, k⟩ ⟨scope :: outer, ((onElse [] scope o).run k).2⟩ (Mark.ofElse o)
        (Mark.ofElse ((onElse [] scope o).run k).1) ∧
      nameless.onElse ((onElse [] scope o).run k).1 = nameless.onElse o
  | .done, _ => ⟨walks_nil, rfl⟩
  | .block body, k =>
    have ⟨hbody, hbody'⟩ := walks_onStmts scope (scope :: outer) body k
    ⟨hbody.enclosed, congrArg Else.block hbody'⟩
  | .elseIf c body otherwise, k =>
    have ⟨hc, hc'⟩ := walks_onExpr scope outer c k
    have ⟨hbody, hbody'⟩ := walks_onStmts scope (scope :: outer) body _
    have ⟨ho, ho'⟩ := walks_onElse scope outer otherwise _
    have hall := congr (congrArg₂ Else.elseIf hc' hbody') ho'
    ⟨(hc.append hbody.enclosed).append ho, hall⟩

theorem walks_onStmts (scope : Scope) (outer : List Scope) : ∀ (ss : List Stmt) (k : Nat),
    Walks ⟨scope :: outer, k⟩
        ⟨((onStmts [] scope ss).run k).1.2 :: outer, ((onStmts [] scope ss).run k).2⟩
        (Mark.ofStmts ss) (Mark.ofStmts ((onStmts [] scope ss).run k).1.1) ∧
      nameless.onStmts ((onStmts [] scope ss).run k).1.1 = nameless.onStmts ss
  | [], _ => ⟨walks_nil, rfl⟩
  | s :: rest, k =>
    have ⟨hs, hs'⟩ := walks_onStmt scope outer s k
    have ⟨hrest, hrest'⟩ := walks_onStmts _ outer rest _
    ⟨((walks_statement (kindName_onStmt scope s k)).append hs).append hrest,
      congrArg₂ List.cons hs' hrest'⟩

end

/-! ## What becomes of a script -/

theorem relabel_marks (block : Block) :
    (rename block).1.marks = Walk.relabel {} block.marks :=
  (walks_onStmts [] [] block 0).1.new_eq

theorem count_rename (block : Block) :
    (rename block).2 = block.marks.countP Mark.isDeclaration := by
  have hcount := congrArg Walk.count (walks_onStmts [] [] block 0).1.after_eq
  rw [Walk.count_after, Nat.zero_add] at hcount
  exact hcount.symm

/-- The declarations get the invented names in turn. -/
theorem filter_relabel (w : Walk) (marks : List Mark) :
    (w.relabel marks).filter Mark.isDeclaration =
      (List.range' w.count (marks.countP Mark.isDeclaration)).map (.declare ∘ inventedName) := by
  induction marks generalizing w with
  | nil => rfl
  | cons mark marks ih =>
    cases mark with
    | declare name =>
      rw [List.countP_cons_of_pos rfl, List.range'_succ, List.map_cons]
      exact congrArg (List.cons _) (ih _)
    | enter => exact ih _
    | leave => exact ih _
    | use name => exact ih _
    | statement kind => exact ih _

section

variable {marks : List Mark} {name new : String} {p q : Nat}

theorem stays_take_iff :
    Stays (marks.take q) name 0 p ↔
      marks[p]? = some (.declare name) ∧ Mark.InSight marks p q := by
  rw [Stays, Mark.InSight, Option.isSome_iff_exists]
  by_cases hp : p < q
  · simp [List.getElem?_take_of_lt hp, hp]
  · rw [List.getElem?_take_eq_none (Nat.not_lt.1 hp)]
    simp [hp]

theorem ordinal_take (h : p ≤ q) : Mark.ordinal (marks.take q) p = Mark.ordinal marks p := by
  rw [Mark.ordinal, Mark.ordinal, List.take_take, Nat.min_eq_left h]

theorem count_after_take (p : Nat) :
    (Walk.after {} (marks.take p)).count = Mark.ordinal marks p := by
  rw [Walk.count_after, Nat.zero_add, Mark.ordinal]

theorem ordinal_lt_ordinal (h : marks[p]? = some (.declare name)) (hpq : p < q) :
    Mark.ordinal marks p < Mark.ordinal marks q := by
  have hnext : Mark.ordinal marks (p + 1) = Mark.ordinal marks p + 1 := by
    rw [Mark.ordinal, List.take_add_one, h, List.countP_append]
    rfl
  have hsub : (marks.take (p + 1)).Sublist (marks.take q) :=
    (List.take_prefix_take_left hpq).sublist
  have hle : Mark.ordinal marks (p + 1) ≤ Mark.ordinal marks q := hsub.countP_le
  omega

theorem getElem?_relabel_declare_iff :
    (Walk.relabel {} marks)[p]? = some (.declare new) ↔
      new = inventedName (Mark.ordinal marks p) ∧ ∃ name, marks[p]? = some (.declare name) := by
  rw [Walk.getElem?_relabel, ← count_after_take]
  rcases marks[p]? with _ | (_ | _ | _ | _ | _) <;>
    simp [Walk.renamed, eq_comm]

/-- A use is renamed as the declaration to which it refers. -/
theorem getElem?_relabel_of_refers (h : Mark.Refers marks name p q) :
    (Walk.relabel {} marks)[q]? = some (.use (inventedName (Mark.ordinal marks p))) := by
  have hstays : Stays (marks.take q) name 0 p := stays_take_iff.2 ⟨h.declared, h.inSight⟩
  have hlast : ∀ r, Stays (marks.take q) name 0 r → r ≤ p := by
    intro r hr
    obtain ⟨hdeclared, hsight⟩ := stays_take_iff.1 hr
    exact Nat.not_lt.1 fun hpr => h.last r hpr hdeclared hsight
  have hlookup := lookup_eq_some hstays hlast
  rw [ordinal_take (Nat.le_of_lt h.inSight.1)] at hlookup
  rw [Walk.getElem?_relabel, h.used, Option.map_some, Walk.renamed, resolve, hlookup,
    Option.getD_some]

theorem getElem?_relabel_of_isGlobal (h : Mark.IsGlobal marks name q) :
    (Walk.relabel {} marks)[q]? = some (.use name) := by
  have hlookup : ((Walk.after {} (marks.take q)).scope 0).lookup name = none :=
    lookup_eq_none fun p hp => h.undeclared p (stays_take_iff.1 hp).1 (stays_take_iff.1 hp).2
  rw [Walk.getElem?_relabel, h.used, Option.map_some, Walk.renamed, resolve, hlookup,
    Option.getD_none]

/-- A use still refers to its declaration: all others have other names. -/
theorem refers_relabel (h : Mark.Refers marks name p q) :
    Mark.Refers (Walk.relabel {} marks) (inventedName (Mark.ordinal marks p)) p q where
  declared := getElem?_relabel_declare_iff.2 ⟨rfl, name, h.declared⟩
  used := getElem?_relabel_of_refers h
  inSight := Walk.inSight_relabel_iff.2 h.inSight
  last := by
    intro r hpr hr
    obtain ⟨hsame, -⟩ := getElem?_relabel_declare_iff.1 hr
    exact absurd (inventedName_injective hsame) (Nat.ne_of_lt (ordinal_lt_ordinal h.declared hpr))

/-- A global use stays one if its name could not be an invented one. -/
theorem isGlobal_relabel (h : Mark.IsGlobal marks name q) (hname : isInvented name = false) :
    Mark.IsGlobal (Walk.relabel {} marks) name q where
  used := getElem?_relabel_of_isGlobal h
  undeclared := by
    intro p hp
    obtain ⟨hsame, -⟩ := getElem?_relabel_declare_iff.1 hp
    rw [hsame, isInvented_inventedName] at hname
    exact absurd hname Bool.noConfusion

end

end Rename

open Rename in
/-- Renaming counts the declarations and names each after its number; it changes nothing but
    names. If no global name looks like an invented one, then every use refers to the same
    declaration as before, and the global ones are left alone and stay global. -/
theorem rename_keeps_references (block : Block) :
    (rename block).2 = block.marks.countP Mark.isDeclaration ∧
    (∀ (p : Nat) (name : String), block.marks[p]? = some (.declare name) →
      (rename block).1.marks[p]? =
        some (.declare (inventedName (Mark.ordinal block.marks p)))) ∧
    ((rename block).1.marks.filter Mark.isDeclaration).Nodup ∧
    nameless.onBlock (rename block).1 = nameless.onBlock block ∧
    ((∀ q name, Mark.IsGlobal block.marks name q → isInvented name = false) →
      (∀ p q name, Mark.Refers block.marks name p q →
        Mark.Refers (rename block).1.marks (inventedName (Mark.ordinal block.marks p)) p q) ∧
      ∀ q name, Mark.IsGlobal block.marks name q →
        Mark.IsGlobal (rename block).1.marks name q) := by
  have hnameless := (walks_onStmts [] [] block 0).2
  refine ⟨count_rename block, ?_, ?_, hnameless, ?_⟩
  · intro p name h
    rw [relabel_marks]
    exact getElem?_relabel_declare_iff.2 ⟨rfl, name, h⟩
  · rw [relabel_marks, filter_relabel]
    refine List.Nodup.map ?_ List.nodup_range'
    -- The declarations are numbered one after the other, and each number gives another name.
    exact fun i j h => inventedName_injective (Mark.declare.inj h)
  · intro hglobals
    rw [relabel_marks]
    exact ⟨fun p q name h => refers_relabel h,
      fun q name h => isGlobal_relabel h (hglobals q name h)⟩

/-- A local of a loop that hides one around it, whose own value is a global of that name. -/
def shadowing : Block :=
  [.localVars ["x"] [.name "x"], .repeatLoop [.localVars ["x"] [.name "x"]] (.name "x")]

open Rename in
theorem rename_keeps_references_shadowing :
    Mark.IsGlobal (rename shadowing).1.marks "x" 1 ∧
      Mark.Refers (rename shadowing).1.marks "_L0" 2 6 ∧
      Mark.Refers (rename shadowing).1.marks "_L1" 7 8 := by
  have hglobals : ∀ q name, Mark.IsGlobal shadowing.marks name q → isInvented name = false := by
    intro q name h
    have hmem : Mark.use name ∈ shadowing.marks := List.mem_of_getElem? h.used
    have hname : name = "x" := by simpa [shadowing, Block.marks, Mark.ofStmts, Mark.ofStmt,
      Mark.ofExprs, Mark.ofExpr, Mark.enclosed] using hmem
    rw [hname]
    decide
  have hlast : ∀ p q, p = 2 ∧ q = 6 ∨ p = 7 ∧ q = 8 → ∀ r < shadowing.marks.length, p < r →
      shadowing.marks[r]? = some (.declare "x") → ¬ Mark.InSight shadowing.marks r q := by
    rintro p q (⟨rfl, rfl⟩ | ⟨rfl, rfl⟩) <;> decide
  have hundeclared : ∀ r < shadowing.marks.length,
      shadowing.marks[r]? = some (.declare "x") → ¬ Mark.InSight shadowing.marks r 1 := by
    decide
  have hlt : ∀ {r : Nat}, shadowing.marks[r]? = some (.declare "x") →
      r < shadowing.marks.length := fun h => (List.getElem?_eq_some_iff.1 h).1
  obtain ⟨-, -, -, -, h⟩ := rename_keeps_references shadowing
  obtain ⟨hrefers, hglobal⟩ := h hglobals
  exact ⟨hglobal 1 "x" ⟨rfl, fun r hr => hundeclared r (hlt hr) hr⟩,
    hrefers 2 6 "x" ⟨rfl, rfl, by decide, fun r hpr hr => hlast 2 6 (by simp) r (hlt hr) hpr hr⟩,
    hrefers 7 8 "x" ⟨rfl, rfl, by decide, fun r hpr hr => hlast 7 8 (by simp) r (hlt hr) hpr hr⟩⟩

end LuaUnpack.Script
