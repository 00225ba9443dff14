import LuaUnpack.Proofs.Handler.Convergence
import LuaUnpack.Proofs.Handler.WindowWrites

/-!
# A pass over a window without branches

In a window without branches a pass takes each statement on its own: it puts the first values of
helpers in the places of some reads of them, makes a declaration of the assignment that binds a
helper first (`Restates`), and then drops declarations that nobody reads (`Passed`). Which values
can be put in the place of a read depends on where it stands (`Place.takes`). What is read and bound
after a pass can be told from what was read and bound before.
-/

namespace LuaUnpack.Handler.Simplify

open LuaUnpack.Lua LuaUnpack.Script Summary

/-! ## Places -/

/-- The places in which a name can be read. -/
inductive Place where
  /-- A place in which the name stays. -/
  | kept
  /-- The table of a slot with a key. -/
  | table
  /-- The key of a slot, or an operand of a binary operator. -/
  | operand
  /-- What is assigned to a slot with a key. -/
  | slotValue
  /-- What is assigned to a variable. -/
  | nameValue
deriving DecidableEq

/-- Whether a pass can put a value in a place. -/
def Place.takes : Place → Expr → Bool
  | kept, _ => false
  | table, v => v.isAnyName
  | operand, v => v.isAnyName || isElement v
  | slotValue, v => isElement v
  | nameValue, v => isBinary v

/-- The names that an expression in a place reads, with their places. -/
def placesOf : Place → Expr → List (String × Place)
  | p, .name n => [(n, p)]
  | _, .member t _ => placesOf .kept t
  | _, .index t k => placesOf .table t ++ placesOf .operand k
  | _, .binary _ l r => placesOf .operand l ++ placesOf .operand r
  | _, _ => []

/-- The names that a statement reads, with their places. -/
def places : Stmt → List (String × Place)
  | .localVars _ values => values.flatMap (placesOf .kept)
  | .assign [.name _] [e] => placesOf .nameValue e
  | .assign [.member t _] [e] => placesOf .kept t ++ placesOf .kept e
  | .assign [.index t k] [e] => placesOf .table t ++ placesOf .operand k ++ placesOf .slotValue e
  | _ => []

section

variable {p q : Place} {e : Expr} {s : Stmt} {n : String}

theorem map_fst_placesOf : ∀ {e : Expr}, IsPure e → ∀ p : Place,
    (placesOf p e).map (·.1) = (ofExpr e).reads
  | .nil, _, _ | .boolean _, _, _ | .number _, _, _ | .string _, _, _ | .name _, _, _ => rfl
  | .member t _, h, _ => map_fst_placesOf (e := t) h .kept
  | .index t k, h, _ => by
    rw [placesOf, List.map_append, map_fst_placesOf h.1, map_fst_placesOf h.2, reads_index]
  | .binary _ l r, h, _ => by
    rw [placesOf, List.map_append, map_fst_placesOf h.1, map_fst_placesOf h.2, reads_binary]

theorem map_fst_places (h : IsStraight s) : (places s).map (·.1) = (ofStmt s).reads := by
  cases h with
  | @declare names values h =>
    rw [reads_localVars, places]
    induction values with
    | nil => rfl
    | cons e values ih =>
      obtain ⟨he, hvalues⟩ := List.forall_mem_cons.1 h
      rw [List.flatMap_cons, List.map_append, map_fst_placesOf he, ih hvalues, ofExprs, reads_add]
  | name m h => rw [reads_name, places, map_fst_placesOf h]
  | member k ht h =>
    rw [reads_slot rfl, places, List.map_append, map_fst_placesOf ht, map_fst_placesOf h]
    rfl
  | index ht hk h =>
    rw [reads_slot rfl, places, List.map_append, List.map_append, map_fst_placesOf ht,
      map_fst_placesOf hk, map_fst_placesOf h, reads_index]

theorem mem_reads_of_mem_placesOf (he : IsPure e) (h : (n, p) ∈ placesOf q e) :
    n ∈ (ofExpr e).reads := by
  rw [← map_fst_placesOf he q]
  exact List.mem_map_of_mem (f := Prod.fst) h

theorem exists_mem_placesOf (he : IsPure e) (h : n ∈ (ofExpr e).reads) (q : Place) :
    ∃ p, (n, p) ∈ placesOf q e := by
  rw [← map_fst_placesOf he q, List.mem_map] at h
  obtain ⟨⟨n, p⟩, hmem, rfl⟩ := h
  exact ⟨p, hmem⟩

theorem mem_reads_of_mem_places (hs : IsStraight s) (h : (n, p) ∈ places s) :
    n ∈ (ofStmt s).reads := by
  rw [← map_fst_places hs]
  exact List.mem_map_of_mem (f := Prod.fst) h

end

/-! ## Expressions -/

/-- Whether a pass puts a value in the place of a read of a name. -/
structure Puts (T : SymbolTable) (p : Place) (n : String) (v : Expr) : Prop where
  takes : p.takes v = true
  passes : Passes T [n] n v

/-- Whether some reads of names in an expression in a place are replaced by values that are put
    there. -/
inductive Inlines (T : SymbolTable) : Place → Expr → Expr → Prop
  | same (p : Place) (e : Expr) : Inlines T p e e
  | put {p : Place} {n : String} {v : Expr} (h : Puts T p n v) : Inlines T p (.name n) v
  | member (p : Place) {t t' : Expr} (k : String) (h : Inlines T .kept t t') :
    Inlines T p (.member t k) (.member t' k)
  | index (p : Place) {t t' k k' : Expr} (ht : Inlines T .table t t')
    (hk : Inlines T .operand k k') : Inlines T p (.index t k) (.index t' k')
  | binary (p : Place) (op : BinaryOp) {l l' r r' : Expr} (hl : Inlines T .operand l l')
    (hr : Inlines T .operand r r') : Inlines T p (.binary op l r) (.binary op l' r')

section

variable {T : SymbolTable} {p : Place} {e e' t t' k k' : Expr}

/-- What is replaced where the name itself is kept is replaced in every place. -/
theorem Inlines.of_kept (h : Inlines T .kept e e') (p : Place) : Inlines T p e e' := by
  cases h with
  | same => exact .same p e
  | put h => cases h.takes
  | member _ k h => exact .member p k h
  | index _ ht hk => exact .index p ht hk
  | binary _ op hl hr => exact .binary p op hl hr

theorem Inlines.eq_of_isAnyName (h : Inlines T .kept e e') (hname : e'.isAnyName = true) :
    e' = e := by
  cases h with
  | same => rfl
  | put h => cases h.takes
  | member | index | binary => cases hname

/-- Whether values are found for names only, and are put in a place. -/
def IsPutAt (T : SymbolTable) (p : Place) (value? : Expr → Option Expr) : Prop :=
  ∀ e v, value? e = some v → ∃ n, e = .name n ∧ Puts T p n v

theorem isPutAt_nameValue? (hp : ∀ m, p.takes (.name m) = true) :
    IsPutAt T p (nameValue? T) := by
  intro e v h
  obtain ⟨n, m, -, rfl, rfl, -⟩ := exists_of_nameValue? h
  exact ⟨n, rfl, hp m, .name h List.mem_cons_self⟩

theorem isPutAt_elementValue? (hp : ∀ t k, p.takes (.index (.name t) (.name k)) = true) :
    IsPutAt T p (elementValue? T) := by
  intro e v h
  obtain ⟨n, t, k, -, rfl, rfl, -⟩ := exists_of_elementValue? h
  exact ⟨n, rfl, hp t k, .element h⟩

theorem isPutAt_binaryValue? : IsPutAt T .nameValue (binaryValue? T) := by
  intro e v h
  obtain ⟨n, op, l, r, -, rfl, rfl, -⟩ := exists_of_binaryValue? h
  exact ⟨n, rfl, rfl, .result h⟩

theorem Inlines.replaced (h : Inlines T .kept e e') {value? : Expr → Option Expr}
    (hvalue : IsPutAt T p value?) : Inlines T p e (Simplify.replaced value? e') := by
  rw [Simplify.replaced]
  cases hv : value? e' with
  | none => exact h.of_kept p
  | some v =>
    obtain ⟨n, rfl, hputs⟩ := hvalue e' v hv
    obtain rfl := h.eq_of_isAnyName rfl
    exact .put hputs

theorem inlines_index (ht : Inlines T .kept t t') (hk : Inlines T .kept k k') (m : Progress) :
    Inlines T .kept (.index t k) ((onExpr T (.index t' k')).run m).1 := by
  by_cases hnames : nameValue? T t' = none ∧ nameValue? T k' = none
  · rw [run_index hnames.1 hnames.2]
    exact .index _ (ht.of_kept _) (hk.replaced (isPutAt_elementValue? fun _ _ => rfl))
  · rw [run_index_names hnames]
    exact .index _ (ht.replaced (isPutAt_nameValue? fun _ => rfl))
      (hk.replaced (isPutAt_nameValue? fun _ => rfl))

theorem inlines_binary (op : BinaryOp) (ht : Inlines T .kept t t') (hk : Inlines T .kept k k')
    (m : Progress) : Inlines T .kept (.binary op t k) ((onExpr T (.binary op t' k')).run m).1 := by
  -- names are put only if neither operand is an element
  by_cases helements : elementValue? T t' = none ∧ elementValue? T k' = none
  · by_cases hnames : nameValue? T t' = none ∧ nameValue? T k' = none
    · rw [run_binary op helements.1 helements.2 hnames.1 hnames.2]
      exact .binary _ op (ht.of_kept _) (hk.of_kept _)
    · rw [run_binary_names op helements.1 helements.2 hnames]
      exact .binary _ op (ht.replaced (isPutAt_nameValue? fun _ => rfl))
        (hk.replaced (isPutAt_nameValue? fun _ => rfl))
  · rw [run_binary_elements op helements]
    exact .binary _ op (ht.replaced (isPutAt_elementValue? fun _ _ => rfl))
      (hk.replaced (isPutAt_elementValue? fun _ _ => rfl))

theorem inlines_onExpr : ∀ {e : Expr}, IsPure e → ∀ m : Progress,
    Inlines T .kept e (((mapper T).onExpr e).run m).1
  | .nil, _, _ | .boolean _, _, _ | .number _, _, _ | .string _, _, _ | .name _, _, _ => .same _ _
  | .member t k, h, m => .member _ k (inlines_onExpr (e := t) h m)
  | .index _ _, h, m => inlines_index (inlines_onExpr h.1 m) (inlines_onExpr h.2 _) _
  | .binary op _ _, h, m => inlines_binary op (inlines_onExpr h.1 m) (inlines_onExpr h.2 _) _

theorem inlines_onExprs {es : List Expr} (h : ∀ e ∈ es, IsPure e) (m : Progress) :
    List.Forall₂ (Inlines T .kept) es (((mapper T).onExprs es).run m).1 := by
  induction es generalizing m with
  | nil => exact .nil
  | cons e es ih =>
    obtain ⟨he, hes⟩ := List.forall_mem_cons.1 h
    exact .cons (inlines_onExpr he m) (ih hes _)

end

/-! ## Statements -/

/-- Whether a pass makes a statement of another one. -/
inductive Restates (T : SymbolTable) : Stmt → Stmt → Prop
  | declare (names : List String) {values values' : List Expr}
    (h : List.Forall₂ (Inlines T .kept) values values') :
    Restates T (.localVars names values) (.localVars names values')
  | name (n : String) {e e' : Expr} (h : Inlines T .nameValue e e') :
    Restates T (.assign [.name n] [e]) (.assign [.name n] [e'])
  | localize {n : String} (hn : isInvented n = true) {e e' : Expr} (h : Inlines T .kept e e') :
    Restates T (.assign [.name n] [e]) (.localVars [n] [e'])
  | member {t t' : Expr} (k : String) {e e' : Expr} (ht : Inlines T .kept t t')
    (h : Inlines T .kept e e') :
    Restates T (.assign [.member t k] [e]) (.assign [.member t' k] [e'])
  | index {t t' k k' e e' : Expr} (ht : Inlines T .table t t') (hk : Inlines T .operand k k')
    (h : Inlines T .slotValue e e') :
    Restates T (.assign [.index t k] [e]) (.assign [.index t' k'] [e'])

section

variable {T : SymbolTable} {s s' : Stmt}

/-- An assignment to a table slot is not taken for a declaration. -/
theorem all_isDeclaredBy_eq_false {target : Expr} (h : target.isAnyName = false) (ordinal : Nat) :
    [target].all (isDeclaredBy T ordinal) = false := by
  cases target with
  | name => cases h
  | _ => rfl

theorem restates_name {n : String} {e e' : Expr} (h : Inlines T .kept e e') (ordinal : Nat)
    (m : Progress) :
    Restates T (.assign [.name n] [e]) ((onStmt T ordinal (.assign [.name n] [e'])).run m).1 := by
  cases hall : [Expr.name n].all (isDeclaredBy T ordinal) with
  | true =>
    rw [run_assign_localize hall]
    rw [List.all_cons, Bool.and_eq_true, isDeclaredBy, Bool.and_eq_true] at hall
    exact .localize hall.1.1 h
  | false =>
    rcases run_assign _ _ hall m with hrun | ⟨t, k, y, htargets, -⟩ | ⟨x, y, -, hvalues, -, hrun⟩
    · rw [hrun]
      exact .name n (h.of_kept _)
    · cases htargets
    · cases hvalues
      rw [hrun]
      exact .name n (h.replaced isPutAt_binaryValue?)

theorem restates_member {t t' e e' : Expr} {k : String} (ht : Inlines T .kept t t')
    (h : Inlines T .kept e e') (ordinal : Nat) (m : Progress) :
    Restates T (.assign [.member t k] [e])
      ((onStmt T ordinal (.assign [.member t' k] [e'])).run m).1 := by
  have hname : (Expr.member t' k).isAnyName = false := rfl
  have hall := all_isDeclaredBy_eq_false (T := T) hname ordinal
  rcases run_assign _ _ hall m with hrun | ⟨_, _, _, htargets, -⟩ | ⟨_, _, htargets, -⟩
  · rw [hrun]
    exact .member k ht h
  · cases htargets
  · cases htargets

theorem restates_index {t k t' k' e e' : Expr} (ht : Inlines T .table t t')
    (hk : Inlines T .operand k k') (h : Inlines T .kept e e') (ordinal : Nat) (m : Progress) :
    Restates T (.assign [.index t k] [e])
      ((onStmt T ordinal (.assign [.index t' k'] [e'])).run m).1 := by
  have hname : (Expr.index t' k').isAnyName = false := rfl
  have hall := all_isDeclaredBy_eq_false (T := T) hname ordinal
  rcases run_assign _ _ hall m with hrun | ⟨_, _, _, -, hvalues, -, hrun⟩ | ⟨_, _, htargets, -⟩
  · rw [hrun]
    exact .index ht hk (h.of_kept _)
  · cases hvalues
    rw [hrun]
    exact .index ht hk (h.replaced (isPutAt_elementValue? fun _ _ => rfl))
  · cases htargets

theorem restates_onStmt (h : IsStraight s) (m : Progress) :
    Restates T s (((mapper T).onStmt s).run m).1 := by
  cases h with
  | declare names h => exact .declare names (inlines_onExprs h _)
  | name n h => exact restates_name (inlines_onExpr h _) m.ordinal _
  | member k ht h => exact restates_member (inlines_onExpr ht _) (inlines_onExpr h _) m.ordinal _
  | @index t k e ht hk h =>
    have hrestates {target : Expr} (htarget : Inlines T .kept (.index t k) target) (m' : Progress) :
        Restates T (.assign [.index t k] [e])
          ((onStmt T m.ordinal (.assign [target] [(((mapper T).onExpr e).run m').1])).run
            (((mapper T).onExpr e).run m').2).1 := by
      cases htarget with
      | same => exact restates_index (.same _ t) (.same _ k) (inlines_onExpr h m') _ _
      | index _ ht hk => exact restates_index ht hk (inlines_onExpr h m') _ _
    have htarget : IsPure (.index t k) := ⟨ht, hk⟩
    exact hrestates (inlines_onExpr htarget _) _

end

/-! ## What is read and bound -/

section

variable {T : SymbolTable} {p q : Place} {e e' v : Expr} {s s' : Stmt} {n : String}

/-- Whether a name is read in one of the given places, or in a value that is put in one of them. -/
def PlacedThrough (T : SymbolTable) (old : List (String × Place)) (n : String) (q : Place) :
    Prop :=
  (n, q) ∈ old ∨ ∃ y p v, (y, p) ∈ old ∧ Puts T p y v ∧ (n, q) ∈ placesOf p v

theorem PlacedThrough.mono {old old' : List (String × Place)} (h : PlacedThrough T old n q)
    (hsub : old ⊆ old') : PlacedThrough T old' n q :=
  h.imp (fun hn => hsub hn) fun ⟨y, p, v, hy, hv⟩ => ⟨y, p, v, hsub hy, hv⟩

theorem Inlines.placedThrough (h : Inlines T p e e') (hn : (n, q) ∈ placesOf p e') :
    PlacedThrough T (placesOf p e) n q := by
  induction h with
  | same => exact .inl hn
  | @put p y v h => exact .inr ⟨y, p, v, List.mem_cons_self, h, hn⟩
  | member _ k _ ih => exact ih hn
  | index _ _ _ iht ihk =>
    rw [placesOf, List.mem_append] at hn
    exact hn.elim (fun hn => (iht hn).mono (List.subset_append_left _ _))
      fun hn => (ihk hn).mono (List.subset_append_right _ _)
  | binary _ op _ _ ihl ihr =>
    rw [placesOf, List.mem_append] at hn
    exact hn.elim (fun hn => (ihl hn).mono (List.subset_append_left _ _))
      fun hn => (ihr hn).mono (List.subset_append_right _ _)

/-- A slot is read where one was, or in a value that is put in the place of a name. -/
theorem Inlines.readsSlots (h : Inlines T p e e') (hslots : Simplify.readsSlots e' = true) :
    Simplify.readsSlots e = true ∨
      ∃ y q v, (y, q) ∈ placesOf p e ∧ Puts T q y v ∧ Simplify.readsSlots v = true := by
  induction h with
  | same => exact .inl hslots
  | @put p y v h => exact .inr ⟨y, p, v, List.mem_cons_self, h, hslots⟩
  | member | index => exact .inl rfl
  | binary _ op _ _ ihl ihr =>
    rw [placesOf]
    rw [Simplify.readsSlots, Bool.or_eq_true] at hslots ⊢
    rcases hslots with hslots | hslots
    · exact (ihl hslots).imp .inl fun ⟨y, q, v, hy, hv⟩ =>
        ⟨y, q, v, List.mem_append_left _ hy, hv⟩
    · exact (ihr hslots).imp .inr fun ⟨y, q, v, hy, hv⟩ =>
        ⟨y, q, v, List.mem_append_right _ hy, hv⟩

theorem Inlines.isPure (h : Inlines T p e e') (he : IsPure e)
    (hpasses : ∀ y v, Passes T [y] y v → IsPure v) : IsPure e' := by
  induction h with
  | same => exact he
  | put h => exact hpasses _ _ h.passes
  | member _ k _ ih => exact ih he
  | index _ _ _ iht ihk => exact ⟨iht he.1, ihk he.2⟩
  | binary _ op _ _ ihl ihr => exact ⟨ihl he.1, ihr he.2⟩

theorem placedThrough_flatMap {values values' : List Expr}
    (h : List.Forall₂ (Inlines T .kept) values values')
    (hn : (n, q) ∈ values'.flatMap (placesOf .kept)) :
    PlacedThrough T (values.flatMap (placesOf .kept)) n q := by
  induction h with
  | nil => cases hn
  | cons he _ ih =>
    rw [List.flatMap_cons, List.mem_append] at hn
    rw [List.flatMap_cons]
    exact hn.elim (fun hn => (he.placedThrough hn).mono (List.subset_append_left _ _))
      fun hn => (ih hn).mono (List.subset_append_right _ _)

/-- Only a name that stands alone is in another place if the expression is. -/
theorem mem_placesOf_of_kept (h : (n, q) ∈ placesOf .kept e) (hq : q ≠ .kept) (p : Place) :
    (n, q) ∈ placesOf p e := by
  cases e with
  | name m =>
    cases List.mem_singleton.1 h
    exact absurd rfl hq
  | member | index | binary => exact h
  | _ => cases h

theorem Restates.placedThrough (h : Restates T s s') (hn : (n, q) ∈ places s')
    (hq : q ≠ .kept) : PlacedThrough T (places s) n q := by
  cases h with
  | declare names h => exact placedThrough_flatMap h hn
  | name m h => exact h.placedThrough hn
  | localize hm h =>
    rw [places, List.flatMap_singleton] at hn
    exact (h.of_kept .nameValue).placedThrough (mem_placesOf_of_kept hn hq _)
  | member k ht h =>
    rw [places, List.mem_append] at hn
    exact hn.elim (fun hn => (ht.placedThrough hn).mono (List.subset_append_left _ _))
      fun hn => (h.placedThrough hn).mono (List.subset_append_right _ _)
  | index ht hk h =>
    rw [places, List.mem_append, List.mem_append] at hn
    rcases hn with (hn | hn) | hn
    · exact ((ht.placedThrough hn).mono (List.subset_append_left _ _)).mono
        (List.subset_append_left _ _)
    · exact ((hk.placedThrough hn).mono (List.subset_append_right _ _)).mono
        (List.subset_append_left _ _)
    · exact (h.placedThrough hn).mono (List.subset_append_right _ _)

theorem Restates.isStraight (h : Restates T s s') (hs : IsStraight s)
    (hpasses : ∀ y v, Passes T [y] y v → IsPure v) : IsStraight s' := by
  cases h with
  | @declare names values values' h =>
    cases hs with
    | declare _ hvalues =>
      refine .declare names ?_
      induction h with
      | nil => exact hvalues
      | cons he _ ih =>
        obtain ⟨hpure, hrest⟩ := List.forall_mem_cons.1 hvalues
        exact List.forall_mem_cons.2 ⟨he.isPure hpure hpasses, ih hrest⟩
  | name m h =>
    cases hs with
    | name _ hpure => exact .name m (h.isPure hpure hpasses)
  | @localize m hm e e' h =>
    cases hs with
    | name _ hpure => exact .declare [m] (List.forall_mem_singleton.2 (h.isPure hpure hpasses))
  | member k ht h =>
    cases hs with
    | member _ htarget hpure => exact .member k (ht.isPure htarget hpasses) (h.isPure hpure hpasses)
  | index ht hk h =>
    cases hs with
    | index htarget hkey hpure =>
      exact .index (ht.isPure htarget hpasses) (hk.isPure hkey hpasses) (h.isPure hpure hpasses)

theorem Restates.changesSlots (h : Restates T s s') :
    Simplify.changesSlots s' = Simplify.changesSlots s := by
  cases h <;> rfl

/-- The place of the values that a statement binds names to. -/
def valuePlace : Stmt → Place
  | .assign _ _ => .nameValue
  | _ => .kept

theorem Inlines.of_valuePlace (h : Inlines T (valuePlace s) e e') : Inlines T .nameValue e e' := by
  cases s with
  | assign => exact h
  | _ => exact h.of_kept .nameValue

/-- Whether a binding is restated: of the same name, to a value in which reads are replaced. -/
def Rebinds (T : SymbolTable) (p : Place) (bind bind' : String × Option Expr) : Prop :=
  bind.1 = bind'.1 ∧ Option.Rel (Inlines T p) bind.2 bind'.2

theorem rebinds_bindTo (names : List String) {values values' : List Expr}
    (h : List.Forall₂ (Inlines T p) values values') :
    List.Forall₂ (Rebinds T p) (bindTo (names.map some) values)
      (bindTo (names.map some) values') := by
  induction names generalizing values values' with
  | nil => exact .nil
  | cons m names ih =>
    cases h with
    | nil => exact .cons ⟨rfl, .none⟩ (ih .nil)
    | cons he hrest => exact .cons ⟨rfl, .some he⟩ (ih hrest)

theorem Restates.rebinds (h : Restates T s s') (hs : IsStraight s) (hs' : IsStraight s') :
    List.Forall₂ (Rebinds T (valuePlace s)) (ofStmt s).binds (ofStmt s').binds := by
  cases hs with
  | declare names hvalues =>
    cases h with
    | declare _ h =>
      cases hs' with
      | declare _ hvalues' =>
        rw [binds_localVars names hvalues, binds_localVars names hvalues']
        exact rebinds_bindTo names h
  | name m hvalue =>
    rw [binds_name m hvalue]
    cases h with
    | name _ h =>
      cases hs' with
      | name _ hvalue' =>
        rw [binds_name m hvalue']
        exact .cons ⟨rfl, .some h⟩ .nil
    | localize _ h =>
      cases hs' with
      | declare _ hvalues' =>
        rw [binds_localVars [m] hvalues']
        exact .cons ⟨rfl, .some (h.of_kept _)⟩ .nil
  | member k htarget hvalue =>
    cases h with
    | member _ ht h =>
      cases hs' with
      | member _ htarget' hvalue' =>
        rw [binds_slot (by exact htarget) rfl hvalue, binds_slot (by exact htarget') rfl hvalue']
        exact .nil
  | index htarget hkey hvalue =>
    cases h with
    | index ht hk h =>
      cases hs' with
      | index htarget' hkey' hvalue' =>
        rw [binds_slot (by exact ⟨htarget, hkey⟩) rfl hvalue,
          binds_slot (by exact ⟨htarget', hkey'⟩) rfl hvalue']
        exact .nil

/-- A name is bound to the same values, in which reads are replaced. -/
theorem Restates.valuesOf (h : Restates T s s') (hs : IsStraight s) (hs' : IsStraight s')
    (n : String) : List.Forall₂ (Option.Rel (Inlines T (valuePlace s)))
      (Simplify.valuesOf (ofStmt s).binds n) (Simplify.valuesOf (ofStmt s').binds n) := by
  refine List.rel_filterMap (fun bind bind' hbind => ?_) (h.rebinds hs hs')
  obtain ⟨hname, hvalue⟩ := hbind
  rw [← hname]
  split
  · exact .some hvalue
  · exact .none

theorem Restates.mem_boundNames_iff (h : Restates T s s') (hs : IsStraight s)
    (hs' : IsStraight s') : n ∈ boundNames s' ↔ n ∈ boundNames s := by
  rw [← not_iff_not, ← valuesOf_eq_nil_iff, ← valuesOf_eq_nil_iff, ← List.length_eq_zero_iff,
    ← List.length_eq_zero_iff, (h.valuesOf hs hs' n).length_eq]

end

/-! ## Windows -/

/-- Whether a pass makes a window of another one: it restates each statement, and drops
    declarations that are not used. -/
inductive Passed (T : SymbolTable) : Block → Block → Prop
  | nil : Passed T [] []
  | keep {s s' : Stmt} {ss ss' : Block} (h : Restates T s s') (hused : isUnused T s' = false)
    (hrest : Passed T ss ss') : Passed T (s :: ss) (s' :: ss')
  | drop {s s' : Stmt} {ss ss' : Block} (h : Restates T s s') (hunused : isUnused T s' = true)
    (hrest : Passed T ss ss') : Passed T (s :: ss) ss'

theorem run_onBlock_fst (T : SymbolTable) (ss : Block) (m : Progress) :
    ((onBlock T ss).run m).1 = ss.filter fun s => !isUnused T s := by
  rw [onBlock]
  split <;> rfl

theorem passed_filter {T : SymbolTable} {ss ss' : Block} (h : List.Forall₂ (Restates T) ss ss') :
    Passed T ss (ss'.filter fun s => !isUnused T s) := by
  induction h with
  | nil => exact .nil
  | @cons s s' ss ss' hs _ ih =>
    rw [List.filter_cons]
    cases hunused : isUnused T s' with
    | true => exact .drop hs hunused ih
    | false => exact .keep hs hunused ih

theorem restates_onStmts {T : SymbolTable} {ss : Block} (h : ∀ s ∈ ss, IsStraight s)
    (m : Progress) : List.Forall₂ (Restates T) ss (((mapper T).onStmts ss).run m).1 := by
  induction ss generalizing m with
  | nil => exact .nil
  | cons s ss ih =>
    obtain ⟨hs, hss⟩ := List.forall_mem_cons.1 h
    exact .cons (restates_onStmt hs m) (ih hss _)

section

variable {T : SymbolTable} {ss ss' : Block} {s' : Stmt}

/-- What a pass makes of two parts. -/
theorem Passed.of_append {left right : Block} (h : Passed T (left ++ right) ss') :
    ∃ left' right', ss' = left' ++ right' ∧ Passed T left left' ∧ Passed T right right' := by
  induction left generalizing ss' with
  | nil => exact ⟨[], ss', rfl, .nil, h⟩
  | cons s left ih =>
    cases h with
    | keep hs hused hrest =>
      obtain ⟨left', right', rfl, hleft, hright⟩ := ih hrest
      exact ⟨_ :: left', right', rfl, .keep hs hused hleft, hright⟩
    | drop hs hunused hrest =>
      obtain ⟨left', right', rfl, hleft, hright⟩ := ih hrest
      exact ⟨left', right', rfl, .drop hs hunused hleft, hright⟩

/-- Where a kept statement comes from. -/
theorem Passed.exists_of_append {left' right' : Block} (h : Passed T ss (left' ++ s' :: right')) :
    ∃ left s right, ss = left ++ s :: right ∧ Passed T left left' ∧ Restates T s s' ∧
      isUnused T s' = false := by
  generalize hsplit : left' ++ s' :: right' = ss' at h
  induction h generalizing left' with
  | nil => cases List.append_ne_nil_of_right_ne_nil _ (List.cons_ne_nil _ _) hsplit
  | @keep t t' ss ss' ht hused hrest ih =>
    cases left' with
    | nil =>
      obtain ⟨rfl, rfl⟩ := List.cons.inj hsplit
      exact ⟨[], t, ss, rfl, .nil, ht, hused⟩
    | cons x left' =>
      rw [List.cons_append, List.cons.injEq] at hsplit
      obtain ⟨rfl, hsplit⟩ := hsplit
      obtain ⟨left, s, right, rfl, hleft, hs⟩ := ih hsplit
      exact ⟨t :: left, s, right, rfl, .keep ht hused hleft, hs⟩
  | @drop t t' ss ss' ht hunused hrest ih =>
    obtain ⟨left, s, right, rfl, hleft, hs⟩ := ih hsplit
    exact ⟨t :: left, s, right, rfl, .drop ht hunused hleft, hs⟩

theorem Passed.exists_of_mem (h : Passed T ss ss') (hs : s' ∈ ss') :
    ∃ s ∈ ss, Restates T s s' ∧ isUnused T s' = false := by
  obtain ⟨left', right', rfl⟩ := List.append_of_mem hs
  obtain ⟨left, s, right, rfl, -, hs, hused⟩ := h.exists_of_append
  exact ⟨s, List.mem_append_right left List.mem_cons_self, hs, hused⟩

end

/-- What a pass does with a window without branches. -/
theorem passed_pass {b : Block} (h : ∀ s ∈ b, IsStraight s) :
    Passed (SymbolTable.ofBlock b) b (pass b).1 := by
  have hpass : (pass b).1 = _ := run_onBlock_fst (SymbolTable.ofBlock b) _ _
  rw [hpass]
  exact passed_filter (restates_onStmts h _)

end LuaUnpack.Handler.Simplify
