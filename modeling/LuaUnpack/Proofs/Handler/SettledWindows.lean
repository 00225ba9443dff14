import LuaUnpack.Proofs.Handler.StraightPass

/-!
# Windows in which helpers pass on their current values

A pass puts the first value of a helper in the place of a read of it. That value is still the one
of the helper if nothing was bound or assigned since by which either of them changes (`IsCurrent`).
A window is settled if this holds wherever a helper is read in a place that takes its value, in a
statement or in a value that may be put there (`Needs`). Settled windows stay settled
(`IsSettled.of_passed`), so it is enough to look at a window before the first pass.
-/

namespace LuaUnpack.Handler.Simplify

open LuaUnpack.Lua LuaUnpack.Script Summary

/-! ## Given values -/

/-- The values that a name is given, in order. A declaration without a value gives none, and is
    dropped by a pass. -/
def given (b : Block) (n : String) : List Expr := (valuesOf (ofStmts b).binds n).filterMap id

theorem ofStmts_append (left right : Block) :
    ofStmts (left ++ right) = ofStmts left + ofStmts right := by
  induction left with
  | nil => exact (zero_add _).symm
  | cons s left ih => rw [List.cons_append, ofStmts, ofStmts, ih, add_assoc]

theorem given_append (left right : Block) (n : String) :
    given (left ++ right) n = given left n ++ given right n := by
  rw [given, ofStmts_append, binds_add, valuesOf_append, List.filterMap_append]
  rfl

theorem given_cons (s : Stmt) (rest : Block) (n : String) :
    given (s :: rest) n = (valuesOf (ofStmt s).binds n).filterMap id ++ given rest n := by
  rw [given, ofStmts, binds_add, valuesOf_append, List.filterMap_append]
  rfl

theorem mem_binds_of_mem_given {b : Block} {n : String} {v : Expr} (h : v ∈ given b n) :
    (n, some v) ∈ (ofStmts b).binds := by
  obtain ⟨w, hw, rfl⟩ := List.mem_filterMap.1 h
  exact mem_valuesOf_iff.1 hw

theorem exists_valuesOf_of_firstValue {binds : List (String × Option Expr)} {n : String} {v : Expr}
    (h : firstValue binds n = some v) : ∃ rest, valuesOf binds n = some v :: rest := by
  induction binds with
  | nil => cases h
  | cons bind binds ih =>
    rw [firstValue, List.find?_cons] at h
    rw [valuesOf, List.filterMap_cons]
    by_cases hn : bind.1 = n
    · rw [beq_iff_eq.2 hn] at h
      change bind.2 = some v at h
      rw [if_pos hn, h]
      exact ⟨_, rfl⟩
    · rw [beq_eq_false_iff_ne.2 hn] at h
      rw [if_neg hn]
      exact ih h

/-- How often a name is bound after the first time. -/
theorem assignments_ofBlock {b : Block} {n : String} {info : SymbolInfo}
    (h : (SymbolTable.ofBlock b).get? n = some info) :
    info.assignments = (valuesOf (ofStmts b).binds n).length - 1 := by
  have hvalues (uses : List Use) : (valuesOf (uses.filterMap boundPair?) n).length =
      (uses.filterMap (Use.binding? n)).length := by
    induction uses with
    | nil => rfl
    | cons use uses ih =>
      cases use with
      | read m => exact ih
      | bind m value ordinal =>
        rw [List.filterMap_cons, List.filterMap_cons, boundPair?, Use.binding?, valuesOf,
          List.filterMap_cons]
        by_cases hm : m = n
        · rw [if_pos hm, if_pos (beq_iff_eq.2 hm)]
          exact congrArg Nat.succ ih
        · rw [if_neg hm, if_neg fun h => hm (beq_iff_eq.1 h)]
          exact ih
  rw [SymbolTable.get?] at h
  split at h
  · cases h
    rw [← (tells_block b).binds, hvalues]
  · cases h

/-! ## Settled windows -/

/-- Whether passes may put a value in the place of a name: the first one that the name is given,
    and the only one if it is the result of an operator. -/
structure MayPass (b : Block) (n : String) (e : Expr) : Prop where
  invented : isInvented n = true
  given : ∃ rest, given b n = e :: rest ∧ (isBinary e = true → rest = [])

/-- Whether passes may put in a place a value, or what a pass makes of the value: it puts a result
    in the place of the name of a helper that is assigned to a variable. -/
def Place.mayTake : Place → Expr → Bool
  | nameValue, .name n => isInvented n
  | p, v => p.takes v

/-- Whether a statement reads a name in a place, or may read it there after passes. -/
inductive Needs (b : Block) (s : Stmt) : String → Place → Prop
  | read {n : String} {p : Place} (h : (n, p) ∈ places s) : Needs b s n p
  | value {y n : String} {p q : Place} {e : Expr} (hy : Needs b s y p) (he : MayPass b y e)
    (htakes : p.mayTake e = true) (hn : (n, q) ∈ placesOf p e) : Needs b s n q

/-- Whether a name was given a value, for the first time, and nothing was done since by which the
    name or the value changes. -/
def IsCurrent (pre : Block) (n : String) (e : Expr) : Prop :=
  ∃ before s mid, pre = before ++ s :: mid ∧ given before n = [] ∧ Binds s n e ∧
    (∀ t ∈ mid, n ∉ boundNames t) ∧ ∀ t ∈ s :: mid, Keeps t e

/-- Whether a name was declared without a value, and not bound since. -/
def IsForgotten (pre : Block) (n : String) : Prop :=
  ∃ before names mid, pre = before ++ .localVars names [] :: mid ∧ n ∈ names ∧
    ∀ t ∈ mid, n ∉ boundNames t

/-- Whether helpers have the values that may be put in their places where this happens, and no
    name is read that has no value since it was declared. -/
structure IsSettled (b : Block) : Prop where
  current : ∀ {pre s post}, b = pre ++ s :: post → ∀ {n p e}, Needs b s n p → MayPass b n e →
    p.mayTake e = true → IsCurrent pre n e
  known : ∀ {pre s post}, b = pre ++ s :: post → ∀ n ∈ (ofStmt s).reads, ¬ IsForgotten pre n

/-- What a statement needs is among names that are closed under values that may be put. -/
theorem Needs.mem {b : Block} {s : Stmt} {n : String} {p : Place} (h : Needs b s n p)
    (names : List (String × Place)) (hplaces : places s ⊆ names)
    (hclosed : ∀ y p e, (y, p) ∈ names → MayPass b y e → p.mayTake e = true →
      placesOf p e ⊆ names) : (n, p) ∈ names := by
  induction h with
  | read h => exact hplaces h
  | value _ he htakes hn ih => exact hclosed _ _ _ ih he htakes hn

theorem exists_of_append_eq {α : Type} {before l a c : List α} {x : α}
    (h : before ++ l = a ++ x :: c) (hx : x ∉ l) : ∃ c', before = a ++ x :: c' ∧ c = c' ++ l := by
  rcases List.append_eq_append_iff.1 h with ⟨as, -, hl⟩ | ⟨bs, hbefore, hc⟩
  · exact absurd (hl ▸ List.mem_append_right as List.mem_cons_self) hx
  · cases bs with
    | nil => exact absurd (show x ∈ [] ++ l from hc ▸ List.mem_cons_self) hx
    | cons y bs =>
      rw [List.cons_append, List.cons.injEq] at hc
      obtain ⟨rfl, hc⟩ := hc
      exact ⟨bs, hbefore, hc⟩

theorem Binds.mem_boundNames {s : Stmt} {n : String} {e : Expr} (h : Binds s n e) :
    n ∈ boundNames s := by
  by_contra hn
  cases h.symm.trans (valuesOf_eq_nil_iff.2 hn)

theorem given_of_binds {before rest : Block} {s : Stmt} {n : String} {v : Expr}
    (hbefore : given before n = []) (h : Binds s n v) :
    given (before ++ s :: rest) n = v :: given rest n := by
  rw [given_append, hbefore, given_cons, h]
  rfl

/-- A current value that stays the same name by name is kept as a whole. -/
theorem IsCurrent.keeps {before l : Block} {n : String} {e : Expr}
    (h : IsCurrent (before ++ l) n e) (hn : ∀ t ∈ l, n ∉ boundNames t) : ∀ t ∈ l, Keeps t e := by
  obtain ⟨a, s, mid, hsplit, -, hbinds, -, hkeeps⟩ := h
  -- the binding is not in the last part, so all of this part stands after it
  obtain ⟨c, -, rfl⟩ := exists_of_append_eq hsplit fun hs => hn s hs hbinds.mem_boundNames
  exact fun t ht => hkeeps t (List.mem_cons_of_mem s (List.mem_append_right c ht))

/-! ## What a pass leaves of given values -/

section

variable {T : SymbolTable} {s s' : Stmt} {ss ss' : Block} {n : String} {p : Place} {e e' v : Expr}

/-- The values that are given, of which reads are replaced. -/
theorem forall₂_filterMap_id {values values' : List (Option Expr)}
    (h : List.Forall₂ (Option.Rel (Inlines T (valuePlace s))) values values') :
    List.Forall₂ (Inlines T .nameValue) (values.filterMap id) (values'.filterMap id) := by
  refine List.rel_filterMap (fun v v' hv => ?_) h
  cases hv with
  | none => exact .none
  | some hv => exact .some hv.of_valuePlace

/-- A statement that is dropped declares names without a value, or names that nobody reads. -/
theorem IsStraight.of_isUnused (hs : IsStraight s) (hunused : isUnused T s = true) :
    (∃ names, s = .localVars names []) ∨ ∀ n ∈ boundNames s, T.reads n = 0 := by
  cases hs with
  | @declare names values hvalues =>
    rw [isUnused, Bool.or_eq_true] at hunused
    rcases hunused with hempty | hunread
    · obtain rfl := List.isEmpty_iff.1 hempty
      exact .inl ⟨names, rfl⟩
    · rw [boundNames_localVars names hvalues]
      exact .inr fun n hn => beq_iff_eq.1 (List.all_eq_true.1 hunread n hn)
  | name | member | index => cases hunused

/-- A dropped declaration gives no value to a name that is read. -/
theorem filterMap_id_of_isUnused (hs : IsStraight s) (hunused : isUnused T s = true)
    (hn : T.reads n ≠ 0) : (valuesOf (ofStmt s).binds n).filterMap id = [] := by
  rcases hs.of_isUnused hunused with ⟨names, rfl⟩ | hunread
  · refine List.filterMap_eq_nil_iff.2 fun v hv => ?_
    rw [mem_valuesOf_iff, binds_localVars names fun e he => absurd he List.not_mem_nil] at hv
    cases v with
    | none => rfl
    | some v => exact absurd (mem_of_mem_bindTo hv) List.not_mem_nil
  · rw [valuesOf_eq_nil_iff.2 fun hbound => hn (hunread n hbound)]
    rfl

/-- A name that is read is given the same values, in which reads are replaced. -/
theorem Passed.given (h : Passed T ss ss') (hss : ∀ s ∈ ss, IsStraight s)
    (hpasses : ∀ y v, Passes T [y] y v → IsPure v) (hn : T.reads n ≠ 0) :
    List.Forall₂ (Inlines T .nameValue) (Simplify.given ss n) (Simplify.given ss' n) := by
  induction h with
  | nil => exact .nil
  | keep hs _ _ ih =>
    obtain ⟨hstraight, hrest⟩ := List.forall_mem_cons.1 hss
    rw [given_cons, given_cons]
    exact List.rel_append
      (forall₂_filterMap_id (hs.valuesOf hstraight (hs.isStraight hstraight hpasses) n)) (ih hrest)
  | drop hs hunused _ ih =>
    obtain ⟨hstraight, hrest⟩ := List.forall_mem_cons.1 hss
    have hstraight' := hs.isStraight hstraight hpasses
    have hvalues := forall₂_filterMap_id (hs.valuesOf hstraight hstraight' n)
    rw [filterMap_id_of_isUnused hstraight' hunused hn, List.forall₂_nil_right_iff] at hvalues
    rw [given_cons, hvalues]
    exact ih hrest

/-- A binding of a name that is read is kept. -/
theorem Passed.exists_binds (h : Passed T (s :: ss) ss') (hs : IsStraight s)
    (hpasses : ∀ y v, Passes T [y] y v → IsPure v) (hn : T.reads n ≠ 0) (hbinds : Binds s n e) :
    ∃ s' rest' v, ss' = s' :: rest' ∧ Passed T ss rest' ∧ Restates T s s' ∧ Binds s' n v := by
  -- What is bound stays bound, and to one value as before.
  have hvalues {s' : Stmt} (hrestates : Restates T s s') : ∃ v, Binds s' n v := by
    have hrel := hrestates.valuesOf hs (hrestates.isStraight hs hpasses) n
    rw [hbinds] at hrel
    generalize hvalues : Simplify.valuesOf (ofStmt s').binds n = values' at hrel
    cases hrel with
    | cons hv hnil =>
      cases hv with
      | some _ =>
        cases hnil
        exact ⟨_, hvalues⟩
  cases h with
  | keep hrestates _ hrest =>
    obtain ⟨v, hv⟩ := hvalues hrestates
    exact ⟨_, _, v, rfl, hrest, hrestates, hv⟩
  -- What is dropped binds no name that is read.
  | drop hrestates hunused _ =>
    obtain ⟨v, hv⟩ := hvalues hrestates
    have hnone := filterMap_id_of_isUnused (hrestates.isStraight hs hpasses) hunused hn
    rw [hv] at hnone
    cases hnone

/-- A pass leaves no declaration without a value. -/
theorem Passed.not_isForgotten {pre' post' : Block} (h : Passed T ss (pre' ++ post')) :
    ¬ IsForgotten pre' n := by
  rintro ⟨before, names, mid, rfl, -⟩
  obtain ⟨s, -, -, hused⟩ :=
    h.exists_of_mem (List.mem_append_left _ (List.mem_append_right before List.mem_cons_self))
  cases hused

/-! ### Kinds of values -/

theorem Passes.isInvented {operands : List String} (h : Passes T operands n v) :
    Script.isInvented n = true := by
  cases h with
  | name h =>
    obtain ⟨_, _, _, hn, -, hinvented, -⟩ := exists_of_nameValue? h
    cases hn
    exact hinvented
  | element h =>
    obtain ⟨_, _, _, _, hn, -, hinvented, -⟩ := exists_of_elementValue? h
    cases hn
    exact hinvented
  | result h =>
    obtain ⟨_, _, _, _, _, hn, -, hinvented, -⟩ := exists_of_binaryValue? h
    cases hn
    exact hinvented

theorem Place.mayTake_of_takes (h : p.takes v = true) : p.mayTake v = true := by
  cases p <;> cases v <;> first | exact h | cases h

theorem Place.ne_kept_of_mayTake (h : p.mayTake v = true) : p ≠ .kept := by
  rintro rfl
  cases h

theorem Inlines.isBinary (h : Inlines T p e e') (hbinary : Simplify.isBinary e = true) :
    Simplify.isBinary e' = true := by
  cases h with
  | same => exact hbinary
  | binary => rfl
  | put | member | index => cases hbinary

theorem Inlines.isAnyName (h : Inlines T p e e') (hname : e'.isAnyName = true) :
    e.isAnyName = true := by
  cases h with
  | same => exact hname
  | put => rfl
  | member | index | binary => cases hname

theorem isAnyName_of_isElement {t k : Expr} (h : isElement (.index t k) = true) :
    t.isAnyName = true ∧ k.isAnyName = true := by
  cases t <;> cases k <;> first | exact ⟨rfl, rfl⟩ | cases h

/-- What may be put after a pass, or what it was made of, may be put before it. -/
theorem Inlines.mayTake (h : Inlines T .nameValue e e') (htakes : p.mayTake e' = true) :
    p.mayTake e = true ∧ Inlines T p e e' := by
  cases h with
  | same => exact ⟨htakes, .same p e⟩
  | @put _ n v h =>
    -- the value is a result, and so the place is that of a value of a variable
    obtain ⟨op, l, r, rfl⟩ : ∃ op l r, e' = .binary op l r := by
      have hbinary := h.takes
      cases e' <;> first | exact ⟨_, _, _, rfl⟩ | cases hbinary
    cases p with
    | nameValue => exact ⟨h.passes.isInvented, .put h⟩
    | _ => cases htakes
  | member => cases p <;> cases htakes
  | @index _ t t' k k' ht hk =>
    have helement : isElement (.index t' k') = true := by
      cases p <;> first | exact htakes | cases htakes
    obtain ⟨ht', hk'⟩ := isAnyName_of_isElement helement
    obtain ⟨x, rfl⟩ := exists_name_of_isAnyName (ht.isAnyName ht')
    obtain ⟨y, rfl⟩ := exists_name_of_isAnyName (hk.isAnyName hk')
    refine ⟨?_, .index p ht hk⟩
    cases p <;> first | rfl | cases htakes
  | binary _ op hl hr =>
    refine ⟨?_, .binary p op hl hr⟩
    cases p <;> first | rfl | cases htakes

end

/-! ## What a pass leaves of a settled window -/

section

variable {b b' : Block} {s s' : Stmt} {n : String} {p q : Place} {e e' v : Expr}

theorem mem_reads_of_mem (hs : s ∈ b) (hn : n ∈ (ofStmt s).reads) : n ∈ (ofStmts b).reads := by
  obtain ⟨left, right, rfl⟩ := List.append_of_mem hs
  rw [ofStmts_append, reads_add]
  exact List.mem_append_right _ (List.mem_append_left _ hn)

theorem reads_ne_zero (hn : n ∈ (ofStmts b).reads) : (SymbolTable.ofBlock b).reads n ≠ 0 := by
  rw [SymbolTable.reads, ← count_filterMap_readName?, (tells_block b).reads]
  exact Nat.ne_of_gt (List.count_pos_iff.2 hn)

theorem MayPass.mem_binds (h : MayPass b n e) : (n, some e) ∈ (ofStmts b).binds := by
  obtain ⟨rest, hgiven, -⟩ := h.given
  exact mem_binds_of_mem_given (hgiven ▸ List.mem_cons_self)

theorem MayPass.reads_subset (h : MayPass b n e) : (ofExpr e).reads ⊆ (ofStmts b).reads :=
  (tells_block b).values n e h.mem_binds

theorem mayPass_of_passes (h : Passes (SymbolTable.ofBlock b) [n] n v) : MayPass b n v := by
  obtain ⟨hinvented, hvalue⟩ := firstValue_of_passes h
  obtain ⟨rest, hvalues⟩ := exists_valuesOf_of_firstValue hvalue
  refine ⟨hinvented, rest.filterMap id, ?_, fun hbinary => ?_⟩
  · rw [Simplify.given, hvalues]
    rfl
  · cases h with
    | name | element => cases hbinary
    | result h =>
      obtain ⟨_, _, _, _, info, hn, -, -, hget, -, -, hassignments⟩ := exists_of_binaryValue? h
      cases hn
      rw [assignments_ofBlock hget, hvalues, List.length_cons] at hassignments
      rw [List.length_eq_zero_iff.1 (by omega : rest.length = 0)]
      rfl

theorem IsStraight.isPure_of_mem (h : IsStraight s) (hv : (n, some v) ∈ (ofStmt s).binds) :
    IsPure v := by
  cases h with
  | declare names hvalues =>
    rw [binds_localVars names hvalues] at hv
    exact hvalues v (mem_of_mem_bindTo hv)
  | name m he =>
    rw [binds_name m he] at hv
    cases List.mem_singleton.1 hv
    exact he
  | member k ht he =>
    rw [binds_slot (by exact ht) rfl he] at hv
    cases hv
  | index ht hk he =>
    rw [binds_slot (by exact ⟨ht, hk⟩) rfl he] at hv
    cases hv

theorem MayPass.isPure (h : MayPass b n e) (hb : ∀ s ∈ b, IsStraight s) : IsPure e := by
  have hmem := h.mem_binds
  clear h
  induction b with
  | nil => cases hmem
  | cons s b ih =>
    obtain ⟨hs, hrest⟩ := List.forall_mem_cons.1 hb
    rw [ofStmts, binds_add, List.mem_append] at hmem
    exact hmem.elim hs.isPure_of_mem (ih hrest)

theorem isPure_of_passes (hb : ∀ s ∈ b, IsStraight s) (n : String) (v : Expr)
    (h : Passes (SymbolTable.ofBlock b) [n] n v) : IsPure v :=
  (mayPass_of_passes h).isPure hb

theorem Needs.mem_reads (h : Needs b s n p) (hb : ∀ s ∈ b, IsStraight s) (hs : s ∈ b) :
    n ∈ (ofStmts b).reads := by
  cases h with
  | read hn => exact mem_reads_of_mem hs (mem_reads_of_mem_places (hb s hs) hn)
  | value _ he _ hn => exact he.reads_subset (mem_reads_of_mem_placesOf (he.isPure hb) hn)

/-- A name that is read in what is put in the place of a needed name is needed. -/
theorem needs_of_placedThrough {old : List (String × Place)}
    (h : PlacedThrough (SymbolTable.ofBlock b) old n q)
    (hold : ∀ y p, (y, p) ∈ old → Needs b s y p) : Needs b s n q := by
  rcases h with hn | ⟨y, p, v, hy, hv, hn⟩
  · exact hold n q hn
  · exact .value (hold y p hy) (mayPass_of_passes hv.passes) (Place.mayTake_of_takes hv.takes) hn

theorem Restates.isStraight_of_mem (hs : s ∈ b)
    (hrestates : Restates (SymbolTable.ofBlock b) s s') (hb : ∀ s ∈ b, IsStraight s) :
    IsStraight s' :=
  hrestates.isStraight (hb s hs) (isPure_of_passes hb)

/-- A statement keeps after a pass what it kept before it. -/
theorem Keeps.restates (h : Keeps s e) {T : SymbolTable} (hrestates : Restates T s s')
    (hs : IsStraight s) (hs' : IsStraight s') : Keeps s' e where
  names n hn := by
    rw [hrestates.mem_boundNames_iff hs hs']
    exact h.names n hn
  slots hslots := by
    rw [hrestates.changesSlots]
    exact h.slots hslots

/-- What is kept between a binding and a read of a helper is kept in the value that a pass makes
    of the one that was bound. -/
theorem IsSettled.keeps (h : IsSettled b) (hb : ∀ s ∈ b, IsStraight s) {before mid post : Block}
    (hsplit : b = before ++ mid ++ s :: post) (hneeds : Needs b s n p) (he : MayPass b n e)
    (htakes : p.mayTake e = true) (hkeeps : ∀ t ∈ mid, Keeps t e)
    (hinlines : Inlines (SymbolTable.ofBlock b) p e e') : ∀ t ∈ mid, Keeps t e' := by
  have hpure := he.isPure hb
  -- A value that is put in the place of a name was current there, so it is kept as well.
  have hputs {y : String} {q : Place} {v : Expr} (hy : (y, q) ∈ placesOf p e)
      (hv : Puts (SymbolTable.ofBlock b) q y v) : ∀ t ∈ mid, Keeps t v :=
    (h.current hsplit (.value hneeds he htakes hy) (mayPass_of_passes hv.passes)
      (Place.mayTake_of_takes hv.takes)).keeps
      fun t ht => (hkeeps t ht).names y (mem_reads_of_mem_placesOf hpure hy)
  -- What the new value reads comes from the old one, or from a value that is put in it.
  refine fun t ht => ⟨fun m hm => ?_, fun hslots => ?_⟩
  · obtain ⟨q, hq⟩ := exists_mem_placesOf (hinlines.isPure hpure (isPure_of_passes hb)) hm p
    rcases hinlines.placedThrough hq with hm | ⟨y, q, v, hy, hv, hm⟩
    · exact (hkeeps t ht).names m (mem_reads_of_mem_placesOf hpure hm)
    · exact (hputs hy hv t ht).names m
        (mem_reads_of_mem_placesOf (isPure_of_passes hb y v hv.passes) hm)
  · rcases hinlines.readsSlots hslots with hslots | ⟨y, q, v, hy, hv, hslots⟩
    · exact (hkeeps t ht).slots hslots
    · exact (hputs hy hv t ht).slots hslots

/-- What the value of a helper reads has a value as long as the helper is current. -/
theorem IsSettled.not_isForgotten (h : IsSettled b) {pre post : Block} {y : String}
    (hsplit : b = pre ++ post) (hcurrent : IsCurrent pre y e) (hn : n ∈ (ofExpr e).reads) :
    ¬ IsForgotten pre n := by
  rintro ⟨before, names, mid, hpre, hnames, hmid⟩
  obtain ⟨a, t, c, rfl, -, hbinds, -, hkeeps⟩ := hcurrent
  have hdeclared : boundNames (.localVars names []) = names :=
    boundNames_localVars names fun e he => absurd he List.not_mem_nil
  obtain ⟨c', rfl, rfl⟩ := exists_of_append_eq hpre fun hmem =>
    (hkeeps _ hmem).names n hn (hdeclared.symm ▸ hnames)
  have hread : n ∈ (ofStmt t).reads := by
    refine (tells_ofStmt t 0).values y e (mem_valuesOf_iff.1 ?_) hn
    rw [hbinds]
    exact List.mem_singleton_self _
  refine h.known (hsplit.trans (List.append_assoc _ _ _)) n hread ?_
  exact ⟨before, names, c', rfl, hnames, fun u hu => hmid u (List.mem_append_left _ hu)⟩

variable (hb : ∀ s ∈ b, IsStraight s) (hpassed : Passed (SymbolTable.ofBlock b) b b')

include hb hpassed

theorem MayPass.of_passed (h : MayPass b' n e') (hn : n ∈ (ofStmts b).reads) :
    ∃ e, MayPass b n e ∧ Inlines (SymbolTable.ofBlock b) .nameValue e e' := by
  have hrel := hpassed.given hb (isPure_of_passes hb) (reads_ne_zero hn)
  obtain ⟨rest', hgiven', hlone⟩ := h.given
  rw [hgiven'] at hrel
  obtain ⟨e, rest, hinlines, hrest, hgiven⟩ := List.forall₂_cons_right_iff.1 hrel
  refine ⟨e, ⟨h.invented, rest, hgiven, fun hbinary => ?_⟩, hinlines⟩
  rw [hlone (hinlines.isBinary hbinary), List.forall₂_nil_right_iff] at hrest
  exact hrest

theorem Needs.of_passed (h : Needs b' s' n p) (hs : s ∈ b)
    (hrestates : Restates (SymbolTable.ofBlock b) s s') (hp : p ≠ .kept) : Needs b s n p := by
  induction h with
  | read hn => exact needs_of_placedThrough (hrestates.placedThrough hn hp) fun y p hy => .read hy
  | value _ he htakes hn ih =>
    have hneeds := ih (Place.ne_kept_of_mayTake htakes)
    obtain ⟨e, hpass, hinlines⟩ := he.of_passed hb hpassed (hneeds.mem_reads hb hs)
    obtain ⟨htakes, hinlines⟩ := hinlines.mayTake htakes
    exact needs_of_placedThrough (hinlines.placedThrough hn) fun y p hy =>
      .value hneeds hpass htakes hy

/-- A helper has the value that the next pass may put in its place. -/
theorem IsSettled.isCurrent_of_passed (h : IsSettled b) {pre pre' post post' : Block}
    (hsplit : b = pre ++ s :: post) (hsplit' : b' = pre' ++ s' :: post')
    (hpre : Passed (SymbolTable.ofBlock b) pre pre') (hneeds : Needs b s n p)
    (he' : MayPass b' n e') (htakes' : p.mayTake e' = true) : IsCurrent pre' n e' := by
  have hmem {t : Stmt} (ht : t ∈ pre) : t ∈ b := hsplit ▸ List.mem_append_left _ ht
  have hread : n ∈ (ofStmts b).reads :=
    hneeds.mem_reads hb (hsplit ▸ List.mem_append_right pre List.mem_cons_self)
  have hpasses := isPure_of_passes hb
  obtain ⟨e, he, hinlines⟩ := he'.of_passed hb hpassed hread
  obtain ⟨htakes, hinlines⟩ := hinlines.mayTake htakes'
  obtain ⟨before, t, mid, rfl, hbefore, hbinds, hmid, hkeeps⟩ := h.current hsplit hneeds he htakes
  obtain ⟨before', rest', rfl, hbefore', hrest⟩ := hpre.of_append
  have hnone := hbefore'.given (fun t ht => hb t (hmem (List.mem_append_left _ ht))) hpasses
    (reads_ne_zero hread)
  rw [hbefore, List.forall₂_nil_left_iff] at hnone
  have htmem := hmem (List.mem_append_right before List.mem_cons_self)
  obtain ⟨t', mid', v, rfl, hmid', ht, hbinds'⟩ :=
    hrest.exists_binds (hb t htmem) hpasses (reads_ne_zero hread) hbinds
  -- the first value after the pass is what is made of the first value before it
  obtain ⟨_, hgiven, -⟩ := he'.given
  rw [hsplit', List.append_assoc, List.cons_append, given_of_binds hnone hbinds'] at hgiven
  cases hgiven
  have hkept := h.keeps hb hsplit hneeds he htakes hkeeps hinlines
  have hfrom {u' : Stmt} (hu' : u' ∈ mid') :
      ∃ u ∈ mid, Restates (SymbolTable.ofBlock b) u u' ∧ IsStraight u ∧ IsStraight u' := by
    obtain ⟨u, hu, hrestates, -⟩ := hmid'.exists_of_mem hu'
    have humem := hmem (List.mem_append_right before (List.mem_cons_of_mem t hu))
    exact ⟨u, hu, hrestates, hb u humem, hrestates.isStraight_of_mem humem hb⟩
  refine ⟨before', t', mid', rfl, hnone, hbinds', fun u' hu' => ?_,
    List.forall_mem_cons.2 ⟨?_, fun u' hu' => ?_⟩⟩
  · obtain ⟨u, hu, hrestates, hstraight, hstraight'⟩ := hfrom hu'
    rw [hrestates.mem_boundNames_iff hstraight hstraight']
    exact hmid u hu
  · exact (hkept t List.mem_cons_self).restates ht (hb t htmem) (ht.isStraight_of_mem htmem hb)
  · obtain ⟨u, hu, hrestates, hstraight, hstraight'⟩ := hfrom hu'
    exact (hkept u (List.mem_cons_of_mem t hu)).restates hrestates hstraight hstraight'

/-- A settled window is settled after a pass. -/
theorem IsSettled.of_passed (h : IsSettled b) : IsSettled b' where
  current {pre' s' post'} hsplit' {n p e'} hneeds he' htakes := by
    have hpassed' := hpassed
    rw [hsplit'] at hpassed'
    obtain ⟨pre, s, post, hsplit, hpre, hrestates, -⟩ := hpassed'.exists_of_append
    have hs : s ∈ b := hsplit ▸ List.mem_append_right pre List.mem_cons_self
    exact h.isCurrent_of_passed hb hpassed hsplit hsplit' hpre
      (hneeds.of_passed hb hpassed hs hrestates (Place.ne_kept_of_mayTake htakes)) he' htakes
  known hsplit' _ _ := by
    rw [hsplit'] at hpassed
    exact hpassed.not_isForgotten

end

end LuaUnpack.Handler.Simplify
