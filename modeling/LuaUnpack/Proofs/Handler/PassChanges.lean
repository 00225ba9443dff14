import LuaUnpack.Proofs.Handler.Reworking

/-!
# The changes of a pass

A pass goes once through a window. What it does with each part follows from what it does with the
parts of it, and it counts no change exactly where it leaves everything as it was.
-/

namespace LuaUnpack.Handler.Simplify

open LuaUnpack.Lua LuaUnpack.Script Summary

section

variable {T : SymbolTable} {source : List String} {p p' old new : Summary} {c d : Nat}

/-! ## Running a pass -/

section

variable {t k l r : Expr}

theorem run_index_names (h : ¬ (nameValue? T t = none ∧ nameValue? T k = none)) (m : Progress) :
    (onExpr T (.index t k)).run m =
      (.index (replaced (nameValue? T) t) (replaced (nameValue? T) k),
        { m with changes := m.changes + 1 }) := by
  change (replaceTwo (nameValue? T) t k >>= _).run m = _
  rw [StateT.run_bind, run_replaceTwo_some h]
  rfl

theorem run_index (ht : nameValue? T t = none) (hk : nameValue? T k = none) (m : Progress) :
    (onExpr T (.index t k)).run m =
      (.index t (replaced (elementValue? T) k),
        { m with changes := m.changes + if (elementValue? T k).isSome then 1 else 0 }) := by
  change (replaceTwo (nameValue? T) t k >>= _).run m = _
  rw [StateT.run_bind, run_replaceTwo_none ht hk]
  change (do return Expr.index t (← replaceOne (elementValue? T) k) : Pass Expr).run m = _
  rw [StateT.run_bind, run_replaceOne]
  rfl

theorem run_binary_elements (op : BinaryOp)
    (h : ¬ (elementValue? T l = none ∧ elementValue? T r = none)) (m : Progress) :
    (onExpr T (.binary op l r)).run m =
      (.binary op (replaced (elementValue? T) l) (replaced (elementValue? T) r),
        { m with changes := m.changes + 1 }) := by
  change (replaceTwo (elementValue? T) l r >>= _).run m = _
  rw [StateT.run_bind, run_replaceTwo_some h]
  rfl

/-- Operands of which none is an element. -/
theorem run_binary_eq (op : BinaryOp) (hl : elementValue? T l = none) (hr : elementValue? T r = none)
    (m : Progress) :
    (onExpr T (.binary op l r)).run m =
      (do
        match ← replaceTwo (nameValue? T) l r with
        | some (l, r) => return .binary op l r
        | none => return .binary op l r : Pass Expr).run m := by
  change (replaceTwo (elementValue? T) l r >>= _).run m = _
  rw [StateT.run_bind, run_replaceTwo_none hl hr]
  rfl

theorem run_binary_names (op : BinaryOp) (hl : elementValue? T l = none)
    (hr : elementValue? T r = none) (h : ¬ (nameValue? T l = none ∧ nameValue? T r = none))
    (m : Progress) :
    (onExpr T (.binary op l r)).run m =
      (.binary op (replaced (nameValue? T) l) (replaced (nameValue? T) r),
        { m with changes := m.changes + 1 }) := by
  rw [run_binary_eq op hl hr, StateT.run_bind, run_replaceTwo_some h]
  rfl

theorem run_binary (op : BinaryOp) (hl : elementValue? T l = none) (hr : elementValue? T r = none)
    (hl' : nameValue? T l = none) (hr' : nameValue? T r = none) (m : Progress) :
    (onExpr T (.binary op l r)).run m = (.binary op l r, m) := by
  rw [run_binary_eq op hl hr, StateT.run_bind, run_replaceTwo_none hl' hr']
  rfl

end

/-- Whether some number of changes was counted for which a property holds. -/
def Counts (m m' : Progress) (P : Nat → Prop) : Prop :=
  ∃ c, m'.changes = m.changes + c ∧ P c

section

variable {t t' k k' : Expr} {m m' m'' : Progress}

theorem counts_index (hT : Sound T source) (ht : Counts m m' (Simplifies T source t t'))
    (hk : Counts m' m'' (Simplifies T source k k')) :
    Counts m ((onExpr T (.index t' k')).run m'').2
      (Simplifies T source (.index t k) ((onExpr T (.index t' k')).run m'').1) := by
  obtain ⟨c, hc, ht⟩ := ht
  obtain ⟨d, hd, hk⟩ := hk
  by_cases hnames : nameValue? T t' = none ∧ nameValue? T k' = none
  · rw [run_index hnames.1 hnames.2]
    by_cases hvalue : elementValue? T k' = none
    · rw [replaced_of_eq_none hvalue, hvalue]
      exact ⟨c + d, by simp [hd, hc, Nat.add_assoc], ht.index hk hnames.1 hnames.2⟩
    · refine ⟨c + d + 1, ?_, ht.index_element hT hk hvalue⟩
      rw [Option.isSome_iff_ne_none.2 hvalue]
      simp [hd, hc, Nat.add_assoc]
  · rw [run_index_names hnames]
    exact ⟨c + d + 1, by simp [hd, hc, Nat.add_assoc], ht.index_names hT hk hnames⟩

theorem counts_binary (hT : Sound T source) (op : BinaryOp)
    (ht : Counts m m' (Simplifies T source t t')) (hk : Counts m' m'' (Simplifies T source k k')) :
    Counts m ((onExpr T (.binary op t' k')).run m'').2
      (Simplifies T source (.binary op t k) ((onExpr T (.binary op t' k')).run m'').1) := by
  obtain ⟨c, hc, ht⟩ := ht
  obtain ⟨d, hd, hk⟩ := hk
  by_cases helements : elementValue? T t' = none ∧ elementValue? T k' = none
  · by_cases hnames : nameValue? T t' = none ∧ nameValue? T k' = none
    · rw [run_binary op helements.1 helements.2 hnames.1 hnames.2]
      exact ⟨c + d, by simp [hd, hc, Nat.add_assoc], ht.binary op hk hnames.1 hnames.2⟩
    · rw [run_binary_names op helements.1 helements.2 hnames]
      exact ⟨c + d + 1, by simp [hd, hc, Nat.add_assoc],
        ht.binary_replaced hT isLookup_nameValue? op hk hnames⟩
  · rw [run_binary_elements op helements]
    exact ⟨c + d + 1, by simp [hd, hc, Nat.add_assoc],
      ht.binary_replaced hT isLookup_elementValue? op hk helements⟩

end

/-! ## Parts of statements -/

/-- What a pass does with a part of which it is known when it stays the same. -/
structure Part (T : SymbolTable) (source : List String) (old new : Summary) (isSame : Prop)
    (changes : Nat) : Prop where
  same : changes = 0 → isSame
  idle : changes = 0 → ∀ n ∈ old.operands, nameValue? T (.name n) = none
  reworks : Reworks T source old new changes

section

variable {e e' : Expr} {es es' : List Expr} {m m' m'' : Progress} {S S' : Prop}

theorem Simplifies.part (h : Simplifies T source e e' c) :
    Part T source (ofExpr e) (ofExpr e') (e' = e) c :=
  ⟨h.same, h.idle, h.reworks⟩

theorem SimplifiesAll.part (h : SimplifiesAll T source es es' c) :
    Part T source (ofExprs es) (ofExprs es') (es' = es) c :=
  ⟨h.same, h.idle, h.reworks⟩

theorem SimplifiesAll.boundPart (h : SimplifiesAll T source es es' c)
    (names : List (Option String)) :
    Part T source (ofExprs es + { binds := bindTo names es })
      (ofExprs es' + { binds := bindTo names es' }) (es' = es) c where
  same := h.same
  idle hc n hn := h.idle hc n (by simpa using hn)
  reworks := h.bound names

theorem SimplifiesAll.targetsPart (h : SimplifiesAll T source es es' c) :
    Part T source (ofTargets es) (ofTargets es') (es' = es) c :=
  ⟨h.same, h.idleTargets, h.targets⟩

theorem part_zero : Part T source 0 0 True 0 :=
  ⟨fun _ => trivial, fun _ _ hn => absurd hn List.not_mem_nil, .refl 0 fun _ => Nat.le_refl _⟩

theorem Part.add (h : Part T source p p' S c) (h' : Part T source old new S' d) :
    Part T source (p + old) (p' + new) (S ∧ S') (c + d) where
  same hzero := (Nat.add_eq_zero_iff.1 hzero).imp h.same h'.same
  idle hzero := List.forall_mem_append.2
    ((Nat.add_eq_zero_iff.1 hzero).imp h.idle h'.idle)
  reworks := h.reworks.add h'.reworks

theorem Part.imp (h : Part T source p p' S c) (hS : S → S') : Part T source p p' S' c :=
  ⟨fun hc => hS (h.same hc), h.idle, h.reworks⟩

/-- A part of a statement itself, in which nothing can be replaced. -/
theorem Part.under (h : Part T source old new S c) (hown : Reworks T source p p' 0)
    (hoperands : p.operands = []) : Part T source (p + old) (p' + new) S c where
  same := h.same
  idle hc := by
    rw [operands_add, hoperands]
    exact h.idle hc
  reworks := (hown.add h.reworks).recount fun hc => by rwa [Nat.zero_add]

theorem reworks_own (weight functions : Nat) :
    Reworks T source { weight, functions } { weight, functions } 0 :=
  .refl _ fun _ => Nat.le_refl _

theorem reworks_bindAll (names : List String) :
    Reworks T source (bindAll names) (bindAll names) 0 := by
  refine .refl _ fun n => Nat.le_of_eq ?_
  induction names with
  | nil => rfl
  | cons name names ih => exact ih

theorem reworks_localFunction (name : String) (f f' : FuncBody) :
    Reworks T source { weight := 1, binds := [(name, some (.function f))] }
      { weight := 1, binds := [(name, some (.function f'))] } 0 where
  weight := Nat.le_refl _
  reads _ hn := .inl hn
  pairs n m hpair := by cases List.mem_singleton.1 hpair
  names := Nat.le_refl _
  elements := Nat.le_refl _
  functions hfree := hfree
  plain _ n v hv _ hbinary := by
    cases List.mem_singleton.1 hv
    cases hbinary
  aliases _ _ := rfl
  moved := .inr ⟨[], [], {
    passes := fun _ h => absurd h List.not_mem_nil
    reads_old := List.Perm.refl _
    reads_new := List.Perm.refl _
    results := Nat.le_refl _
    elements := fun _ => Nat.le_refl _ }, fun h => absurd rfl h⟩

theorem Counts.imp {P Q : Nat → Prop} (h : Counts m m' P) (hPQ : ∀ c, P c → Q c) :
    Counts m m' Q := by
  obtain ⟨c, hc, hP⟩ := h
  exact ⟨c, hc, hPQ c hP⟩

theorem Counts.add (h : Counts m m' (Part T source p p' S))
    (h' : Counts m' m'' (Part T source old new S')) :
    Counts m m'' (Part T source (p + old) (p' + new) (S ∧ S')) := by
  obtain ⟨c, hc, h⟩ := h
  obtain ⟨d, hd, h'⟩ := h'
  exact ⟨c + d, by rw [hd, hc, Nat.add_assoc], h.add h'⟩

theorem Counts.same (h : Counts m m' (Part T source p p' S)) (hS : S → S') :
    Counts m m' (Part T source p p' S') :=
  h.imp fun _ hpart => hpart.imp hS

theorem Counts.under (h : Counts m m' (Part T source old new S)) (hown : Reworks T source p p' 0)
    (hoperands : p.operands = []) : Counts m m' (Part T source (p + old) (p' + new) S) :=
  h.imp fun _ hpart => hpart.under hown hoperands

/-- An expression that is neither a name nor an element, from its parts. -/
theorem Counts.other (h : Counts m m' (Part T source (ofExpr e) (ofExpr e') (e' = e)))
    (he : isOther e = true) (he' : isOther e' = true) (hbinary : isBinary e' = isBinary e) :
    Counts m m' (Simplifies T source e e') :=
  h.imp fun _ hpart => .ofOther hpart.same hpart.idle hpart.reworks he he' hbinary

/-! ### Calls -/

theorem reworks_elementValue (hT : Sound T source) (n : String) :
    Reworks T source (ofExpr (.name n)) (ofExpr (replaced (elementValue? T) (.name n)))
      (if (elementValue? T (.name n)).isSome then 1 else 0) := by
  cases h : elementValue? T (.name n) with
  | none =>
    rw [replaced_of_eq_none h]
    exact .refl _ fun _ => Nat.zero_le _
  | some v =>
    rw [replaced_of_eq_some h]
    obtain ⟨n', t, k, info, hn, rfl, -⟩ := exists_of_elementValue? h
    exact hT.reworks (.element h) rfl rfl rfl rfl

theorem run_stk_some {a b : String}
    (h : ¬ (elementValue? T (.name a) = none ∧ elementValue? T (.name b) = none)) (m : Progress) :
    (onExpr T (.call (.name "stk") [.name a, .name b])).run m =
      (.call (.name "stk")
        [replaced (elementValue? T) (.name a), replaced (elementValue? T) (.name b)],
        { m with changes := m.changes + 1 }) := by
  change (replaceTwo (elementValue? T) (.name a) (.name b) >>= _).run m = _
  rw [StateT.run_bind, run_replaceTwo_some h]
  rfl

theorem run_stk_none {a b : String}
    (h : elementValue? T (.name a) = none ∧ elementValue? T (.name b) = none) (m : Progress) :
    (onExpr T (.call (.name "stk") [.name a, .name b])).run m =
      (.call (.name "stk") [.name a, .name b], m) := by
  change (replaceTwo (elementValue? T) (.name a) (.name b) >>= _).run m = _
  rw [StateT.run_bind, run_replaceTwo_none h.1 h.2]
  rfl

/-- Names are not changed on their own. -/
theorem Simplifies.eq_of_name {n : String} (h : Simplifies T source e (.name n) c) :
    e = .name n ∧ c = 0 := by
  have hname := h.isAnyName.symm.trans rfl
  exact ⟨(h.same (h.name hname)).symm, h.name hname⟩

theorem SimplifiesAll.eq_of_names (h : SimplifiesAll T source es es' c)
    (hnames : ∀ e ∈ es', e.isAnyName = true) : es = es' ∧ c = 0 := by
  have hall : ∀ e ∈ es, e.isAnyName = true := by
    intro e he
    rw [isAnyName_eq_isSome]
    have hmem := List.mem_map_of_mem (f := Expr.asName?) he
    rw [← h.asNames] at hmem
    obtain ⟨e', he', heq⟩ := List.mem_map.1 hmem
    rw [← heq, ← isAnyName_eq_isSome]
    exact hnames e' he'
  exact ⟨(h.same (h.names hall)).symm, h.names hall⟩

theorem counts_call (hT : Sound T source) (hf : Counts m m' (Simplifies T source e e'))
    (hargs : Counts m' m'' (SimplifiesAll T source es es')) :
    Counts m ((onExpr T (.call e' es')).run m'').2
      (Simplifies T source (.call e es) ((onExpr T (.call e' es')).run m'').1) := by
  obtain ⟨c, hc, hf⟩ := hf
  obtain ⟨d, hd, hargs⟩ := hargs
  -- Only the arguments of `stk`, when both are names, are replaced in a call.
  by_cases hstk : ∃ a b, e' = .name "stk" ∧ es' = [.name a, .name b]
  · obtain ⟨a, b, rfl, rfl⟩ := hstk
    obtain ⟨rfl, rfl⟩ := hf.eq_of_name
    obtain ⟨rfl, rfl⟩ := hargs.eq_of_names (by simp [Expr.isAnyName])
    by_cases helements : elementValue? T (.name a) = none ∧ elementValue? T (.name b) = none
    · rw [run_stk_none helements]
      refine ⟨0, hd.trans hc, .ofOther (fun _ => rfl) (fun _ n hn => absurd hn List.not_mem_nil)
        (.refl _ fun _ => Nat.zero_le _) rfl rfl rfl⟩
    · rw [run_stk_some helements]
      refine ⟨1, by simp [hd, hc], .ofOther (fun h => absurd h Nat.one_ne_zero)
        (fun h => absurd h Nat.one_ne_zero) ?_ rfl rfl rfl⟩
      have hstk : Reworks T source (ofExpr (.name "stk")) (ofExpr (.name "stk")) 0 :=
        .refl _ fun _ => Nat.zero_le _
      have hnil : Reworks T source (ofExprs []) (ofExprs []) 0 := .refl _ fun _ => Nat.zero_le _
      refine (hstk.add ((reworks_elementValue hT a).add
        ((reworks_elementValue hT b).add hnil))).recount fun _ hzero => helements ?_
      cases h : elementValue? T (.name a) <;> cases h' : elementValue? T (.name b) <;> simp_all
  · have hrun : (onExpr T (.call e' es')).run m'' = (.call e' es', m'') := by
      unfold onExpr
      split
      · rename_i a b heq
        cases heq
        exact absurd ⟨a, b, rfl, rfl⟩ hstk
      · rename_i heq
        cases heq
      · rename_i heq
        cases heq
      · rfl
    rw [hrun]
    have hpart := (hf.part.add hargs.part).imp fun h => congrArg₂ Expr.call h.1 h.2
    exact ⟨c + d, by rw [hd, hc, Nat.add_assoc], .ofOther hpart.same hpart.idle hpart.reworks
      rfl rfl rfl⟩

/-! ### Assignments -/

section

variable {ts ts' vs vs' : List Expr}

/-- An assignment of which the parts are simplified. -/
theorem part_assign (ht : SimplifiesAll T source ts ts' c) (hv : SimplifiesAll T source vs vs' d) :
    Part T source (ofStmt (.assign ts vs)) (ofStmt (.assign ts' vs'))
      (Stmt.assign ts' vs' = .assign ts vs) (c + d) := by
  have hpart := ((ht.targetsPart.add (hv.boundPart (ts.map Expr.asName?))).under
    (reworks_own 2 0) rfl).imp fun ⟨ht, hv⟩ => congrArg₂ Stmt.assign ht hv
  have hnames := ht.asNames
  simp only [ofStmt]
  rw [hnames]
  exact hpart

theorem names_of_all_isDeclaredBy {n : Nat} {ts : List Expr}
    (h : ts.all (isDeclaredBy T n) = true) :
    ofTargets ts = 0 ∧ (ts.filterMap Expr.asName?).map some = ts.map Expr.asName? := by
  induction ts with
  | nil => exact ⟨rfl, rfl⟩
  | cons t ts ih =>
    rw [List.all_cons, Bool.and_eq_true] at h
    obtain ⟨ht, hts⟩ := ih h.2
    cases t with
    | name m => exact ⟨ht, congrArg (some m :: ·) hts⟩
    | _ => exact absurd h.1 Bool.noConfusion

/-- An assignment that becomes a declaration. -/
theorem part_localize (ht : SimplifiesAll T source ts ts' c) (hv : SimplifiesAll T source vs vs' d)
    {n : Nat} (hall : ts'.all (isDeclaredBy T n) = true) :
    Part T source (ofStmt (.assign ts vs)) (ofStmt (.localVars (ts'.filterMap Expr.asName?) vs'))
      (Stmt.localVars (ts'.filterMap Expr.asName?) vs' = .assign ts vs) (c + d + 1) where
  same h := absurd h (Nat.succ_ne_zero _)
  idle h := absurd h (Nat.succ_ne_zero _)
  reworks := by
    obtain ⟨htargets, hnames⟩ := names_of_all_isDeclaredBy hall
    refine (part_assign ht hv).reworks.shrink ?_ ?_ ?_ ?_ _
      <;> rw [ofStmt, ofStmt, htargets, hnames, Summary.zero_add]
    · exact Nat.add_lt_add_right Nat.one_lt_two _
    · exact List.Subset.refl _
    · exact List.Sublist.refl _
    · exact Nat.le_refl _

/-- An assignment to an element of a name that passes on an element. -/
theorem part_assign_element (hT : Sound T source) {t k : Expr} {n : String}
    (ht : SimplifiesAll T source ts [.index t k] c) (hsome : elementValue? T (.name n) ≠ none) :
    Part T source (ofStmt (.assign ts [.name n]))
      (ofStmt (.assign [.index t k] [replaced (elementValue? T) (.name n)]))
      (Stmt.assign [.index t k] [replaced (elementValue? T) (.name n)] = .assign ts [.name n])
      (c + 1) where
  same h := absurd h (Nat.succ_ne_zero _)
  idle h := absurd h (Nat.succ_ne_zero _)
  reworks := by
    obtain ⟨v, hv⟩ := Option.ne_none_iff_exists'.1 hsome
    have hvalue := reworks_elementValue hT n
    have hnil : Reworks T source (ofExprs []) (ofExprs []) 0 := .refl _ fun _ => Nat.zero_le _
    have hnone : Reworks T source { binds := [] } { binds := [] } 0 :=
      .refl _ fun _ => Nat.zero_le _
    rw [hv, Option.isSome_some, if_pos rfl] at hvalue
    have hall := (reworks_own 2 0).add (ht.targets.add ((hvalue.add hnil).add hnone))
    rw [ofStmt, ofStmt, ← ht.asNames]
    exact hall.recount fun _ h => absurd h (Nat.succ_ne_zero _)

/-- An assignment to a name of a name that passes on the result of an operator. The name is no
    alias any more. -/
theorem part_assign_binary (hT : Sound T source) {t n : String}
    (hsome : binaryValue? T (.name n) ≠ none) :
    Part T source (ofStmt (.assign [.name t] [.name n]))
      (ofStmt (.assign [.name t] [replaced (binaryValue? T) (.name n)]))
      (Stmt.assign [.name t] [replaced (binaryValue? T) (.name n)] = .assign [.name t] [.name n])
      1 where
  same h := absurd h Nat.one_ne_zero
  idle h := absurd h Nat.one_ne_zero
  reworks := by
    obtain ⟨v, hv⟩ := Option.ne_none_iff_exists'.1 hsome
    obtain ⟨n', op, l, r, info, hn, rfl, -⟩ := exists_of_binaryValue? hv
    have hpasses : ∀ operands, Passes T operands n (.binary op l r) := fun _ => .result hv
    have hfree := hT.functions n _ (hpasses _)
    obtain ⟨hweight, hbinds⟩ := isFlat_ofExpr (.binary op l r) hfree
    rw [replaced_of_eq_some hv]
    have hnew : ofStmt (.assign [.name t] [.binary op l r]) =
        ⟨2, 0, (ofExpr (.binary op l r)).operands, (ofExpr (.binary op l r)).reads,
          [(t, some (.binary op l r))]⟩ := by
      ext1 <;> simp [ofStmt, ofTargets, ofExprs, bindTo, Expr.asName?, hweight, hbinds, hfree]
    have hold : ofStmt (.assign [.name t] [.name n]) = ⟨2, 0, [], [n], [(t, some (.name n))]⟩ := rfl
    rw [hnew, hold]
    exact {
      weight := Nat.le_refl _
      reads := fun r hr => .inr (hT.reads n _ (hpasses _) hr)
      pairs := fun _ _ hpair => by cases List.mem_singleton.1 hpair
      names := Nat.zero_le _
      elements := Nat.le_refl _
      functions := fun h => h
      plain := fun _ m v hmem _ _ => by
        cases List.mem_singleton.1 hmem
        exact hfree
      -- There is one name less among the values, so the pass need not keep the aliases.
      aliases := fun _ h => absurd (show 0 = 1 from h) Nat.zero_ne_one
      moved := .inr ⟨[], [(n, .binary op l r)], {
        passes := List.forall_mem_singleton.2 (hpasses _)
        reads_old := List.Perm.refl _
        reads_new := by
          rw [List.flatMap_cons, List.flatMap_nil, List.append_nil]
          exact List.Perm.refl _
        results := Nat.le_refl _
        elements := fun m => by
          have hcalm : [(n, Expr.binary op l r)].countP (isElementOf m) = 0 := by
            simp [isElementOf, isElement]
          exact Nat.le_of_eq (congrArg ([n].count m + · + 0) hcalm) },
        fun _ => List.cons_ne_nil _ _⟩ }

theorem run_assign_localize {n : Nat} (h : ts.all (isDeclaredBy T n) = true) (m : Progress) :
    (onStmt T n (.assign ts vs)).run m =
      (.localVars (ts.filterMap Expr.asName?) vs, { m with changes := m.changes + 1 }) := by
  unfold onStmt
  dsimp only
  rw [if_pos h]
  rfl

/-- What a pass replaces in an assignment that stays one. -/
theorem run_assign (ts vs : List Expr) {n : Nat} (h : ts.all (isDeclaredBy T n) = false) (m : Progress) :
    (onStmt T n (.assign ts vs)).run m = (.assign ts vs, m) ∨
      (∃ t k y, ts = [.index t k] ∧ vs = [.name y] ∧ elementValue? T (.name y) ≠ none ∧
        (onStmt T n (.assign ts vs)).run m =
          (.assign ts [replaced (elementValue? T) (.name y)],
            { m with changes := m.changes + 1 })) ∨
      ∃ x y, ts = [.name x] ∧ vs = [.name y] ∧ binaryValue? T (.name y) ≠ none ∧
        (onStmt T n (.assign ts vs)).run m =
          (.assign ts [replaced (binaryValue? T) (.name y)],
            { m with changes := m.changes + 1 }) := by
  unfold onStmt
  dsimp only
  rw [if_neg (Bool.eq_false_iff.1 h)]
  -- The three forms that the pass tells apart: an element, a name, and anything else.
  split
  · rename_i t k y
    rw [StateT.run_bind, run_replaceOne]
    cases hvalue : elementValue? T (.name y) with
    | none => exact .inl (by rw [replaced_of_eq_none hvalue]; rfl)
    | some v => exact .inr (.inl ⟨t, k, y, rfl, rfl, by simp [hvalue], rfl⟩)
  · rename_i x y
    rw [StateT.run_bind, run_replaceOne]
    cases hvalue : binaryValue? T (.name y) with
    | none => exact .inl (by rw [replaced_of_eq_none hvalue]; rfl)
    | some v => exact .inr (.inr ⟨x, y, rfl, rfl, by simp [hvalue], rfl⟩)
  · exact .inl rfl

theorem counts_assign (hT : Sound T source) (n : Nat) (ht : Counts m m' (SimplifiesAll T source ts ts'))
    (hv : Counts m' m'' (SimplifiesAll T source vs vs')) :
    Counts m ((onStmt T n (.assign ts' vs')).run m'').2
      (Part T source (ofStmt (.assign ts vs)) (ofStmt ((onStmt T n (.assign ts' vs')).run m'').1)
        (((onStmt T n (.assign ts' vs')).run m'').1 = .assign ts vs)) := by
  obtain ⟨c, hc, ht⟩ := ht
  obtain ⟨d, hd, hv⟩ := hv
  cases hall : ts'.all (isDeclaredBy T n) with
  | true =>
    rw [run_assign_localize hall]
    exact ⟨c + d + 1, by simp [hd, hc, Nat.add_assoc], part_localize ht hv hall⟩
  | false =>
    rcases run_assign ts' vs' hall m'' with hrun | ⟨t, k, y, rfl, rfl, hsome, hrun⟩ |
      ⟨x, y, rfl, rfl, hsome, hrun⟩
    · rw [hrun]
      exact ⟨c + d, by rw [hd, hc, Nat.add_assoc], part_assign ht hv⟩
    · -- A name is never changed below, so its own count is zero.
      obtain ⟨rfl, rfl⟩ := hv.eq_of_names (by simp [Expr.isAnyName])
      rw [hrun]
      exact ⟨c + 1, by simp [hd, hc, Nat.add_assoc], part_assign_element hT ht hsome⟩
    · obtain ⟨rfl, rfl⟩ := ht.eq_of_names (by simp [Expr.isAnyName])
      obtain ⟨rfl, rfl⟩ := hv.eq_of_names (by simp [Expr.isAnyName])
      rw [hrun]
      exact ⟨1, by simp [hd, hc], part_assign_binary hT hsome⟩

end

/-! ### Blocks -/

theorem ofStmts_filter (keep : Stmt → Bool) (ss : List Stmt) :
    (ofStmts (ss.filter keep)).reads ⊆ (ofStmts ss).reads ∧
      (ofStmts (ss.filter keep)).binds.Sublist (ofStmts ss).binds ∧
      (ofStmts (ss.filter keep)).functions ≤ (ofStmts ss).functions ∧
      (ofStmts (ss.filter keep)).weight ≤ (ofStmts ss).weight := by
  induction ss with
  | nil => exact ⟨List.Subset.refl _, List.Sublist.refl _, Nat.le_refl _, Nat.le_refl _⟩
  | cons s ss ih =>
    obtain ⟨hreads, hbinds, hfunctions, hweight⟩ := ih
    rw [List.filter_cons]
    split
    · exact ⟨List.append_subset.2
        ⟨List.subset_append_left _ _, List.subset_append_of_subset_right _ hreads⟩, hbinds.append_left _,
        Nat.add_le_add_left hfunctions _, Nat.add_le_add_left hweight _⟩
    · exact ⟨List.subset_append_of_subset_right _ hreads, hbinds.trans (List.sublist_append_right _ _),
        Nat.le_trans hfunctions (Nat.le_add_left _ _), Nat.le_trans hweight (Nat.le_add_left _ _)⟩

theorem weight_ofStmt_pos (s : Stmt) : 0 < (ofStmt s).weight := by
  cases s with
  | numericFor var start limit step body => cases step <;> exact Nat.add_pos_left Nat.one_pos _
  | assign targets values => exact Nat.add_pos_left Nat.two_pos _
  | localFunction name f => cases f; exact Nat.add_pos_left Nat.one_pos _
  | functionDecl root path method f => cases f; exact Nat.add_pos_left Nat.one_pos _
  | exit | goto _ | label _ => exact Nat.one_pos
  | _ => exact Nat.add_pos_left Nat.one_pos _

theorem weight_ofStmts_filter_lt {keep : Stmt → Bool} {ss : List Stmt}
    (h : (ss.filter keep).length ≠ ss.length) :
    (ofStmts (ss.filter keep)).weight < (ofStmts ss).weight := by
  induction ss with
  | nil => exact absurd rfl h
  | cons s ss ih =>
    rw [List.filter_cons] at h ⊢
    split at h
    · rename_i hkeep
      rw [if_pos hkeep]
      exact Nat.add_lt_add_left (ih fun heq => h (congrArg Nat.succ heq)) _
    · rename_i hkeep
      rw [if_neg hkeep]
      exact Nat.lt_of_le_of_lt (ofStmts_filter keep ss).2.2.2
        (Nat.lt_add_of_pos_left (weight_ofStmt_pos s))

theorem counts_onBlock {ss ss' : List Stmt}
    (h : Counts m m' (Part T source (ofStmts ss) (ofStmts ss') (ss' = ss))) :
    Counts m ((onBlock T ss').run m').2 (Part T source (ofStmts ss)
      (ofStmts ((onBlock T ss').run m').1) (((onBlock T ss').run m').1 = ss)) := by
  obtain ⟨c, hc, h⟩ := h
  -- The block counts as one change, and only if a statement is dropped.
  by_cases hlength : (ss'.filter fun s => !isUnused T s).length = ss'.length
  · have hrun : (onBlock T ss').run m' = (ss', m') := by
      have hfilter := List.filter_eq_self.2 (List.length_filter_eq_length_iff.1 hlength)
      rw [onBlock, hfilter]
      simp
      rfl
    rw [hrun]
    exact ⟨c, hc, h⟩
  · have hrun : (onBlock T ss').run m' =
        (ss'.filter fun s => !isUnused T s, { m' with changes := m'.changes + 1 }) := by
      rw [onBlock, if_pos (bne_iff_ne.2 hlength)]
      rfl
    obtain ⟨hreads, hbinds, hfunctions, -⟩ := ofStmts_filter (fun s => !isUnused T s) ss'
    rw [hrun]
    exact ⟨c + 1, by simp [hc, Nat.add_assoc], {
      same := fun h => absurd h (Nat.succ_ne_zero _)
      idle := fun h => absurd h (Nat.succ_ne_zero _)
      reworks := h.reworks.shrink (weight_ofStmts_filter_lt hlength) hreads hbinds hfunctions _ }⟩

end

/-! ## The whole window -/

mutual

theorem counts_onExpr (hT : Sound T source) : ∀ (e : Expr) (m : Progress),
    Counts m (((mapper T).onExpr e).run m).2
      (Simplifies T source e (((mapper T).onExpr e).run m).1)
  | .nil, _ | .boolean _, _ | .number _, _ | .string _, _ | .vararg, _ =>
    ⟨0, rfl, simplifies_same rfl rfl⟩
  | .name n, _ => ⟨0, rfl, simplifies_name n⟩
  | .member t key, m =>
    have ht := (counts_onExpr hT t m).imp fun _ h => h.part
    (ht.same (congrArg (Expr.member · key))).other rfl rfl rfl
  | .index t k, m =>
    have ht := counts_onExpr hT t m
    have hk := counts_onExpr hT k _
    counts_index hT ht hk
  | .call f args, m =>
    have hf := counts_onExpr hT f m
    have hargs := counts_onExprs hT args _
    counts_call hT hf hargs
  | .methodCall o n args, m =>
    have ho := (counts_onExpr hT o m).imp fun _ h => h.part
    have hargs := (counts_onExprs hT args _).imp fun _ h => h.part
    ((ho.add hargs).same fun ⟨ho, hargs⟩ => congrArg₂ (Expr.methodCall · n ·) ho hargs).other
      rfl rfl rfl
  | .function ⟨params, isVararg, body⟩, m =>
    have hbody := counts_onBlock (counts_onStmts hT body m)
    have hall := (hbody.under (reworks_bindAll params) rfl).under (reworks_own 0 1) rfl
    (hall.same (congrArg fun b => Expr.function ⟨params, isVararg, b⟩)).other rfl rfl rfl
  | .table fields, m =>
    ((counts_onFields hT fields m).same (congrArg Expr.table)).other rfl rfl rfl
  | .binary op l r, m =>
    have hl := counts_onExpr hT l m
    have hr := counts_onExpr hT r _
    counts_binary hT op hl hr
  | .unary op e, m =>
    have he := (counts_onExpr hT e m).imp fun _ h => h.part
    (he.same (congrArg (Expr.unary op))).other rfl rfl rfl
  | .paren e, m =>
    have he := (counts_onExpr hT e m).imp fun _ h => h.part
    (he.same (congrArg Expr.paren)).other rfl rfl rfl

theorem counts_onExprs (hT : Sound T source) : ∀ (es : List Expr) (m : Progress),
    Counts m (((mapper T).onExprs es).run m).2
      (SimplifiesAll T source es (((mapper T).onExprs es).run m).1)
  | [], _ => ⟨0, rfl, simplifiesAll_nil⟩
  | e :: es, m =>
    have ⟨c, hc, he⟩ := counts_onExpr hT e m
    have ⟨d, hd, hes⟩ := counts_onExprs hT es _
    ⟨c + d, by rw [← Nat.add_assoc, ← hc]; exact hd, .cons he hes⟩

theorem counts_onField (hT : Sound T source) : ∀ (f : Field) (m : Progress),
    Counts m (((mapper T).onField f).run m).2 (Part T source (ofField f)
      (ofField (((mapper T).onField f).run m).1) ((((mapper T).onField f).run m).1 = f))
  | .positional e, m =>
    ((counts_onExpr hT e m).imp fun _ h => h.part).same (congrArg Field.positional)
  | .named n e, m => ((counts_onExpr hT e m).imp fun _ h => h.part).same (congrArg (Field.named n))
  | .keyed k e, m =>
    have hk := (counts_onExpr hT k m).imp fun _ h => h.part
    have he := (counts_onExpr hT e _).imp fun _ h => h.part
    (hk.add he).same fun ⟨hk, he⟩ => congrArg₂ Field.keyed hk he

theorem counts_onFields (hT : Sound T source) : ∀ (fs : List Field) (m : Progress),
    Counts m (((mapper T).onFields fs).run m).2 (Part T source (ofFields fs)
      (ofFields (((mapper T).onFields fs).run m).1) ((((mapper T).onFields fs).run m).1 = fs))
  | [], _ => ⟨0, rfl, part_zero.imp fun _ => rfl⟩
  | f :: fs, m =>
    have hf := counts_onField hT f m
    have hfs := counts_onFields hT fs _
    (hf.add hfs).same fun ⟨hf, hfs⟩ => congrArg₂ List.cons hf hfs

theorem counts_onStmt (hT : Sound T source) : ∀ (s : Stmt) (m : Progress),
    Counts m (((mapper T).onStmt s).run m).2 (Part T source (ofStmt s)
      (ofStmt (((mapper T).onStmt s).run m).1) ((((mapper T).onStmt s).run m).1 = s))
  | .localVars names values, m =>
    have hvalues := (counts_onExprs hT values ⟨m.ordinal + 1, m.changes⟩).imp fun _ h =>
      h.boundPart (names.map some)
    (hvalues.under (reworks_own 1 0) rfl).same (congrArg (Stmt.localVars names))
  | .localFunction name ⟨params, isVararg, body⟩, m =>
    have hbody := counts_onBlock (counts_onStmts hT body ⟨m.ordinal + 1, m.changes⟩)
    have hall := (hbody.under (reworks_bindAll params) rfl).under
      (reworks_localFunction name ⟨params, isVararg, body⟩ _) rfl
    hall.same (congrArg fun b => Stmt.localFunction name ⟨params, isVararg, b⟩)
  | .functionDecl root path method ⟨params, isVararg, body⟩, m =>
    have hbody := counts_onBlock (counts_onStmts hT body ⟨m.ordinal + 1, m.changes⟩)
    have hall := (hbody.under (reworks_bindAll params) rfl).under (reworks_own 1 0) rfl
    hall.same (congrArg fun b => Stmt.functionDecl root path method ⟨params, isVararg, b⟩)
  | .assign targets values, m =>
    have htargets := counts_onExprs hT targets ⟨m.ordinal + 1, m.changes⟩
    have hvalues := counts_onExprs hT values _
    counts_assign hT m.ordinal htargets hvalues
  | .call e, m =>
    have he := (counts_onExpr hT e ⟨m.ordinal + 1, m.changes⟩).imp fun _ h => h.part
    (he.under (reworks_own 1 0) rfl).same (congrArg Stmt.call)
  | .block body, m =>
    have hbody := counts_onBlock (counts_onStmts hT body ⟨m.ordinal + 1, m.changes⟩)
    (hbody.under (reworks_own 1 0) rfl).same (congrArg Stmt.block)
  | .whileLoop c body, m =>
    have hc := (counts_onExpr hT c ⟨m.ordinal + 1, m.changes⟩).imp fun _ h => h.part
    have hbody := counts_onBlock (counts_onStmts hT body _)
    ((hc.add hbody).under (reworks_own 1 0) rfl).same fun ⟨hc, hbody⟩ =>
      congrArg₂ Stmt.whileLoop hc hbody
  | .repeatLoop body c, m =>
    have hbody := counts_onBlock (counts_onStmts hT body ⟨m.ordinal + 1, m.changes⟩)
    have hc := (counts_onExpr hT c _).imp fun _ h => h.part
    ((hbody.add hc).under (reworks_own 1 0) rfl).same fun ⟨hbody, hc⟩ =>
      congrArg₂ Stmt.repeatLoop hbody hc
  | .ifThen c body otherwise, m =>
    have hc := (counts_onExpr hT c ⟨m.ordinal + 1, m.changes⟩).imp fun _ h => h.part
    have hbody := counts_onBlock (counts_onStmts hT body _)
    have ho := counts_onElse hT otherwise _
    ((hc.add (hbody.add ho)).under (reworks_own 1 0) rfl).same fun ⟨hc, hbody, ho⟩ =>
      congr (congrArg₂ Stmt.ifThen hc hbody) ho
  | .numericFor var start limit none body, m =>
    have hstart := (counts_onExpr hT start ⟨m.ordinal + 1, m.changes⟩).imp fun _ h => h.part
    have hlimit := (counts_onExpr hT limit _).imp fun _ h => h.part
    have hbody := (counts_onBlock (counts_onStmts hT body _)).under (reworks_bindAll [var]) rfl
    ((hstart.add (hlimit.add hbody)).under (reworks_own 1 0) rfl).same
      fun ⟨hstart, hlimit, hbody⟩ =>
        congr (congrArg₂ (Stmt.numericFor var · · none) hstart hlimit) hbody
  | .numericFor var start limit (some step) body, m =>
    have hstart := (counts_onExpr hT start ⟨m.ordinal + 1, m.changes⟩).imp fun _ h => h.part
    have hlimit := (counts_onExpr hT limit _).imp fun _ h => h.part
    have hstep := (counts_onExpr hT step _).imp fun _ h => h.part
    have hbody := (counts_onBlock (counts_onStmts hT body _)).under (reworks_bindAll [var]) rfl
    ((hstart.add (hlimit.add (hstep.add hbody))).under (reworks_own 1 0) rfl).same
      fun ⟨hstart, hlimit, hstep, hbody⟩ =>
        have hheader := congr (congrArg₂ (Stmt.numericFor var) hstart hlimit) (congrArg some hstep)
        congr hheader hbody
  | .genericFor names exprs body, m =>
    have hexprs := (counts_onExprs hT exprs ⟨m.ordinal + 1, m.changes⟩).imp fun _ h => h.part
    have hbody := (counts_onBlock (counts_onStmts hT body _)).under (reworks_bindAll names) rfl
    ((hexprs.add hbody).under (reworks_own 1 0) rfl).same fun ⟨hexprs, hbody⟩ =>
      congrArg₂ (Stmt.genericFor names) hexprs hbody
  | .ret values, m =>
    have hvalues := (counts_onExprs hT values ⟨m.ordinal + 1, m.changes⟩).imp fun _ h => h.part
    (hvalues.under (reworks_own 1 0) rfl).same (congrArg Stmt.ret)
  | .exit, _ | .goto _, _ | .label _, _ =>
    ⟨0, rfl, fun _ => rfl, fun _ _ hn => absurd hn List.not_mem_nil, reworks_own 1 0⟩

theorem counts_onElse (hT : Sound T source) : ∀ (o : Else) (m : Progress),
    Counts m (((mapper T).onElse o).run m).2 (Part T source (ofElse o)
      (ofElse (((mapper T).onElse o).run m).1) ((((mapper T).onElse o).run m).1 = o))
  | .done, _ => ⟨0, rfl, part_zero.imp fun _ => rfl⟩
  | .block body, m => (counts_onBlock (counts_onStmts hT body m)).same (congrArg Else.block)
  | .elseIf c body otherwise, m =>
    have hc := (counts_onExpr hT c m).imp fun _ h => h.part
    have hbody := counts_onBlock (counts_onStmts hT body _)
    have ho := counts_onElse hT otherwise _
    (hc.add (hbody.add ho)).same fun ⟨hc, hbody, ho⟩ =>
      congr (congrArg₂ Else.elseIf hc hbody) ho

theorem counts_onStmts (hT : Sound T source) : ∀ (ss : List Stmt) (m : Progress),
    Counts m (((mapper T).onStmts ss).run m).2 (Part T source (ofStmts ss)
      (ofStmts (((mapper T).onStmts ss).run m).1) ((((mapper T).onStmts ss).run m).1 = ss))
  | [], _ => ⟨0, rfl, part_zero.imp fun _ => rfl⟩
  | s :: ss, m =>
    have hs := counts_onStmt hT s m
    have hss := counts_onStmts hT ss _
    (hs.add hss).same fun ⟨hs, hss⟩ => congrArg₂ List.cons hs hss

end

end

end LuaUnpack.Handler.Simplify
