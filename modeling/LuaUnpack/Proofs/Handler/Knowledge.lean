import LuaUnpack.Proofs.Handler.Reworking

/-!
# What is known about helpers

What a pass knows of a window are the uses of its names. Their reads and bindings are those of the
summary of the window, and the operands and functions that the summary counts are those of its
expressions.
-/

namespace LuaUnpack.Handler.Simplify

open LuaUnpack.Lua LuaUnpack.Script

/-- The name that is read. -/
def readName? : Use → Option String
  | .read n => some n
  | .bind _ _ _ => none

/-- The name that is bound, and the value it is bound to. -/
def boundPair? : Use → Option (String × Option Expr)
  | .read _ => none
  | .bind n value _ => some (n, value)

/-- The parts of an expression in the places of which the names are put that they pass on. -/
def operandsOf : Expr → List Expr
  | .index t k => [t, k]
  | .binary _ l r => [l, r]
  | _ => []

/-- Whether an expression is a function. -/
def isFunction : Expr → Bool
  | .function _ => true
  | _ => false

/-- Whether a summary tells what can be read off the uses and the nodes of the same part. -/
structure Tells (summary : Summary) (uses : List Use) (nodes : List Node) : Prop where
  reads : uses.filterMap readName? = summary.reads
  binds : uses.filterMap boundPair? = summary.binds
  operands : ∀ n, n ∈ summary.operands ↔ ∃ e, .expr e ∈ nodes ∧ .name n ∈ operandsOf e
  functions : summary.functions = 0 ↔ ∀ e, .expr e ∈ nodes → isFunction e = false
  /-- The values of bindings are among the parts. -/
  values : ∀ n v, (n, some v) ∈ summary.binds → (Summary.ofExpr v).reads ⊆ summary.reads

open Summary

section

variable {p q r : Summary} {uses uses' uses'' : List Use} {nodes nodes' : List Node}

theorem tells_zero : Tells 0 [] [] where
  reads := rfl
  binds := rfl
  operands n := by simp
  functions := by simp
  values _ _ h := absurd h List.not_mem_nil

theorem Tells.add (h : Tells p uses nodes) (h' : Tells q uses' nodes') :
    Tells (p + q) (uses ++ uses') (nodes ++ nodes') where
  reads := by rw [List.filterMap_append, h.reads, h'.reads, reads_add]
  binds := by rw [List.filterMap_append, h.binds, h'.binds, binds_add]
  operands n := by
    simp only [operands_add, List.mem_append, h.operands, h'.operands, or_and_right, exists_or]
  functions := by
    rw [functions_add, Nat.add_eq_zero_iff, h.functions, h'.functions]
    simp only [List.mem_append, or_imp, forall_and]
  values n v hv := by
    rw [binds_add, List.mem_append] at hv
    rcases hv with hv | hv
    · exact List.subset_append_of_subset_left _ (h.values n v hv)
    · exact List.subset_append_of_subset_right _ (h'.values n v hv)

theorem Tells.assoc (h : Tells (p + q + r) uses nodes) : Tells (p + (q + r)) uses nodes :=
  add_assoc p q r ▸ h

/-- Uses and nodes in an order of their own. -/
theorem Tells.reorder (h : Tells p uses nodes) (huses : uses' = uses) (hnodes : nodes' = nodes) :
    Tells p uses' nodes' :=
  huses ▸ hnodes ▸ h

theorem Tells.stmt (h : Tells p uses nodes) (s : Stmt) : Tells p uses (.stmt s :: nodes) where
  reads := h.reads
  binds := h.binds
  operands n := by simp [h.operands]
  functions := by simp [h.functions]
  values := h.values

/-- An expression that has no operands and is no function. -/
theorem Tells.expr (h : Tells p uses nodes) {e : Expr} (hoperands : operandsOf e = [])
    (hfunction : isFunction e = false) : Tells p uses (.expr e :: nodes) where
  reads := h.reads
  binds := h.binds
  operands n := by simp [h.operands, hoperands]
  functions := by simp [h.functions, hfunction]
  values := h.values

theorem mem_operand_iff {n : String} {e : Expr} :
    n ∈ (operand e p).operands ↔ .name n = e ∨ n ∈ p.operands := by
  rw [operand, List.mem_append, Option.mem_toList]
  exact or_congr_left (by cases e <;> simp [Expr.asName?, eq_comm])

/-- An expression of which the operands are noted. -/
theorem Tells.pair (h : Tells p uses nodes) (h' : Tells q uses' nodes') {e a b : Expr}
    (hoperands : operandsOf e = [a, b]) (hfunction : isFunction e = false) :
    Tells (operand a p + operand b q) (uses ++ uses') (.expr e :: (nodes ++ nodes')) where
  reads := (h.add h').reads
  binds := (h.add h').binds
  operands n := by
    have hall := (h.add h').operands n
    simp only [operands_add, List.mem_append] at hall
    simp only [operands_add, List.mem_append, mem_operand_iff, List.mem_cons, Node.expr.injEq]
    rw [or_or_or_comm, hall]
    simp only [or_and_right, exists_or, exists_eq_left, hoperands, List.mem_cons, List.not_mem_nil,
      or_false]
  functions := by
    have hall := (h.add h').functions
    simp only [functions_add] at hall ⊢
    simp only [List.mem_cons, Node.expr.injEq, forall_eq_or_imp, hfunction, true_and]
    exact hall
  values := (h.add h').values

theorem Tells.function (h : Tells p uses nodes) (f : FuncBody) :
    Tells ({ functions := 1 } + p) uses (.expr (.function f) :: nodes) where
  reads := h.reads
  binds := h.binds
  operands n := by simp [h.operands, operandsOf]
  functions := by
    refine ⟨fun hzero => absurd hzero (Nat.ne_of_gt (Nat.add_pos_left Nat.one_pos _)), fun hnone => ?_⟩
    exact absurd (hnone _ List.mem_cons_self) Bool.noConfusion
  values := h.values

/-- A statement has no more to tell than its parts. -/
theorem Tells.under (h : Tells p uses nodes) (weight : Nat) :
    Tells ({ weight } + p) uses nodes where
  reads := h.reads
  binds := h.binds
  operands n := by simp [h.operands]
  functions := by simp [h.functions]
  values := h.values

theorem tells_bindAll (ordinal : Nat) (names : List String) :
    Tells (bindAll names) (Use.bindAll ordinal names) [] where
  reads := by simp [Use.bindAll, List.filterMap_map, readName?, bindAll, Function.comp_def]
  binds := by simp [Use.bindAll, List.filterMap_map, boundPair?, bindAll, Function.comp_def]
  operands n := by simp [bindAll]
  functions := by simp [bindAll]
  values n v hv := by simp [bindAll] at hv

/-- Parameters that are bound before the uses in a body. -/
theorem Tells.bound (h : Tells p uses nodes) (ordinal : Nat) (names : List String) :
    Tells (bindAll names + p) (Use.bindAll ordinal names ++ uses) nodes :=
  (tells_bindAll ordinal names).add h

/-! ### Values at their places -/

theorem mem_of_mem_bindTo {n : String} {v : Expr} {names : List (Option String)}
    {values : List Expr} (h : (n, some v) ∈ bindTo names values) : v ∈ values := by
  induction names generalizing values with
  | nil => exact absurd h List.not_mem_nil
  | cons name names ih =>
    cases name with
    | none => exact List.mem_of_mem_tail (ih h)
    | some m =>
      rcases List.mem_cons.1 h with heq | h
      · exact List.mem_of_mem_head? (Prod.mk.inj heq).2.symm
      · exact List.mem_of_mem_tail (ih h)

theorem reads_subset_of_mem {v : Expr} {values : List Expr} (h : v ∈ values) :
    (ofExpr v).reads ⊆ (ofExprs values).reads := by
  induction h with
  | head values => exact List.subset_append_left _ _
  | tail e _ ih => exact List.subset_append_of_subset_right _ ih

/-- Names bound to values after the uses in these. -/
theorem Tells.bindTo {values : List Expr} (h : Tells (ofExprs values) uses nodes)
    {names : List (Option String)} (hreads : uses'.filterMap readName? = [])
    (hbinds : uses'.filterMap boundPair? = Summary.bindTo names values) :
    Tells (ofExprs values + { binds := Summary.bindTo names values }) (uses ++ uses') nodes where
  reads := by rw [List.filterMap_append, h.reads, hreads, reads_add]
  binds := by rw [List.filterMap_append, h.binds, hbinds, binds_add]
  operands n := by simp [h.operands]
  functions := by simp [h.functions]
  values n v hv := by
    rw [binds_add, List.mem_append] at hv
    rw [reads_add, List.append_nil]
    exact hv.elim (h.values n v) fun hv => reads_subset_of_mem (mem_of_mem_bindTo hv)

theorem filterMap_bindEach (ordinal : Nat) (names : List String) (values : List Expr) :
    (Use.bindEach ordinal names values).filterMap readName? = [] ∧
      (Use.bindEach ordinal names values).filterMap boundPair? =
        Summary.bindTo (names.map some) values := by
  induction names generalizing values with
  | nil => exact ⟨rfl, rfl⟩
  | cons n names ih =>
    cases values with
    | nil => exact ⟨(ih []).1, congrArg (List.cons _) (ih []).2⟩
    | cons v values => exact ⟨(ih values).1, congrArg (List.cons _) (ih values).2⟩

theorem filterMap_bindTargets (ordinal : Nat) (targets values : List Expr) :
    (Use.bindTargets ordinal targets values).filterMap readName? = [] ∧
      (Use.bindTargets ordinal targets values).filterMap boundPair? =
        Summary.bindTo (targets.map Expr.asName?) values := by
  induction targets generalizing values with
  | nil => exact ⟨rfl, rfl⟩
  | cons target targets ih =>
    cases values with
    | nil =>
      cases target with
      | name n => exact ⟨(ih []).1, congrArg (List.cons _) (ih []).2⟩
      | _ => exact ih []
    | cons v values =>
      cases target with
      | name n => exact ⟨(ih values).1, congrArg (List.cons _) (ih values).2⟩
      | _ => exact ih values

/-! ### The whole window -/

theorem run_ofTargets_cons {e : Expr} (h : e.isAnyName = false) (es : List Expr) (k : Nat) :
    (Use.ofTargets (e :: es)).run k =
      (((Use.ofExpr e).run k).1 ++ ((Use.ofTargets es).run ((Use.ofExpr e).run k).2).1,
        ((Use.ofTargets es).run ((Use.ofExpr e).run k).2).2) := by
  cases e <;> first | rfl | cases h

mutual

theorem tells_ofExpr : ∀ (e : Expr) (k : Nat),
    Tells (ofExpr e) ((Use.ofExpr e).run k).1 (Node.ofExpr (fun _ => true) e)
  | .nil, _ | .boolean _, _ | .number _, _ | .string _, _ | .vararg, _ => tells_zero.expr rfl rfl
  | .name n, _ => {
      reads := rfl
      binds := rfl
      operands := fun m => by simp [ofExpr, Node.ofExpr, Node.above, operandsOf]
      functions := by simp [ofExpr, Node.ofExpr, Node.above, isFunction]
      values := fun _ _ h => absurd h List.not_mem_nil }
  | .member t _, k | .unary _ t, k | .paren t, k => (tells_ofExpr t k).expr rfl rfl
  | .index t i, k =>
    have ht := tells_ofExpr t k
    have hi := tells_ofExpr i _
    ht.pair hi rfl rfl
  | .binary _ l r, k =>
    have hl := tells_ofExpr l k
    have hr := tells_ofExpr r _
    hl.pair hr rfl rfl
  | .call f args, k =>
    have hf := tells_ofExpr f k
    have hargs := tells_ofExprs args _
    (hf.add hargs).expr rfl rfl
  | .methodCall o _ args, k =>
    have ho := tells_ofExpr o k
    have hargs := tells_ofExprs args _
    (ho.add hargs).expr rfl rfl
  | .function ⟨params, isVararg, body⟩, k =>
    ((tells_ofStmts body k).bound (k - 1) params).function ⟨params, isVararg, body⟩
  | .table fields, k => (tells_ofFields fields k).expr rfl rfl

theorem tells_ofExprs : ∀ (es : List Expr) (k : Nat),
    Tells (ofExprs es) ((Use.ofExprs es).run k).1 (Node.ofExprs (fun _ => true) es)
  | [], _ => tells_zero
  | e :: es, k =>
    have he := tells_ofExpr e k
    have hes := tells_ofExprs es _
    he.add hes

theorem tells_ofTargets : ∀ (es : List Expr) (k : Nat),
    Tells (ofTargets es) ((Use.ofTargets es).run k).1 (Node.ofExprs (fun _ => true) es)
  | [], _ => tells_zero
  | e :: es, k => by
    have he := tells_ofExpr e k
    have hes := tells_ofTargets es
    cases hname : e.isAnyName with
    | true =>
      obtain ⟨n, rfl⟩ := exists_name_of_isAnyName hname
      exact (hes k).expr rfl rfl
    | false =>
      rw [ofTargets_cons_of_other hname, run_ofTargets_cons hname]
      exact he.add (hes _)

theorem tells_ofField : ∀ (f : Field) (k : Nat),
    Tells (ofField f) ((Use.ofField f).run k).1 (Node.ofField (fun _ => true) f)
  | .positional e, k | .named _ e, k => tells_ofExpr e k
  | .keyed i e, k =>
    have hi := tells_ofExpr i k
    have he := tells_ofExpr e _
    hi.add he

theorem tells_ofFields : ∀ (fs : List Field) (k : Nat),
    Tells (ofFields fs) ((Use.ofFields fs).run k).1 (Node.ofFields (fun _ => true) fs)
  | [], _ => tells_zero
  | f :: fs, k =>
    have hf := tells_ofField f k
    have hfs := tells_ofFields fs _
    hf.add hfs

theorem tells_ofStmt : ∀ (s : Stmt) (k : Nat),
    Tells (ofStmt s) ((Use.ofStmt s).run k).1 (Node.ofStmt (fun _ => true) s)
  | .localVars names values, k =>
    have ⟨hreads, hbinds⟩ := filterMap_bindEach k names values
    (((tells_ofExprs values (k + 1)).bindTo hreads hbinds).under 1).stmt _
  | .localFunction name ⟨params, isVararg, body⟩, k =>
    have hbody := (tells_ofStmts body (k + 1)).bound k params
    { reads := hbody.reads
      binds := congrArg (List.cons (name, some (Expr.function ⟨params, isVararg, body⟩))) hbody.binds
      operands := fun n => (hbody.stmt _).operands n
      functions := by
        rw [ofStmt, functions_add, Nat.zero_add]
        exact (hbody.stmt _).functions
      values := fun n v hv => by
        rcases List.mem_cons.1 hv with heq | hv
        · cases heq
          exact List.Subset.refl _
        · exact hbody.values n v hv }
  | .functionDecl _ _ _ ⟨params, _, body⟩, k =>
    (((tells_ofStmts body (k + 1)).bound k params).under 1).stmt _
  | .assign targets values, k =>
    have ⟨hreads, hbinds⟩ := filterMap_bindTargets k targets values
    have htargets := tells_ofTargets targets (k + 1)
    have hvalues := (tells_ofExprs values _).bindTo hreads hbinds
    (((htargets.add hvalues).reorder (List.append_assoc _ _ _) rfl).under 2).stmt _
  | .call e, k => ((tells_ofExpr e (k + 1)).under 1).stmt _
  | .block body, k => ((tells_ofStmts body (k + 1)).under 1).stmt _
  | .whileLoop c body, k =>
    have hc := tells_ofExpr c (k + 1)
    have hbody := tells_ofStmts body _
    ((hc.add hbody).under 1).stmt _
  | .repeatLoop body c, k =>
    have hbody := tells_ofStmts body (k + 1)
    have hc := tells_ofExpr c _
    ((hbody.add hc).under 1).stmt _
  | .ifThen c body otherwise, k =>
    have hc := tells_ofExpr c (k + 1)
    have hbody := tells_ofStmts body _
    have ho := tells_ofElse otherwise _
    (((hc.add hbody).add ho).assoc.under 1).stmt _
  | .numericFor var start limit none body, k =>
    have hstart := tells_ofExpr start (k + 1)
    have hlimit := tells_ofExpr limit _
    have hbody := (tells_ofStmts body _).bound k [var]
    (((hstart.add hlimit).add hbody).assoc.under 1).stmt _
  | .numericFor var start limit (some step) body, k =>
    have hstart := tells_ofExpr start (k + 1)
    have hlimit := tells_ofExpr limit _
    have hstep := tells_ofExpr step _
    have hbody := (tells_ofStmts body _).bound k [var]
    (((((hstart.add hlimit).add hstep).add hbody).assoc.assoc).under 1).stmt _
  | .genericFor names exprs body, k =>
    have hexprs := tells_ofExprs exprs (k + 1)
    have hbody := (tells_ofStmts body _).bound k names
    (((hexprs.add hbody).reorder (List.append_assoc _ _ _) rfl).under 1).stmt _
  | .ret values, k => ((tells_ofExprs values (k + 1)).under 1).stmt _
  | .exit, _ | .goto _, _ | .label _, _ => (tells_zero.under 1).stmt _

theorem tells_ofElse : ∀ (o : Else) (k : Nat),
    Tells (ofElse o) ((Use.ofElse o).run k).1 (Node.ofElse (fun _ => true) o)
  | .done, _ => tells_zero
  | .block body, k => tells_ofStmts body k
  | .elseIf c body otherwise, k =>
    have hc := tells_ofExpr c k
    have hbody := tells_ofStmts body _
    have ho := tells_ofElse otherwise _
    ((hc.add hbody).add ho).assoc

theorem tells_ofStmts : ∀ (ss : List Stmt) (k : Nat),
    Tells (ofStmts ss) ((Use.ofStmts ss).run k).1 (Node.ofStmts (fun _ => true) ss)
  | [], _ => tells_zero
  | s :: ss, k =>
    have hs := tells_ofStmt s k
    have hss := tells_ofStmts ss _
    hs.add hss

end

end

end LuaUnpack.Handler.Simplify
