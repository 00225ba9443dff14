import LuaUnpack.Proofs.Handler.Knowledge

/-!
# What a window writes

A window without branches declares variables and assigns to variables and to table slots. If
reads have no effects, then running it comes down to the sequence of its writes (`run`). A helper
is no part of this: what is bound to it matters only as far as it is read.

What a statement does to a store can be told from the names that it reads and binds
(`eval_step_of_keeps`, `step_names_of_binds`).
-/

namespace LuaUnpack.Handler.Simplify

open LuaUnpack.Lua LuaUnpack.Script Summary

/-! ## Windows without branches -/

/-- Whether an expression is made of names, constants, table slots and binary operators. -/
def IsPure : Expr → Prop
  | .nil | .boolean _ | .number _ | .string _ | .name _ => True
  | .member t _ => IsPure t
  | .index t k => IsPure t ∧ IsPure k
  | .binary _ l r => IsPure l ∧ IsPure r
  | _ => False

/-- Whether a statement declares variables, or assigns to one variable or table slot. -/
inductive IsStraight : Stmt → Prop
  | declare (names : List String) {values : List Expr} (h : ∀ e ∈ values, IsPure e) :
    IsStraight (.localVars names values)
  | name (n : String) {e : Expr} (h : IsPure e) : IsStraight (.assign [.name n] [e])
  | member {t : Expr} (k : String) {e : Expr} (ht : IsPure t) (h : IsPure e) :
    IsStraight (.assign [.member t k] [e])
  | index {t k e : Expr} (ht : IsPure t) (hk : IsPure k) (h : IsPure e) :
    IsStraight (.assign [.index t k] [e])

/-! ## Running -/

/-- What constants, keys and operators stand for. -/
structure Meaning (V : Type) where
  nil : V
  constant : Expr → V
  key : String → V
  binary : BinaryOp → V → V → V

/-- The values of variables and of table slots. -/
structure Store (V : Type) where
  names : String → V
  slots : V → V → V

/-- A write to a variable that is no helper, or to a slot of a table. -/
inductive Write (V : Type) where
  | name (n : String) (value : V)
  | slot (table key value : V)

variable {V : Type}

namespace Store

/-- A store after a variable was given a value. -/
def set (σ : Store V) (n : String) (value : V) : Store V :=
  { σ with names := fun m => if m = n then value else σ.names m }

/-- A store after a table slot was given a value. -/
def setSlot [DecidableEq V] (σ : Store V) (table key value : V) : Store V :=
  { σ with slots := fun t k => if t = table ∧ k = key then value else σ.slots t k }

/-- A store after variables were given values one after the other. -/
def setAll (σ : Store V) (pairs : List (String × V)) : Store V :=
  pairs.foldl (fun σ pair => σ.set pair.1 pair.2) σ

end Store

/-- The value of an expression. -/
def eval (M : Meaning V) (σ : Store V) : Expr → V
  | .name n => σ.names n
  | .member t k => σ.slots (eval M σ t) (M.key k)
  | .index t k => σ.slots (eval M σ t) (eval M σ k)
  | .binary op l r => M.binary op (eval M σ l) (eval M σ r)
  | e => M.constant e

/-- Variables with the values at their places. -/
def valued (M : Meaning V) (σ : Store V) : List String → List Expr → List (String × V)
  | [], _ => []
  | n :: names, [] => (n, M.nil) :: valued M σ names []
  | n :: names, e :: values => (n, eval M σ e) :: valued M σ names values

variable [DecidableEq V]

/-- The store after a statement. -/
def step (M : Meaning V) (σ : Store V) : Stmt → Store V
  | .localVars names values => σ.setAll (valued M σ names values)
  | .assign [.name n] [e] => σ.set n (eval M σ e)
  | .assign [.member t k] [e] => σ.setSlot (eval M σ t) (M.key k) (eval M σ e)
  | .assign [.index t k] [e] => σ.setSlot (eval M σ t) (eval M σ k) (eval M σ e)
  | _ => σ

omit [DecidableEq V] in
/-- The writes of a statement. -/
def writes (M : Meaning V) (σ : Store V) : Stmt → List (Write V)
  | .assign [.name n] [e] => if isInvented n then [] else [.name n (eval M σ e)]
  | .assign [.member t k] [e] => [.slot (eval M σ t) (M.key k) (eval M σ e)]
  | .assign [.index t k] [e] => [.slot (eval M σ t) (eval M σ k) (eval M σ e)]
  | _ => []

/-- The store after statements. -/
def exec (M : Meaning V) (σ : Store V) (ss : List Stmt) : Store V := ss.foldl (step M) σ

/-- The writes of statements, in order. -/
def run (M : Meaning V) (σ : Store V) : List Stmt → List (Write V)
  | [] => []
  | s :: rest => writes M σ s ++ run M (step M σ s) rest

/-! ## What is bound -/

/-- The names that a statement binds. -/
def boundNames (s : Stmt) : List String := (ofStmt s).binds.map (·.1)

/-- Whether a statement assigns to a table slot. -/
def changesSlots : Stmt → Bool
  | .assign [.member _ _] [_] | .assign [.index _ _] [_] => true
  | _ => false

/-- A name with the value that it is bound to. -/
def pairOf (M : Meaning V) (σ : Store V) (bind : String × Option Expr) : String × V :=
  (bind.1, bind.2.elim M.nil (eval M σ))

theorem binds_of_isPure : ∀ {e : Expr}, IsPure e → (ofExpr e).binds = []
  | .nil, _ | .boolean _, _ | .number _, _ | .string _, _ | .name _, _ => rfl
  | .member t _, h => binds_of_isPure (e := t) h
  | .index t k, h | .binary _ t k, h => by
    have ht := binds_of_isPure h.1
    have hk := binds_of_isPure h.2
    simp [ofExpr, operand, ht, hk]

theorem binds_ofExprs {values : List Expr} (h : ∀ e ∈ values, IsPure e) :
    (ofExprs values).binds = [] := by
  induction values with
  | nil => rfl
  | cons e values ih =>
    obtain ⟨he, hvalues⟩ := List.forall_mem_cons.1 h
    rw [ofExprs, binds_add, binds_of_isPure he, ih hvalues, List.append_nil]

omit [DecidableEq V] in
theorem valued_eq (M : Meaning V) (σ : Store V) (names : List String) (values : List Expr) :
    valued M σ names values = (bindTo (names.map some) values).map (pairOf M σ) := by
  induction names generalizing values with
  | nil => rfl
  | cons n names ih =>
    cases values with
    | nil => exact congrArg (List.cons _) (ih [])
    | cons e values => exact congrArg (List.cons _) (ih values)

theorem binds_localVars (names : List String) {values : List Expr}
    (h : ∀ e ∈ values, IsPure e) :
    (ofStmt (.localVars names values)).binds = bindTo (names.map some) values := by
  rw [ofStmt, binds_add, binds_add, binds_ofExprs h]
  rfl

theorem binds_name (n : String) {e : Expr} (h : IsPure e) :
    (ofStmt (.assign [.name n] [e])).binds = [(n, some e)] := by
  simp [ofStmt, ofTargets, ofExprs, binds_of_isPure h, bindTo, Expr.asName?]

theorem binds_slot {target e : Expr} (htarget : IsPure target) (hname : target.isAnyName = false)
    (h : IsPure e) : (ofStmt (.assign [target] [e])).binds = [] := by
  have hbinds := binds_of_isPure htarget
  cases target with
  | name n => cases hname
  | _ => simp [ofStmt, ofTargets, ofExprs, binds_of_isPure h, hbinds, bindTo, Expr.asName?]

theorem boundNames_localVars (names : List String) {values : List Expr}
    (h : ∀ e ∈ values, IsPure e) : boundNames (.localVars names values) = names := by
  rw [boundNames, binds_localVars names h]
  induction names generalizing values with
  | nil => rfl
  | cons n names ih =>
    exact congrArg (List.cons n) (ih fun e he => h e (List.mem_of_mem_tail he))

/-- The values that a name is bound to, in order; none where it is declared without one. -/
def valuesOf (binds : List (String × Option Expr)) (n : String) : List (Option Expr) :=
  binds.filterMap fun bind => if bind.1 = n then some bind.2 else none

theorem valuesOf_append (left right : List (String × Option Expr)) (n : String) :
    valuesOf (left ++ right) n = valuesOf left n ++ valuesOf right n :=
  List.filterMap_append

theorem mem_valuesOf_iff {binds : List (String × Option Expr)} {n : String} {v : Option Expr} :
    v ∈ valuesOf binds n ↔ (n, v) ∈ binds := by
  rw [valuesOf, List.mem_filterMap]
  constructor
  · rintro ⟨⟨m, w⟩, hmem, hv⟩
    split at hv
    · rename_i hm
      cases hv
      cases hm
      exact hmem
    · cases hv
  · exact fun hmem => ⟨(n, v), hmem, if_pos rfl⟩

theorem valuesOf_eq_nil_iff {s : Stmt} {n : String} :
    valuesOf (ofStmt s).binds n = [] ↔ n ∉ boundNames s := by
  rw [List.eq_nil_iff_forall_not_mem, boundNames, List.mem_map]
  constructor
  · rintro h ⟨⟨m, v⟩, hmem, rfl⟩
    exact h v (mem_valuesOf_iff.2 hmem)
  · exact fun h v hv => h ⟨(n, v), mem_valuesOf_iff.1 hv, rfl⟩

/-! ## What is read -/

theorem reads_localVars (names : List String) (values : List Expr) :
    (ofStmt (.localVars names values)).reads = (ofExprs values).reads :=
  List.append_nil _

theorem reads_name (n : String) (e : Expr) :
    (ofStmt (.assign [.name n] [e])).reads = (ofExpr e).reads :=
  (List.append_nil _).trans (List.append_nil _)

theorem reads_slot {target : Expr} (hname : target.isAnyName = false) (e : Expr) :
    (ofStmt (.assign [target] [e])).reads = (ofExpr target).reads ++ (ofExpr e).reads := by
  cases target with
  | name n => cases hname
  | _ => simp [ofStmt, ofTargets, ofExprs]

/-! ## What a statement does -/

namespace Store

omit [DecidableEq V]

theorem setAll_slots (σ : Store V) (pairs : List (String × V)) :
    (σ.setAll pairs).slots = σ.slots := by
  induction pairs generalizing σ with
  | nil => rfl
  | cons pair pairs ih => exact ih _

/-- A name has the last of the values that it was given. -/
theorem setAll_names (σ : Store V) (pairs : List (String × V)) (n : String) :
    (σ.setAll pairs).names n =
      (pairs.filterMap fun pair => if pair.1 = n then some pair.2 else none).getLast?.getD
        (σ.names n) := by
  induction pairs generalizing σ with
  | nil => rfl
  | cons pair pairs ih =>
    refine (ih (σ.set pair.1 pair.2)).trans ?_
    rw [List.filterMap_cons]
    by_cases hn : pair.1 = n
    · rw [if_pos hn, List.getLast?_cons, Option.getD_some]
      exact congrArg _ (if_pos hn.symm)
    · rw [if_neg hn]
      exact congrArg _ (if_neg (Ne.symm hn))

end Store

variable {M : Meaning V} {σ τ : Store V} {s : Stmt} {e : Expr} {n : String}

/-- A statement binds names one after the other, to the values that they have before it. -/
theorem step_eq_setAll (h : IsStraight s) (M : Meaning V) (σ : Store V) :
    (step M σ s).names = (σ.setAll ((ofStmt s).binds.map (pairOf M σ))).names := by
  cases h with
  | declare names h => rw [step, valued_eq, binds_localVars names h]
  | name n h =>
    rw [binds_name n h]
    rfl
  | member k ht h =>
    rw [binds_slot (by exact ht) rfl h]
    rfl
  | index ht hk h =>
    rw [binds_slot (by exact ⟨ht, hk⟩) rfl h]
    rfl

/-- After a statement a name has the last of the values that the statement binds it to. -/
theorem step_names (h : IsStraight s) (M : Meaning V) (σ : Store V) (n : String) :
    (step M σ s).names n =
      ((valuesOf (ofStmt s).binds n).map (·.elim M.nil (eval M σ))).getLast?.getD (σ.names n) := by
  rw [step_eq_setAll h, Store.setAll_names, List.filterMap_map, valuesOf, List.map_filterMap]
  congr 3
  funext bind
  by_cases hn : bind.1 = n <;> simp [pairOf, hn]

theorem step_slots (h : IsStraight s) (hchanges : changesSlots s = false) :
    (step M σ s).slots = σ.slots := by
  cases h with
  | declare names h => exact Store.setAll_slots _ _
  | name n h => rfl
  | member | index => cases hchanges

/-- A statement keeps the names that it does not bind. -/
theorem step_names_of_not_mem (h : IsStraight s) (hn : n ∉ boundNames s) :
    (step M σ s).names n = σ.names n := by
  rw [step_names h, valuesOf_eq_nil_iff.2 hn]
  rfl

/-- Whether a statement binds a name just once, to an expression. -/
def Binds (s : Stmt) (n : String) (e : Expr) : Prop := valuesOf (ofStmt s).binds n = [some e]

theorem step_names_of_binds (h : IsStraight s) (hbinds : Binds s n e) :
    (step M σ s).names n = eval M σ e := by
  rw [step_names h, hbinds]
  rfl

/-! ## What an expression depends on -/

/-- Whether an expression reads a table slot. -/
def readsSlots : Expr → Bool
  | .member _ _ | .index _ _ => true
  | .binary _ l r => readsSlots l || readsSlots r
  | _ => false

/-- Whether a statement leaves everything as it is that an expression reads. -/
structure Keeps (s : Stmt) (e : Expr) : Prop where
  names : ∀ n ∈ (ofExpr e).reads, n ∉ boundNames s
  slots : readsSlots e = true → changesSlots s = false

theorem reads_index (t k : Expr) :
    (ofExpr (.index t k)).reads = (ofExpr t).reads ++ (ofExpr k).reads := rfl

theorem reads_binary (op : BinaryOp) (l r : Expr) :
    (ofExpr (.binary op l r)).reads = (ofExpr l).reads ++ (ofExpr r).reads := rfl

omit [DecidableEq V] in
/-- The value of an expression depends on what it reads. -/
theorem eval_congr : ∀ {e : Expr}, IsPure e → (∀ n ∈ (ofExpr e).reads, σ.names n = τ.names n) →
    (readsSlots e = true → σ.slots = τ.slots) → eval M σ e = eval M τ e
  | .nil, _, _, _ | .boolean _, _, _, _ | .number _, _, _, _ | .string _, _, _, _ => rfl
  | .name n, _, hnames, _ => hnames n List.mem_cons_self
  | .member t k, h, hnames, hslots => by
    have hslots := hslots rfl
    rw [eval, eval, hslots, eval_congr (e := t) h hnames fun _ => hslots]
  | .index t k, h, hnames, hslots => by
    rw [reads_index, List.forall_mem_append] at hnames
    have hslots := hslots rfl
    rw [eval, eval, hslots, eval_congr h.1 hnames.1 fun _ => hslots,
      eval_congr h.2 hnames.2 fun _ => hslots]
  | .binary op l r, h, hnames, hslots => by
    rw [reads_binary, List.forall_mem_append] at hnames
    rw [eval, eval,
      eval_congr h.1 hnames.1 fun hl => hslots (Bool.or_eq_true_iff.2 (.inl hl)),
      eval_congr h.2 hnames.2 fun hr => hslots (Bool.or_eq_true_iff.2 (.inr hr))]

/-- What a statement keeps has the same value after it. -/
theorem eval_step_of_keeps (h : IsStraight s) (he : IsPure e) (hkeeps : Keeps s e) :
    eval M (step M σ s) e = eval M σ e :=
  eval_congr he (fun n hn => step_names_of_not_mem h (hkeeps.names n hn))
    fun hslots => step_slots h (hkeeps.slots hslots)

end LuaUnpack.Handler.Simplify
