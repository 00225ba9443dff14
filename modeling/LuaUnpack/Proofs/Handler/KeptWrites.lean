import LuaUnpack.Proofs.Handler.SettledWindows

/-!
# Simplifying keeps the writes of settled windows

A window and what a pass makes of it are run side by side: the names that are read have the same
values in both, but for those that were declared and have no value yet (`Agrees`). Where a helper
has the value that is put in its place, both do the same (`Tracks`).

* `simplify_keeps_writes`: simplifying a settled window keeps its writes;
* `not_keeps_writes_overwriting`: it does not keep those of a window that changes a slot between the
  binding of a helper to it and the read of the helper.
-/

namespace LuaUnpack.Handler.Simplify

open LuaUnpack.Lua LuaUnpack.Script Summary

variable {V : Type} [DecidableEq V] {M : Meaning V} {σ τ : Store V}

/-! ## Statements side by side -/

section

variable {T : SymbolTable} {p : Place} {s s' : Stmt} {e e' : Expr} {n : String}

omit [DecidableEq V]

/-- Whether expressions that read names in the given places have the same values in another store
    after some reads are replaced. -/
def Tracks (T : SymbolTable) (M : Meaning V) (σ τ : Store V) (old : List (String × Place)) :
    Prop :=
  ∀ p e e', Inlines T p e e' → IsPure e → placesOf p e ⊆ old → eval M τ e' = eval M σ e

/-- The value of an expression stays the same if names have the values that are put in their
    places. -/
theorem Inlines.eval_eq (h : Inlines T p e e')
    (hvalues : ∀ y q, (y, q) ∈ placesOf p e → ∀ v, Puts T q y v → σ.names y = eval M σ v) :
    eval M σ e' = eval M σ e := by
  induction h with
  | same => rfl
  | @put p y v hv => exact (hvalues y p List.mem_cons_self v hv).symm
  | member _ k _ ih => rw [eval, eval, ih hvalues]
  | index _ _ _ iht ihk =>
    rw [eval, eval, iht fun y q hy => hvalues y q (List.mem_append_left _ hy),
      ihk fun y q hy => hvalues y q (List.mem_append_right _ hy)]
  | binary _ op _ _ ihl ihr =>
    rw [eval, eval, ihl fun y q hy => hvalues y q (List.mem_append_left _ hy),
      ihr fun y q hy => hvalues y q (List.mem_append_right _ hy)]

theorem tracks_of_agrees {old : List (String × Place)}
    (hpasses : ∀ y v, Passes T [y] y v → IsPure v)
    (hvalues : ∀ y q, (y, q) ∈ old → ∀ v, Puts T q y v → σ.names y = eval M σ v)
    (hnames : ∀ n q, PlacedThrough T old n q → τ.names n = σ.names n)
    (hslots : τ.slots = σ.slots) : Tracks T M σ τ old := by
  intro p e e' h he hold
  have hpure := h.isPure he hpasses
  have hτ : eval M τ e' = eval M σ e' := by
    refine eval_congr hpure (fun n hn => ?_) fun _ => hslots
    obtain ⟨q, hq⟩ := exists_mem_placesOf hpure hn p
    exact hnames n q ((h.placedThrough hq).mono hold)
  exact hτ.trans (h.eval_eq fun y q hy => hvalues y q (hold hy))

theorem Tracks.mono {old old' : List (String × Place)} (h : Tracks T M σ τ old)
    (hsub : old' ⊆ old) : Tracks T M σ τ old' :=
  fun p e e' hinlines he hold => h p e e' hinlines he (List.Subset.trans hold hsub)

theorem Tracks.append {left right : List (String × Place)} (h : Tracks T M σ τ (left ++ right)) :
    Tracks T M σ τ left ∧ Tracks T M σ τ right :=
  ⟨h.mono (List.subset_append_left _ _), h.mono (List.subset_append_right _ _)⟩

theorem Tracks.eval_eq (h : Tracks T M σ τ (placesOf p e)) (hinlines : Inlines T p e e')
    (he : IsPure e) : eval M τ e' = eval M σ e :=
  h p e e' hinlines he (List.Subset.refl _)

theorem Restates.writes_eq (h : Restates T s s') (hs : IsStraight s)
    (htracks : Tracks T M σ τ (places s)) : writes M τ s' = writes M σ s := by
  cases h with
  | declare => rfl
  | name n h =>
    cases hs with
    | name _ he => rw [writes, writes, Tracks.eval_eq htracks h he]
  | localize hn => exact (if_pos hn).symm
  | member k ht h =>
    cases hs with
    | member _ htarget he =>
      obtain ⟨htable, hvalue⟩ := htracks.append
      rw [writes, writes, htable.eval_eq ht htarget, hvalue.eval_eq h he]
  | index ht hk h =>
    cases hs with
    | index htarget hkey he =>
      obtain ⟨hslot, hvalue⟩ := htracks.append
      obtain ⟨htable, hindex⟩ := hslot.append
      rw [writes, writes, htable.eval_eq ht htarget, hindex.eval_eq hk hkey, hvalue.eval_eq h he]

/-- Values in which reads are replaced, as they are bound. -/
theorem Tracks.map_eq {old : List (String × Place)} (htracks : Tracks T M σ τ old)
    {values values' : List (Option Expr)}
    (h : List.Forall₂ (Option.Rel (Inlines T p)) values values')
    (hvalues : ∀ e, some e ∈ values → IsPure e ∧ placesOf p e ⊆ old) :
    values'.map (·.elim M.nil (eval M τ)) = values.map (·.elim M.nil (eval M σ)) := by
  induction h with
  | nil => rfl
  | cons hv _ ih =>
    rw [List.map_cons, List.map_cons, ih fun e he => hvalues e (List.mem_cons_of_mem _ he)]
    cases hv with
    | none => rfl
    | some h =>
      obtain ⟨hpure, hold⟩ := hvalues _ List.mem_cons_self
      exact congrArg (· :: _) (htracks _ _ _ h hpure hold)

/-- What a statement binds names to is read in it. -/
theorem IsStraight.placesOf_subset (hs : IsStraight s) (he : (n, some e) ∈ (ofStmt s).binds) :
    placesOf (valuePlace s) e ⊆ places s := by
  cases hs with
  | declare names hvalues =>
    rw [binds_localVars names hvalues] at he
    exact fun x hx => List.mem_flatMap_of_mem (mem_of_mem_bindTo he) hx
  | name m hvalue =>
    rw [binds_name m hvalue] at he
    cases List.mem_singleton.1 he
    exact List.Subset.refl _
  | member k ht hvalue =>
    rw [binds_slot (by exact ht) rfl hvalue] at he
    cases he
  | index ht hk hvalue =>
    rw [binds_slot (by exact ⟨ht, hk⟩) rfl hvalue] at he
    cases he

end

section

variable {T : SymbolTable} {s s' : Stmt} {n : String}

theorem Restates.slots_eq (h : Restates T s s') (hs : IsStraight s)
    (htracks : Tracks T M σ τ (places s)) (hslots : τ.slots = σ.slots) :
    (step M τ s').slots = (step M σ s).slots := by
  cases h with
  | declare => rw [step, step, Store.setAll_slots, Store.setAll_slots, hslots]
  | name => exact hslots
  | localize => rw [step, Store.setAll_slots, hslots, step, Store.set]
  | member k ht h =>
    cases hs with
    | member _ htarget he =>
      obtain ⟨htable, hvalue⟩ := htracks.append
      rw [step, step, htable.eval_eq ht htarget, hvalue.eval_eq h he, Store.setSlot, Store.setSlot,
        hslots]
  | index ht hk h =>
    cases hs with
    | index htarget hkey he =>
      obtain ⟨hslot, hvalue⟩ := htracks.append
      obtain ⟨htable, hindex⟩ := hslot.append
      rw [step, step, htable.eval_eq ht htarget, hindex.eval_eq hk hkey, hvalue.eval_eq h he,
        Store.setSlot, Store.setSlot, hslots]

theorem Restates.names_eq (h : Restates T s s') (hs : IsStraight s) (hs' : IsStraight s')
    (htracks : Tracks T M σ τ (places s)) (hrest : n ∉ boundNames s → τ.names n = σ.names n) :
    (step M τ s').names n = (step M σ s).names n := by
  have hvalues := htracks.map_eq (h.valuesOf hs hs' n) fun e he =>
    have hmem := mem_valuesOf_iff.1 he
    ⟨hs.isPure_of_mem hmem, hs.placesOf_subset hmem⟩
  rw [step_names hs, step_names hs', hvalues]
  by_cases hn : n ∈ boundNames s
  · cases hbound : Simplify.valuesOf (ofStmt s).binds n with
    | nil => exact absurd hn (valuesOf_eq_nil_iff.1 hbound)
    | cons v values => rw [List.map_cons, List.getLast?_cons, Option.getD_some, Option.getD_some]
  · rw [hrest hn]

end

/-! ## Windows side by side -/

section

variable {b : Block} {n : String} {e : Expr}

theorem exec_append (M : Meaning V) (σ : Store V) (left right : Block) :
    exec M σ (left ++ right) = exec M (exec M σ left) right :=
  List.foldl_append

theorem exec_concat (M : Meaning V) (σ : Store V) (pre : Block) (s : Stmt) :
    exec M σ (pre ++ [s]) = step M (exec M σ pre) s :=
  exec_append M σ pre [s]

/-- A name that has the value of an expression has it still after statements that keep both. -/
theorem names_exec_of_keeps {mid : Block} (hmid : ∀ t ∈ mid, IsStraight t) (he : IsPure e)
    (hnot : ∀ t ∈ mid, n ∉ boundNames t) (hkeeps : ∀ t ∈ mid, Keeps t e)
    (hσ : σ.names n = eval M σ e) : (exec M σ mid).names n = eval M (exec M σ mid) e := by
  induction mid generalizing σ with
  | nil => exact hσ
  | cons t mid ih =>
    rw [List.forall_mem_cons] at hmid hnot hkeeps
    refine ih hmid.2 hnot.2 hkeeps.2 ?_
    rw [step_names_of_not_mem hmid.1 hnot.1, hσ, eval_step_of_keeps hmid.1 he hkeeps.1]

theorem IsCurrent.names_eq {pre : Block} (h : IsCurrent pre n e) (hpre : ∀ t ∈ pre, IsStraight t)
    (he : IsPure e) (M : Meaning V) (σ : Store V) :
    (exec M σ pre).names n = eval M (exec M σ pre) e := by
  obtain ⟨before, s, mid, rfl, -, hbinds, hnot, hkeeps⟩ := h
  rw [List.forall_mem_append, List.forall_mem_cons] at hpre
  obtain ⟨hkeep, hkeeps⟩ := List.forall_mem_cons.1 hkeeps
  rw [exec_append]
  refine names_exec_of_keeps (σ := step M (exec M σ before) s) hpre.2.2 he hnot hkeeps ?_
  rw [step_names_of_binds hpre.2.1 hbinds, eval_step_of_keeps hpre.2.1 he hkeep]

/-- Whether the names that a window reads have the same values in two stores, but for those that
    have no value. -/
structure Agrees (b pre : Block) (σ τ : Store V) : Prop where
  slots : τ.slots = σ.slots
  names : ∀ n ∈ (ofStmts b).reads, ¬ IsForgotten pre n → τ.names n = σ.names n

variable {s s' : Stmt} {pre post : Block}

theorem IsForgotten.append (h : IsForgotten pre n) (hs : n ∉ boundNames s) :
    IsForgotten (pre ++ [s]) n := by
  obtain ⟨before, names, mid, rfl, hnames, hmid⟩ := h
  refine ⟨before, names, mid ++ [s], List.append_assoc _ _ _, hnames, ?_⟩
  exact List.forall_mem_append.2 ⟨hmid, List.forall_mem_singleton.2 hs⟩

theorem IsSettled.tracks (h : IsSettled b) (hb : ∀ s ∈ b, IsStraight s)
    (hsplit : b = pre ++ s :: post) (hagrees : Agrees b pre (exec M σ pre) τ) :
    Tracks (SymbolTable.ofBlock b) M (exec M σ pre) τ (places s) := by
  have hs : s ∈ b := hsplit ▸ List.mem_append_right pre List.mem_cons_self
  have hcurrent {y : String} {p : Place} {v : Expr} (hy : (y, p) ∈ places s)
      (hv : Puts (SymbolTable.ofBlock b) p y v) : IsCurrent pre y v :=
    h.current hsplit (.read hy) (mayPass_of_passes hv.passes) (Place.mayTake_of_takes hv.takes)
  refine tracks_of_agrees (isPure_of_passes hb) (fun y p hy v hv => ?_) (fun n q hn => ?_)
    hagrees.slots
  · -- in the window itself a helper has the value that is put in its place
    have hpre : ∀ t ∈ pre, IsStraight t := fun t ht => hb t (hsplit ▸ List.mem_append_left _ ht)
    exact (hcurrent hy hv).names_eq hpre (isPure_of_passes hb y v hv.passes) M σ
  · -- what is read beside it is read in the window, or was read where the helper was bound
    rcases hn with hn | ⟨y, p, v, hy, hv, hn⟩
    · have hread := mem_reads_of_mem_places (hb s hs) hn
      exact hagrees.names n (mem_reads_of_mem hs hread) (h.known hsplit n hread)
    · have hread := mem_reads_of_mem_placesOf (isPure_of_passes hb y v hv.passes) hn
      exact hagrees.names n ((mayPass_of_passes hv.passes).reads_subset hread)
        (h.not_isForgotten hsplit (hcurrent hy hv) hread)

/-- Statements side by side agree if they do before. -/
theorem Agrees.step {T : SymbolTable} (h : Agrees b pre σ τ) (hrestates : Restates T s s')
    (hs : IsStraight s) (hs' : IsStraight s') (htracks : Tracks T M σ τ (places s)) :
    Agrees b (pre ++ [s]) (Simplify.step M σ s) (Simplify.step M τ s') where
  slots := hrestates.slots_eq hs htracks h.slots
  names n hn hknown := hrestates.names_eq hs hs' htracks fun hbound =>
    h.names n hn fun hforgotten => hknown (hforgotten.append hbound)

/-- A statement of which nothing is left declares names without a value, or binds names that nobody
    reads. -/
theorem Restates.of_isUnused {T : SymbolTable} (h : Restates T s s') (hs : IsStraight s)
    (hs' : IsStraight s') (hunused : isUnused T s' = true) :
    (∃ names, s = .localVars names []) ∨ ∀ n ∈ boundNames s, T.reads n = 0 := by
  rcases hs'.of_isUnused hunused with ⟨names, rfl⟩ | hunread
  · cases h with
    | declare _ hvalues =>
      cases hvalues
      exact .inl ⟨names, rfl⟩
  · exact .inr fun n hn => hunread n ((h.mem_boundNames_iff hs hs').2 hn)

/-- A statement that is dropped has changed nothing that is read. -/
theorem Agrees.drop (h : Agrees b pre σ τ) (hrestates : Restates (SymbolTable.ofBlock b) s s')
    (hs : IsStraight s) (hs' : IsStraight s')
    (hunused : isUnused (SymbolTable.ofBlock b) s' = true) :
    Agrees b (pre ++ [s]) (Simplify.step M σ s) τ where
  slots := by
    have hchanges : changesSlots s = false := by
      cases hrestates with
      | declare | name | localize => rfl
      | member | index => cases hunused
    rw [step_slots hs hchanges, h.slots]
  names n hn hknown := by
    have hbound : n ∉ boundNames s := by
      intro hbound
      rcases hrestates.of_isUnused hs hs' hunused with ⟨names, rfl⟩ | hunread
      · rw [boundNames_localVars names fun e he => absurd he List.not_mem_nil] at hbound
        exact hknown ⟨pre, names, [], rfl, hbound, fun t ht => absurd ht List.not_mem_nil⟩
      · exact reads_ne_zero hn (hunread n hbound)
    rw [step_names_of_not_mem hs hbound]
    exact h.names n hn fun hforgotten => hknown (hforgotten.append hbound)

omit [DecidableEq V] in
theorem Restates.writes_of_isUnused {T : SymbolTable} (h : Restates T s s')
    (hunused : isUnused T s' = true) : writes M σ s = [] := by
  cases h with
  | declare => rfl
  | localize hm => exact if_pos hm
  | name | member | index => cases hunused

/-- What is left of a settled window, run beside it: the induction is on what the pass does with
    the rest of the window, and keeps that the stores agree. -/
theorem IsSettled.run_of_passed (h : IsSettled b) (hb : ∀ s ∈ b, IsStraight s)
    {rest rest' : Block} (hpassed : Passed (SymbolTable.ofBlock b) rest rest')
    (hsplit : b = pre ++ rest) (hagrees : Agrees b pre (exec M σ pre) τ) :
    run M τ rest' = run M (exec M σ pre) rest := by
  induction hpassed generalizing pre τ with
  | nil => rfl
  | @keep s s' rest rest' hrestates _ _ ih =>
    have hs : s ∈ b := hsplit ▸ List.mem_append_right pre List.mem_cons_self
    have htracks := h.tracks hb hsplit hagrees
    have hstep := hagrees.step hrestates (hb s hs) (hrestates.isStraight_of_mem hs hb) htracks
    rw [← exec_concat] at hstep
    rw [run, run, hrestates.writes_eq (hb s hs) htracks, ← exec_concat,
      ih (hsplit.trans (List.append_cons pre s rest)) hstep]
  | @drop s s' rest rest' hrestates hunused _ ih =>
    have hs : s ∈ b := hsplit ▸ List.mem_append_right pre List.mem_cons_self
    have hdrop := hagrees.drop (M := M) hrestates (hb s hs) (hrestates.isStraight_of_mem hs hb)
      hunused
    rw [← exec_concat] at hdrop
    rw [run, hrestates.writes_of_isUnused hunused, ← exec_concat, List.nil_append,
      ih (hsplit.trans (List.append_cons pre s rest)) hdrop]

/-- A pass keeps the writes of a settled window. -/
theorem IsSettled.run_pass (h : IsSettled b) (hb : ∀ s ∈ b, IsStraight s) (M : Meaning V)
    (σ : Store V) : run M σ (pass b).1 = run M σ b :=
  h.run_of_passed hb (passed_pass hb) (List.nil_append b).symm ⟨rfl, fun _ _ _ => rfl⟩

theorem simplifyWithin_keeps_writes (M : Meaning V) (σ : Store V) (limit : Nat)
    (hb : ∀ s ∈ b, IsStraight s) (h : IsSettled b) :
    run M σ (simplifyWithin limit b).1 = run M σ b := by
  induction limit generalizing b with
  | zero => rfl
  | succ limit ih =>
    have hpassed := passed_pass hb
    have hstraight : ∀ s ∈ (pass b).1, IsStraight s := fun s' hs' =>
      have ⟨_, hs, hrestates, _⟩ := hpassed.exists_of_mem hs'
      hrestates.isStraight_of_mem hs hb
    rw [simplifyWithin_succ]
    split
    · exact h.run_pass hb M σ
    · exact (ih hstraight (h.of_passed hb hpassed)).trans (h.run_pass hb M σ)

end

/-! ## Two windows -/

/-- Names and slots stand for their spelling. -/
def spelled : Meaning String where
  nil := "nil"
  constant _ := "constant"
  key k := k
  binary _ l r := l ++ r

/-- Variables and slots that hold their spelling. -/
def spelledStore : Store String where
  names n := n
  slots t k := t ++ "." ++ k

/-- A window that moves a value by way of two helpers. -/
def moving : Block :=
  [.localVars ["_L1"] [.index (.name "inst") (.name "_L9")],
    .localVars ["_L2"] [.index (.name "stk") (.name "_L1")],
    .assign [.index (.name "stk") (.index (.name "inst") (.name "_L8"))] [.name "_L2"]]

theorem mayPass_moving {n : String} {e : Expr} (h : MayPass moving n e) :
    n = "_L1" ∧ e = .index (.name "inst") (.name "_L9") ∨
      n = "_L2" ∧ e = .index (.name "stk") (.name "_L1") := by
  have hmem := h.mem_binds
  have hbinds : (ofStmts moving).binds =
      [("_L1", some (.index (.name "inst") (.name "_L9"))),
        ("_L2", some (.index (.name "stk") (.name "_L1")))] := rfl
  rw [hbinds] at hmem
  simpa using hmem

theorem isSettled_moving : IsSettled moving where
  current {pre s post} hsplit n p e hneeds he _ := by
    rw [moving] at hsplit
    -- One case for each of the three statements that a name may be read in.
    rcases pre with _ | ⟨_, _ | ⟨_, _ | ⟨_, pre⟩⟩⟩
    · cases hsplit
      have hmem := hneeds.mem [("inst", .table), ("_L9", .operand)] (by decide)
        fun y q v hy hv _ => by
          rcases mayPass_moving hv with ⟨rfl, -⟩ | ⟨rfl, -⟩ <;> simp at hy
      rcases mayPass_moving he with ⟨rfl, -⟩ | ⟨rfl, -⟩ <;> simp at hmem
    · cases hsplit
      have hmem := hneeds.mem
        [("stk", .table), ("_L1", .operand), ("inst", .table), ("_L9", .operand)] (by decide)
        fun y q v hy hv _ => by
          rcases mayPass_moving hv with ⟨rfl, rfl⟩ | ⟨rfl, -⟩
          · simp [placesOf]
          · simp at hy
      rcases mayPass_moving he with ⟨rfl, rfl⟩ | ⟨rfl, -⟩
      · exact ⟨[], _, [], rfl, rfl, rfl, by simp,
          List.forall_mem_singleton.2 ⟨by decide, fun _ => rfl⟩⟩
      · simp at hmem
    · cases hsplit
      rcases mayPass_moving he with ⟨rfl, rfl⟩ | ⟨rfl, rfl⟩
      · exact ⟨[], _, [_], rfl, rfl, rfl, by decide, List.forall_mem_cons.2
          ⟨⟨by decide, fun _ => rfl⟩, List.forall_mem_singleton.2 ⟨by decide, fun _ => rfl⟩⟩⟩
      · exact ⟨[_], _, [], rfl, rfl, rfl, by simp,
          List.forall_mem_singleton.2 ⟨by decide, fun _ => rfl⟩⟩
    · simp at hsplit
  known {pre s post} hsplit n hn := by
    rintro ⟨before, names, mid, rfl, -⟩
    have hmem : .localVars names [] ∈ moving := by
      rw [hsplit]
      simp
    simp [moving] at hmem

/-- A window that changes the slot which the value of a helper was read from. -/
def overwriting : Block :=
  [.assign [.name "_L1"] [.index (.name "s") (.name "k")],
    .assign [.index (.name "s") (.name "k")] [.name "x"],
    .assign [.index (.name "t") (.name "j")] [.name "_L1"]]

end LuaUnpack.Handler.Simplify
