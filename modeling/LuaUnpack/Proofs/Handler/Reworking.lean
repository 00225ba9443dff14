import LuaUnpack.Proofs.Handler.Summary
import Mathlib.Data.List.Perm.Subperm

/-!
# What one pass does

A pass leaves a read of a name as it is, or puts in its place the value that the name passes on: a
name, an element of a table or the result of a binary operator (`Moved`). Apart from this it makes
assignments to declarations and drops declarations. Of all this only what can be counted is kept
(`Reworks`): which reads there are, and how many bindings have a value of each kind.
-/

namespace LuaUnpack.Handler.Simplify

open LuaUnpack.Lua LuaUnpack.Script

/-! ## Kinds of values -/

/-- Whether a value is an element that can be passed on: a name of a name. -/
def isElement : Expr → Bool
  | .index (.name _) (.name _) => true
  | _ => false

/-- Whether a value is the result of a binary operator. -/
def isBinary : Expr → Bool
  | .binary _ _ _ => true
  | _ => false

/-- The names that a value reads that can be passed on as a name or as an element. -/
def heldNames : Option Expr → List String
  | some (.name m) => [m]
  | some (.index (.name t) (.name k)) => [t, k]
  | _ => []

/-- How often the values of bindings that can be passed on as names or elements read a name. -/
def held (n : String) (binds : List (String × Option Expr)) : Nat :=
  (binds.flatMap fun bind => heldNames bind.2).count n

/-- How many bindings have a name as their value. -/
def countNames (binds : List (String × Option Expr)) : Nat :=
  binds.countP fun bind => bind.2.any Expr.isAnyName

/-- How many bindings have an element as their value. -/
def countElements (binds : List (String × Option Expr)) : Nat :=
  binds.countP fun bind => bind.2.any isElement

/-- The name that a binding passes on. -/
def aliasPart (bind : String × Option Expr) : String × Option String :=
  (bind.1, bind.2.bind Expr.asName?)

/-- Whether the operators that helpers pass on have no functions among their operands. -/
def ArePlain (binds : List (String × Option Expr)) : Prop :=
  ∀ n v, (n, some v) ∈ binds → isInvented n = true → isBinary v = true →
    (Summary.ofExpr v).functions = 0

section

variable {n : String} (left right : List (String × Option Expr))

@[simp]
theorem held_append : held n (left ++ right) = held n left + held n right := by
  rw [held, held, held, List.flatMap_append, List.count_append]

@[simp]
theorem held_nil : held n [] = 0 := rfl

@[simp]
theorem held_singleton (bind : String × Option Expr) : held n [bind] = (heldNames bind.2).count n := by
  rw [held, List.flatMap_singleton]

@[simp]
theorem countNames_append : countNames (left ++ right) = countNames left + countNames right :=
  List.countP_append

@[simp]
theorem countElements_append :
    countElements (left ++ right) = countElements left + countElements right :=
  List.countP_append

@[simp]
theorem countNames_nil : countNames [] = 0 := rfl

@[simp]
theorem countElements_nil : countElements [] = 0 := rfl

theorem arePlain_append_iff :
    ArePlain (left ++ right) ↔ ArePlain left ∧ ArePlain right := by
  simp only [ArePlain, List.mem_append, or_imp, forall_and]

theorem arePlain_nil : ArePlain [] := fun _ _ h => absurd h List.not_mem_nil

end

/-! ## Values of names -/

section

variable {T : SymbolTable} {e v : Expr}

theorem exists_of_helper? {info : SymbolInfo} (h : helper? T e = some info) :
    ∃ n, e = .name n ∧ isInvented n = true ∧ T.get? n = some info := by
  cases e with
  | name n =>
    rw [helper?] at h
    split at h
    · exact ⟨n, rfl, ‹_›, h⟩
    · cases h
  | _ => cases h

theorem exists_of_nameValue? (h : nameValue? T e = some v) :
    ∃ n m info, e = .name n ∧ v = .name m ∧ isInvented n = true ∧ T.get? n = some info ∧
      info.value = some (.name m) := by
  obtain ⟨info, hinfo, hvalue⟩ := Option.bind_eq_some_iff.1 h
  obtain ⟨n, rfl, hn, hget⟩ := exists_of_helper? hinfo
  split at hvalue
  · rename_i m hm
    exact ⟨n, m, info, rfl, (Option.some.inj hvalue).symm, hn, hget, hm⟩
  · cases hvalue

theorem exists_of_elementValue? (h : elementValue? T e = some v) :
    ∃ n t k info, e = .name n ∧ v = .index (.name t) (.name k) ∧ isInvented n = true ∧
      T.get? n = some info ∧ info.value = some (.index (.name t) (.name k)) ∧ info.reads = 1 := by
  obtain ⟨info, hinfo, hvalue⟩ := Option.bind_eq_some_iff.1 h
  obtain ⟨n, rfl, hn, hget⟩ := exists_of_helper? hinfo
  split at hvalue
  · rename_i t k hindex
    split at hvalue
    · rename_i hreads
      exact ⟨n, t, k, info, rfl, (Option.some.inj hvalue).symm, hn, hget, hindex,
        beq_iff_eq.1 hreads⟩
    · cases hvalue
  · cases hvalue

theorem exists_of_binaryValue? (h : binaryValue? T e = some v) :
    ∃ n op l r info, e = .name n ∧ v = .binary op l r ∧ isInvented n = true ∧
      T.get? n = some info ∧ info.value = some (.binary op l r) ∧ info.reads = 1 ∧
      info.assignments = 0 := by
  obtain ⟨info, hinfo, hvalue⟩ := Option.bind_eq_some_iff.1 h
  obtain ⟨n, rfl, hn, hget⟩ := exists_of_helper? hinfo
  split at hvalue
  · rename_i op l r hbinary
    split at hvalue
    · rename_i hcounts
      obtain ⟨hreads, hassignments⟩ := Bool.and_eq_true_iff.1 hcounts
      exact ⟨n, op, l, r, info, rfl, (Option.some.inj hvalue).symm, hn, hget, hbinary,
        beq_iff_eq.1 hreads, beq_iff_eq.1 hassignments⟩
    · cases hvalue
  · cases hvalue

end

/-! ## Moves -/

/-- Whether a name passes on a value that can be put in the place of a read of it. -/
inductive Passes (T : SymbolTable) (operands : List String) (n : String) : Expr → Prop
  | name {m : String} (h : nameValue? T (.name n) = some (.name m)) (hn : n ∈ operands) :
    Passes T operands n (.name m)
  | element {t k : String} (h : elementValue? T (.name n) = some (.index (.name t) (.name k))) :
    Passes T operands n (.index (.name t) (.name k))
  | result {op : BinaryOp} {l r : Expr} (h : binaryValue? T (.name n) = some (.binary op l r)) :
    Passes T operands n (.binary op l r)

theorem Passes.mono {T : SymbolTable} {operands operands' : List String} {n : String} {v : Expr}
    (h : Passes T operands n v) (hsub : operands ⊆ operands') : Passes T operands' n v := by
  cases h with
  | name h hn => exact .name h (hsub hn)
  | element h => exact .element h
  | result h => exact .result h

/-- Whether a move puts an element in the place of a name. -/
def isElementOf (n : String) (move : String × Expr) : Bool := move.1 == n && isElement move.2

/-- Whether the reads of a part are kept, but for some of names in whose places their values are
    put. -/
structure Moved (T : SymbolTable) (old new : Summary) (kept : List String)
    (moves : List (String × Expr)) : Prop where
  passes : ∀ move ∈ moves, Passes T old.operands move.1 move.2
  reads_old : old.reads.Perm (kept ++ moves.map Prod.fst)
  reads_new : new.reads.Perm (kept ++ moves.flatMap fun move => (Summary.ofExpr move.2).reads)
  /-- A result takes the place of a name as the value of a binding. -/
  results : countNames new.binds + moves.countP (fun move => isBinary move.2) ≤
    countNames old.binds
  /-- A read that is not held by a binding, or by one with an element that is none after it. -/
  elements : ∀ n, held n old.binds + moves.countP (isElementOf n) + countElements new.binds ≤
    old.reads.count n + countElements old.binds

theorem perm_add {α : Type} {kept kept' moved moved' : List α} :
    (kept ++ moved ++ (kept' ++ moved')).Perm (kept ++ kept' ++ (moved ++ moved')) := by
  rw [List.append_assoc, List.append_assoc, List.perm_append_left_iff, ← List.append_assoc,
    ← List.append_assoc, List.perm_append_right_iff]
  exact List.perm_append_comm

theorem Moved.add {T : SymbolTable} {p p' q q' : Summary} {kept kept' : List String}
    {moves moves' : List (String × Expr)} (h : Moved T p p' kept moves)
    (h' : Moved T q q' kept' moves') :
    Moved T (p + q) (p' + q') (kept ++ kept') (moves ++ moves') where
  passes move hmove := by
    rcases List.mem_append.1 hmove with hmove | hmove
    · exact (h.passes move hmove).mono (List.subset_append_left _ _)
    · exact (h'.passes move hmove).mono (List.subset_append_right _ _)
  reads_old := by
    rw [Summary.reads_add, List.map_append]
    exact (h.reads_old.append h'.reads_old).trans perm_add
  reads_new := by
    rw [Summary.reads_add, List.flatMap_append]
    exact (h.reads_new.append h'.reads_new).trans perm_add
  results := by
    have h₁ := h.results
    have h₂ := h'.results
    simp only [Summary.binds_add, countNames_append, List.countP_append]
    omega
  elements n := by
    have h₁ := h.elements n
    have h₂ := h'.elements n
    simp only [Summary.binds_add, Summary.reads_add, countElements_append, held_append,
      List.countP_append, List.count_append]
    omega

theorem Moved.refl {T : SymbolTable} (p : Summary)
    (hheld : ∀ n, held n p.binds ≤ p.reads.count n) : Moved T p p p.reads [] where
  passes _ h := absurd h List.not_mem_nil
  reads_old := by rw [List.map_nil, List.append_nil]
  reads_new := by rw [List.flatMap_nil, List.append_nil]
  results := Nat.le_refl _
  elements n := Nat.add_le_add_right (hheld n) _

/-- One move, at a place that is no value of a binding. -/
theorem Moved.single {T : SymbolTable} {p p' : Summary} {n : String} {v : Expr}
    (h : Passes T p.operands n v) (hbinary : isBinary v = false) (hreads : p.reads = [n])
    (hbinds : p.binds = []) (hreads' : p'.reads = (Summary.ofExpr v).reads)
    (hbinds' : p'.binds = []) : Moved T p p' [] [(n, v)] where
  passes := List.forall_mem_singleton.2 h
  reads_old := by
    rw [hreads]
    exact List.Perm.refl _
  reads_new := by
    rw [hreads', List.flatMap_cons, List.flatMap_nil, List.append_nil, List.nil_append]
  results := by simp [hbinds, hbinds', hbinary]
  elements m := by
    rw [hreads, hbinds, hbinds', List.countP_singleton, List.count_singleton, held_nil, isElementOf]
    cases n == m <;> cases isElement v <;> simp

/-! ## Passes over a part -/

/-- What a pass does with a part: the reads that are new come from `source`, nothing that is
    counted becomes more, and if no assignment was made to a declaration and no declaration
    dropped, then the reads were moved. -/
structure Reworks (T : SymbolTable) (source : List String) (old new : Summary) (changes : Nat) :
    Prop where
  weight : new.weight ≤ old.weight
  reads : ∀ n ∈ new.reads, n ∈ old.reads ∨ n ∈ source
  pairs : ∀ n m, (n, some (.name m)) ∈ new.binds → (n, some (.name m)) ∈ old.binds
  names : countNames new.binds ≤ countNames old.binds
  elements : countElements new.binds ≤ countElements old.binds
  functions : old.functions = 0 → new.functions = 0
  plain : ArePlain old.binds → ArePlain new.binds
  aliases : new.weight = old.weight → countNames new.binds = countNames old.binds →
    new.binds.map aliasPart = old.binds.map aliasPart
  moved : new.weight < old.weight ∨
    ∃ kept moves, Moved T old new kept moves ∧ (changes ≠ 0 → moves ≠ [])

section

variable {T : SymbolTable} {source : List String} {old new new' p p' q q' : Summary} {c d : Nat}

theorem Reworks.add (h : Reworks T source p p' c) (h' : Reworks T source q q' d) :
    Reworks T source (p + q) (p' + q') (c + d) where
  weight := Nat.add_le_add h.weight h'.weight
  reads n hn := by
    simp only [Summary.reads_add, List.mem_append] at hn ⊢
    rcases hn with hn | hn
    · exact (h.reads n hn).imp_left .inl
    · exact (h'.reads n hn).imp_left .inr
  pairs n m hpair := by
    simp only [Summary.binds_add, List.mem_append] at hpair ⊢
    exact hpair.imp (h.pairs n m) (h'.pairs n m)
  names := by
    simp only [Summary.binds_add, countNames_append]
    exact Nat.add_le_add h.names h'.names
  elements := by
    simp only [Summary.binds_add, countElements_append]
    exact Nat.add_le_add h.elements h'.elements
  functions hfree := by
    rw [Summary.functions_add, Nat.add_eq_zero_iff] at hfree ⊢
    exact hfree.imp h.functions h'.functions
  plain hplain := by
    rw [Summary.binds_add, arePlain_append_iff] at hplain ⊢
    exact hplain.imp h.plain h'.plain
  -- No part loses weight or names, so if the sum loses none, then neither part does.
  aliases hweight hnames := by
    simp only [Summary.binds_add, Summary.weight_add, countNames_append] at hweight hnames ⊢
    have := h.weight
    have := h'.weight
    have := h.names
    have := h'.names
    rw [List.map_append, List.map_append, h.aliases (by omega) (by omega),
      h'.aliases (by omega) (by omega)]
  -- If something is taken away from one part, the sum is smaller; else both parts only moved.
  moved := by
    have := h.weight
    have := h'.weight
    rcases h.moved with hlt | ⟨kept, moves, hmoved, hne⟩
    · exact .inl (Nat.add_lt_add_of_lt_of_le hlt h'.weight)
    · rcases h'.moved with hlt | ⟨kept', moves', hmoved', hne'⟩
      · exact .inl (Nat.add_lt_add_of_le_of_lt h.weight hlt)
      · refine .inr ⟨_, _, hmoved.add hmoved', fun hc hnil => ?_⟩
        obtain ⟨hnil, hnil'⟩ := List.append_eq_nil_iff.1 hnil
        rcases Nat.eq_zero_or_pos c with rfl | hpos
        · exact hne' (by omega) hnil'
        · exact hne (by omega) hnil

theorem Reworks.recount (h : Reworks T source old new c) (hd : d ≠ 0 → c ≠ 0) :
    Reworks T source old new d :=
  { h with
    moved := h.moved.imp_right fun ⟨kept, moves, hmoved, hne⟩ =>
      ⟨kept, moves, hmoved, fun hnot => hne (hd hnot)⟩ }

/-- What is not changed. A value that reads a name has to be among the reads. -/
theorem Reworks.refl (p : Summary) (hheld : ∀ n, held n p.binds ≤ p.reads.count n) :
    Reworks T source p p 0 where
  weight := Nat.le_refl _
  reads _ hn := .inl hn
  pairs _ _ hpair := hpair
  names := Nat.le_refl _
  elements := Nat.le_refl _
  functions hfree := hfree
  plain hplain := hplain
  aliases _ _ := rfl
  moved := .inr ⟨p.reads, [], .refl p hheld, fun h => absurd rfl h⟩

/-- What is dropped after all. -/
theorem Reworks.shrink (h : Reworks T source old new c) (hweight : new'.weight < new.weight)
    (hreads : new'.reads ⊆ new.reads) (hbinds : new'.binds.Sublist new.binds)
    (hfunctions : new'.functions ≤ new.functions) (d : Nat) :
    Reworks T source old new' d where
  weight := Nat.le_trans (Nat.le_of_lt hweight) h.weight
  reads n hn := h.reads n (hreads hn)
  pairs n m hpair := h.pairs n m (hbinds.subset hpair)
  names := Nat.le_trans hbinds.countP_le h.names
  elements := Nat.le_trans hbinds.countP_le h.elements
  functions hfree := Nat.le_zero.1 (h.functions hfree ▸ hfunctions)
  plain hplain n v hv := h.plain hplain n v (hbinds.subset hv)
  aliases heq := absurd (heq ▸ hweight) (Nat.not_lt.2 h.weight)
  moved := .inl (Nat.lt_of_lt_of_le hweight h.weight)

end

/-! ### Values without functions -/

/-- Without functions there are neither statements nor bindings. -/
def Summary.IsFlat (p : Summary) : Prop := p.functions = 0 → p.weight = 0 ∧ p.binds = []

namespace Summary

variable {p q : Summary}

theorem isFlat_zero : IsFlat 0 := fun _ => ⟨rfl, rfl⟩

theorem IsFlat.add (hp : p.IsFlat) (hq : q.IsFlat) : (p + q).IsFlat := by
  intro hfree
  obtain ⟨hpfree, hqfree⟩ := Nat.add_eq_zero_iff.1 hfree
  obtain ⟨hweight, hbinds⟩ := hp hpfree
  obtain ⟨hweight', hbinds'⟩ := hq hqfree
  rw [weight_add, binds_add, hweight, hbinds, hweight', hbinds']
  exact ⟨rfl, rfl⟩

mutual

theorem isFlat_ofExpr : (e : Expr) → (ofExpr e).IsFlat
  | .nil | .boolean _ | .number _ | .string _ | .vararg => isFlat_zero
  | .name _ => fun _ => ⟨rfl, rfl⟩
  | .member t _ | .unary _ t | .paren t => isFlat_ofExpr t
  | .index t k | .binary _ t k =>
    (show (operand t (ofExpr t)).IsFlat from isFlat_ofExpr t).add
      (show (operand k (ofExpr k)).IsFlat from isFlat_ofExpr k)
  | .call t args | .methodCall t _ args => (isFlat_ofExpr t).add (isFlat_ofExprs args)
  | .function ⟨_, _, _⟩ => fun h => absurd h (Nat.ne_of_gt (Nat.add_pos_left Nat.one_pos _))
  | .table fields => isFlat_ofFields fields

theorem isFlat_ofExprs : (es : List Expr) → (ofExprs es).IsFlat
  | [] => isFlat_zero
  | e :: es => (isFlat_ofExpr e).add (isFlat_ofExprs es)

theorem isFlat_ofField : (f : Field) → (ofField f).IsFlat
  | .positional e | .named _ e => isFlat_ofExpr e
  | .keyed k e => (isFlat_ofExpr k).add (isFlat_ofExpr e)

theorem isFlat_ofFields : (fs : List Field) → (ofFields fs).IsFlat
  | [] => isFlat_zero
  | f :: fs => (isFlat_ofField f).add (isFlat_ofFields fs)

end

end Summary

/-- What is asked of the values that names pass on: they read nothing new and have no functions. -/
structure Sound (T : SymbolTable) (source : List String) : Prop where
  reads : ∀ n v, Passes T [n] n v → (Summary.ofExpr v).reads ⊆ source
  functions : ∀ n v, Passes T [n] n v → (Summary.ofExpr v).functions = 0

open Summary

section

variable {T : SymbolTable} {source : List String} {p p' old new : Summary} {c d : Nat}

/-- A read in the place of which a value is put, at a place that is no value of a binding. -/
theorem Sound.reworks (hT : Sound T source) {n : String} {v : Expr} (h : Passes T p.operands n v)
    (hbinary : isBinary v = false) (hreads : p.reads = [n]) (hbinds : p.binds = [])
    (hweight : p.weight = 0) : Reworks T source p (ofExpr v) 1 := by
  have hpasses : Passes T [n] n v := by
    cases h with
    | name h hn => exact .name h List.mem_cons_self
    | element h => exact .element h
    | result h => exact .result h
  have hfree := hT.functions n v hpasses
  obtain ⟨hflat, hbinds'⟩ := isFlat_ofExpr v hfree
  exact {
    weight := Nat.le_of_eq (hflat.trans hweight.symm)
    reads := fun r hr => .inr (hT.reads n v hpasses hr)
    pairs := by simp [hbinds']
    names := by simp [hbinds']
    elements := by simp [hbinds']
    functions := fun _ => hfree
    plain := fun _ => hbinds' ▸ arePlain_nil
    aliases := fun _ _ => by rw [hbinds, hbinds']
    moved := .inr ⟨[], [(n, v)], .single h hbinary hreads hbinds rfl hbinds',
      fun _ => List.cons_ne_nil _ _⟩ }

/-! ## Expressions -/

/-- Whether an expression is neither a name nor an element. -/
def isOther (e : Expr) : Bool := !e.isAnyName && !isElement e

/-- What a pass does with an expression, on its own and as the value of a binding. -/
structure Simplifies (T : SymbolTable) (source : List String) (e e' : Expr) (changes : Nat) :
    Prop where
  same : changes = 0 → e' = e
  asName : e'.asName? = e.asName?
  name : e.isAnyName = true → changes = 0
  idle : changes = 0 → ∀ n ∈ (ofExpr e).operands, nameValue? T (.name n) = none
  reworks : Reworks T source (ofExpr e) (ofExpr e') changes
  bound : ∀ q, Reworks T source (ofExpr e + { binds := [(q, some e)] })
    (ofExpr e' + { binds := [(q, some e')] }) changes

theorem heldNames_other {e : Expr} (h : isOther e = true) : heldNames (some e) = [] := by
  unfold heldNames
  split <;> first | rfl | simp_all [isOther, isElement, Expr.isAnyName]

theorem isAnyName_other {e : Expr} (h : isOther e = true) : e.isAnyName = false := by
  simp_all [isOther]

theorem isElement_other {e : Expr} (h : isOther e = true) : isElement e = false := by
  simp_all [isOther]

theorem asName?_other {e : Expr} (h : isOther e = true) : e.asName? = none := by
  cases e <;> first | rfl | cases h

/-- An expression that stays neither a name nor an element, as the value of a binding. -/
theorem Reworks.bindOther {e e' : Expr} (h : Reworks T source (ofExpr e) (ofExpr e') c)
    (he : isOther e = true) (he' : isOther e' = true) (hbinary : isBinary e' = isBinary e)
    (q : String) : Reworks T source (ofExpr e + { binds := [(q, some e)] })
      (ofExpr e' + { binds := [(q, some e')] }) c where
  weight := h.weight
  reads n hn := by simpa using h.reads n (by simpa using hn)
  pairs n m hpair := by
    rw [binds_add, List.mem_append, List.mem_singleton] at hpair ⊢
    refine hpair.imp (h.pairs n m) fun heq => ?_
    have hname := isAnyName_other he'
    cases heq
    cases hname
  names := by
    have := h.names
    simp [countNames, isAnyName_other he, isAnyName_other he'] at this ⊢
    exact this
  elements := by
    have := h.elements
    simp [countElements, isElement_other he, isElement_other he'] at this ⊢
    exact this
  functions := h.functions
  plain hplain n v hv hn hv' := by
    rw [binds_add, List.mem_append, List.mem_singleton] at hv
    rw [binds_add, arePlain_append_iff] at hplain
    rcases hv with hv | heq
    · exact h.plain hplain.1 n v hv hn hv'
    · cases heq
      exact h.functions (hplain.2 q e List.mem_cons_self hn (hbinary ▸ hv'))
  aliases hweight hnames := by
    have hparts := h.aliases hweight (by
      simpa [countNames, isAnyName_other he, isAnyName_other he'] using hnames)
    rw [binds_add, binds_add, List.map_append, List.map_append, hparts, List.map_singleton,
      List.map_singleton, aliasPart, aliasPart, Option.bind_some, Option.bind_some,
      asName?_other he, asName?_other he']
  moved := h.moved.imp_right fun ⟨kept, moves, hmoved, hne⟩ => ⟨kept, moves, {
    passes := by simpa using hmoved.passes
    reads_old := by simpa using hmoved.reads_old
    reads_new := by simpa using hmoved.reads_new
    results := by
      simpa [countNames, isAnyName_other he, isAnyName_other he'] using hmoved.results
    elements := fun n => by
      have := hmoved.elements n
      simp only [binds_add, reads_add, held_append, held_singleton, heldNames_other he,
        List.count_nil,
        countElements_append, List.append_nil]
      simp [countElements, isElement_other he, isElement_other he'] at this ⊢
      exact this }, hne⟩

theorem Simplifies.ofOther {e e' : Expr} (hsame : c = 0 → e' = e)
    (hidle : c = 0 → ∀ n ∈ (ofExpr e).operands, nameValue? T (.name n) = none)
    (h : Reworks T source (ofExpr e) (ofExpr e') c) (he : isOther e = true)
    (he' : isOther e' = true) (hbinary : isBinary e' = isBinary e) :
    Simplifies T source e e' c where
  same := hsame
  asName := by rw [asName?_other he, asName?_other he']
  name hname := absurd (hname.symm.trans (isAnyName_other he)) Bool.noConfusion
  idle := hidle
  reworks := h
  bound := h.bindOther he he' hbinary

theorem simplifies_same {e : Expr} (he : isOther e = true) (hflat : ofExpr e = 0) :
    Simplifies T source e e 0 :=
  .ofOther (fun _ => rfl) (fun _ n hn => by rw [hflat] at hn; exact absurd hn List.not_mem_nil)
    (.refl _ fun n => by rw [hflat]; exact Nat.le_refl _) he he rfl

theorem simplifies_name (n : String) : Simplifies T source (.name n) (.name n) 0 where
  same _ := rfl
  asName := rfl
  name _ := rfl
  idle _ _ hm := absurd hm List.not_mem_nil
  reworks := .refl _ fun _ => Nat.zero_le _
  bound _ := .refl _ fun _ => Nat.le_refl _

/-! ### Replacing names -/

/-- What stands in the place of an expression if a value is put there. -/
def replaced (value? : Expr → Option Expr) (e : Expr) : Expr := (value? e).getD e

theorem replaced_of_eq_none {value? : Expr → Option Expr} {e : Expr} (h : value? e = none) :
    replaced value? e = e := by
  rw [replaced, h, Option.getD_none]

theorem replaced_of_eq_some {value? : Expr → Option Expr} {e v : Expr} (h : value? e = some v) :
    replaced value? e = v := by
  rw [replaced, h, Option.getD_some]

/-- Whether values are only found for names, and can be put in their places as operands. -/
structure IsLookup (T : SymbolTable) (value? : Expr → Option Expr) : Prop where
  name : ∀ e v, value? e = some v → ∃ n, e = .name n ∧ Passes T [n] n v
  binary : ∀ e v, value? e = some v → isBinary v = false

theorem isLookup_nameValue? : IsLookup T (nameValue? T) where
  name e v h := by
    obtain ⟨n, m, info, rfl, rfl, -⟩ := exists_of_nameValue? h
    exact ⟨n, rfl, .name h List.mem_cons_self⟩
  binary e v h := by
    obtain ⟨n, m, info, rfl, rfl, -⟩ := exists_of_nameValue? h
    rfl

theorem isLookup_elementValue? : IsLookup T (elementValue? T) where
  name e v h := by
    obtain ⟨n, t, k, info, rfl, rfl, -⟩ := exists_of_elementValue? h
    exact ⟨n, rfl, .element h⟩
  binary e v h := by
    obtain ⟨n, t, k, info, rfl, rfl, -⟩ := exists_of_elementValue? h
    rfl

theorem Reworks.operand {e e' : Expr} (h : Reworks T source p p' c) :
    Reworks T source (operand e p) (operand e' p') c :=
  { h with
    moved := h.moved.imp_right fun ⟨kept, moves, hmoved, hne⟩ =>
      ⟨kept, moves, { hmoved with
        passes := fun move hmove =>
          (hmoved.passes move hmove).mono (List.subset_append_right _ _) }, hne⟩ }

/-- An expression of which at most the reading of a name is replaced. -/
theorem Simplifies.replaced (hT : Sound T source) {value? : Expr → Option Expr}
    (hvalue : IsLookup T value?) {e e' : Expr} (h : Simplifies T source e e' c) :
    Reworks T source (Summary.operand e (ofExpr e))
      (Summary.operand (replaced value? e') (ofExpr (replaced value? e')))
      (c + if (value? e').isSome then 1 else 0) := by
  cases hfound : value? e' with
  | none =>
    rw [replaced_of_eq_none hfound]
    exact h.reworks.operand
  | some v =>
    obtain ⟨n, rfl, hpasses⟩ := hvalue.name e' v hfound
    obtain rfl : e = .name n := by
      have hname := h.asName
      cases e <;> cases hname
      rfl
    have hmove := hT.reworks (p := Summary.operand (.name n) (ofExpr (.name n))) hpasses
      (hvalue.binary _ v hfound) rfl rfl rfl
    rw [replaced_of_eq_some hfound, h.name rfl]
    exact { hmove with
      moved := hmove.moved.imp_right fun ⟨kept, moves, hmoved, hne⟩ =>
        ⟨kept, moves, { hmoved with }, hne⟩ }

theorem run_replaceTwo_none {value? : Expr → Option Expr} {a b : Expr} (ha : value? a = none)
    (hb : value? b = none) (p : Progress) : (replaceTwo value? a b).run p = (none, p) := by
  rw [replaceTwo, ha, hb]
  rfl

theorem run_replaceTwo_some {value? : Expr → Option Expr} {a b : Expr}
    (h : ¬ (value? a = none ∧ value? b = none)) (p : Progress) :
    (replaceTwo value? a b).run p =
      (some (replaced value? a, replaced value? b), { p with changes := p.changes + 1 }) := by
  rw [replaceTwo, replaced, replaced]
  cases ha : value? a with
  | none =>
    cases hb : value? b with
    | none => exact absurd ⟨ha, hb⟩ h
    | some v => rfl
  | some v => rfl

theorem run_replaceOne (value? : Expr → Option Expr) (e : Expr) (p : Progress) :
    (replaceOne value? e).run p =
      (replaced value? e, { p with changes := p.changes + if (value? e).isSome then 1 else 0 }) := by
  rw [replaceOne, replaced]
  cases value? e <;> rfl

theorem isAnyName_replaced (e : Expr) : (replaced (nameValue? T) e).isAnyName = e.isAnyName := by
  cases h : nameValue? T e with
  | none => rw [replaced_of_eq_none h]
  | some v =>
    rw [replaced_of_eq_some h]
    obtain ⟨n, m, info, rfl, rfl, -⟩ := exists_of_nameValue? h
    rfl

theorem isAnyName_eq_isSome (e : Expr) : e.isAnyName = e.asName?.isSome := by
  cases e <;> rfl

theorem Simplifies.isAnyName {e e' : Expr} (h : Simplifies T source e e' c) :
    e'.isAnyName = e.isAnyName := by
  rw [isAnyName_eq_isSome, isAnyName_eq_isSome, h.asName]

theorem isOther_index (t k : Expr) :
    isOther (.index t k) = !(t.isAnyName && k.isAnyName) := by
  cases t <;> cases k <;> rfl

theorem Simplifies.idle_operand {e e' : Expr} (h : Simplifies T source e e' c) (hc : c = 0)
    (hnone : nameValue? T e' = none) :
    ∀ n ∈ (Summary.operand e (ofExpr e)).operands, nameValue? T (.name n) = none := by
  intro n hn
  rcases List.mem_append.1 hn with hn | hn
  · rw [h.same hc] at hnone
    cases e with
    | name m =>
      obtain rfl := List.mem_singleton.1 hn
      exact hnone
    | _ => cases hn
  · exact h.idle hc n hn

/-! ### Elements as values -/

/-- A name as an operand, in the place of which another name may be put. -/
theorem exists_moved_operand (n : String) :
    ∃ m kept moves, Simplify.replaced (nameValue? T) (.name n) = .name m ∧
      Moved T (Summary.operand (.name n) (ofExpr (.name n)))
        (Summary.operand (.name m) (ofExpr (.name m))) kept moves ∧
      (∀ r, moves.countP (isElementOf r) = 0) ∧ (nameValue? T (.name n) ≠ none → moves ≠ []) := by
  cases h : nameValue? T (.name n) with
  | none =>
    exact ⟨n, [n], [], replaced_of_eq_none h, .refl _ fun _ => Nat.zero_le _, fun _ => rfl,
      fun hne => absurd rfl hne⟩
  | some v =>
    obtain ⟨n', m, info, hn, rfl, -⟩ := exists_of_nameValue? h
    exact ⟨m, [], [(n, .name m)], replaced_of_eq_some h,
      .single (.name h List.mem_cons_self) rfl rfl rfl rfl rfl,
      fun r => by simp [isElementOf, isElement], fun _ => List.cons_ne_nil _ _⟩

/-- An element as the value of a binding: the name of the key is held by it, unless an element is
    put in its place. -/
theorem Reworks.bindElement {e e' : Expr} {kept : List String} {moves : List (String × Expr)}
    (h : Reworks T source old new c) (hold : old.binds = []) (hnew : new.binds = [])
    (he : isElement e = true) (hname : e'.isAnyName = false) (hbinary : isBinary e' = false)
    (hmoved : Moved T old new kept moves) (hne : c ≠ 0 → moves ≠ [])
    (hheld : ∀ n, (heldNames (some e)).count n + moves.countP (isElementOf n)
      + (if isElement e' = true then 1 else 0) ≤ old.reads.count n + 1) (q : String) :
    Reworks T source (old + { binds := [(q, some e)] }) (new + { binds := [(q, some e')] }) c := by
  have hname' : e.isAnyName = false := by
    cases e <;> first | rfl | cases he
  have hnone : ∀ e : Expr, e.isAnyName = false → e.asName? = none := by
    intro e he
    cases e <;> first | rfl | cases he
  exact {
    weight := h.weight
    reads := fun n hn => by simpa using h.reads n (by simpa using hn)
    pairs := fun n m hpair => by
      rw [binds_add, hnew, List.nil_append, List.mem_singleton] at hpair
      cases hpair
      cases hname
    names := by simp [countNames, hold, hnew, hname, hname']
    elements := by
      rw [binds_add, binds_add, hold, hnew]
      simp [countElements, he]
      split <;> simp
    functions := h.functions
    plain := fun _ n v hv _ hv' => by
      rw [binds_add, hnew, List.nil_append, List.mem_singleton] at hv
      cases hv
      exact absurd (hbinary.symm.trans hv') Bool.noConfusion
    aliases := fun _ _ => by
      simp [hold, hnew, aliasPart, hnone e hname', hnone e' hname]
    moved := .inr ⟨kept, moves, {
      passes := by simpa using hmoved.passes
      reads_old := by simpa using hmoved.reads_old
      reads_new := by simpa using hmoved.reads_new
      results := by
        have := hmoved.results
        simp [hold, hnew, countNames, hname, hname'] at this ⊢
        exact this
      -- Only here it matters what is put in the place of the element, and `hheld` accounts for it.
      elements := fun n => by
        have := hheld n
        simp only [binds_add, reads_add, hold, hnew, List.nil_append, List.append_nil,
          held_singleton]
        simp only [countElements, List.countP_singleton, Option.any_some, he, if_true]
        exact this }, hne⟩ }

/-! ### Indices and operators -/

section

variable {t t' k k' : Expr}

theorem exists_name_of_isAnyName {e : Expr} (h : e.isAnyName = true) : ∃ n, e = .name n := by
  cases e <;> first | exact ⟨_, rfl⟩ | cases h

/-- A name of a name as the value of a binding, if names are put in the places of its parts. -/
theorem bound_index_names (x y : String)
    (hsome : ¬ (nameValue? T (.name x) = none ∧ nameValue? T (.name y) = none))
    (h : Reworks T source (ofExpr (.index (.name x) (.name y)))
      (ofExpr (.index (Simplify.replaced (nameValue? T) (.name x))
        (Simplify.replaced (nameValue? T) (.name y)))) c) (q : String) :
    Reworks T source (ofExpr (.index (.name x) (.name y))
        + { binds := [(q, some (.index (.name x) (.name y)))] })
      (ofExpr (.index (Simplify.replaced (nameValue? T) (.name x))
          (Simplify.replaced (nameValue? T) (.name y)))
        + { binds := [(q, some (.index (Simplify.replaced (nameValue? T) (.name x))
          (Simplify.replaced (nameValue? T) (.name y))))] }) c := by
  obtain ⟨x', kept, moves, hx', hmoved, hcalm, hne⟩ := exists_moved_operand (T := T) x
  obtain ⟨y', kept', moves', hy', hmoved', hcalm', hne'⟩ := exists_moved_operand (T := T) y
  rw [hx', hy'] at h ⊢
  refine h.bindElement rfl rfl rfl rfl rfl (hmoved.add hmoved') (fun _ hnil => hsome ?_)
    (fun n => ?_) q
  · obtain ⟨hnil, hnil'⟩ := List.append_eq_nil_iff.1 hnil
    exact ⟨not_not.1 fun h => hne h hnil, not_not.1 fun h => hne' h hnil'⟩
  · rw [List.countP_append, hcalm, hcalm']
    exact Nat.le_refl _

/-- An index of which at least one part is a name that passes on a name. -/
theorem Simplifies.index_names (hT : Sound T source) (ht : Simplifies T source t t' c)
    (hk : Simplifies T source k k' d)
    (hsome : ¬ (nameValue? T t' = none ∧ nameValue? T k' = none)) :
    Simplifies T source (.index t k) (.index (Simplify.replaced (nameValue? T) t')
      (Simplify.replaced (nameValue? T) k')) (c + d + 1) := by
  have hreworks : Reworks T source (ofExpr (.index t k))
      (ofExpr (.index (Simplify.replaced (nameValue? T) t')
        (Simplify.replaced (nameValue? T) k'))) (c + d + 1) := by
    refine ((ht.replaced hT isLookup_nameValue?).add
      (hk.replaced hT isLookup_nameValue?)).recount fun _ hzero => hsome ?_
    cases h : nameValue? T t' <;> cases h' : nameValue? T k' <;> simp_all
  -- A name of a name may be bound, and is then counted by itself; other indices pass on nothing.
  by_cases hnames : t.isAnyName = true ∧ k.isAnyName = true
  · obtain ⟨hx, hy⟩ := hnames
    obtain rfl := ht.same (ht.name hx)
    obtain rfl := hk.same (hk.name hy)
    obtain ⟨x, rfl⟩ := exists_name_of_isAnyName hx
    obtain ⟨y, rfl⟩ := exists_name_of_isAnyName hy
    exact {
      same := fun h => absurd h (Nat.succ_ne_zero _)
      asName := rfl
      name := fun h => Bool.noConfusion h
      idle := fun h => absurd h (Nat.succ_ne_zero _)
      reworks := hreworks
      bound := bound_index_names x y hsome hreworks }
  · rw [← Bool.and_eq_true, Bool.not_eq_true] at hnames
    refine .ofOther (fun h => absurd h (Nat.succ_ne_zero _))
      (fun h => absurd h (Nat.succ_ne_zero _)) hreworks ?_ ?_ rfl
    · rw [isOther_index, hnames, Bool.not_false]
    · rw [isOther_index, isAnyName_replaced, isAnyName_replaced, ht.isAnyName, hk.isAnyName, hnames,
        Bool.not_false]

/-- An index of which the key is a name that passes on an element. -/
theorem Simplifies.index_element (hT : Sound T source) (ht : Simplifies T source t t' c)
    (hk : Simplifies T source k k' d) (hsome : elementValue? T k' ≠ none) :
    Simplifies T source (.index t k)
      (.index t' (Simplify.replaced (elementValue? T) k')) (c + d + 1) := by
  have hreworks : Reworks T source (ofExpr (.index t k))
      (ofExpr (.index t' (Simplify.replaced (elementValue? T) k'))) (c + d + 1) := by
    refine (ht.reworks.operand.add (hk.replaced hT isLookup_elementValue?)).recount fun _ hzero =>
      hsome ?_
    cases h : elementValue? T k' <;> simp_all
  obtain ⟨v, hv⟩ := Option.ne_none_iff_exists'.1 hsome
  obtain ⟨y, a, b, info, rfl, rfl, -⟩ := exists_of_elementValue? hv
  rw [replaced_of_eq_some hv] at hreworks ⊢
  have hk' : k.isAnyName = true := hk.isAnyName.symm
  obtain rfl := hk.same (hk.name hk')
  have hother : isOther (.index t' (.index (.name a) (.name b))) = true := by
    rw [isOther_index]
    exact Bool.not_eq_true' _ ▸ Bool.and_false _
  -- As for names, an element is counted by itself as the value of a binding.
  by_cases hx : t.isAnyName = true
  · obtain rfl := ht.same (ht.name hx)
    obtain ⟨x, rfl⟩ := exists_name_of_isAnyName hx
    have hmoved : Moved T (ofExpr (.index (.name x) (.name y)))
        (ofExpr (.index (.name x) (.index (.name a) (.name b)))) ([x] ++ [])
        ([] ++ [(y, Expr.index (.name a) (.name b))]) :=
      (Moved.refl (operand (.name x) (ofExpr (.name x))) fun _ => Nat.zero_le _).add
        (.single (.element hv) rfl rfl rfl rfl rfl)
    exact {
      same := fun h => absurd h (Nat.succ_ne_zero _)
      asName := rfl
      name := fun h => Bool.noConfusion h
      idle := fun h => absurd h (Nat.succ_ne_zero _)
      reworks := hreworks
      bound := hreworks.bindElement rfl rfl rfl rfl rfl hmoved (fun _ => List.cons_ne_nil _ _)
        fun n => by
          have hone : [(y, Expr.index (.name a) (.name b))].countP (isElementOf n) ≤ 1 :=
            List.countP_le_length
          exact Nat.add_le_add_left hone _ }
  · refine .ofOther (fun h => absurd h (Nat.succ_ne_zero _))
      (fun h => absurd h (Nat.succ_ne_zero _)) hreworks ?_ hother rfl
    rw [isOther_index, Bool.eq_false_iff.2 hx]
    rfl

/-- An index in which nothing is replaced. -/
theorem Simplifies.index (ht : Simplifies T source t t' c) (hk : Simplifies T source k k' d)
    (ht' : nameValue? T t' = none) (hk' : nameValue? T k' = none) :
    Simplifies T source (.index t k) (.index t' k') (c + d) := by
  have hreworks : Reworks T source (ofExpr (.index t k)) (ofExpr (.index t' k')) (c + d) :=
    ht.reworks.operand.add hk.reworks.operand
  have hsame : c + d = 0 → Expr.index t' k' = .index t k := by
    intro h
    obtain ⟨hc, hd⟩ := Nat.add_eq_zero_iff.1 h
    rw [ht.same hc, hk.same hd]
  have hidle : c + d = 0 → ∀ n ∈ (ofExpr (.index t k)).operands, nameValue? T (.name n) = none := by
    intro h
    obtain ⟨hc, hd⟩ := Nat.add_eq_zero_iff.1 h
    exact List.forall_mem_append.2 ⟨ht.idle_operand hc ht', hk.idle_operand hd hk'⟩
  by_cases hnames : t.isAnyName = true ∧ k.isAnyName = true
  · obtain ⟨hx, hy⟩ := hnames
    obtain rfl := ht.name hx
    obtain rfl := hk.name hy
    obtain rfl := ht.same rfl
    obtain rfl := hk.same rfl
    obtain ⟨x, rfl⟩ := exists_name_of_isAnyName hx
    obtain ⟨y, rfl⟩ := exists_name_of_isAnyName hy
    exact {
      same := hsame
      asName := rfl
      name := fun h => Bool.noConfusion h
      idle := hidle
      reworks := hreworks
      bound := fun q => .refl _ fun n => Nat.le_refl _ }
  · rw [← Bool.and_eq_true, Bool.not_eq_true] at hnames
    refine .ofOther hsame hidle hreworks ?_ ?_ rfl
    · rw [isOther_index, hnames, Bool.not_false]
    · rw [isOther_index, ht.isAnyName, hk.isAnyName, hnames, Bool.not_false]

/-- An operator of which at least one operand is replaced. -/
theorem Simplifies.binary_replaced (hT : Sound T source) {value? : Expr → Option Expr}
    (hvalue : IsLookup T value?) (op : BinaryOp) (ht : Simplifies T source t t' c)
    (hk : Simplifies T source k k' d) (hsome : ¬ (value? t' = none ∧ value? k' = none)) :
    Simplifies T source (.binary op t k)
      (.binary op (Simplify.replaced value? t') (Simplify.replaced value? k')) (c + d + 1) := by
  refine .ofOther (fun h => absurd h (Nat.succ_ne_zero _)) (fun h => absurd h (Nat.succ_ne_zero _))
    ?_ rfl rfl rfl
  refine ((ht.replaced hT hvalue).add (hk.replaced hT hvalue)).recount fun _ hzero => hsome ?_
  cases h : value? t' <;> cases h' : value? k' <;> simp_all

/-- An operator of which no operand is replaced. -/
theorem Simplifies.binary (op : BinaryOp) (ht : Simplifies T source t t' c)
    (hk : Simplifies T source k k' d) (ht' : nameValue? T t' = none)
    (hk' : nameValue? T k' = none) :
    Simplifies T source (.binary op t k) (.binary op t' k') (c + d) := by
  refine .ofOther (fun h => ?_) (fun h => ?_) (ht.reworks.operand.add hk.reworks.operand) rfl rfl rfl
  · obtain ⟨hc, hd⟩ := Nat.add_eq_zero_iff.1 h
    rw [ht.same hc, hk.same hd]
  · obtain ⟨hc, hd⟩ := Nat.add_eq_zero_iff.1 h
    exact List.forall_mem_append.2 ⟨ht.idle_operand hc ht', hk.idle_operand hd hk'⟩

end

/-! ## Expressions in lists -/

/-- What a pass does with expressions, on their own, as values of bindings and as targets. -/
structure SimplifiesAll (T : SymbolTable) (source : List String) (es es' : List Expr)
    (changes : Nat) : Prop where
  same : changes = 0 → es' = es
  asNames : es'.map Expr.asName? = es.map Expr.asName?
  names : (∀ e ∈ es, e.isAnyName = true) → changes = 0
  idle : changes = 0 → ∀ n ∈ (ofExprs es).operands, nameValue? T (.name n) = none
  reworks : Reworks T source (ofExprs es) (ofExprs es') changes
  bound : ∀ names, Reworks T source (ofExprs es + { binds := bindTo names es })
    (ofExprs es' + { binds := bindTo names es' }) changes
  targets : Reworks T source (ofTargets es) (ofTargets es') changes
  idleTargets : changes = 0 → ∀ n ∈ (ofTargets es).operands, nameValue? T (.name n) = none

/-- The names that bindings pass on are those of the values. -/
theorem aliasPart_bindTo {names : List (Option String)} {es es' : List Expr}
    (h : es'.map Expr.asName? = es.map Expr.asName?) :
    (bindTo names es').map aliasPart = (bindTo names es).map aliasPart := by
  induction names generalizing es es' with
  | nil => rfl
  | cons name names ih =>
    have htail : es'.tail.map Expr.asName? = es.tail.map Expr.asName? := by
      rw [List.map_tail, List.map_tail, h]
    cases name with
    | none => exact ih htail
    | some n =>
      have hhead : es'.head?.bind Expr.asName? = es.head?.bind Expr.asName? := by
        cases es with
        | nil => rw [List.map_eq_nil_iff.1 (h.trans List.map_nil)]
        | cons e es =>
          obtain ⟨e', es', rfl, he, -⟩ := List.map_eq_cons_iff.1 (h.trans List.map_cons)
          exact he
      rw [bindTo, bindTo, List.map_cons, List.map_cons, ih htail, aliasPart, aliasPart, hhead]

theorem countNames_eq_of_aliasPart {binds binds' : List (String × Option Expr)}
    (h : binds'.map aliasPart = binds.map aliasPart) : countNames binds' = countNames binds := by
  have hcount : ∀ binds, countNames binds = (binds.map aliasPart).countP (·.2.isSome) := by
    intro binds
    rw [countNames, List.countP_map]
    refine List.countP_congr fun bind _ => ?_
    obtain ⟨n, v⟩ := bind
    cases v with
    | none => exact Iff.rfl
    | some v => cases v <;> exact Iff.rfl
  rw [hcount, hcount, h]

theorem ArePlain.perm {binds binds' : List (String × Option Expr)} (h : ArePlain binds)
    (hperm : binds.Perm binds') : ArePlain binds' :=
  fun n v hv => h n v (hperm.mem_iff.2 hv)

/-- The order of bindings does not matter, but for which of them is the first one of a name. -/
theorem Reworks.reorder {x y : List (String × Option Expr)} (h : Reworks T source old new c)
    (hold : old.binds.Perm x) (hnew : new.binds.Perm y)
    (haliases : new.weight = old.weight → countNames y = countNames x →
      y.map aliasPart = x.map aliasPart) :
    Reworks T source { old with binds := x } { new with binds := y } c where
  weight := h.weight
  reads := h.reads
  pairs n m hpair := hold.mem_iff.1 (h.pairs n m (hnew.mem_iff.2 hpair))
  names := by
    rw [countNames, countNames, ← hold.countP_eq, ← hnew.countP_eq]
    exact h.names
  elements := by
    rw [countElements, countElements, ← hold.countP_eq, ← hnew.countP_eq]
    exact h.elements
  functions := h.functions
  plain hplain := (h.plain (hplain.perm hold.symm)).perm hnew
  aliases := haliases
  moved := h.moved.imp_right fun ⟨kept, moves, hmoved, hne⟩ => ⟨kept, moves, {
    passes := hmoved.passes
    reads_old := hmoved.reads_old
    reads_new := hmoved.reads_new
    results := by
      rw [countNames, countNames, ← hold.countP_eq, ← hnew.countP_eq]
      exact hmoved.results
    elements := fun n => by
      rw [countElements, countElements, held, ← hold.countP_eq, ← hnew.countP_eq,
        ← (hold.flatMap_right fun bind => heldNames bind.2).count_eq]
      exact hmoved.elements n }, hne⟩

section

variable {e e' : Expr} {es es' : List Expr}

theorem simplifiesAll_nil : SimplifiesAll T source [] [] 0 where
  same _ := rfl
  asNames := rfl
  names _ := rfl
  idle _ _ hn := absurd hn List.not_mem_nil
  reworks := .refl _ fun _ => Nat.le_refl _
  bound names := by
    refine .refl _ fun n => ?_
    have hheld : held n (bindTo names []) = 0 := by
      induction names with
      | nil => rfl
      | cons name names ih =>
        cases name with
        | none => exact ih
        | some m => exact ih
    exact Nat.le_of_eq hheld
  targets := .refl _ fun _ => Nat.le_refl _
  idleTargets _ _ hn := absurd hn List.not_mem_nil

theorem bound_cons (h : Simplifies T source e e' c) (hs : SimplifiesAll T source es es' d)
    (name : String) (names : List (Option String)) :
    Reworks T source (ofExprs (e :: es) + { binds := bindTo (some name :: names) (e :: es) })
      (ofExprs (e' :: es') + { binds := bindTo (some name :: names) (e' :: es') }) (c + d) := by
  have hadd := (h.bound name).add (hs.bound names)
  have hlast : (bindTo (some name :: names) (e' :: es')).map aliasPart =
      (bindTo (some name :: names) (e :: es)).map aliasPart :=
    aliasPart_bindTo (by rw [List.map_cons, List.map_cons, h.asName, hs.asNames])
  -- The parts are bound one after another here, and all together after all values there.
  have hreorder := hadd.reorder
    (x := (ofExpr e).binds ++ (ofExprs es).binds ++ bindTo (some name :: names) (e :: es))
    (y := (ofExpr e').binds ++ (ofExprs es').binds ++ bindTo (some name :: names) (e' :: es'))
    perm_add perm_add fun hweight hnames => by
      have := h.reworks.weight
      have := hs.reworks.weight
      have := h.reworks.names
      have := hs.reworks.names
      have hcount := countNames_eq_of_aliasPart hlast
      simp only [weight_add, countNames_append] at hweight hnames
      have hparts := h.reworks.aliases (by omega) (by omega)
      have hparts' := hs.reworks.aliases (by omega) (by omega)
      rw [List.map_append, List.map_append, List.map_append, List.map_append, hparts, hparts', hlast]
  convert hreorder using 1
  · ext1 <;> simp [ofExprs]
  · ext1 <;> simp [ofExprs]

theorem ofTargets_cons_of_other {e : Expr} (h : e.isAnyName = false) (es : List Expr) :
    ofTargets (e :: es) = ofExpr e + ofTargets es := by
  cases e <;> first | rfl | cases h

theorem SimplifiesAll.cons (h : Simplifies T source e e' c) (hs : SimplifiesAll T source es es' d) :
    SimplifiesAll T source (e :: es) (e' :: es') (c + d) where
  same hzero := by
    obtain ⟨hc, hd⟩ := Nat.add_eq_zero_iff.1 hzero
    rw [h.same hc, hs.same hd]
  asNames := by rw [List.map_cons, List.map_cons, h.asName, hs.asNames]
  names hnames := by
    obtain ⟨hname, hnames⟩ := List.forall_mem_cons.1 hnames
    rw [h.name hname, hs.names hnames]
  idle hzero := by
    obtain ⟨hc, hd⟩ := Nat.add_eq_zero_iff.1 hzero
    exact List.forall_mem_append.2 ⟨h.idle hc, hs.idle hd⟩
  reworks := h.reworks.add hs.reworks
  bound names := by
    cases names with
    | nil =>
      have hadd := h.reworks.add (hs.bound [])
      convert hadd using 1
      · ext1 <;> simp [ofExprs, bindTo]
      · ext1 <;> simp [ofExprs, bindTo]
    | cons name names =>
      cases name with
      | none =>
        have hadd := h.reworks.add (hs.bound names)
        convert hadd using 1
        · ext1 <;> simp [ofExprs, bindTo]
        · ext1 <;> simp [ofExprs, bindTo]
      | some name => exact bound_cons h hs name names
  targets := by
    -- A name that is assigned to is not read: it adds nothing to the targets.
    by_cases hname : e.isAnyName = true
    · obtain rfl := h.same (h.name hname)
      obtain ⟨n, rfl⟩ := exists_name_of_isAnyName hname
      rw [h.name hname, Nat.zero_add]
      exact hs.targets
    · rw [Bool.not_eq_true] at hname
      rw [ofTargets_cons_of_other hname, ofTargets_cons_of_other (h.isAnyName.trans hname)]
      exact h.reworks.add hs.targets
  idleTargets hzero := by
    obtain ⟨hc, hd⟩ := Nat.add_eq_zero_iff.1 hzero
    by_cases hname : e.isAnyName = true
    · obtain ⟨n, rfl⟩ := exists_name_of_isAnyName hname
      exact hs.idleTargets hd
    · rw [ofTargets_cons_of_other (Bool.not_eq_true _ ▸ hname)]
      exact List.forall_mem_append.2 ⟨h.idle hc, hs.idleTargets hd⟩

end

end

end LuaUnpack.Handler.Simplify
