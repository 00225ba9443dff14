import LuaUnpack.Proofs.Handler.Knowledge
import LuaUnpack.Proofs.Handler.PassChanges
import Mathlib.Data.List.Dedup
import Mathlib.Data.Set.Finite.List
import Mathlib.Logic.Relation
import Mathlib.Order.Lattice.Nat
import Mathlib.Order.Preorder.Finite
import Mathlib.Order.WellFounded

/-!
# Whether passes come to an end

A pass that changes something takes something away: a statement, a binding to a name or to an
element, a name that is read (`bulk`). If it takes none of these away, then it has put names in the
places of names, and each of these is nearer to the end of its chain of names (`distance`). So
passes come to an end where the chains do. A chain that does not end is followed for ever, and a
function among the operands of a result that is passed on may read the name that it is put in the
place of.

* `simplify_settles_iff`: without such functions, simplifying settles exactly if from some pass on
  no operand is at the beginning of an endless chain;
* `simplify_settles_of_acyclic`: it settles if no helper passes itself on, by way of others or not.
-/

namespace LuaUnpack.Handler

open LuaUnpack.Lua LuaUnpack.Script

namespace Simplify

open Summary

/-! ## Chains of names -/

/-- The name that is reached after some steps from a name to the name that it passes on. -/
def chain (next : String → Option String) : Nat → String → Option String
  | 0, n => some n
  | k + 1, n => (next n).bind (chain next k)

/-- How many steps it is to the end of the chain of a name, if it has one. -/
noncomputable def distanceToEnd (next : String → Option String) (n : String) : Nat :=
  sInf {k | chain next k n = none}

theorem distanceToEnd_lt {next : String → Option String} {n m : String} (h : next n = some m)
    (hend : ∃ k, chain next k n = none) : distanceToEnd next m < distanceToEnd next n := by
  have hlast : chain next (distanceToEnd next n) n = none := Nat.sInf_mem hend
  cases hk : distanceToEnd next n with
  | zero =>
    rw [hk] at hlast
    exact absurd hlast (Option.some_ne_none n)
  | succ k =>
    rw [hk, chain, h, Option.bind_some] at hlast
    exact Nat.lt_succ_of_le (Nat.sInf_le hlast)

/-- The name that a helper passes on, by the names that bindings pass on. -/
def aliasOf (parts : List (String × Option String)) (n : String) : Option String :=
  if isInvented n then (parts.find? (·.1 == n)).bind (·.2) else none

/-! ## What is known of a name -/

/-- The value of the first binding of a name. -/
def firstValue (binds : List (String × Option Expr)) (n : String) : Option Expr :=
  (binds.find? (·.1 == n)).bind (·.2)

theorem mem_of_firstValue {binds : List (String × Option Expr)} {n : String} {v : Expr}
    (h : firstValue binds n = some v) : (n, some v) ∈ binds := by
  obtain ⟨⟨n', value⟩, hfind, rfl⟩ := Option.bind_eq_some_iff.1 h
  have hname := List.find?_some hfind
  obtain rfl := beq_iff_eq.1 hname
  exact List.mem_of_find?_eq_some hfind

theorem firstValue_filterMap (uses : List Use) (n : String) :
    firstValue (uses.filterMap boundPair?) n =
      (uses.filterMap (Use.binding? n)).head?.bind (·.1) := by
  induction uses with
  | nil => rfl
  | cons use uses ih =>
    cases use with
    | read m => exact ih
    | bind m value ordinal =>
      rw [List.filterMap_cons, List.filterMap_cons, firstValue, boundPair?, Use.binding?,
        List.find?_cons]
      cases m == n
      · exact ih
      · rfl

theorem count_filterMap_readName? (uses : List Use) (n : String) :
    (uses.filterMap readName?).count n = uses.countP (Use.isRead n) := by
  rw [List.count, List.countP_filterMap]
  refine List.countP_congr fun use _ => ?_
  cases use <;> simp [readName?, Use.isRead]

section

variable {b : Block} {n m : String} {info : SymbolInfo}

theorem tells_block (b : Block) :
    Tells (ofStmts b) (SymbolTable.ofBlock b).uses b.nodes :=
  tells_ofStmts b 0

theorem reads_ofBlock (h : (SymbolTable.ofBlock b).get? n = some info) :
    info.reads = (ofStmts b).reads.count n := by
  rw [SymbolTable.get?] at h
  split at h
  · cases h
    rw [SymbolTable.reads, ← count_filterMap_readName?, (tells_block b).reads]
  · cases h

theorem value_ofBlock (h : (SymbolTable.ofBlock b).get? n = some info) :
    info.value = firstValue (ofStmts b).binds n := by
  rw [SymbolTable.get?] at h
  split at h
  · cases h
    rw [← (tells_block b).binds, firstValue_filterMap]
  · cases h

theorem exists_get?_of_firstValue {v : Expr} (h : firstValue (ofStmts b).binds n = some v) :
    ∃ info, (SymbolTable.ofBlock b).get? n = some info := by
  have hmem := mem_of_firstValue h
  rw [← (tells_block b).binds] at hmem
  obtain ⟨use, huse, hpair⟩ := List.mem_filterMap.1 hmem
  have hused : (SymbolTable.ofBlock b).uses.any (·.name == n) = true := by
    refine List.any_eq_true.2 ⟨use, huse, ?_⟩
    cases use with
    | read _ => cases hpair
    | bind _ _ _ =>
      cases hpair
      exact beq_self_eq_true n
  rw [SymbolTable.get?, if_pos hused]
  exact ⟨_, rfl⟩

/-- The name that a helper passes on is the value of its first binding. -/
theorem nameValue?_ofBlock (b : Block) (n : String) :
    nameValue? (SymbolTable.ofBlock b) (.name n) =
      (aliasOf ((ofStmts b).binds.map aliasPart) n).map .name := by
  -- The name in the first binding can be taken before or after the search.
  have hfirst : ((((ofStmts b).binds.map aliasPart).find? (·.1 == n)).bind (·.2)) =
      (firstValue (ofStmts b).binds n).bind Expr.asName? := by
    rw [List.find?_map, firstValue]
    have hcomp : ((·.1 == n) ∘ aliasPart) = (·.1 == n) := rfl
    rw [hcomp]
    cases (ofStmts b).binds.find? (·.1 == n) <;> rfl
  rw [aliasOf, hfirst, nameValue?, helper?]
  split
  · cases hvalue : firstValue (ofStmts b).binds n with
    | none =>
      cases hget : (SymbolTable.ofBlock b).get? n with
      | none => rfl
      | some info =>
        have hinfo := (value_ofBlock hget).trans hvalue
        simp [hinfo]
    | some v =>
      obtain ⟨info, hget⟩ := exists_get?_of_firstValue hvalue
      have hinfo := (value_ofBlock hget).trans hvalue
      rw [hget]
      cases v <;> simp [hinfo, Expr.asName?]
  · rfl

/-- What is put in the place of a helper is the value of its first binding. -/
theorem firstValue_of_passes {operands : List String} {v : Expr}
    (h : Passes (SymbolTable.ofBlock b) operands n v) :
    isInvented n = true ∧ firstValue (ofStmts b).binds n = some v := by
  cases h with
  | name h _ =>
    obtain ⟨n', m, info, hn, hm, hinvented, hget, hvalue⟩ := exists_of_nameValue? h
    cases hn
    cases hm
    exact ⟨hinvented, (value_ofBlock hget).symm.trans hvalue⟩
  | element h =>
    obtain ⟨n', t, k, info, hn, hv, hinvented, hget, hvalue, -⟩ := exists_of_elementValue? h
    cases hn
    cases hv
    exact ⟨hinvented, (value_ofBlock hget).symm.trans hvalue⟩
  | result h =>
    obtain ⟨n', op, l, r, info, hn, hv, hinvented, hget, hvalue, -⟩ := exists_of_binaryValue? h
    cases hn
    cases hv
    exact ⟨hinvented, (value_ofBlock hget).symm.trans hvalue⟩

theorem sound_ofBlock (hplain : ArePlain (ofStmts b).binds) :
    Sound (SymbolTable.ofBlock b) (ofStmts b).reads where
  reads n v h := (tells_block b).values n v (mem_of_firstValue (firstValue_of_passes h).2)
  functions n v h := by
    obtain ⟨hinvented, hvalue⟩ := firstValue_of_passes h
    cases h with
    | name | element => rfl
    | result => exact hplain n _ (mem_of_firstValue hvalue) hinvented rfl

/-- What a pass does with a window. -/
theorem part_pass (hplain : ArePlain (ofStmts b).binds) :
    Part (SymbolTable.ofBlock b) (ofStmts b).reads (ofStmts b) (ofStmts (pass b).1) ((pass b).1 = b)
      (pass b).2 := by
  have hcounts := counts_onBlock (counts_onStmts (sound_ofBlock hplain) b {})
  obtain ⟨c, hc, hpart⟩ := hcounts
  rw [Nat.zero_add] at hc
  exact (congrArg _ hc).mpr hpart

end

/-! ## What gets less -/

/-- What no pass makes more of. -/
def bulk (p : Summary) : Nat :=
  p.weight + countNames p.binds + countElements p.binds + p.reads.dedup.length

/-- What names count for together. -/
def total (f : String → Nat) : List String → Nat
  | [] => 0
  | n :: names => f n + total f names

/-- How far the reads are from the ends of their chains. -/
noncomputable def distance (p : Summary) : Nat :=
  total (distanceToEnd (aliasOf (p.binds.map aliasPart))) p.reads

theorem total_append (f : String → Nat) (xs ys : List String) :
    total f (xs ++ ys) = total f xs + total f ys := by
  induction xs with
  | nil => exact (Nat.zero_add _).symm
  | cons x xs ih => rw [List.cons_append, total, total, ih, Nat.add_assoc]

theorem total_perm (f : String → Nat) {xs ys : List String} (h : xs.Perm ys) :
    total f xs = total f ys := by
  induction h with
  | nil => rfl
  | cons x _ ih => rw [total, total, ih]
  | swap x y xs => exact Nat.add_left_comm _ _ _
  | trans _ _ ih ih' => rw [ih, ih']

section

variable {b : Block} {old new : Summary} {c : Nat} {kept : List String}
  {moves : List (String × Expr)}

theorem length_dedup_le {xs ys : List String} (h : xs ⊆ ys) :
    xs.dedup.length ≤ ys.dedup.length :=
  ((List.nodup_dedup xs).subperm fun _ hx =>
    List.mem_dedup.2 (h (List.mem_dedup.1 hx))).length_le

theorem length_dedup_lt {xs ys : List String} (h : xs ⊆ ys) {y : String} (hy : y ∈ ys)
    (hnot : y ∉ xs) : xs.dedup.length < ys.dedup.length := by
  have hnodup : (y :: xs.dedup).Nodup :=
    List.nodup_cons.2 ⟨fun hmem => hnot (List.mem_dedup.1 hmem), List.nodup_dedup xs⟩
  refine (hnodup.subperm fun x hx => List.mem_dedup.2 ?_).length_le
  rcases List.mem_cons.1 hx with rfl | hx
  · exact hy
  · exact h (List.mem_dedup.1 hx)

theorem held_pos {n : String} {bind : String × Option Expr} {binds : List (String × Option Expr)}
    (h : bind ∈ binds) (hn : n ∈ heldNames bind.2) : 0 < held n binds :=
  List.count_pos_iff.2 (List.mem_flatMap_of_mem h hn)

theorem Reworks.reads_subset {T : SymbolTable} (h : Reworks T old.reads old new c) :
    new.reads ⊆ old.reads :=
  fun n hn => (h.reads n hn).elim id id

theorem bulk_le {T : SymbolTable} (h : Reworks T old.reads old new c) : bulk new ≤ bulk old :=
  Nat.add_le_add (Nat.add_le_add (Nat.add_le_add h.weight h.names) h.elements)
    (length_dedup_le h.reads_subset)

/-- A name in the place of which an element is put is not read any more. -/
theorem Moved.not_mem_reads (h : Moved (SymbolTable.ofBlock b) (ofStmts b) new kept moves)
    (hnames : countNames new.binds = countNames (ofStmts b).binds)
    (helements : countElements new.binds = countElements (ofStmts b).binds) {n : String} {v : Expr}
    (hmove : (n, v) ∈ moves) (hv : isElement v = true) : n ∈ (ofStmts b).reads ∧ n ∉ new.reads := by
  have hcount : (ofStmts b).reads.count n = 1 := by
    cases h.passes _ hmove with
    | name | result => cases hv
    | element helement =>
      obtain ⟨n', t, k, info, hn, -, -, hget, -, hreads⟩ := exists_of_elementValue? helement
      cases hn
      rw [← reads_ofBlock hget, hreads]
  have hone : 0 < moves.countP (isElementOf n) :=
    List.countP_pos_iff.2 ⟨(n, v), hmove, by simp [isElementOf, hv]⟩
  have hbound := h.elements n
  have hheld : held n (ofStmts b).binds = 0 := by omega
  have hmem : n ∈ moves.map Prod.fst := List.mem_map_of_mem (f := Prod.fst) hmove
  have hfirst : 0 < (moves.map Prod.fst).count n := List.count_pos_iff.2 hmem
  have hall := h.reads_old.count_eq n
  rw [List.count_append] at hall
  refine ⟨List.count_pos_iff.1 (by omega), fun hread => ?_⟩
  rw [h.reads_new.mem_iff, List.mem_append, List.mem_flatMap] at hread
  rcases hread with hkept | ⟨⟨n', v'⟩, hmove', hread⟩
  · have := List.count_pos_iff.2 hkept
    omega
  · -- the value that reads the name would hold it
    have hvalue := mem_of_firstValue (firstValue_of_passes (h.passes _ hmove')).2
    have hpos : 0 < held n (ofStmts b).binds := by
      refine held_pos hvalue ?_
      cases h.passes _ hmove' with
      | name | element => exact hread
      | result hresult =>
        have hbinary : 0 < moves.countP fun move => isBinary move.2 :=
          List.countP_pos_iff.2 ⟨_, hmove', rfl⟩
        have := h.results
        omega
    omega

/-- If nothing is taken away, then only names are put in the places of names. -/
theorem Moved.exists_name (h : Moved (SymbolTable.ofBlock b) (ofStmts b) new kept moves)
    (hreworks : Reworks (SymbolTable.ofBlock b) (ofStmts b).reads (ofStmts b) new c)
    (hbulk : bulk new = bulk (ofStmts b)) : ∀ move ∈ moves, ∃ m, move.2 = .name m ∧
      move.1 ∈ (ofStmts b).operands ∧
      aliasOf ((ofStmts b).binds.map aliasPart) move.1 = some m := by
  have hlengths := length_dedup_le hreworks.reads_subset
  have hweight := hreworks.weight
  have hnames := hreworks.names
  have helements := hreworks.elements
  rw [bulk, bulk] at hbulk
  rintro ⟨n, v⟩ hmove
  cases h.passes _ hmove with
  | name halias hoperand =>
    rename_i m
    rw [nameValue?_ofBlock] at halias
    obtain ⟨m', hm', hname⟩ := Option.map_eq_some_iff.1 halias
    cases hname
    exact ⟨m, rfl, hoperand, hm'⟩
  -- Once an element is put in its place, a name is read no more, so `bulk` would shrink.
  | element =>
    obtain ⟨hread, hnot⟩ := h.not_mem_reads (by omega) (by omega) hmove rfl
    have := length_dedup_lt hreworks.reads_subset hread hnot
    omega
  -- A result takes a name from the values, and so would this.
  | result =>
    have hbinary : 0 < moves.countP fun move => isBinary move.2 :=
      List.countP_pos_iff.2 ⟨_, hmove, rfl⟩
    have := h.results
    omega

theorem total_moved_lt {f : String → Nat} (hne : moves ≠ [])
    (h : ∀ move ∈ moves, ∃ m, move.2 = .name m ∧ f m < f move.1) :
    total f (moves.flatMap fun move => (ofExpr move.2).reads) < total f (moves.map Prod.fst) := by
  induction moves with
  | nil => exact absurd rfl hne
  | cons move moves ih =>
    obtain ⟨n, v⟩ := move
    obtain ⟨⟨m, rfl, hm⟩, hmoves⟩ := List.forall_mem_cons.1 h
    have hle : total f (moves.flatMap fun move => (ofExpr move.2).reads) ≤
        total f (moves.map Prod.fst) := by
      by_cases hnil : moves = []
      · rw [hnil]
        exact Nat.le_refl _
      · exact Nat.le_of_lt (ih hnil hmoves)
    exact Nat.add_lt_add_of_lt_of_le hm hle

/-- If nothing is taken away, then some of the names come nearer to the ends of their chains. -/
theorem distance_lt {c : Nat} (hc : c ≠ 0)
    (h : Reworks (SymbolTable.ofBlock b) (ofStmts b).reads (ofStmts b) new c)
    (hbulk : bulk new = bulk (ofStmts b))
    (hends : ∀ n ∈ (ofStmts b).operands,
      ∃ k, chain (aliasOf ((ofStmts b).binds.map aliasPart)) k n = none) :
    distance new < distance (ofStmts b) := by
  have hlengths := length_dedup_le h.reads_subset
  have hweight := h.weight
  have hnames := h.names
  have helements := h.elements
  have hbulk' := hbulk
  rw [bulk, bulk] at hbulk'
  have haliases := h.aliases (by omega) (by omega)
  rcases h.moved with hlt | ⟨kept, moves, hmoved, hne⟩
  · omega
  · rw [distance, distance, haliases, total_perm _ hmoved.reads_new, total_perm _ hmoved.reads_old,
      total_append, total_append]
    refine Nat.add_lt_add_left (total_moved_lt (hne hc) fun move hmove => ?_) _
    obtain ⟨m, hm, hoperand, halias⟩ := hmoved.exists_name h hbulk move hmove
    exact ⟨m, hm, distanceToEnd_lt halias (hends _ hoperand)⟩

end

/-! ## Endless windows -/

/-- The name that is reached after some steps from an expression to the name that it passes on. -/
def follow (T : SymbolTable) : Nat → Expr → Option Expr
  | 0, e => some e
  | k + 1, e => (nameValue? T e).bind (follow T k)

/-- Whether the steps from some operand to the name that it passes on never come to an end. -/
def IsEndless (b : Block) : Prop :=
  ∃ e ∈ b.expressions, ∃ o ∈ operandsOf e, ∀ k, follow (SymbolTable.ofBlock b) k o ≠ none

/-- Whether no helper passes on the result of an operator with a function among its parts. -/
def PassesNoFunctions (b : Block) : Prop :=
  ∀ n op l r ordinal, .bind n (some (.binary op l r)) ordinal ∈ (SymbolTable.ofBlock b).uses →
    isInvented n = true →
    ∀ e, .expr e ∈ Node.ofExpr (fun _ => true) (.binary op l r) → isFunction e = false

section

variable {b : Block} {n m : String}

theorem mem_binds_iff {v : Option Expr} :
    (n, v) ∈ (ofStmts b).binds ↔ ∃ ordinal, .bind n v ordinal ∈ (SymbolTable.ofBlock b).uses := by
  rw [← (tells_block b).binds, List.mem_filterMap]
  constructor
  · rintro ⟨use, huse, hpair⟩
    cases use with
    | read _ => cases hpair
    | bind n' v' ordinal =>
      cases hpair
      exact ⟨ordinal, huse⟩
  · rintro ⟨ordinal, huse⟩
    exact ⟨_, huse, rfl⟩

theorem passesNoFunctions_iff : PassesNoFunctions b ↔ ArePlain (ofStmts b).binds := by
  constructor
  · intro h n v hv hn hbinary
    obtain ⟨ordinal, huse⟩ := mem_binds_iff.1 hv
    cases v with
    | binary op l r => exact (tells_ofExpr _ 0).functions.2 (h n op l r ordinal huse hn)
    | _ => cases hbinary
  · intro h n op l r ordinal huse hn
    exact (tells_ofExpr _ 0).functions.1 (h n _ (mem_binds_iff.2 ⟨ordinal, huse⟩) hn rfl)

theorem follow_name (b : Block) (k : Nat) (n : String) :
    follow (SymbolTable.ofBlock b) k (.name n) =
      (chain (aliasOf ((ofStmts b).binds.map aliasPart)) k n).map .name := by
  induction k generalizing n with
  | zero => rfl
  | succ k ih =>
    rw [follow, chain, nameValue?_ofBlock]
    cases aliasOf ((ofStmts b).binds.map aliasPart) n with
    | none => rfl
    | some m => exact ih m

theorem isEndless_iff : IsEndless b ↔ ∃ n ∈ (ofStmts b).operands,
    ∀ k, chain (aliasOf ((ofStmts b).binds.map aliasPart)) k n ≠ none := by
  have hexpressions : ∀ e, e ∈ b.expressions ↔ .expr e ∈ b.nodes := by
    intro e
    rw [Block.expressions, List.mem_filterMap]
    constructor
    · rintro ⟨node, hnode, hasExpr⟩
      cases node with
      | stmt _ => cases hasExpr
      | expr _ =>
        cases hasExpr
        exact hnode
    · exact fun h => ⟨_, h, rfl⟩
  constructor
  · rintro ⟨e, he, o, ho, hfollow⟩
    cases o with
    | name n =>
      refine ⟨n, ((tells_block b).operands n).2 ⟨e, (hexpressions e).1 he, ho⟩, fun k hk => ?_⟩
      exact hfollow k (by rw [follow_name, hk]; rfl)
    -- What is no name is followed nowhere.
    | _ => exact absurd rfl (hfollow 1)
  · rintro ⟨n, hn, hchain⟩
    obtain ⟨e, he, ho⟩ := ((tells_block b).operands n).1 hn
    refine ⟨e, (hexpressions e).2 he, .name n, ho, fun k hk => hchain k ?_⟩
    rwa [follow_name, Option.map_eq_none_iff] at hk

/-- Whether a helper is bound to another name. -/
def PassesOn (b : Block) (n m : String) : Prop :=
  isInvented n = true ∧ ∃ ordinal, .bind n (some (.name m)) ordinal ∈ (SymbolTable.ofBlock b).uses

theorem passesOn_of_aliasOf (h : aliasOf ((ofStmts b).binds.map aliasPart) n = some m) :
    PassesOn b n m := by
  rw [aliasOf] at h
  split at h
  · rename_i hinvented
    obtain ⟨⟨n', value⟩, hfind, hvalue⟩ := Option.bind_eq_some_iff.1 h
    obtain ⟨⟨n'', v⟩, hbind, hpart⟩ := List.mem_map.1 (List.mem_of_find?_eq_some hfind)
    have hname := List.find?_some hfind
    rw [beq_iff_eq] at hname
    cases hpart
    obtain ⟨v', rfl, hv⟩ := Option.bind_eq_some_iff.1 hvalue
    cases v' with
    | name _ =>
      cases hv
      cases hname
      exact ⟨hinvented, mem_binds_iff.1 hbind⟩
    | _ => cases hv
  · cases h

theorem chain_succ (next : String → Option String) (k : Nat) (n : String) :
    chain next (k + 1) n = (chain next k n).bind next := by
  induction k generalizing n with
  | zero => simp [chain]
  | succ k ih =>
    rw [chain, chain, Option.bind_assoc]
    exact Option.bind_congr fun m _ => ih m

/-- An endless chain comes back to where it was: there are only so many bindings. -/
theorem exists_transGen_of_isEndless (h : IsEndless b) : ∃ n, Relation.TransGen (PassesOn b) n n := by
  obtain ⟨n, -, hchain⟩ := isEndless_iff.1 h
  choose name hname using fun k => Option.ne_none_iff_exists'.1 (hchain k)
  have hstep : ∀ k, PassesOn b (name k) (name (k + 1)) := fun k => by
    refine passesOn_of_aliasOf ?_
    rw [← hname (k + 1), chain_succ, hname k, Option.bind_some]
  have hbound : ∀ k, name k ∈ {n | n ∈ (ofStmts b).binds.map Prod.fst} := fun k => by
    obtain ⟨-, hbind⟩ := hstep k
    exact List.mem_map_of_mem (f := Prod.fst) (mem_binds_iff.2 hbind)
  obtain ⟨i, j, hlt, heq⟩ :=
    Set.Finite.exists_lt_map_eq_of_forall_mem hbound (List.finite_toSet _)
  refine ⟨name i, ?_⟩
  have hpath : ∀ j > i, Relation.TransGen (PassesOn b) (name i) (name j) := by
    intro j hj
    induction j, hj using Nat.le_induction with
    | base => exact .single (hstep i)
    | succ j _ ih => exact ih.tail (hstep j)
  have hcycle := hpath j hlt
  rwa [← heq] at hcycle

/-! ## Run by run -/

/-- The window after some passes. -/
def passes (b : Block) : Nat → Block
  | 0 => b
  | n + 1 => (pass (passes b n)).1

theorem passes_succ (b : Block) (n : Nat) : passes b (n + 1) = (pass (passes b n)).1 := rfl

theorem passes_pass (b : Block) (n : Nat) : passes (pass b).1 n = passes b (n + 1) := by
  induction n with
  | zero => rfl
  | succ n ih => rw [passes_succ, ih, ← passes_succ]

theorem passesNoFunctions_passes (h : PassesNoFunctions b) (n : Nat) :
    PassesNoFunctions (passes b n) := by
  induction n with
  | zero => exact h
  | succ n ih =>
    rw [passesNoFunctions_iff] at ih ⊢
    rw [passes_succ]
    exact (part_pass ih).reworks.plain ih

/-- No pass makes a helper pass on another name. -/
theorem PassesOn.of_passes (hplain : PassesNoFunctions b) {i : Nat}
    (h : PassesOn (passes b i) n m) : PassesOn b n m := by
  induction i with
  | zero => exact h
  | succ i ih =>
    refine ih ⟨h.1, mem_binds_iff.1 ?_⟩
    have hbind := mem_binds_iff.2 h.2
    rw [passes_succ] at hbind
    exact (part_pass (passesNoFunctions_iff.1
      (passesNoFunctions_passes hplain i))).reworks.pairs n m hbind

/-- A pass that changes nothing finds no chain to follow. -/
theorem pass_unchanged (h : PassesNoFunctions b) (hzero : (pass b).2 = 0) :
    (pass b).1 = b ∧ ¬ IsEndless b := by
  have hpart := part_pass (passesNoFunctions_iff.1 h)
  refine ⟨hpart.same hzero, fun hendless => ?_⟩
  obtain ⟨n, hn, hchain⟩ := isEndless_iff.1 hendless
  have hnone := hpart.idle hzero n hn
  rw [nameValue?_ofBlock, Option.map_eq_none_iff] at hnone
  exact hchain 1 (by rw [chain, hnone]; rfl)

/-- A pass that changes something takes something away or comes nearer to the ends of chains. -/
theorem pass_lt (h : PassesNoFunctions b) (hchanges : (pass b).2 ≠ 0) (hends : ¬ IsEndless b) :
    Prod.Lex (· < ·) (· < ·) (bulk (ofStmts (pass b).1), distance (ofStmts (pass b).1))
      (bulk (ofStmts b), distance (ofStmts b)) := by
  have hreworks := (part_pass (passesNoFunctions_iff.1 h)).reworks
  rcases Nat.lt_or_eq_of_le (bulk_le hreworks) with hlt | heq
  · exact .left _ _ hlt
  · rw [heq]
    refine .right _ (distance_lt hchanges hreworks heq fun n hn => ?_)
    by_contra hchain
    rw [not_exists] at hchain
    exact hends (isEndless_iff.2 ⟨n, hn, hchain⟩)

theorem exists_pass_unchanged (h : PassesNoFunctions b) {n : Nat}
    (hends : ∀ i ≥ n, ¬ IsEndless (passes b i)) : ∃ i, (pass (passes b i)).2 = 0 := by
  obtain ⟨i, hi⟩ := WellFounded.not_rel_apply_succ (r := Prod.Lex (· < ·) (· < ·))
    fun i => (bulk (ofStmts (passes b (n + i))), distance (ofStmts (passes b (n + i))))
  by_contra hchanges
  rw [not_exists] at hchanges
  refine hi ?_
  rw [← Nat.add_assoc, passes_succ]
  exact pass_lt (passesNoFunctions_passes h _) (hchanges _) (hends _ (Nat.le_add_right _ _))

theorem passes_eq_of_unchanged (h : PassesNoFunctions b) {n : Nat}
    (hzero : (pass (passes b n)).2 = 0) : ∀ i ≥ n, passes b i = passes b n := by
  intro i hi
  induction i, hi using Nat.le_induction with
  | base => rfl
  | succ i _ ih =>
    rw [passes_succ, ih]
    exact (pass_unchanged (passesNoFunctions_passes h n) hzero).1

end

end Simplify

open Simplify

theorem simplifyWithin_succ (limit : Nat) (b : Block) :
    simplifyWithin (limit + 1) b = if (pass b).2 = 0 then ((pass b).1, 0)
      else ((simplifyWithin limit (pass b).1).1, (simplifyWithin limit (pass b).1).2 + 1) := rfl

/-- Simplifying goes on to the first pass that changes nothing. -/
theorem simplifyWithin_eq {b : Block} {n : Nat} (hzero : (pass (passes b n)).2 = 0)
    (hchanges : ∀ i < n, (pass (passes b i)).2 ≠ 0) {limit : Nat} (hlimit : n < limit) :
    simplifyWithin limit b = (passes b (n + 1), n) := by
  induction n generalizing b limit with
  | zero =>
    obtain ⟨limit, rfl⟩ := Nat.exists_eq_add_one.2 hlimit
    rw [simplifyWithin_succ]
    exact if_pos hzero
  | succ n ih =>
    obtain ⟨limit, rfl⟩ := Nat.exists_eq_add_one.2 (Nat.zero_lt_of_lt hlimit)
    have hrest := ih (b := (pass b).1) (by rwa [passes_pass])
      (fun i hi => by rw [passes_pass]; exact hchanges (i + 1) (Nat.succ_lt_succ hi))
      (Nat.lt_of_succ_lt_succ hlimit)
    rw [simplifyWithin_succ, hrest, passes_pass]
    exact if_neg (hchanges 0 (Nat.succ_pos n))

/-- Simplifying that ends before its limit ends with a pass that changes nothing. -/
theorem exists_of_simplifyWithin_lt {b : Block} {limit : Nat}
    (h : (simplifyWithin limit b).2 < limit) : ∃ i, (pass (passes b i)).2 = 0 := by
  induction limit generalizing b with
  | zero => exact absurd h (Nat.not_lt_zero _)
  | succ limit ih =>
    by_cases hzero : (pass b).2 = 0
    · exact ⟨0, hzero⟩
    · rw [simplifyWithin_succ, if_neg hzero] at h
      obtain ⟨i, hi⟩ := ih (Nat.lt_of_succ_lt_succ h)
      exact ⟨i + 1, by rwa [← passes_pass]⟩

/-- Simplifying settles once some pass changes nothing. -/
theorem simplify_of_exists {b : Block} (h : ∃ i, (pass (passes b i)).2 = 0) :
    ∃ n, ∀ m > n, simplify m b = simplify (n + 1) b ∧ (simplify m b).2 ≤ n := by
  classical
  refine ⟨Nat.find h, fun m hm => ?_⟩
  have hsettled : ∀ m > Nat.find h, simplify m b = (passes b (Nat.find h + 1), Nat.find h) :=
    fun m hm => simplifyWithin_eq (Nat.find_spec h) (fun i hi => Nat.find_min h hi)
      (Nat.lt_of_lt_of_le hm (Nat.le_max_right _ _))
  rw [hsettled m hm, hsettled _ (Nat.lt_succ_self _)]
  exact ⟨rfl, Nat.le_refl _⟩

/-- If no helper passes on a result with a function in it, then simplifying settles exactly if from
    some pass on no operand is at the beginning of an endless chain of names. -/
theorem simplify_settles_iff {b : Block} (h : PassesNoFunctions b) :
    (∃ n, ∀ m > n, simplify m b = simplify (n + 1) b ∧ (simplify m b).2 ≤ n) ↔
      ∃ n, ∀ i ≥ n, ¬ IsEndless (passes b i) := by
  constructor
  · rintro ⟨n, hsettled⟩
    have hcount := (hsettled (n + 1) (Nat.lt_succ_self n)).2
    rw [simplify, Nat.max_eq_right (Nat.succ_pos n)] at hcount
    obtain ⟨i, hi⟩ := exists_of_simplifyWithin_lt (Nat.lt_succ_of_le hcount)
    refine ⟨i, fun j hj => ?_⟩
    rw [passes_eq_of_unchanged h hi j hj]
    exact (pass_unchanged (passesNoFunctions_passes h i) hi).2
  · rintro ⟨n, hends⟩
    exact simplify_of_exists (exists_pass_unchanged h hends)

/-- A helper that passes on a name. -/
def passingOn : Block :=
  [.localVars ["_L0"] [.name "x"], .assign [.index (.name "t") (.name "_L0")] [.name "y"]]

theorem simplify_settles_passingOn :
    PassesNoFunctions passingOn ∧
      ∃ n, ∀ m > n, simplify m passingOn = simplify (n + 1) passingOn ∧ (simplify m passingOn).2 ≤ n := by
  have hplain : PassesNoFunctions passingOn := by
    intro n op l r ordinal huse
    have huses : (SymbolTable.ofBlock passingOn).uses =
        [.read "x", .bind "_L0" (some (.name "x")) 0, .read "t", .read "_L0", .read "y"] := rfl
    rw [huses] at huse
    simp at huse
  have hzero : (pass (passes passingOn 2)).2 = 0 := by rfl
  refine ⟨hplain, (simplify_settles_iff hplain).2 ⟨2, fun i hi => ?_⟩⟩
  rw [passes_eq_of_unchanged hplain hzero i hi]
  exact (pass_unchanged (passesNoFunctions_passes hplain 2) hzero).2

/-- A helper that passes itself on. -/
def passingItself : Block :=
  [.localVars ["_L0"] [.name "_L0"], .assign [.index (.name "t") (.name "_L0")] [.name "x"]]

/-- Every pass over the window counts a change, although it puts back what was there. -/
theorem not_settles_passingItself : ¬ ∃ n, ∀ m > n,
    simplify m passingItself = simplify (n + 1) passingItself ∧ (simplify m passingItself).2 ≤ n := by
  have hpass : pass passingItself = (passingItself, 1) := by rfl
  have hcount : ∀ m, simplifyWithin m passingItself = (passingItself, m) := by
    intro m
    induction m with
    | zero => rfl
    | succ m ih => rw [simplifyWithin_succ, hpass, if_neg Nat.one_ne_zero, ih]
  rintro ⟨n, hn⟩
  have hle := (hn (n + 1) (Nat.lt_succ_self n)).2
  rw [simplify, hcount, Nat.max_eq_right (Nat.succ_pos n)] at hle
  exact absurd hle (Nat.not_succ_le_self n)

/-- If no helper passes on a result with a function in it, and none passes on itself, by way of
    others or not, then simplifying settles. -/
theorem simplify_settles_of_acyclic {b : Block} (h : PassesNoFunctions b)
    (hacyclic : ∀ n, ¬ Relation.TransGen (PassesOn b) n n) :
    ∃ n, ∀ m > n, simplify m b = simplify (n + 1) b ∧ (simplify m b).2 ≤ n := by
  refine simplify_of_exists (exists_pass_unchanged h (n := 0) fun i _ hendless => ?_)
  obtain ⟨n, hn⟩ := exists_transGen_of_isEndless hendless
  exact hacyclic n (hn.lift id fun _ _ hpasses => hpasses.of_passes h)

end LuaUnpack.Handler
