import LuaUnpack.Proofs.Lua.Visits
import LuaUnpack.Proofs.Lua.Walks
import LuaUnpack.Proofs.Outcome
import LuaUnpack.Script.Analysis
import Mathlib.Data.List.Induction

/-!
# Numbers of local functions

Two walks number the local functions of a script. The one that changes a local function
counts all of them, each before those in it, and changes the one with the number it is given
(`changeLocalFunction_eq_map`). The one that analyses a script counts those it meets, and it
does not look into keys, nor into locals that get another value later. The number that it
notes for the machine therefore leads back to the machine just if it has met every local
function before it (`analyze_wrapper_iff`).
-/

namespace LuaUnpack.Script

open LuaUnpack.Lua

/-- The local function that a node declares. -/
def functionAt? (node : Node) : Option FuncBody := node.asStmt?.bind localFunction?

theorem functionAt?_eq_some_iff {node : Node} {f : FuncBody} :
    functionAt? node = some f ↔ ∃ name, node = .stmt (.localFunction name f) := by
  cases node with
  | stmt s => cases s <;> simp [functionAt?, Node.asStmt?, localFunction?]
  | expr e => simp [functionAt?, Node.asStmt?]

/-- The local functions among nodes. -/
def functionsOf (nodes : List Node) : List FuncBody := nodes.filterMap functionAt?

@[simp]
theorem functionsOf_append (left right : List Node) :
    functionsOf (left ++ right) = functionsOf left ++ functionsOf right :=
  List.filterMap_append ..

theorem functionsOf_nodes (root : Block) : functionsOf root.nodes = localFunctions root := by
  rw [functionsOf, localFunctions, Block.statements, List.filterMap_filterMap]
  rfl

/-! ## The walk that changes one -/

section

variable {ε : Type}

/-- Whether an action on a part of a tree, which has some nodes, changes the local function
    with a number and nothing else. Away from it the action counts the local functions of the
    part; where the part has it, the change of its body decides about the result. -/
structure Changes {α : Type} (target : Nat)
    (act : (Block → Except ε Block) → StateT Nat (Except ε) α) (nodes : List Node)
    (same : α) : Prop where
  away : ∀ change k, target < k ∨ k + (functionsOf nodes).length ≤ target →
    (act change).run k = .ok (same, k + (functionsOf nodes).length)
  there : ∀ k f, k ≤ target → (functionsOf nodes)[target - k]? = some f →
    ∃ (put : Block → α) (k' : Nat), target < k' ∧
      ∀ change, (act change).run k = (change f.body).map fun body => (put body, k')

variable {α β : Type} {target : Nat} {nodes nodes₁ nodes₂ : List Node} {a : α}
  {act : (Block → Except ε Block) → StateT Nat (Except ε) α}

theorem changes_pure (a : α) : Changes (ε := ε) target (fun _ => pure a) [] a where
  away _ _ _ := rfl
  there _ _ _ h := by cases h

theorem Changes.bind {next : (Block → Except ε Block) → α → StateT Nat (Except ε) β}
    {same : α → β} (h₁ : Changes target act nodes₁ a)
    (h₂ : ∀ a, Changes target (next · a) nodes₂ (same a)) :
    Changes target (fun change => act change >>= next change) (nodes₁ ++ nodes₂) (same a) where
  away change k h := by
    rw [functionsOf_append, List.length_append] at h ⊢
    rw [StateT.run_bind, h₁.away change k (by omega)]
    exact ((h₂ a).away change _ (by omega)).trans (by rw [Nat.add_assoc])
  there k f hk hf := by
    rw [functionsOf_append] at hf
    -- The function with the number is in the first part, or in what comes after it.
    by_cases hin : target - k < (functionsOf nodes₁).length
    · rw [List.getElem?_append_left hin] at hf
      obtain ⟨put, k', hk', hrun⟩ := h₁.there k f hk hf
      refine ⟨same ∘ put, k' + (functionsOf nodes₂).length, by omega, fun change => ?_⟩
      rw [StateT.run_bind, hrun]
      cases change f.body with
      | error e => rfl
      | ok body => exact (h₂ (put body)).away change k' (.inl hk')
    · have hle : (functionsOf nodes₁).length ≤ target - k := Nat.not_lt.1 hin
      rw [List.getElem?_append_right hle, Nat.sub_sub] at hf
      obtain ⟨put, k', hk', hrun⟩ := (h₂ a).there (k + _) f (by omega) hf
      refine ⟨put, k', hk', fun change => ?_⟩
      rw [StateT.run_bind, h₁.away change k (by omega)]
      exact hrun change

/-- At the local function with the number, what is below it is not looked at. -/
theorem run_stmt_localFunction (change : Block → Except ε Block) (name : String) (f : FuncBody)
    (act : StateT Nat (Except ε) Stmt) (k : Nat) :
    ((localFunctionMapper target change).stmt (.localFunction name f) act).run k =
      if k = target then
        (change f.body).map fun body => (.localFunction name ⟨f.params, f.isVararg, body⟩, k + 1)
      else act.run (k + 1) := by
  obtain ⟨params, isVararg, body⟩ := f
  change (if k = target then _ else _ : StateT Nat (Except ε) Stmt).run (k + 1) = _
  split
  · cases change body <;> rfl
  · rfl

/-- A local function is the first one that is counted in it. -/
theorem Changes.localFunction (name : String) (f : FuncBody)
    {act : (Block → Except ε Block) → StateT Nat (Except ε) Stmt}
    (h : Changes target act nodes (.localFunction name f)) :
    Changes target
      (fun change => (localFunctionMapper target change).stmt (.localFunction name f) (act change))
      (.stmt (.localFunction name f) :: nodes) (.localFunction name f) := by
  have hnodes : functionsOf (.stmt (.localFunction name f) :: nodes) = f :: functionsOf nodes := rfl
  constructor
  · intro change k hk
    rw [hnodes, List.length_cons] at hk ⊢
    have hne : k ≠ target := by omega
    rw [run_stmt_localFunction, if_neg hne, h.away change (k + 1) (by omega)]
    exact congrArg (fun n => Except.ok (_, n)) (by omega)
  · intro k f' hk hf
    rw [hnodes] at hf
    -- It is this function, or one below it.
    by_cases heq : k = target
    · obtain rfl := heq
      rw [Nat.sub_self] at hf
      obtain rfl := Option.some.inj hf
      refine ⟨fun b => .localFunction name ⟨f.params, f.isVararg, b⟩, k + 1, Nat.lt_succ_self k,
        fun change => ?_⟩
      rw [run_stmt_localFunction, if_pos rfl]
    · rw [show target - k = target - (k + 1) + 1 by omega, List.getElem?_cons_succ] at hf
      obtain ⟨put, k', hk', hrun⟩ := h.there (k + 1) f' (by omega) hf
      refine ⟨put, k', hk', fun change => ?_⟩
      rw [run_stmt_localFunction, if_neg heq, hrun]

/-- A node that is not a local function does not count. -/
theorem Changes.under {node : Node} (hnode : functionAt? node = none)
    (h : Changes target act nodes a) : Changes target act (node :: nodes) a := by
  have hsame : functionsOf (node :: nodes) = functionsOf nodes := List.filterMap_cons_none hnode
  constructor
  · rw [hsame]
    exact h.away
  · rw [hsame]
    exact h.there

theorem Changes.stmt {act : (Block → Except ε Block) → StateT Nat (Except ε) Stmt} (s : Stmt)
    (h : Changes target act nodes s) :
    Changes target (fun change => (localFunctionMapper target change).stmt s (act change))
      (.stmt s :: nodes) s := by
  cases s with
  | localFunction name f => exact h.localFunction name f
  | _ => exact h.under rfl

theorem carries_changes (ε : Type) (target : Nat) :
    Mapper.Carries (fun change : Block → Except ε Block => localFunctionMapper target change) {}
      (fun act a a' old _ => a' = a ∧ Changes target act old a) where
  pure a := ⟨rfl, changes_pure a⟩
  bind make make' h₁ h₂ := by
    obtain ⟨rfl, h₁⟩ := h₁
    exact ⟨(h₂ _).1, h₁.bind fun x => (h₂ x).2⟩
  expr _ h := ⟨h.1, by
    rw [Node.ofExpr_eq_cons]
    exact h.2.under rfl⟩
  stmt _ h := ⟨h.1, by
    rw [Node.ofStmt_eq_cons]
    exact h.2.stmt _⟩
  block h := h

end

/-- Changing the local function with a number means to change its body and to put the
    result in its place. -/
theorem changeLocalFunction_eq_map {ε : Type} {target : Nat} {root : Block} {f : FuncBody}
    (h : (localFunctions root)[target]? = some f) :
    ∃ put : Block → Block, ∀ change : Block → Except ε Block,
      changeLocalFunction target change root = (change f.body).map put := by
  rw [← functionsOf_nodes] at h
  obtain ⟨put, k', -, hrun⟩ :=
    ((carries_changes ε target).onStmts root).2.there 0 f (Nat.zero_le target) h
  refine ⟨put, fun change => ?_⟩
  have hblock : (localFunctionMapper target change).onBlock root =
      (localFunctionMapper target change).onStmts root := rfl
  rw [changeLocalFunction, StateT.run'_eq, hblock, hrun]
  cases change f.body <;> rfl

/-! ## The walk that analyses -/

namespace Analysis

open LuaUnpack.Chunk

variable {f f' : Findings}

theorem wrapper_foldl {α : Type} {step : Findings → α → Findings}
    (hstep : ∀ f a, (step f a).wrapper = f.wrapper) (members : List α) (f : Findings) :
    (members.foldl step f).wrapper = f.wrapper := by
  induction members generalizing f with
  | nil => rfl
  | cons a members ih => rw [List.foldl_cons, ih, hstep]

theorem wrapper_foldlM {α : Type} {step : Findings → α → Except Error Findings}
    (hstep : ∀ {f f'} a, step f a = .ok f' → f'.wrapper = f.wrapper) {members : List α}
    (h : members.foldlM step f = .ok f') : f'.wrapper = f.wrapper := by
  induction members generalizing f with
  | nil => rw [pure_eq_ok_iff.1 h]
  | cons a members ih =>
    rw [List.foldlM_cons] at h
    obtain ⟨g, hg, hrest⟩ := bind_eq_ok_iff.1 h
    rw [ih hrest, hstep a hg]

theorem wrapper_setPayload (f : Findings) (payload : String) :
    (f.setPayload payload).wrapper = f.wrapper := by
  rw [Findings.setPayload]
  split <;> rfl

theorem wrapper_readLocal (name : String) (value : Expr) (f : Findings) :
    (readLocal name value f).wrapper = f.wrapper := by
  unfold readLocal
  split
  · split <;> rfl
  · split <;> rfl
  · rfl

theorem wrapper_readTags {body : Block} (h : readTags body f = .ok f') :
    f'.wrapper = f.wrapper := by
  obtain ⟨tags, -, h⟩ := bind_eq_ok_iff.1 h
  split at h
  · cases h
  · rw [← pure_eq_ok_iff.1 h, wrapper_foldl]
    exact fun _ _ => rfl

theorem wrapper_readLayout {body : Block} (h : readLayout body f = .ok f') :
    f'.wrapper = f.wrapper := by
  refine wrapper_foldlM ?_ h
  intro f f' s h
  unfold readLayoutStmt at h
  split at h
  · cases h
    rfl
  · split at h
    · obtain ⟨g, hg, h⟩ := bind_eq_ok_iff.1 h
      rw [← pure_eq_ok_iff.1 h]
      exact (wrapper_readTags hg : g.wrapper = f.wrapper)
    · cases h
      rfl
    · cases h
      rfl
  · cases h
    rfl

theorem wrapper_readEntry {name : String} {params : List String}
    (h : readEntry name params f = .ok f') : f'.wrapper = f.wrapper := by
  unfold readEntry at h
  split at h
  · cases h
  · rw [← pure_eq_ok_iff.1 h, wrapper_foldl]
    · rfl
    · exact fun _ _ => rfl

theorem wrapper_readMachine {body : Block} {ordinal : Nat}
    (h : readMachine body ordinal f = .ok f') : f'.wrapper = some ordinal := by
  obtain ⟨g, -, h⟩ := bind_eq_ok_iff.1 h
  split at h
  · split at h
    · cases h
    · rw [← pure_eq_ok_iff.1 h]
      rfl
  · cases h

/-- Reading a node counts it if it is a local function, and notes the number of the machine
    if it is the one that has this role. -/
theorem readNode_eq_ok {symbols : SymbolTable} {p p' : Progress} {node : Node}
    (h : readNode symbols p node = .ok p') :
    p'.functions = p.functions + (functionsOf [node]).length ∧
      (p'.findings.wrapper = p.findings.wrapper ∨
        ∃ name function, node = .stmt (.localFunction name function) ∧
          role? p.functions = some .machine ∧
          (readMachine function.body p.functions p.findings).isOk ∧
          p'.findings.wrapper = some p.functions) := by
  -- The cases are those of `readNode`; only the first one counts.
  unfold readNode at h
  split at h
  case h_1 name function =>
    obtain ⟨g, hg, h⟩ := bind_eq_ok_iff.1 h
    obtain rfl := pure_eq_ok_iff.1 h
    refine ⟨rfl, ?_⟩
    unfold readFunction at hg
    split at hg
    case h_1 => exact .inl (wrapper_readLayout hg)
    case h_2 => exact .inl (wrapper_readEntry hg)
    case h_3 hrole =>
      exact .inr ⟨name, function, rfl, hrole, hg ▸ rfl, wrapper_readMachine hg⟩
    case h_4 =>
      cases hg
      exact .inl rfl
  case h_2 name value =>
    cases h
    refine ⟨?_, .inl ?_⟩
    · split <;> rfl
    · split
      · rfl
      · exact wrapper_readLocal ..
  case h_3 =>
    cases h
    exact ⟨rfl, .inl (wrapper_setPayload ..)⟩
  case h_4 e _ =>
    cases h
    refine ⟨?_, .inl ?_⟩
    · split <;> rfl
    · split <;> rfl
  case h_5 hfunction _ _ _ =>
    cases h
    have hnode : functionAt? node = none := by
      rw [Option.eq_none_iff_forall_ne_some]
      intro f hf
      obtain ⟨name, hname⟩ := functionAt?_eq_some_iff.1 hf
      exact hfunction name f hname
    rw [functionsOf, List.filterMap_cons_none hnode]
    exact ⟨rfl, .inl rfl⟩

/-- After some nodes the local functions among them are counted, and a number that has been
    noted is that of one of them. -/
theorem foldlM_readNode_eq_ok {symbols : SymbolTable} {known : Findings} {nodes : List Node}
    {p : Progress} (hknown : known.wrapper = none)
    (h : nodes.foldlM (readNode symbols) { findings := known } = .ok p) :
    p.functions = (functionsOf nodes).length ∧
      ∀ ordinal, p.findings.wrapper = some ordinal → ∃ before name function after g,
        nodes = before ++ Node.stmt (.localFunction name function) :: after ∧
        (functionsOf before).length = ordinal ∧ role? ordinal = some .machine ∧
        (readMachine function.body ordinal g).isOk := by
  -- From the right, since what is noted depends on all nodes before.
  induction nodes using List.reverseRecOn generalizing p with
  | nil =>
    obtain rfl := pure_eq_ok_iff.1 h
    refine ⟨rfl, fun ordinal hordinal => ?_⟩
    rw [hknown] at hordinal
    cases hordinal
  | append_singleton nodes node ih =>
    rw [List.foldlM_append] at h
    obtain ⟨q, hq, h⟩ := bind_eq_ok_iff.1 h
    rw [List.foldlM_cons] at h
    obtain ⟨p', hp', h⟩ := bind_eq_ok_iff.1 h
    obtain rfl := pure_eq_ok_iff.1 h
    obtain ⟨hcount, hnoted⟩ := ih hq
    obtain ⟨hfunctions, hwrapper⟩ := readNode_eq_ok hp'
    refine ⟨by rw [hfunctions, hcount, functionsOf_append, List.length_append], ?_⟩
    intro ordinal hordinal
    rcases hwrapper with hkept | ⟨name, function, rfl, hrole, hok, hnew⟩
    · obtain ⟨before, name, function, after, g, rfl, hrest⟩ := hnoted ordinal (hkept ▸ hordinal)
      exact ⟨before, name, function, after ++ [node], g, by simp, hrest⟩
    · obtain rfl : q.functions = ordinal := Option.some.inj (hnew.symm.trans hordinal)
      exact ⟨nodes, name, function, [], q.findings, rfl, hcount.symm, hrole, hok⟩

end Analysis

theorem wrapper_build {f : Findings} {context : Context} (h : f.build = .ok context) :
    f.wrapper = some context.wrapper := by
  obtain ⟨_ | _, _, _, _ | _, _ | _, _, _ | wrapper⟩ := f
  case cons.cons.some.some =>
    cases h
    rfl
  all_goals cases h

/-! ## Both numbers -/

/-- The visits of the analysis of a script. -/
def analysisVisits (root : Block) : List Visit :=
  root.visits (Analysis.enters (SymbolTable.ofBlock root))

/-- The number of a local function after some visits, if all local functions count. -/
def ordinalAfter (before : List Visit) : Nat := (functionsOf (before.map Visit.node)).length

/-- The number of a local function after some visits, if those count that are met. -/
def metOrdinalAfter (before : List Visit) : Nat := (functionsOf (metNodes before)).length

/-- Whether the analysis of a script takes a local function for the machine and gives it a
    number. -/
structure ReadsMachine (root : Block) (ordinal : Nat) (before : List Visit) (machine : FuncBody) :
    Prop where
  place : ∃ name after,
    analysisVisits root = before ++ ⟨.stmt (.localFunction name machine), true⟩ :: after
  ordinal_eq : metOrdinalAfter before = ordinal
  role : Analysis.role? ordinal = some .machine
  read : ∃ g, (Analysis.readMachine machine.body ordinal g).isOk

theorem exists_readsMachine {known : Findings} {root : Block} {context : Context}
    (hknown : known.wrapper = none) (h : analyze known root = .ok context) :
    ∃ before machine, ReadsMachine root context.wrapper before machine := by
  obtain ⟨p, hp, hbuild⟩ := bind_eq_ok_iff.1 h
  obtain ⟨before, name, machine, after, g, hnodes, hordinal, hrole, hread⟩ :=
    (Analysis.foldlM_readNode_eq_ok hknown hp).2 _ (wrapper_build hbuild)
  rw [← metNodes_visits, metNodes, List.map_eq_append_iff] at hnodes
  obtain ⟨met, rest, hfilter, rfl, hrest⟩ := hnodes
  obtain ⟨⟨node, isMet⟩, _, rfl, rfl, -⟩ := List.map_eq_cons_iff.1 hrest
  -- Of the visits up to the machine, the last ones are to nodes that are not met.
  obtain ⟨visits, rest, hvisits, rfl, hrest⟩ := List.filter_eq_append_iff.1 hfilter
  obtain ⟨skipped, after, rfl, hskipped, rfl, -⟩ := List.filter_eq_cons_iff.1 hrest
  have hnone : metNodes skipped = [] := by
    rw [metNodes, List.filter_eq_nil_iff.2 hskipped, List.map_nil]
  refine ⟨visits ++ skipped, machine, ⟨name, after, ?_⟩, ?_, hrole, g, hread⟩
  · rw [List.append_assoc]
    exact hvisits
  · rw [metOrdinalAfter, metNodes_append, hnone, List.append_nil]
    exact hordinal

/-- The number of a local function among all of them leads to it. -/
theorem ReadsMachine.getElem?_localFunctions {root : Block} {ordinal : Nat} {before : List Visit}
    {machine : FuncBody} (h : ReadsMachine root ordinal before machine) :
    (localFunctions root)[ordinalAfter before]? = some machine := by
  obtain ⟨name, after, hplace⟩ := h.place
  have hnodes := map_node_visits (Analysis.enters (SymbolTable.ofBlock root)) root
  rw [← analysisVisits, hplace, List.map_append] at hnodes
  rw [← functionsOf_nodes, ← hnodes, functionsOf_append, ordinalAfter,
    List.getElem?_append_right (Nat.le_refl _), Nat.sub_self]
  rfl

theorem length_functionsOf (nodes : List Node) :
    (functionsOf nodes).length = nodes.countP fun node => (functionAt? node).isSome :=
  List.length_filterMap_eq_countP

/-- Both numbers are the same just if no local function before was left out. -/
theorem ordinalAfter_eq_iff (before : List Visit) :
    ordinalAfter before = metOrdinalAfter before ↔
      ∀ visit ∈ before, (functionAt? visit.node).isSome → visit.met = true := by
  have hall : ordinalAfter before = before.countP fun v => (functionAt? v.node).isSome := by
    rw [ordinalAfter, length_functionsOf, List.countP_map]
    rfl
  have hmet : metOrdinalAfter before =
      (before.filter fun v => (functionAt? v.node).isSome).countP Visit.met := by
    rw [metOrdinalAfter, metNodes, length_functionsOf, List.countP_map, List.countP_filter,
      List.countP_filter]
    exact List.countP_congr fun v _ => by simp [and_comm]
  rw [hall, hmet, List.countP_eq_length_filter, eq_comm, List.countP_eq_length]
  simp

/-- The number that the analysis of a script notes for the machine is that of the machine
    among all local functions, and leads to it when it is to be changed, just if every local
    function before the machine was met. -/
theorem analyze_wrapper_iff {known : Findings} {root : Block} {context : Context}
    (hknown : known.wrapper = none) (h : analyze known root = .ok context) :
    ∃ before machine, ReadsMachine root context.wrapper before machine ∧
      (∀ ε : Type, ∃ put : Block → Block, ∀ change : Block → Except ε Block,
        changeLocalFunction (ordinalAfter before) change root = (change machine.body).map put) ∧
      (ordinalAfter before = context.wrapper ↔
        ∀ visit ∈ before, (functionAt? visit.node).isSome → visit.met = true) := by
  obtain ⟨before, machine, hreads⟩ := exists_readsMachine hknown h
  refine ⟨before, machine, hreads, fun ε => ?_, ?_⟩
  · exact changeLocalFunction_eq_map hreads.getElem?_localFunctions
  · rw [← hreads.ordinal_eq]
    exact ordinalAfter_eq_iff before

theorem Analysis.role?_eq_machine {ordinal : Nat} (h : role? ordinal = some .machine) :
    ordinal = 11 := by
  unfold role? at h
  split at h
  case h_3 => rfl
  all_goals cases h

/-- A local function with nothing in it. -/
def emptyFunction : Stmt := .localFunction "f" ⟨[], false, []⟩

/-- The machine of `plainLoader`: seventeen locals and a dispatch on the last one. -/
def plainMachine : FuncBody :=
  ⟨[], false, [.localVars (List.replicate 17 "n") [],
    .ifThen (.binary .lt (.name "n") .nil) [] .done]⟩

/-- A loader with as little as the analysis asks for, each local function after the other. -/
def plainLoader : Block :=
  List.replicate 8 emptyFunction ++
    [.localFunction "f" ⟨[], false, [.assign [.name "x"] [.nil]]⟩, emptyFunction,
      .localFunction "f" ⟨["a", "b", "c"], false, []⟩, .localFunction "f" plainMachine,
      .call (.call (.name "f") [.name "x", .string ⟨"data", .double⟩]),
      .ret [.binary .add (.name "x") (.call (.name "f") [])]]

theorem analyze_wrapper_plainLoader :
    ∃ context before machine, analyze {} plainLoader = .ok context ∧
      ReadsMachine plainLoader context.wrapper before machine ∧
      ordinalAfter before = context.wrapper := by
  have hok : (analyze {} plainLoader).isOk := by decide
  obtain ⟨context, hcontext⟩ := exists_of_isOk hok
  obtain ⟨before, machine, hreads, -, hiff⟩ := analyze_wrapper_iff rfl hcontext
  have hmet : ∀ visit ∈ analysisVisits plainLoader,
      (functionAt? visit.node).isSome → visit.met = true := by decide
  obtain ⟨name, after, hplace⟩ := hreads.place
  refine ⟨context, before, machine, hcontext, hreads, hiff.2 fun visit hvisit => ?_⟩
  exact hmet visit (hplace ▸ List.mem_append_left _ hvisit)

/-- The loader after a local that has a local function in its value, and gets another value. -/
def changingLoader : Block :=
  [.localVars ["t"] [.function ⟨[], false, [emptyFunction]⟩], .assign [.name "t"] [.nil]] ++
    plainLoader

/-- The number that is noted for the machine leads to an empty function. -/
theorem analyze_wrapper_changingLoader :
    ∃ context before machine, analyze {} changingLoader = .ok context ∧
      ReadsMachine changingLoader context.wrapper before machine ∧
      changeLocalFunction context.wrapper Except.error changingLoader = .error [] ∧
      machine.body ≠ [] := by
  have hok : (analyze {} changingLoader).isOk := by decide
  obtain ⟨context, hcontext⟩ := exists_of_isOk hok
  obtain ⟨before, machine, hreads⟩ := exists_readsMachine rfl hcontext
  have hwrapper : context.wrapper = 11 := Analysis.role?_eq_machine hreads.role
  have hother : (localFunctions changingLoader)[11]? = some ⟨["a", "b", "c"], false, []⟩ := rfl
  obtain ⟨put, hput⟩ := changeLocalFunction_eq_map (ε := Block) hother
  refine ⟨context, before, machine, hcontext, hreads, ?_, ?_⟩
  · rw [hwrapper, hput]
    rfl
  · intro hbody
    obtain ⟨g, hg⟩ := hreads.read
    rw [hbody] at hg
    cases hg

end LuaUnpack.Script
