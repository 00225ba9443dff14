import LuaUnpack.Chunk.Prototype
import LuaUnpack.Proofs.Outcome

/-!
# Prototypes as trees

Statements about every prototype of a program are statements about the list `all` of
its prototypes, a prototype before those nested in it. What is shown for a prototype
from the same for those directly in it holds of every prototype
(`Prototype.tree_induction`).

Numbers are given in the order of that list (`map_name_all_assignNames`). A change of
the code of every prototype succeeds if it succeeds on each of them
(`exists_mapBody_eq_ok_iff`), and it then relates the two lists member by member
(`forall₂_all_of_mapBody`); otherwise it fails as it does on one of them
(`exists_of_mapBody_eq_error`).
-/

namespace LuaUnpack.Chunk.Prototype

/-- Induction on programs: a prototype after those directly in it. -/
@[elab_as_elim]
theorem tree_induction {P : Prototype → Prop}
    (h : ∀ f : Prototype, (∀ g ∈ f.functions, P g) → P f) (f : Prototype) : P f :=
  @Prototype.rec P (fun fs => ∀ g ∈ fs, P g)
    -- Only the nested prototypes among the eight fields have a hypothesis.
    (fun _ _ _ _ _ _ _ _ ih => h _ ih)
    (fun _ hg => absurd hg List.not_mem_nil)
    (fun _ _ hf hfs g hg => (List.mem_cons.1 hg).elim (fun e => e ▸ hf) (hfs g)) f

/-! ## All prototypes -/

theorem allOf_eq_flatMap (fs : List Prototype) : allOf fs = fs.flatMap all := by
  induction fs with
  | nil => rfl
  | cons f fs ih => rw [allOf, List.flatMap_cons, ih]

theorem all_eq_cons (f : Prototype) : f.all = f :: f.functions.flatMap all := by
  cases f
  rw [all, allOf_eq_flatMap]

theorem mem_all_self (f : Prototype) : f ∈ f.all := by
  rw [all_eq_cons]
  exact List.mem_cons_self

theorem mem_all_of_mem {f g k : Prototype} (hg : g ∈ f.functions) (hk : k ∈ g.all) : k ∈ f.all := by
  rw [all_eq_cons]
  exact List.mem_cons_of_mem _ (List.mem_flatMap.2 ⟨g, hg, hk⟩)

/-- What holds of all prototypes holds of the first and of all in those directly in it. -/
theorem forall_mem_all_iff {P : Prototype → Prop} (f : Prototype) :
    (∀ g ∈ f.all, P g) ↔ P f ∧ ∀ g ∈ f.functions, ∀ k ∈ g.all, P k := by
  rw [all_eq_cons, List.forall_mem_cons, List.forall_mem_flatMap]

theorem forall₂_flatMap_all {R P : Prototype → Prototype → Prop} {fs gs : List Prototype}
    (h : List.Forall₂ R fs gs) (hR : ∀ f ∈ fs, ∀ g, R f g → List.Forall₂ P f.all g.all) :
    List.Forall₂ P (fs.flatMap all) (gs.flatMap all) := by
  induction h with
  | nil => exact .nil
  | cons hfg _ ih =>
    rw [List.flatMap_cons, List.flatMap_cons]
    refine List.rel_append (hR _ List.mem_cons_self _ hfg) (ih fun f hf g hfg => ?_)
    exact hR f (List.mem_cons_of_mem _ hf) g hfg

/-- The code and the constants of a prototype. -/
def body (f : Prototype) : List Instruction × List Constant := (f.instructions, f.constants)

/-! ## Names -/

theorem nameAllFrom_cons (k : Nat) (f : Prototype) (fs : List Prototype) :
    nameAllFrom k (f :: fs) =
      ((nameFrom k f).1 :: (nameAllFrom (nameFrom k f).2 fs).1,
        (nameAllFrom (nameFrom k f).2 fs).2) := rfl

mutual

/-- Naming from a number on takes as many numbers as there are prototypes, in their
    order, and keeps their bodies. -/
theorem nameFrom_spec (k : Nat) : (f : Prototype) →
    (nameFrom k f).2 = k + f.all.length ∧
      (nameFrom k f).1.all.map (·.name) = (List.range' k f.all.length).map numberedName ∧
      (nameFrom k f).1.all.map body = f.all.map body
  | ⟨_, _, _, functions, _, _, _, _⟩ => by
    obtain ⟨hlast, hnames, hbody⟩ := nameAllFrom_spec (k + 1) functions
    rw [nameFrom, all, List.length_cons]
    refine ⟨?_, ?_, ?_⟩
    · simp only [hlast]
      omega
    · rw [all, List.map_cons, List.range'_succ, List.map_cons]
      simp only [hnames]
    · rw [all, List.map_cons, List.map_cons]
      simp only [hbody]
      rfl

/-- Naming prototypes goes on after the numbers of those before. -/
theorem nameAllFrom_spec (k : Nat) : (fs : List Prototype) →
    (nameAllFrom k fs).2 = k + (allOf fs).length ∧
      (allOf (nameAllFrom k fs).1).map (·.name) =
        (List.range' k (allOf fs).length).map numberedName ∧
      (allOf (nameAllFrom k fs).1).map body = (allOf fs).map body
  | [] => ⟨rfl, rfl, rfl⟩
  | f :: fs => by
    obtain ⟨hnext, hnames, hbody⟩ := nameFrom_spec k f
    obtain ⟨hlast, hmore, hbodies⟩ := nameAllFrom_spec (nameFrom k f).2 fs
    rw [nameAllFrom_cons, allOf, List.length_append]
    refine ⟨?_, ?_, ?_⟩
    · rw [hlast, hnext, Nat.add_assoc]
    · rw [allOf, List.map_append, hnames, hmore, hnext, ← List.range'_append_1, List.map_append]
    · rw [allOf, List.map_append, List.map_append, hbody, hbodies]

end

/-- The names are the numbers of the prototypes, a prototype before those nested in
    it. -/
theorem map_name_all_assignNames (f : Prototype) :
    f.assignNames.all.map (·.name) = (List.range f.functionCount).map numberedName := by
  rw [assignNames, (nameFrom_spec 0 f).2.1, functionCount, List.range_eq_range']

theorem map_body_all_assignNames (f : Prototype) :
    f.assignNames.all.map body = f.all.map body := by
  rw [assignNames, (nameFrom_spec 0 f).2.2]

theorem map_instructions_all_assignNames (f : Prototype) :
    f.assignNames.all.map (·.instructions) = f.all.map (·.instructions) := by
  have h := congrArg (List.map Prod.fst) f.map_body_all_assignNames
  rwa [List.map_map, List.map_map] at h

/-! ## Changes of code -/

section

variable {ε σ : Type}

theorem run_bind_fst {α β : Type} {step : ExceptT ε (StateM σ) α}
    {next : α → ExceptT ε (StateM σ) β} {result : Except ε α} {more : α → Except ε β} {log : σ}
    (h : (step.run log).1 = result) (hnext : ∀ a log, ((next a).run log).1 = more a) :
    ((step >>= next).run log).1 = result >>= more := by
  change (match step.run log with
    | (x, log) => (ExceptT.bindCont next x).run log).1 = _
  subst h
  rcases step.run log with ⟨_ | a, log⟩
  · rfl
  · exact hnext a log

variable
  {change : List Instruction → List Constant →
    ExceptT ε (StateM σ) (List Instruction × List Constant)}
  {plain : List Instruction → List Constant → Except ε (List Instruction × List Constant)}

mutual

/-- A change that keeps a log has the results of the change that keeps none, whatever is
    in the log already. -/
theorem run_mapBody_fst
    (h : ∀ code constants log, ((change code constants).run log).1 = plain code constants) :
    (f : Prototype) → (log : σ) → ((f.mapBody change).run log).1 = f.mapBody plain
  | ⟨_, code, constants, functions, _, _, _, _⟩, log => by
    rw [mapBody, mapBody]
    refine run_bind_fst (h code constants log) fun _ log => ?_
    exact run_bind_fst (run_mapBodies_fst h functions log) fun _ _ => rfl

theorem run_mapBodies_fst
    (h : ∀ code constants log, ((change code constants).run log).1 = plain code constants) :
    (fs : List Prototype) → (log : σ) →
      ((mapBodies change fs).run log).1 = mapBodies plain fs
  | [], _ => rfl
  | f :: fs, log => by
    rw [mapBodies, mapBodies]
    refine run_bind_fst (run_mapBody_fst h f log) fun _ log => ?_
    exact run_bind_fst (run_mapBodies_fst h fs log) fun _ _ => rfl

end

theorem mapBody_eq_ok_iff {f g : Prototype} :
    f.mapBody plain = .ok g ↔
      plain f.instructions f.constants = .ok (g.instructions, g.constants) ∧
        mapBodies plain f.functions = .ok g.functions ∧
        g = { f with
          instructions := g.instructions, constants := g.constants, functions := g.functions } := by
  obtain ⟨name, code, constants, functions, params, upvalues, vararg, stack⟩ := f
  simp only [mapBody, bind_eq_ok_iff, pure_eq_ok_iff]
  constructor
  · rintro ⟨body, hbody, functions', hfunctions, rfl⟩
    exact ⟨hbody, hfunctions, rfl⟩
  · rintro ⟨hbody, hfunctions, hg⟩
    exact ⟨_, hbody, _, hfunctions, hg.symm⟩

theorem mapBodies_eq_mapM (fs : List Prototype) :
    mapBodies plain fs = fs.mapM (mapBody plain) := by
  induction fs with
  | nil => rw [mapBodies, List.mapM_nil]
  | cons f fs ih => rw [mapBodies, List.mapM_cons, ih]

/-- A change of all code succeeds if the change of each code succeeds. -/
theorem exists_mapBody_eq_ok_iff (f : Prototype) :
    (∃ g, f.mapBody plain = .ok g) ↔
      ∀ k ∈ f.all, ∃ body, plain k.instructions k.constants = .ok body := by
  induction f using tree_induction with
  | h f ih =>
    have hall : (∃ gs, mapBodies plain f.functions = .ok gs) ↔
        ∀ k ∈ f.functions.flatMap all, ∃ body, plain k.instructions k.constants = .ok body := by
      rw [mapBodies_eq_mapM, exists_mapM_eq_ok_iff, List.forall_mem_flatMap]
      exact forall₂_congr ih
    rw [all_eq_cons, List.forall_mem_cons, ← hall]
    constructor
    · rintro ⟨g, hg⟩
      obtain ⟨hbody, hgs, -⟩ := mapBody_eq_ok_iff.1 hg
      exact ⟨⟨_, hbody⟩, _, hgs⟩
    · rintro ⟨⟨body, hbody⟩, gs, hgs⟩
      exact ⟨{ f with instructions := body.1, constants := body.2, functions := gs },
        mapBody_eq_ok_iff.2 ⟨hbody, hgs, rfl⟩⟩

/-- A change of all code changes every prototype as it would on its own. -/
theorem forall₂_all_mapBody {f g : Prototype} (h : f.mapBody plain = .ok g) :
    List.Forall₂ (fun k l => k.mapBody plain = .ok l) f.all g.all := by
  induction f using tree_induction generalizing g with
  | h f ih =>
    have hfs := (mapBody_eq_ok_iff.1 h).2.1
    -- The heads of the lists are related by the change, the rest by induction.
    rw [all_eq_cons, all_eq_cons]
    rw [mapBodies_eq_mapM, mapM_eq_ok_iff] at hfs
    exact .cons h (forall₂_flatMap_all hfs fun k hk l hl => ih k hk hl)

/-- After a change of all code, the prototypes are the ones from before, each with its
    code changed. -/
theorem forall₂_all_of_mapBody {f g : Prototype} (h : f.mapBody plain = .ok g) :
    List.Forall₂
      (fun k l => plain k.instructions k.constants = .ok (l.instructions, l.constants))
      f.all g.all :=
  (forall₂_all_mapBody h).imp fun _ _ h => (mapBody_eq_ok_iff.1 h).1

/-- Besides code and constants, a change of all code keeps what a prototype has, and as many
    prototypes in it. -/
theorem frame_of_mapBody {f g : Prototype} (h : f.mapBody plain = .ok g) :
    g = { f with
      instructions := g.instructions, constants := g.constants, functions := g.functions } ∧
    g.functions.length = f.functions.length := by
  obtain ⟨-, hfs, hframe⟩ := mapBody_eq_ok_iff.1 h
  rw [mapBodies_eq_mapM, mapM_eq_ok_iff] at hfs
  exact ⟨hframe, hfs.length_eq.symm⟩

/-- A change that keeps the code of each prototype keeps the program. -/
theorem mapBody_eq_self {f : Prototype}
    (h : ∀ k ∈ f.all, plain k.instructions k.constants = .ok (k.instructions, k.constants)) :
    f.mapBody plain = .ok f := by
  induction f using tree_induction with
  | h f ih =>
    obtain ⟨hbody, hfs⟩ := (forall_mem_all_iff f).1 h
    refine mapBody_eq_ok_iff.2 ⟨hbody, ?_, by cases f; rfl⟩
    rw [mapBodies_eq_mapM, mapM_eq_ok_iff, List.forall₂_same]
    exact fun g hg => ih g hg (hfs g hg)

/-- A change of all code fails as the change of the code of some prototype does. -/
theorem exists_of_mapBody_eq_error {f : Prototype} {e : ε} (h : f.mapBody plain = .error e) :
    ∃ k ∈ f.all, plain k.instructions k.constants = .error e := by
  induction f using tree_induction with
  | h f ih =>
    obtain ⟨name, code, constants, functions, params, upvalues, vararg, stack⟩ := f
    rw [mapBody, bind_eq_error_iff] at h
    rcases h with h | ⟨_, -, h⟩
    · exact ⟨_, mem_all_self _, h⟩
    · -- The own code could be changed, and so the failure is that of a nested one.
      rcases bind_eq_error_iff.1 h with h | ⟨_, -, h⟩
      · rw [mapBodies_eq_mapM] at h
        obtain ⟨g, hg, hfails⟩ := exists_of_mapM_eq_error h
        obtain ⟨k, hk, hplain⟩ := ih g hg hfails
        exact ⟨k, mem_all_of_mem hg hk, hplain⟩
      · cases h

end

end LuaUnpack.Chunk.Prototype
