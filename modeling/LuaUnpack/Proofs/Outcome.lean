import Mathlib.Data.List.Forall2

/-!
# Outcomes of steps that can fail

Steps that can fail are put together by `do`. A composite step succeeds just if its parts
do, each with the results of those before it (`bind_eq_ok_iff`), and a step for each
member of a list succeeds just if it does for each of them (`mapM_eq_ok_iff`). A failure
is the failure of one part (`bind_eq_error_iff`, `exists_of_mapM_eq_error`).
-/

namespace LuaUnpack

variable {ε α β : Type}

@[simp]
theorem bind_eq_ok_iff {step : Except ε α} {next : α → Except ε β} {b : β} :
    step >>= next = .ok b ↔ ∃ a, step = .ok a ∧ next a = .ok b := by
  cases step with
  | error e =>
    constructor
    · intro h
      cases h
    · rintro ⟨_, h, -⟩
      cases h
  | ok a =>
    constructor
    · intro h
      exact ⟨a, rfl, h⟩
    · rintro ⟨_, h, hnext⟩
      cases h
      exact hnext

@[simp]
theorem pure_eq_ok_iff {a b : α} : (pure a : Except ε α) = .ok b ↔ a = b :=
  ⟨fun h => Except.ok.inj h, fun h => congrArg Except.ok h⟩

theorem bind_eq_error_iff {step : Except ε α} {next : α → Except ε β} {e : ε} :
    step >>= next = .error e ↔ step = .error e ∨ ∃ a, step = .ok a ∧ next a = .error e := by
  cases step with
  | error e' =>
    constructor
    · intro h
      cases h
      exact .inl rfl
    · rintro (h | ⟨_, h, -⟩)
      · cases h
        rfl
      · cases h
  | ok a =>
    constructor
    · intro h
      exact .inr ⟨a, rfl, h⟩
    · rintro (h | ⟨_, h, hnext⟩)
      · cases h
      · cases h
        exact hnext

theorem exists_of_isOk {step : Except ε α} (h : step.isOk) : ∃ a, step = .ok a := by
  cases step with
  | error e => cases h
  | ok a => exact ⟨a, rfl⟩

/-- A step for each member of a list gives the results member by member. -/
theorem mapM_eq_ok_iff {step : α → Except ε β} {members : List α} {results : List β} :
    members.mapM step = .ok results ↔
      List.Forall₂ (fun a b => step a = .ok b) members results := by
  induction members generalizing results with
  | nil => rw [List.mapM_nil, pure_eq_ok_iff, List.forall₂_nil_left_iff, eq_comm]
  | cons a members ih =>
    simp only [List.mapM_cons, bind_eq_ok_iff, pure_eq_ok_iff, ih, List.forall₂_cons_left_iff]
    refine exists_congr fun b => ?_
    rw [← exists_and_left]
    simp only [eq_comm]

/-- A step for each member of a list succeeds with results of a kind just if it does so for
    each of them. -/
theorem exists_mapM_forall_iff {step : α → Except ε β} {P : β → Prop} (members : List α) :
    (∃ results, members.mapM step = .ok results ∧ ∀ b ∈ results, P b) ↔
      ∀ a ∈ members, ∃ b, step a = .ok b ∧ P b := by
  induction members with
  | nil =>
    exact ⟨fun _ a ha => absurd ha List.not_mem_nil,
      fun _ => ⟨[], rfl, fun b hb => absurd hb List.not_mem_nil⟩⟩
  | cons a members ih =>
    rw [List.forall_mem_cons, ← ih]
    simp only [List.mapM_cons, bind_eq_ok_iff, pure_eq_ok_iff]
    constructor
    · rintro ⟨_, ⟨b, hb, rest, hrest, rfl⟩, hP⟩
      exact ⟨⟨b, hb, hP b List.mem_cons_self⟩, rest, hrest, (List.forall_mem_cons.1 hP).2⟩
    · rintro ⟨⟨b, hb, hPb⟩, rest, hrest, hP⟩
      exact ⟨b :: rest, ⟨b, hb, rest, hrest, rfl⟩, List.forall_mem_cons.2 ⟨hPb, hP⟩⟩

theorem exists_mapM_eq_ok_iff {step : α → Except ε β} (members : List α) :
    (∃ results, members.mapM step = .ok results) ↔ ∀ a ∈ members, ∃ b, step a = .ok b := by
  have h := @exists_mapM_forall_iff _ _ _ step (fun _ => True) members
  simpa only [implies_true, and_true] using h

/-- A step for each member of a list fails as it does for one of them. -/
theorem exists_of_mapM_eq_error {step : α → Except ε β} {members : List α} {e : ε}
    (h : members.mapM step = .error e) : ∃ a ∈ members, step a = .error e := by
  induction members with
  | nil =>
    rw [List.mapM_nil] at h
    cases h
  | cons a members ih =>
    rw [List.mapM_cons, bind_eq_error_iff] at h
    rcases h with h | ⟨_, -, h⟩
    · exact ⟨a, List.mem_cons_self, h⟩
    · rcases bind_eq_error_iff.1 h with h | ⟨_, -, h⟩
      · obtain ⟨b, hb, hstep⟩ := ih h
        exact ⟨b, List.mem_cons_of_mem a hb, hstep⟩
      · cases h

end LuaUnpack
