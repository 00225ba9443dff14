import LuaUnpack.Lua.Tree
import Mathlib.Logic.Basic

/-!
# The calls of a run

What a block of calls, `if`s and `break`s can do is a tree of the calls that it makes and the
conditions that it meets (`Course`). A world gives each condition a truth value when it is met,
and may take account of all that was called and asked before, so that no two meetings are tied to
each other (`World`). In a world a course makes one sequence of calls.

Two courses make the same calls in every world just if they go through the same calls and
conditions until what is left of either makes the same calls whatever the conditions are
(`sameCalls_iff_agrees`): a world can tell courses apart from the first step on that they do not
share.
-/

namespace LuaUnpack.Script

open LuaUnpack.Lua

/-- The calls that are made and the conditions that are met until a block is run or left. -/
inductive Course where
  | done (left : Bool)
  | call (call : Expr) (next : Course)
  | ask (condition : Expr) (yes no : Course)

/-- What decides the conditions of a run: a state that every call and every condition can
    change. -/
structure World (σ : Type) where
  truth : σ → Expr → Bool × σ
  call : σ → Expr → σ

namespace Course

/-- One course after another, unless the first one is left. -/
def andThen : Course → Course → Course
  | done true, _ => done true
  | done false, next => next
  | call e t, next => call e (t.andThen next)
  | ask c yes no, next => ask c (yes.andThen next) (no.andThen next)

/-- The course of a loop that runs once: what leaves its body only ends the loop. -/
def enclosed : Course → Course
  | done _ => done false
  | call e t => call e t.enclosed
  | ask c yes no => ask c yes.enclosed no.enclosed

mutual

/-- The course of a call, an `if`, a `break` or a loop that runs once; other statements are taken
    to do nothing. -/
def ofStmt : Stmt → Course
  | .call e => call e (done false)
  | .exit => done true
  | .ifThen c b o => ask c (ofBlock b) (ofElse o)
  | .repeatLoop b (.boolean true) => (ofBlock b).enclosed
  | _ => done false

/-- The course of what follows the first block of an `if`. -/
def ofElse : Else → Course
  | .done => done false
  | .block b => ofBlock b
  | .elseIf c b o => ask c (ofBlock b) (ofElse o)

/-- The course of a block. -/
def ofBlock : List Stmt → Course
  | [] => done false
  | s :: rest => (ofStmt s).andThen (ofBlock rest)

end

/-- The calls that a course makes in a world. -/
def calls {σ : Type} (w : World σ) : Course → σ → List Expr
  | done _, _ => []
  | call e t, s => e :: t.calls w (w.call s e)
  | ask c yes no, s =>
    if (w.truth s c).1 then yes.calls w (w.truth s c).2 else no.calls w (w.truth s c).2

/-- Whether two courses make the same calls in every world. -/
def SameCalls (t u : Course) : Prop :=
  ∀ (σ : Type) (w : World σ) (s : σ), t.calls w s = u.calls w s

/-- Whether a course can come to its end without being left. -/
def mayFall : Course → Bool
  | done left => !left
  | call _ t => t.mayFall
  | ask _ yes no => yes.mayFall || no.mayFall

/-- Whether a course can make a call. -/
def mayCall : Course → Bool
  | done _ => false
  | call _ _ => true
  | ask _ yes no => yes.mayCall || no.mayCall

/-- Whether a course makes the given calls whatever the conditions are. -/
def Makes : Course → List Expr → Prop
  | done _, es => es = []
  | call e t, es => ∃ rest, es = e :: rest ∧ t.Makes rest
  | ask _ yes no, es => yes.Makes es ∧ no.Makes es

/-- Whether two courses go through the same calls and conditions until what is left of both makes
    the same calls whatever the conditions are. -/
inductive Agrees : Course → Course → Prop
  | makes {t u : Course} {es : List Expr} : t.Makes es → u.Makes es → Agrees t u
  | call {t u : Course} (e : Expr) : Agrees t u → Agrees (call e t) (call e u)
  | ask {yes no yes' no' : Course} (c : Expr) : Agrees yes yes' → Agrees no no' →
      Agrees (ask c yes no) (ask c yes' no')

end Course

/-! ## Making worlds -/

namespace World

variable {σ τ : Type}

/-- A world in which all conditions have the same truth value. -/
def always (value : Bool) : World Unit where
  truth s _ := (value, s)
  call s _ := s

/-- A world with a state before all others, from which the first step leads to them. -/
def start (w : World σ) (truth : Expr → Bool × σ) (call : Expr → σ) : World (Option σ) where
  truth
    | none, c => ((truth c).1, some (truth c).2)
    | some s, c => ((w.truth s c).1, some (w.truth s c).2)
  call
    | none, e => some (call e)
    | some s, e => some (w.call s e)

/-- A world whose first step leads to a given state; a condition that is met in it has the given
    truth value. -/
def leadingTo (w : World σ) (s : σ) (value : Bool) : World (Option σ) :=
  w.start (fun _ => (value, s)) fun _ => s

/-- Two worlds beside each other. -/
def either (w : World σ) (w' : World τ) : World (σ ⊕ τ) where
  truth
    | .inl s, c => ((w.truth s c).1, .inl (w.truth s c).2)
    | .inr s, c => ((w'.truth s c).1, .inr (w'.truth s c).2)
  call
    | .inl s, e => .inl (w.call s e)
    | .inr s, e => .inr (w'.call s e)

end World

namespace Course

section

variable {σ τ : Type} {w : World σ} {w' : World τ}

/-- A course makes the same calls in a world and in the copy of it inside another one. -/
theorem calls_of_embedding {f : σ → τ}
    (htruth : ∀ s c, w'.truth (f s) c = ((w.truth s c).1, f (w.truth s c).2))
    (hcall : ∀ s e, w'.call (f s) e = f (w.call s e)) (t : Course) (s : σ) :
    t.calls w' (f s) = t.calls w s := by
  induction t generalizing s with
  | done left => rfl
  | call e t ih => rw [calls, calls, hcall, ih]
  | ask c yes no ihyes ihno => rw [calls, calls, htruth, ihyes, ihno]

@[simp]
theorem calls_either_inl (t : Course) (s : σ) : t.calls (w.either w') (.inl s) = t.calls w s :=
  calls_of_embedding (f := Sum.inl) (fun _ _ => rfl) (fun _ _ => rfl) t s

@[simp]
theorem calls_either_inr (t : Course) (s : τ) : t.calls (w.either w') (.inr s) = t.calls w' s :=
  calls_of_embedding (f := Sum.inr) (fun _ _ => rfl) (fun _ _ => rfl) t s

theorem calls_start (truth : Expr → Bool × σ) (call : Expr → σ) (t : Course) (s : σ) :
    t.calls (w.start truth call) (some s) = t.calls w s :=
  calls_of_embedding (f := some) (fun _ _ => rfl) (fun _ _ => rfl) t s

theorem calls_start_call (truth : Expr → Bool × σ) (next : Expr → σ) (e : Expr) (t : Course) :
    (call e t).calls (w.start truth next) none = e :: t.calls w (next e) :=
  congrArg (e :: ·) (calls_start truth next t _)

theorem calls_start_ask (truth : Expr → Bool × σ) (next : Expr → σ) (c : Expr) (yes no : Course) :
    (ask c yes no).calls (w.start truth next) none =
      if (truth c).1 then yes.calls w (truth c).2 else no.calls w (truth c).2 := by
  rw [← calls_start truth next yes, ← calls_start truth next no]
  rfl

@[simp]
theorem calls_leadingTo_call (s : σ) (value : Bool) (e : Expr) (t : Course) :
    (call e t).calls (w.leadingTo s value) none = e :: t.calls w s :=
  calls_start_call ..

@[simp]
theorem calls_leadingTo_ask (s : σ) (value : Bool) (c : Expr) (yes no : Course) :
    (ask c yes no).calls (w.leadingTo s value) none =
      if value then yes.calls w s else no.calls w s :=
  calls_start_ask ..

@[simp]
theorem calls_enclosed (t : Course) (s : σ) : t.enclosed.calls w s = t.calls w s := by
  induction t generalizing s with
  | done left => rfl
  | call e t ih => rw [enclosed, calls, calls, ih]
  | ask c yes no ihyes ihno => rw [enclosed, calls, calls, ihyes, ihno]

end

/-- What leaves a course does not matter inside a loop that runs once. -/
theorem enclosed_andThen_congr (t : Course) {u u' : Course} (h : u.enclosed = u'.enclosed) :
    (t.andThen u).enclosed = (t.andThen u').enclosed := by
  induction t with
  | done left =>
    cases left with
    | true => rfl
    | false => exact h
  | call e t ih => rw [andThen, andThen, enclosed, enclosed, ih]
  | ask c yes no ihyes ihno => rw [andThen, andThen, enclosed, enclosed, ihyes, ihno]

/-! ## Courses with the same calls -/

variable {t u yes no yes' no' : Course} {es : List Expr}

theorem SameCalls.refl (t : Course) : SameCalls t t := fun _ _ _ => rfl

theorem sameCalls_enclosed_left_iff : SameCalls t.enclosed u ↔ SameCalls t u := by
  simp only [SameCalls, calls_enclosed]

theorem sameCalls_enclosed_right_iff : SameCalls t u.enclosed ↔ SameCalls t u := by
  simp only [SameCalls, calls_enclosed]

/-- After a shared call every world is still possible. -/
theorem sameCalls_call_iff {e : Expr} : SameCalls (call e t) (call e u) ↔ SameCalls t u := by
  constructor
  · intro h σ w s
    simpa using h _ (w.leadingTo s false) none
  · intro h σ w s
    rw [calls, calls, h]

theorem sameCalls_ask_iff {c : Expr} :
    SameCalls (ask c yes no) (ask c yes' no') ↔ SameCalls yes yes' ∧ SameCalls no no' := by
  constructor
  · intro h
    constructor
    · intro σ w s
      simpa using h _ (w.leadingTo s true) none
    · intro σ w s
      simpa using h _ (w.leadingTo s false) none
  · rintro ⟨hyes, hno⟩ σ w s
    rw [calls, calls, hyes, hno]

/-- Calls that are made in every world are made whatever the conditions are. -/
theorem makes_iff :
    t.Makes es ↔ ∀ (σ : Type) (w : World σ) (s : σ), t.calls w s = es := by
  induction t generalizing es with
  | done left =>
    constructor
    · rintro rfl σ w s
      rfl
    · intro h
      exact (h _ (.always false) ()).symm
  | call e t ih =>
    constructor
    · rintro ⟨rest, rfl, hrest⟩ σ w s
      rw [calls, ih.1 hrest]
    · intro h
      -- A world that first leads here tells what comes after the call.
      refine ⟨t.calls (.always false) (), (h _ (.always false) ()).symm, ih.2 fun σ w s => ?_⟩
      have hcalls := (h _ (w.leadingTo s false) none).trans (h _ (.always false) ()).symm
      rw [calls_leadingTo_call] at hcalls
      exact (List.cons.inj hcalls).2
  | ask c yes no ihyes ihno =>
    constructor
    · rintro ⟨hyes, hno⟩ σ w s
      rw [calls, ihyes.1 hyes, ihno.1 hno, ite_self]
    · intro h
      refine ⟨ihyes.2 fun σ w s => ?_, ihno.2 fun σ w s => ?_⟩
      · simpa using h _ (w.leadingTo s true) none
      · simpa using h _ (w.leadingTo s false) none

theorem makes_nil_iff : t.Makes [] ↔ t.mayCall = false := by
  induction t with
  | done left => simp [Makes, mayCall]
  | call e t ih => simp [Makes, mayCall]
  | ask c yes no ihyes ihno => simp [Makes, mayCall, ihyes, ihno]

/-- What follows a course adds no call just if the course never comes to its end, or what follows
    makes no calls. -/
theorem sameCalls_andThen_left_iff (u : Course) :
    SameCalls (t.andThen u) t ↔ t.mayFall = false ∨ u.mayCall = false := by
  induction t with
  | done left =>
    cases left with
    | true => simp [andThen, mayFall, SameCalls.refl]
    | false =>
      -- All that follows is run, and the course itself makes no call.
      rw [andThen, ← makes_nil_iff, makes_iff]
      simp [mayFall, SameCalls, calls]
  | call e t ih => rw [andThen, sameCalls_call_iff, ih, mayFall]
  | ask c yes no ihyes ihno =>
    rw [andThen, sameCalls_ask_iff, ihyes, ihno, mayFall, Bool.or_eq_false_iff, and_or_right]

/-! ## Telling courses apart -/

/-- A step of a course. -/
inductive Event where
  | call (e : Expr)
  | ask (c : Expr)

/-- The first step of a course. -/
def first? : Course → Option Event
  | done _ => none
  | call e _ => some (.call e)
  | ask c _ _ => some (.ask c)

open Classical in
/-- Courses that do not share their first step can be run in worlds that have nothing in common. -/
theorem SameCalls.calls_eq {σ τ : Type} (h : SameCalls t u) (hfirst : t.first? ≠ u.first?)
    (w : World σ) (s : σ) (w' : World τ) (s' : τ) : t.calls w s = u.calls w' s' := by
  -- The first step tells which of the two courses is run, and so in which world it goes on.
  let apart : World (Option (σ ⊕ τ)) := (w.either w').start
    (fun c => if t.first? = some (.ask c) then ((w.truth s c).1, .inl (w.truth s c).2)
      else ((w'.truth s' c).1, .inr (w'.truth s' c).2))
    (fun e => if t.first? = some (.call e) then .inl (w.call s e) else .inr (w'.call s' e))
  have ht : t.calls apart none = t.calls w s := by
    cases t with
    | done left => rfl
    | call e t =>
      rw [calls_start_call, first?, if_pos rfl, calls_either_inl]
      rfl
    | ask c yes no =>
      rw [calls_start_ask, first?, if_pos rfl, calls_either_inl, calls_either_inl]
      rfl
  have hu : u.calls apart none = u.calls w' s' := by
    cases u with
    | done left => rfl
    | call e u =>
      rw [first?] at hfirst
      rw [calls_start_call, if_neg hfirst, calls_either_inr]
      rfl
    | ask c yes no =>
      rw [first?] at hfirst
      rw [calls_start_ask, if_neg hfirst, calls_either_inr, calls_either_inr]
      rfl
  rw [← ht, h, hu]

/-- So what they call does not depend on the world at all. -/
theorem SameCalls.agrees_of_first?_ne (h : SameCalls t u) (hfirst : t.first? ≠ u.first?) :
    Agrees t u := by
  have ht : t.Makes (u.calls (.always false) ()) :=
    makes_iff.2 fun _ w s => h.calls_eq hfirst w s (.always false) ()
  have hu : u.Makes (u.calls (.always false) ()) := by
    refine makes_iff.2 fun _ w s => ?_
    rw [← h.calls_eq hfirst (.always false) () w s]
    exact h.calls_eq hfirst (.always false) () (.always false) ()
  exact .makes ht hu

theorem Agrees.sameCalls (h : Agrees t u) : SameCalls t u := by
  induction h with
  | makes ht hu =>
    intro σ w s
    rw [makes_iff.1 ht, makes_iff.1 hu]
  | call e _ ih => exact sameCalls_call_iff.2 ih
  | ask c _ _ ihyes ihno => exact sameCalls_ask_iff.2 ⟨ihyes, ihno⟩

theorem SameCalls.agrees (h : SameCalls t u) : Agrees t u := by
  induction t generalizing u with
  | done left =>
    have hu : u.Makes [] := makes_iff.2 fun _ w s => (h _ w s).symm
    exact .makes rfl hu
  | call e t ih =>
    by_cases hfirst : (call e t).first? = u.first?
    · -- The first step is shared, so that what comes after it agrees.
      cases u <;> cases hfirst
      exact .call e (ih (sameCalls_call_iff.1 h))
    · exact h.agrees_of_first?_ne hfirst
  | ask c yes no ihyes ihno =>
    by_cases hfirst : (ask c yes no).first? = u.first?
    · cases u <;> cases hfirst
      obtain ⟨hyes, hno⟩ := sameCalls_ask_iff.1 h
      exact .ask c (ihyes hyes) (ihno hno)
    · exact h.agrees_of_first?_ne hfirst

/-- Courses make the same calls in every world just if they agree. -/
theorem sameCalls_iff_agrees : SameCalls t u ↔ Agrees t u :=
  ⟨SameCalls.agrees, Agrees.sameCalls⟩

end Course

end LuaUnpack.Script
