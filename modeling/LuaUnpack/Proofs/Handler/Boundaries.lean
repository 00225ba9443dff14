import LuaUnpack.Handler.Window
import Mathlib.Data.List.Chain

/-!
# Boundaries between windows

Whether two items are a boundary does not say where a list is cut, since boundaries can overlap:
of three items the first two and the last two can both be one. The first boundary is taken, and
the next one is looked for after it. This fixes the cuts, and what is left between them are the
windows (`eq_splitWindows_iff`).
-/

namespace LuaUnpack.Handler

variable {α : Type}

/-- A boundary at which a list is cut, and the segment after it. -/
structure Cut (α : Type) where
  previous : α
  current : α
  segment : List α

/-- The first segment and those after the cuts. -/
def segmentsOf (first : List α) (cuts : List (Cut α)) : List (List α) :=
  first :: cuts.map Cut.segment

/-- The list that is cut: the segments with the pairs of the cuts between them. -/
def joined (first : List α) (cuts : List (Cut α)) : List α :=
  first ++ cuts.flatMap fun cut => cut.previous :: cut.current :: cut.segment

/-- Whether no two adjacent items are a boundary. -/
def IsUncut (boundary : α → α → Bool) (items : List α) : Prop :=
  items.IsChain fun p c => boundary p c = false

/-- Whether every cut is at the first boundary after the cut before it. -/
def IsLeftmost (boundary : α → α → Bool) : List α → List (Cut α) → Prop
  | _, [] => True
  | segment, cut :: cuts =>
    IsUncut boundary (segment ++ [cut.previous]) ∧ IsLeftmost boundary cut.segment cuts

/-- Whether a list is cut at boundaries, from left to right, until none is left. -/
structure IsCutAt (boundary : α → α → Bool) (items first : List α) (cuts : List (Cut α)) :
    Prop where
  joined_eq : joined first cuts = items
  boundaries : ∀ cut ∈ cuts, boundary cut.previous cut.current = true
  uncut : ∀ segment ∈ segmentsOf first cuts, IsUncut boundary segment
  leftmost : IsLeftmost boundary first cuts

section

variable {boundary : α → α → Bool} {item p c : α} {items rest first segment : List α}
  {cuts : List (Cut α)} {windows : List (List α)}

/-! ## Cuts give the segments -/

theorem segments_cons_of_head? (h : ∀ next ∈ rest.head?, boundary item next = false) :
    segments boundary (item :: rest) = consHead item (segments boundary rest) := by
  cases rest with
  | nil => rfl
  | cons next rest =>
    rw [segments, h next rfl]
    rfl

theorem segments_of_isUncut (h : IsUncut boundary items) : segments boundary items = [items] := by
  induction items with
  | nil => rfl
  | cons item rest ih =>
    obtain ⟨hitem, hrest⟩ := List.isChain_cons.1 h
    rw [segments_cons_of_head? hitem, ih hrest]
    rfl

/-- The first boundary ends the first segment. -/
theorem segments_append (hsegment : IsUncut boundary (segment ++ [p]))
    (hcut : boundary p c = true) (rest : List α) :
    segments boundary (segment ++ p :: c :: rest) = segment :: segments boundary rest := by
  induction segment with
  | nil => rw [List.nil_append, segments, if_pos hcut]
  | cons item segment ih =>
    rw [List.cons_append] at hsegment
    obtain ⟨hitem, htail⟩ := List.isChain_cons.1 hsegment
    have hnext : ∀ next ∈ (segment ++ p :: c :: rest).head?, boundary item next = false := by
      intro next hmem
      refine hitem next ?_
      rwa [List.head?_append] at hmem ⊢
    rw [List.cons_append, segments_cons_of_head? hnext, ih htail]
    rfl

theorem IsCutAt.segments_eq (h : IsCutAt boundary items first cuts) :
    segments boundary items = segmentsOf first cuts := by
  induction cuts generalizing items first with
  | nil =>
    rw [← h.joined_eq, joined, List.flatMap_nil, List.append_nil]
    exact segments_of_isUncut (h.uncut first List.mem_cons_self)
  | cons cut cuts ih =>
    have hcut : boundary cut.previous cut.current = true := h.boundaries cut List.mem_cons_self
    have hrest : IsCutAt boundary (joined cut.segment cuts) cut.segment cuts :=
      ⟨rfl, fun next hnext => h.boundaries next (List.mem_cons_of_mem _ hnext),
        fun segment hsegment => h.uncut segment (List.mem_cons_of_mem _ hsegment), h.leftmost.2⟩
    calc segments boundary items
        = segments boundary
            (first ++ cut.previous :: cut.current :: joined cut.segment cuts) := by
          rw [← h.joined_eq]
          rfl
      _ = first :: segments boundary (joined cut.segment cuts) :=
          segments_append h.leftmost.1 hcut _
      _ = segmentsOf first (cut :: cuts) := by
          rw [ih hrest]
          rfl

/-! ## A list can be cut -/

theorem head?_append_previous {cut : Cut α} :
    (first ++ [cut.previous]).head? = (joined first (cut :: cuts)).head? := by
  cases first <;> rfl

/-- An item that is no boundary with the next one goes to the first segment. -/
theorem IsCutAt.cons (h : IsCutAt boundary rest first cuts)
    (hitem : ∀ next ∈ rest.head?, boundary item next = false) :
    IsCutAt boundary (item :: rest) (item :: first) cuts where
  joined_eq := congrArg (List.cons item) h.joined_eq
  boundaries := h.boundaries
  uncut segment hsegment := by
    obtain rfl | hsegment := List.mem_cons.1 hsegment
    · refine List.isChain_cons.2 ⟨fun next hnext => hitem next ?_, h.uncut _ List.mem_cons_self⟩
      rw [← h.joined_eq, joined, List.head?_append, hnext]
      rfl
    · exact h.uncut segment (List.mem_cons_of_mem _ hsegment)
  leftmost := by
    cases cuts with
    | nil => trivial
    | cons cut cuts =>
      refine ⟨List.isChain_cons.2 ⟨fun next hnext => hitem next ?_, h.leftmost.1⟩, h.leftmost.2⟩
      rwa [← h.joined_eq, ← head?_append_previous]

theorem exists_isCutAt (boundary : α → α → Bool) (items : List α) :
    ∃ first cuts, IsCutAt boundary items first cuts := by
  have hnil : IsCutAt boundary [] [] [] :=
    ⟨rfl, nofun, List.forall_mem_singleton.2 .nil, trivial⟩
  fun_induction segments boundary items with
  | case1 => exact ⟨[], [], hnil⟩
  | case2 item => exact ⟨[item], [], hnil.cons nofun⟩
  | case3 p c rest hcut ih =>
    obtain ⟨first, cuts, h⟩ := ih
    exact ⟨[], ⟨p, c, first⟩ :: cuts, congrArg (p :: c :: ·) h.joined_eq,
      List.forall_mem_cons.2 ⟨hcut, h.boundaries⟩, List.forall_mem_cons.2 ⟨.nil, h.uncut⟩,
      .singleton p, h.leftmost⟩
  | case4 p c rest hcut ih =>
    obtain ⟨first, cuts, h⟩ := ih
    refine ⟨p :: first, cuts, h.cons fun next hnext => ?_⟩
    obtain rfl := Option.some.inj hnext
    exact Bool.eq_false_iff.2 hcut

end

/-- The windows of a list are what is left of it when the boundaries are cut out from left to
    right: the segments between the cuts, in order and without the empty ones. No other lists
    are. -/
theorem eq_splitWindows_iff (boundary : α → α → Bool) (items : List α)
    (windows : List (List α)) :
    windows = splitWindows boundary items ↔ ∃ first cuts, IsCutAt boundary items first cuts ∧
      windows = (segmentsOf first cuts).filter (!·.isEmpty) := by
  constructor
  · rintro rfl
    obtain ⟨first, cuts, h⟩ := exists_isCutAt boundary items
    exact ⟨first, cuts, h, by rw [splitWindows, h.segments_eq]⟩
  · rintro ⟨first, cuts, h, rfl⟩
    rw [splitWindows, h.segments_eq]

/-- The item after a cut is in no boundary, although the same two items are one before it. -/
example : splitWindows (fun p c => p == 9 && c == 0) [9, 0, 0, 7] = [[0, 7]] := by decide

end LuaUnpack.Handler
