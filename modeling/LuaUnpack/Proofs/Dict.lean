import LuaUnpack.Dict
import Mathlib.Data.Int.Order.Basic
import Mathlib.Data.List.Basic
import Mathlib.Data.List.Sort

/-!
# Dictionaries, key by key

What a dictionary holds after a key was given a value: that value, and what it held for
other keys (`mem_putSorted`). Keys that ascend still do, and a new key adds one entry. A
dictionary with ascending keys is known by its entries (`Ascending.ext`).

A dictionary that is not sorted has each key where it first came in, with the value that came
last (`Holds`).
-/

namespace LuaUnpack

theorem eraseDups_concat {α : Type} [DecidableEq α] (l : List α) (a : α) :
    (l ++ [a]).eraseDups = if a ∈ l then l.eraseDups else l.eraseDups ++ [a] := by
  rw [List.eraseDups_append]
  by_cases h : a ∈ l <;> simp [List.removeAll, List.eraseDups_cons, h]

namespace Dict

attribute [local simp] get? put putSorted

theorem mem_of_get? {κ α : Type} [BEq κ] {dict : Dict κ α} {key : κ} {value : α}
    (h : dict.get? key = some value) : ∃ k, (k, value) ∈ dict := by
  induction dict with
  | nil => cases h
  | cons pair rest ih =>
    obtain ⟨k, other⟩ := pair
    rw [get?] at h
    split at h
    · cases h
      exact ⟨k, List.mem_cons_self⟩
    · obtain ⟨k', hk'⟩ := ih h
      exact ⟨k', List.mem_cons_of_mem _ hk'⟩

section

variable {α : Type} {dict rest : Dict Int α} {key k : Int} {value old : α}

/-- Whether keys ascend, so that each occurs once. -/
def Ascending (dict : Dict Int α) : Prop := (dict.map (·.1)).Pairwise (· < ·)

theorem ascending_nil : Ascending ([] : Dict Int α) := List.Pairwise.nil

theorem ascending_cons_iff :
    Ascending ((k, old) :: rest) ↔ (∀ pair ∈ rest, k < pair.1) ∧ Ascending rest := by
  rw [Ascending, List.map_cons, List.pairwise_cons, List.forall_mem_map, Ascending]

theorem putSorted_cons_self : putSorted k value ((k, old) :: rest) = (k, value) :: rest := by
  rw [putSorted, if_pos (beq_self_eq_true k)]

theorem putSorted_cons_of_lt (h : key < k) :
    putSorted key value ((k, old) :: rest) = (key, value) :: (k, old) :: rest := by
  have hne : (k == key) = false := by simpa using ne_of_gt h
  rw [putSorted, hne, if_neg Bool.false_ne_true, if_pos h]

theorem putSorted_cons_of_gt (h : k < key) :
    putSorted key value ((k, old) :: rest) = (k, old) :: putSorted key value rest := by
  have hne : (k == key) = false := by simpa using ne_of_lt h
  rw [putSorted, hne, if_neg Bool.false_ne_true, if_neg (not_lt_of_gt h)]

/-- After a key was given a value, a dictionary holds that value and what it held for
    other keys. -/
theorem mem_putSorted (h : Ascending dict) {pair : Int × α} :
    pair ∈ dict.putSorted key value ↔ pair = (key, value) ∨ pair ∈ dict ∧ pair.1 ≠ key := by
  induction dict with
  | nil => simp
  | cons entry rest ih =>
    obtain ⟨k, old⟩ := entry
    obtain ⟨hlt, hrest⟩ := ascending_cons_iff.1 h
    rcases lt_trichotomy key k with hkey | rfl | hkey
    · -- The key comes first, and all others are larger.
      rw [putSorted_cons_of_lt hkey, List.mem_cons]
      refine or_congr_right ⟨fun hmem => ⟨hmem, ?_⟩, And.left⟩
      rcases List.mem_cons.1 hmem with rfl | hmem
      · exact ne_of_gt hkey
      · exact ne_of_gt (lt_trans hkey (hlt pair hmem))
    · rw [putSorted_cons_self, List.mem_cons, List.mem_cons]
      refine or_congr_right ⟨fun hmem => ⟨.inr hmem, ne_of_gt (hlt pair hmem)⟩, ?_⟩
      rintro ⟨rfl | hmem, hne⟩
      · exact absurd rfl hne
      · exact hmem
    · rw [putSorted_cons_of_gt hkey, List.mem_cons, List.mem_cons, ih hrest]
      have hne : pair = (k, old) → pair.1 ≠ key := by
        rintro rfl
        exact ne_of_lt hkey
      grind

theorem ascending_putSorted (h : Ascending dict) : Ascending (dict.putSorted key value) := by
  induction dict with
  | nil => exact List.pairwise_singleton _ _
  | cons entry rest ih =>
    obtain ⟨k, old⟩ := entry
    obtain ⟨hlt, hrest⟩ := ascending_cons_iff.1 h
    -- The cases are those of `putSorted`: before this entry, in its place, or further on.
    rcases lt_trichotomy key k with hkey | rfl | hkey
    · rw [putSorted_cons_of_lt hkey]
      refine ascending_cons_iff.2 ⟨List.forall_mem_cons.2 ⟨hkey, fun pair hmem => ?_⟩, h⟩
      exact lt_trans hkey (hlt pair hmem)
    · rw [putSorted_cons_self]
      exact ascending_cons_iff.2 ⟨hlt, hrest⟩
    · rw [putSorted_cons_of_gt hkey]
      refine ascending_cons_iff.2 ⟨fun pair hmem => ?_, ih hrest⟩
      rcases (mem_putSorted hrest).1 hmem with rfl | ⟨hmem, -⟩
      · exact hkey
      · exact hlt pair hmem

/-- A new key adds one entry. -/
theorem length_putSorted (h : ∀ pair ∈ dict, pair.1 ≠ key) :
    (dict.putSorted key value).length = dict.length + 1 := by
  induction dict with
  | nil => rfl
  | cons entry rest ih =>
    obtain ⟨k, old⟩ := entry
    obtain ⟨hne, hrest⟩ := List.forall_mem_cons.1 h
    rcases lt_trichotomy key k with hkey | rfl | hkey
    · rw [putSorted_cons_of_lt hkey, List.length_cons]
    · exact absurd rfl hne
    · rw [putSorted_cons_of_gt hkey, List.length_cons, ih hrest, List.length_cons]

/-- Ascending dictionaries are told apart by their entries. -/
theorem Ascending.ext {other : Dict Int α} (h : dict.Ascending) (hother : other.Ascending)
    (hmem : ∀ pair, pair ∈ dict ↔ pair ∈ other) : dict = other := by
  have hasymm : ∀ p q : Int × α, p.1 < q.1 → q.1 < p.1 → p = q :=
    fun p q hpq hqp => absurd hqp (lt_asymm hpq)
  have hirrefl : ∀ p : Int × α, ¬p.1 < p.1 := fun p => lt_irrefl p.1
  have : Std.Antisymm fun p q : Int × α => p.1 < q.1 := ⟨hasymm⟩
  have : Std.Irrefl fun p q : Int × α => p.1 < q.1 := ⟨hirrefl⟩
  exact List.Subset.antisymm_of_pairwise (List.pairwise_map.1 h) (List.pairwise_map.1 hother)
    (fun _ => (hmem _).1) (fun _ => (hmem _).2)

/-- An entry of an ascending dictionary is what its key is looked up to. -/
theorem Ascending.get?_eq_some_iff (h : dict.Ascending) :
    dict.get? key = some value ↔ (key, value) ∈ dict := by
  induction dict with
  | nil => simp
  | cons entry rest ih =>
    obtain ⟨k, old⟩ := entry
    obtain ⟨hlt, hrest⟩ := ascending_cons_iff.1 h
    rw [get?, List.mem_cons, Prod.mk.injEq]
    by_cases hk : k = key
    · subst hk
      have hnot : (k, value) ∉ rest := fun hmem => lt_irrefl k (hlt _ hmem)
      simp [hnot, eq_comm]
    · have hne : (k == key) = false := by simpa using hk
      rw [hne, if_neg Bool.false_ne_true, ih hrest]
      simp [Ne.symm hk]

end

/-! ## Entries in the order in which they come in -/

section

variable {κ α : Type} [DecidableEq κ] {dict : Dict κ α} {entries : List (κ × α)}

theorem map_fst_put (dict : Dict κ α) (key : κ) (value : α) :
    (dict.put key value).map (·.1) =
      if key ∈ dict.map (·.1) then dict.map (·.1) else dict.map (·.1) ++ [key] := by
  induction dict with
  | nil => simp
  | cons pair rest ih =>
    obtain ⟨k, old⟩ := pair
    by_cases hk : k = key
    · simp [hk]
    · rw [put, if_neg (by simpa using hk), List.map_cons, ih]
      by_cases hrest : key ∈ rest.map (·.1) <;> simp [hrest, Ne.symm hk]

theorem get?_put (dict : Dict κ α) (key k : κ) (value : α) :
    (dict.put key value).get? k = if key = k then some value else dict.get? k := by
  induction dict with
  | nil => simp
  | cons pair rest ih =>
    obtain ⟨k', old⟩ := pair
    by_cases hk' : k' = key
    · subst hk'
      by_cases hk : k' = k <;> simp [hk]
    · rw [put, if_neg (by simpa using hk'), get?, get?, ih]
      by_cases hk : k' = k
      · have hne : key ≠ k := fun h => hk' (hk.trans h.symm)
        simp [hk, hne]
      · simp [hk]

theorem putAll_cons (dict : Dict κ α) (pair : κ × α) (more : List (κ × α)) :
    dict.putAll (pair :: more) = (dict.put pair.1 pair.2).putAll more := rfl

/-- Whether a dictionary holds entries that came in one after the other: each key once, in the
    place where it first came, with the value that came last. -/
structure Holds (dict : Dict κ α) (entries : List (κ × α)) : Prop where
  keys : dict.map (·.1) = (entries.map (·.1)).eraseDups
  values : ∀ key, dict.get? key = entries.reverse.lookup key

theorem holds_nil : Holds ([] : Dict κ α) [] := ⟨rfl, fun _ => rfl⟩

theorem Holds.put (h : dict.Holds entries) (key : κ) (value : α) :
    (dict.put key value).Holds (entries ++ [(key, value)]) where
  keys := by
    rw [map_fst_put, h.keys, List.map_append, List.map_singleton, eraseDups_concat]
    simp only [List.mem_eraseDups]
  values k := by
    by_cases hk : key = k
    · simp [get?_put, hk]
    · have hk' : (k == key) = false := by simpa using Ne.symm hk
      simp [get?_put, h.values, hk, List.lookup_cons, hk']

theorem Holds.putAll (h : dict.Holds entries) (more : List (κ × α)) :
    (dict.putAll more).Holds (entries ++ more) := by
  induction more generalizing dict entries with
  | nil => simpa [Dict.putAll] using h
  | cons pair more ih =>
    rw [putAll_cons]
    simpa using ih (h.put pair.1 pair.2)

end

end Dict

end LuaUnpack
