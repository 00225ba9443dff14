import LuaUnpack.Handler.Catalog
import LuaUnpack.Handler.Fingerprint
import Mathlib.Data.List.Basic

/-!
# Fingerprints and tags

The numbers of tags are written with one or two digits and with nothing between them. So a
fingerprint tells the digits of the tags, but not which neighbouring digits are one tag.

Two blocks have the same fingerprint just if their tags are the same when each tag of two
digits is split into the tags of its digits. If the tags themselves differ, then where they
first do, one block has a tag of two digits, and the other has two tags that start with
these digits (`fingerprint_eq_iff_split`).
-/

namespace LuaUnpack.Handler

open LuaUnpack.Lua

namespace Tag

/-- The digits of a tag. -/
def digits (tag : Tag) : List Nat :=
  if tag.number < 10 then [tag.number] else [tag.number / 10, tag.number % 10]

/-- The tag with the number of a digit. -/
def ofDigit : Nat → Tag
  | 0 => instRef
  | 1 => stkRef
  | 2 => upvRef
  | 3 => envRef
  | 4 => varArgRef
  | 5 => unpackRef
  | 6 => insertRef
  | 7 => setMetatableRef
  | 8 => wrapProtoRef
  | _ => access

/-- A tag as the tags of its digits. -/
def split (tag : Tag) : List Tag := tag.digits.map ofDigit

theorem number_lt (tag : Tag) : tag.number < 37 := by cases tag <;> decide

theorem number_injective : Function.Injective number := by
  intro tag tag' h
  have hof : ∀ tag : Tag, Tag.ofNat tag.number = tag := by rintro ⟨⟩ <;> rfl
  rw [← hof tag, h, hof]

theorem number_ofDigit {d : Nat} (h : d < 10) : (ofDigit d).number = d := by
  revert d
  decide

/-- A tag has one digit, or it has two of which the first is not zero. -/
theorem digits_cases (tag : Tag) :
    (tag.number < 10 ∧ tag.digits = [tag.number]) ∨
      ∃ m n, 0 < m ∧ m < 10 ∧ n < 10 ∧ tag.number = 10 * m + n ∧ tag.digits = [m, n] := by
  have hlt := tag.number_lt
  rw [digits]
  split
  · exact .inl ⟨‹_›, rfl⟩
  · exact .inr ⟨_, _, by omega, by omega, by omega, by omega, rfl⟩

theorem lt_of_mem_digits {tag : Tag} {d : Nat} (h : d ∈ tag.digits) : d < 10 := by
  obtain ⟨hlt, hdigits⟩ | ⟨m, n, -, hm, hn, -, hdigits⟩ := tag.digits_cases
  · rw [hdigits, List.mem_singleton] at h
    omega
  · rw [hdigits] at h
    obtain rfl | rfl : d = m ∨ d = n := by simpa using h
    · exact hm
    · exact hn

/-- A tag is written with its digits. -/
theorem toDigits_number (tag : Tag) :
    Nat.toDigits 10 tag.number = tag.digits.map Nat.digitChar := by
  cases tag <;> rfl

end Tag

/-! ## Fingerprints as digits -/

/-- Tags, with those of two digits split. -/
def splitTags (tags : List Tag) : List Tag := tags.flatMap Tag.split

/-- The digits of tags, one after the other. -/
def tagDigits (tags : List Tag) : List Nat := tags.flatMap Tag.digits

variable {ts us : List Tag}

theorem toList_digitsOf (ts : List Tag) :
    (digitsOf ts).toList = (tagDigits ts).map Nat.digitChar := by
  rw [digitsOf, String.toList_join, List.flatMap_map, tagDigits, List.map_flatMap]
  exact List.flatMap_congr fun tag _ => String.toList_ofList.trans tag.toDigits_number

theorem tagDigits_cons (tag : Tag) (ts : List Tag) :
    tagDigits (tag :: ts) = tag.digits ++ tagDigits ts := List.flatMap_cons

theorem tagDigits_eq_nil_iff : tagDigits ts = [] ↔ ts = [] := by
  refine ⟨fun h => ?_, fun h => h ▸ rfl⟩
  cases ts with
  | nil => rfl
  | cons tag ts =>
    rw [tagDigits_cons, List.append_eq_nil_iff] at h
    obtain ⟨-, hdigits⟩ | ⟨m, n, -, -, -, -, hdigits⟩ := tag.digits_cases <;>
      cases hdigits.symm.trans h.1

theorem lt_of_mem_tagDigits {d : Nat} (h : d ∈ tagDigits ts) : d < 10 := by
  obtain ⟨tag, -, hd⟩ := List.mem_flatMap.1 h
  exact Tag.lt_of_mem_digits hd

/-- The digits of tags can be taken from their text. -/
theorem map_toNat_digitsOf (ts : List Tag) :
    (digitsOf ts).toList.map (fun c => c.toNat - 48) = tagDigits ts := by
  have hchar : ∀ d < 10, (Nat.digitChar d).toNat - 48 = d := by decide
  rw [toList_digitsOf, List.map_map]
  exact (List.map_congr_left fun d hd => hchar d (lt_of_mem_tagDigits hd)).trans (List.map_id _)

theorem digitsOf_eq_iff : digitsOf ts = digitsOf us ↔ tagDigits ts = tagDigits us := by
  constructor
  · intro h
    rw [← map_toNat_digitsOf, h, map_toNat_digitsOf]
  · intro h
    rw [← String.toList_inj, toList_digitsOf, toList_digitsOf, h]

theorem splitTags_eq_map (ts : List Tag) : splitTags ts = (tagDigits ts).map Tag.ofDigit := by
  rw [splitTags, tagDigits, List.map_flatMap]
  rfl

/-- The digits of tags are the numbers of the tags they are split into. -/
theorem map_number_splitTags (ts : List Tag) : (splitTags ts).map Tag.number = tagDigits ts := by
  rw [splitTags_eq_map, List.map_map]
  exact (List.map_congr_left fun d hd => Tag.number_ofDigit (lt_of_mem_tagDigits hd)).trans
    (List.map_id _)

theorem splitTags_eq_iff : splitTags ts = splitTags us ↔ tagDigits ts = tagDigits us := by
  constructor
  · intro h
    rw [← map_number_splitTags, h, map_number_splitTags]
  · intro h
    rw [splitTags_eq_map, h, splitTags_eq_map]

/-! ## Where tags part -/

/-- Whether tags have, after a common start, one tag of two digits where others have two
    tags that start with these digits. -/
def JoinsWhereSplit (ts us : List Tag) : Prop :=
  ∃ (start : List Tag) (tag x y : Tag) (ts' us' : List Tag),
    ts = start ++ tag :: ts' ∧ us = start ++ x :: y :: us' ∧
      tag.digits = x.digits ++ y.digits.take 1

theorem JoinsWhereSplit.cons {tag : Tag} (h : JoinsWhereSplit ts us) :
    JoinsWhereSplit (tag :: ts) (tag :: us) := by
  obtain ⟨start, t, x, y, ts', us', rfl, rfl, hdigits⟩ := h
  exact ⟨tag :: start, t, x, y, ts', us', rfl, rfl, hdigits⟩

/-- A tag of two digits has the digits of others just if they start with the tag of its
    first digit and a tag that starts with its second one. -/
theorem joinsWhereSplit_of_digits {tag x : Tag} {m n : Nat} (htag : tag.digits = [m, n])
    (hx : x.digits = [m]) (h : tagDigits (tag :: ts) = tagDigits (x :: us)) :
    JoinsWhereSplit (tag :: ts) (x :: us) := by
  rw [tagDigits_cons, tagDigits_cons, htag, hx] at h
  cases us with
  | nil => cases h
  | cons y us =>
    refine ⟨[], tag, x, y, ts, us, rfl, rfl, ?_⟩
    have hn : n :: tagDigits ts = y.digits ++ tagDigits us := (List.cons.inj h).2
    obtain ⟨-, hy⟩ | ⟨m', n', -, -, -, -, hy⟩ := y.digits_cases <;>
      rw [hy] at hn <;> rw [htag, hx, hy, (List.cons.inj hn).1] <;> rfl

/-- Tags with the same digits are the same, or one has a tag of two digits where they
    part. -/
theorem eq_or_joinsWhereSplit (h : tagDigits ts = tagDigits us) :
    ts = us ∨ JoinsWhereSplit ts us ∨ JoinsWhereSplit us ts := by
  -- By induction on the common start.
  induction ts generalizing us with
  | nil => exact .inl (tagDigits_eq_nil_iff.1 h.symm).symm
  | cons t ts ih =>
    cases us with
    | nil => exact .inl (tagDigits_eq_nil_iff.1 h)
    | cons u us =>
      have hdigits := h
      rw [tagDigits_cons, tagDigits_cons] at hdigits
      by_cases htu : t = u
      · subst htu
        rcases ih (List.append_cancel_left hdigits) with rfl | hjoins | hjoins
        · exact .inl rfl
        · exact .inr (.inl hjoins.cons)
        · exact .inr (.inr hjoins.cons)
      · have hne : t.number ≠ u.number := fun hnumber => htu (Tag.number_injective hnumber)
        obtain ⟨-, ht⟩ | ⟨m, n, -, -, -, htn, ht⟩ := t.digits_cases <;>
          obtain ⟨-, hu⟩ | ⟨m', n', -, -, -, hun, hu⟩ := u.digits_cases <;>
          rw [ht, hu] at hdigits <;> simp only [List.cons_append, List.cons.injEq] at hdigits
        · exact absurd hdigits.1 hne
        · exact .inr (.inr (joinsWhereSplit_of_digits hu (by rw [ht, hdigits.1]) h.symm))
        · exact .inr (.inl (joinsWhereSplit_of_digits ht (by rw [hu, hdigits.1]) h))
        · omega

/-- The fingerprints of two blocks are the same just if their tags are, once the tags of two
    digits are split. The tags themselves are then the same unless, where they part, one
    block has a tag of two digits and the other two tags that start with these. -/
theorem fingerprint_eq_iff_split (b₁ b₂ : Block) :
    (fingerprint b₁ = fingerprint b₂ ↔ splitTags (tags b₁) = splitTags (tags b₂)) ∧
      (fingerprint b₁ = fingerprint b₂ →
        tags b₁ = tags b₂ ∨ JoinsWhereSplit (tags b₁) (tags b₂) ∨
          JoinsWhereSplit (tags b₂) (tags b₁)) := by
  have hdigits : fingerprint b₁ = fingerprint b₂ ↔
      tagDigits (tags b₁) = tagDigits (tags b₂) := digitsOf_eq_iff
  exact ⟨hdigits.trans splitTags_eq_iff.symm, fun h => eq_or_joinsWhereSplit (hdigits.1 h)⟩

/-! ## A remainder taken for a register -/

/-- The handler of `MOVE`. -/
def moveBlock : Block :=
  [.assign [.index (.name "stk") (.index (.name "inst") (.name "OP_A"))]
    [.index (.name "stk") (.index (.name "inst") (.name "OP_B"))]]

/-- A block that indexes a remainder with the instruction, `(a % b)[inst] = (a % b)[inst]`. -/
def remainderBlock : Block :=
  [.assign [.index (.binary .mod (.name "a") (.name "b")) (.name "inst")]
    [.index (.binary .mod (.name "a") (.name "b")) (.name "inst")]]

/-- The remainder is identified as a `MOVE`. -/
theorem fingerprint_remainderBlock :
    fingerprint remainderBlock = fingerprint moveBlock ∧
      tags remainderBlock ≠ tags moveBlock ∧
      standardCatalog.get? (fingerprint remainderBlock) = some ⟨.move, none⟩ := by
  decide

end LuaUnpack.Handler
