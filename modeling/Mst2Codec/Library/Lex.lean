import Mathlib

/-!
# Words with a common prefix, in lexicographic order

The words that begin with `p` are `p` itself and, for each letter `a`, the words that begin with
`p ++ [a]`.  In the lexicographic order these groups do not mix: `p` comes first, and the group of a
smaller letter comes before that of a larger one.

`IsLongestCommonPrefix p ws` is stated without lengths, as a greatest lower bound in the prefix
order.
-/

set_option autoImplicit false

namespace Lex

variable {α β : Type} {p q w : List α} {a b : α}

/-! ## The letter behind a prefix -/

/-- What the words that begin with `p ++ [a]` are among those that begin with `p`. -/
theorem concat_isPrefix_iff : p ++ [a] <+: w ↔ p <+: w ∧ w[p.length]? = some a := by
  constructor
  · rintro ⟨t, rfl⟩
    exact ⟨⟨a :: t, by simp⟩, by simp⟩
  · rintro ⟨⟨t, rfl⟩, h⟩
    rw [List.getElem?_append_right le_rfl, Nat.sub_self] at h
    cases t with
    | nil => simp at h
    | cons b t =>
      obtain rfl : b = a := by simpa using h
      exact ⟨t, by simp⟩

theorem getElem?_eq_none_of_isPrefix (h : p <+: w) : w[p.length]? = none ↔ w = p := by
  obtain ⟨t, rfl⟩ := h
  rw [List.getElem?_eq_none_iff, List.length_append]
  simp [List.length_eq_zero_iff]

/-- A letter follows if the word is not the prefix itself. -/
theorem exists_concat_isPrefix (h : p <+: w) (hne : w ≠ p) : ∃ a, p ++ [a] <+: w := by
  cases hw : w[p.length]? with
  | none => exact absurd ((getElem?_eq_none_of_isPrefix h).mp hw) hne
  | some a => exact ⟨a, concat_isPrefix_iff.mpr ⟨h, hw⟩⟩

theorem ne_of_concat_isPrefix (h : p ++ [a] <+: w) : w ≠ p := by
  rintro rfl
  have := h.length_le
  simp at this

/-! ## The order of the groups -/

section order

variable [LinearOrder α] {v : List α}

theorem lt_of_concat_isPrefix (h : p ++ [a] <+: w) : p < w := by
  obtain ⟨t, rfl⟩ := h
  rw [List.append_assoc]
  conv_lhs => rw [← List.append_nil p]
  exact List.append_left_lt (List.nil_lt_cons _ _)

/-- The group of a smaller letter comes first. -/
theorem lt_of_concat_isPrefix_of_lt (hab : a < b) (hv : p ++ [a] <+: v) (hw : p ++ [b] <+: w) :
    v < w := by
  obtain ⟨s, rfl⟩ := hv
  obtain ⟨t, rfl⟩ := hw
  rw [List.append_assoc, List.append_assoc]
  exact List.append_left_lt (List.cons_lt_cons_iff.mpr (.inl hab))

theorem le_of_lt_of_concat_isPrefix (h : v < w) (hv : p ++ [a] <+: v) (hw : p ++ [b] <+: w) :
    a ≤ b := by
  by_contra hba
  exact List.lt_asymm h (lt_of_concat_isPrefix_of_lt (not_le.mp hba) hw hv)

/-- What the prefix of a word and the groups behind it contribute to a sorted list. -/
theorem pairwise_groups {f : β → List α} {terminal : List β} {labels : List α}
    {group : α → List β} (hterminal : terminal.Pairwise fun x y ↦ f x < f y)
    (hself : ∀ x ∈ terminal, f x = p) (hlabels : labels.Pairwise (· < ·))
    (hgroup : ∀ l ∈ labels, (group l).Pairwise fun x y ↦ f x < f y)
    (hpre : ∀ l ∈ labels, ∀ x ∈ group l, p ++ [l] <+: f x) :
    (terminal ++ labels.flatMap group).Pairwise fun x y ↦ f x < f y := by
  refine List.pairwise_append.mpr ⟨hterminal, ?_, ?_⟩
  · rw [List.pairwise_flatMap]
    refine ⟨hgroup, hlabels.imp_of_mem fun {l m} hl hm hlm x hx y hy ↦ ?_⟩
    exact lt_of_concat_isPrefix_of_lt hlm (hpre l hl x hx) (hpre m hm y hy)
  · intro x hx y hy
    obtain ⟨l, hl, hy⟩ := List.mem_flatMap.mp hy
    rw [hself x hx]
    exact lt_of_concat_isPrefix (hpre l hl y hy)

end order

/-! ## Longest common prefixes -/

/-- The prefixes of `p` are the common prefixes of the words. -/
def IsLongestCommonPrefix (p : List α) (ws : List (List α)) : Prop :=
  ∀ q, q <+: p ↔ ∀ w ∈ ws, q <+: w

namespace IsLongestCommonPrefix

variable {ws : List (List α)}

theorem isPrefix (h : IsLongestCommonPrefix p ws) (hw : w ∈ ws) : p <+: w :=
  (h p).mp (List.prefix_refl p) w hw

/-- Nothing longer is common to the words. -/
theorem exists_not_isPrefix (h : IsLongestCommonPrefix p ws) (a : α) :
    ∃ w ∈ ws, ¬ p ++ [a] <+: w := by
  by_contra hall
  push Not at hall
  have := ((h _).mpr hall).length_le
  simp at this

theorem unique (h : IsLongestCommonPrefix p ws) (h' : IsLongestCommonPrefix q ws) : p = q := by
  have hpq : p <+: q := (h' p).mpr ((h p).mp (List.prefix_refl p))
  have hqp : q <+: p := (h q).mpr ((h' q).mp (List.prefix_refl q))
  exact hpq.eq_of_length_le hqp.length_le

end IsLongestCommonPrefix

end Lex
