import Mathlib

/-!
# Lists with one entry replaced

`Replaces a b l m` says that `m` is `l` with `b` at one of the places of `a`.  What does not tell
the two entries apart does not tell the two lists apart, and a filter either keeps both entries, and
then its results stand in the same relation, or it drops both and its results are equal.
-/

set_option autoImplicit false

variable {α β : Type}

/-- The second list is the first one with `b` at a place of `a`. -/
def Replaces (a b : α) (l m : List α) : Prop := ∃ A B, l = A ++ a :: B ∧ m = A ++ b :: B

namespace Replaces

variable {a b : α} {l m : List α}

theorem left_mem (h : Replaces a b l m) : a ∈ l := by
  obtain ⟨A, B, rfl, -⟩ := h
  exact List.mem_append_right A List.mem_cons_self

/-- A function that takes both entries to one value does not see the difference. -/
theorem map_eq (h : Replaces a b l m) {f : α → β} (hf : f b = f a) : m.map f = l.map f := by
  obtain ⟨A, B, rfl, rfl⟩ := h
  rw [List.map_append, List.map_cons, hf, List.map_append, List.map_cons]

theorem length_eq (h : Replaces a b l m) : m.length = l.length := by
  obtain ⟨A, B, rfl, rfl⟩ := h
  rw [List.length_append, List.length_append, List.length_cons, List.length_cons]

/-- A filter that keeps both entries. -/
theorem filter (h : Replaces a b l m) {P : α → Bool} (ha : P a = true) (hb : P b = true) :
    Replaces a b (l.filter P) (m.filter P) := by
  obtain ⟨A, B, rfl, rfl⟩ := h
  refine ⟨A.filter P, B.filter P, ?_, ?_⟩
  · rw [List.filter_append, List.filter_cons_of_pos ha]
  · rw [List.filter_append, List.filter_cons_of_pos hb]

/-- A filter that drops both entries. -/
theorem filter_eq (h : Replaces a b l m) {P : α → Bool} (ha : ¬ P a = true) (hb : ¬ P b = true) :
    m.filter P = l.filter P := by
  obtain ⟨A, B, rfl, rfl⟩ := h
  rw [List.filter_append, List.filter_append, List.filter_cons_of_neg ha,
    List.filter_cons_of_neg hb]

/-- Another entry makes another list. -/
theorem ne (h : Replaces a b l m) (hab : b ≠ a) : m ≠ l := by
  obtain ⟨A, B, rfl, rfl⟩ := h
  intro heq
  exact hab (List.cons.inj (List.append_cancel_left heq)).1

end Replaces
