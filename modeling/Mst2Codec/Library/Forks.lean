import Mst2Codec.Library.Lex

/-!
# Where words fork

A finite set of words forks at a word that is one of them, or that two of them go on from with
different letters (`Fork`).  There are fewer than twice as many forks as words
(`card_lt_of_forks`): a word that comes to a set adds itself and the place where it leaves the
others.  This bounds the nodes of every tree of words whose nodes stand at forks, whatever is kept
in them.
-/

set_option autoImplicit false

namespace Lex

variable {α : Type} {W : Finset (List α)} {p w : List α}

/-- The words fork at `p`. -/
def Fork (W : Finset (List α)) (p : List α) : Prop :=
  p ∈ W ∨ ∃ a b, a ≠ b ∧ (∃ w ∈ W, p ++ [a] <+: w) ∧ ∃ w ∈ W, p ++ [b] <+: w

/-- A word goes on with one letter. -/
theorem eq_of_concat_isPrefix {a b : α} (ha : p ++ [a] <+: w) (hb : p ++ [b] <+: w) : a = b := by
  have heq := (List.prefix_of_prefix_length_le ha hb (by simp)).eq_of_length (by simp)
  simpa using heq

/-- Words fork at their longest common prefix. -/
theorem Fork.of_isLongestCommonPrefix {ws : List (List α)} (h : IsLongestCommonPrefix p ws)
    (hne : ws ≠ []) (hsub : ∀ w ∈ ws, w ∈ W) : Fork W p := by
  by_cases hp : p ∈ W
  · exact .inl hp
  have hnext : ∀ w ∈ ws, ∃ a, p ++ [a] <+: w := fun w hw ↦
    exists_concat_isPrefix (h.isPrefix hw) fun heq ↦ hp (heq ▸ hsub w hw)
  obtain ⟨w, hw⟩ := List.exists_mem_of_ne_nil ws hne
  obtain ⟨a, ha⟩ := hnext w hw
  obtain ⟨v, hv, hnot⟩ := h.exists_not_isPrefix a
  obtain ⟨b, hb⟩ := hnext v hv
  refine .inr ⟨a, b, ?_, ⟨w, hsub w hw, ha⟩, v, hsub v hv, hb⟩
  rintro rfl
  exact hnot hb

/-- The longest of the common prefixes of a word with the words of a set. -/
theorem exists_longest_common_prefix (hW : W.Nonempty) (w : List α) :
    ∃ q, (q <+: w ∧ ∃ v ∈ W, q <+: v) ∧
      ∀ q', q' <+: w → (∃ v ∈ W, q' <+: v) → q'.length ≤ q.length := by
  classical
  obtain ⟨v, hv⟩ := hW
  have hne : (w.inits.toFinset.filter fun q ↦ ∃ v ∈ W, q <+: v).Nonempty :=
    ⟨[], by simpa using ⟨v, hv⟩⟩
  obtain ⟨q, hq, hmax⟩ := Finset.exists_max_image _ List.length hne
  simp only [Finset.mem_filter, List.mem_toFinset, List.mem_inits] at hq hmax
  exact ⟨q, hq, fun q' hw hv ↦ hmax q' ⟨hw, hv⟩⟩

/-- Where a word leaves a set that does not fork there, it shares the most with it. -/
theorem length_le_of_leaves {q : List α} {a b : α} (hab : a ≠ b) (ha : p ++ [a] <+: w)
    (hb : ∃ v ∈ W, p ++ [b] <+: v) (hp : ¬ Fork W p) (hq : q <+: w) (hv : ∃ v ∈ W, q <+: v) :
    q.length ≤ p.length := by
  by_contra hlt
  obtain ⟨v, hv, hqv⟩ := hv
  have hpq : p ++ [a] <+: q := by
    refine List.prefix_of_prefix_length_le ha hq ?_
    rw [List.length_append, List.length_singleton]
    omega
  exact hp (.inr ⟨a, b, hab, ⟨v, hv, hpq.trans hqv⟩, hb⟩)

/-- **A word adds two forks at most.** -/
theorem exists_forks_insert [DecidableEq α] (hW : W.Nonempty) (w : List α) :
    ∃ q, ∀ p, Fork (insert w W) p → Fork W p ∨ p = w ∨ p = q := by
  obtain ⟨q, ⟨hqw, hqv⟩, hmax⟩ := exists_longest_common_prefix hW w
  refine ⟨q, fun p hp ↦ or_iff_not_imp_left.mpr fun hnot ↦ or_iff_not_imp_left.mpr fun hne ↦ ?_⟩
  -- the word goes on from the fork with one letter and the set with another
  have hleaves : ∀ {a b}, a ≠ b → p ++ [a] <+: w → (∃ v ∈ W, p ++ [b] <+: v) → p = q := by
    rintro a b hab ha ⟨v, hv, hb⟩
    have hpw := (List.prefix_append p [a]).trans ha
    have hle := length_le_of_leaves hab ha ⟨v, hv, hb⟩ hnot hqw hqv
    have hge := hmax p hpw ⟨v, hv, (List.prefix_append p [b]).trans hb⟩
    exact (List.prefix_of_prefix_length_le hpw hqw hge).eq_of_length (le_antisymm hge hle)
  rcases hp with hp | ⟨a, b, hab, ⟨u, hu, ha⟩, v, hv, hb⟩
  · rcases Finset.mem_insert.mp hp with hp | hp
    · exact absurd hp hne
    · exact absurd (.inl hp) hnot
  · rcases Finset.mem_insert.mp hu with hu | hu
    · rcases Finset.mem_insert.mp hv with hv | hv
      · exact absurd (eq_of_concat_isPrefix ha (hu.trans hv.symm ▸ hb)) hab
      · exact hleaves hab (hu ▸ ha) ⟨v, hv, hb⟩
    · rcases Finset.mem_insert.mp hv with hv | hv
      · exact hleaves hab.symm (hv ▸ hb) ⟨u, hu, ha⟩
      · exact absurd (.inr ⟨a, b, hab, ⟨u, hu, ha⟩, v, hv, hb⟩) hnot

/-- **Words have fewer than twice as many forks.** -/
theorem card_lt_of_forks (hW : W.Nonempty) (F : Finset (List α)) (hF : ∀ p ∈ F, Fork W p) :
    F.card < 2 * W.card := by
  classical
  induction hW using Finset.Nonempty.cons_induction generalizing F with
  | singleton w =>
    have hsub : F ⊆ {w} := by
      intro p hp
      rcases hF p hp with h | ⟨a, b, hab, ⟨u, hu, ha⟩, v, hv, hb⟩
      · exact h
      · rw [Finset.mem_singleton] at hu hv
        exact absurd (eq_of_concat_isPrefix ha (hu.trans hv.symm ▸ hb)) hab
    have hle := Finset.card_le_card hsub
    rw [Finset.card_singleton] at hle ⊢
    omega
  | cons w W hw hW ih =>
    rw [Finset.cons_eq_insert] at hF
    obtain ⟨q, hq⟩ := exists_forks_insert hW w
    have hlt := ih (F.filter fun p ↦ Fork W p) fun p hp ↦ (Finset.mem_filter.mp hp).2
    have hrest : (F.filter fun p ↦ ¬ Fork W p).card ≤ 2 := by
      refine (Finset.card_le_card fun p hp ↦ ?_).trans (Finset.card_le_two (a := w) (b := q))
      rw [Finset.mem_filter] at hp
      rw [Finset.mem_insert, Finset.mem_singleton]
      exact (hq p (hF p hp.1)).resolve_left hp.2
    have hcard := Finset.card_filter_add_card_filter_not (s := F) fun p ↦ Fork W p
    rw [Finset.card_cons]
    omega

end Lex
