import Mst2Codec.Library.Lex
import Mst2Codec.MetaPage.Build

/-!
# The partition of an ascending list

On an ascending list of entries the loops of `build` do what they are meant to do: `lcp` is the
longest common prefix (`isLongestCommonPrefix_lcp`), and `partition` succeeds with one group for
each byte that comes next, in ascending order, which together with the terminal are the whole list
(`partition_eq`).
-/

set_option autoImplicit false

namespace Mst2

open Bytes Except Lex

namespace Page

/-! ## The longest common prefix -/

theorem le_matchLen {k len : ℕ} {a b : Bytes} (ha : len ≤ a.length) (hb : len ≤ b.length) :
    k ≤ matchLen len a b ↔ k ≤ len ∧ a.take k = b.take k := by
  induction len generalizing k a b with
  | zero =>
    rw [matchLen]
    constructor
    · intro hk
      rw [Nat.le_zero.mp hk]
      simp
    · exact fun h ↦ h.1
    · simp
  | succ len ih =>
    cases a with
    | nil => simp at ha
    | cons x a =>
      cases b with
      | nil => simp at hb
      | cons y b =>
        rw [matchLen]
        cases k with
        | zero => simp
        | succ k =>
          simp only [List.length_cons, Nat.add_le_add_iff_right] at ha hb
          simp only [List.take_succ_cons, List.cons.injEq, Nat.add_le_add_iff_right]
          split
          · rename_i hxy
            rw [Nat.add_le_add_iff_right, ih ha hb]
            simp [hxy]
          · rename_i hxy
            simp [hxy]

/-- The loop of `lcp`: the prefixes of `first` that survive it are common to all names. -/
theorem le_foldl_matchLen {k len : ℕ} {first : Bytes} {names : List Bytes}
    (hlen : len ≤ first.length) (hk : k ≤ first.length) :
    k ≤ names.foldl (fun len n ↦ matchLen (min len n.length) first n) len ↔
      k ≤ len ∧ ∀ n ∈ names, first.take k <+: n := by
  induction names generalizing len with
  | nil => simp
  | cons n names ih =>
    have hmin : min len n.length ≤ first.length := (min_le_left _ _).trans hlen
    have hstep : ∀ j, j ≤ matchLen (min len n.length) first n ↔
        j ≤ min len n.length ∧ first.take j = n.take j :=
      fun j ↦ le_matchLen hmin (min_le_right _ _)
    have hle : matchLen (min len n.length) first n ≤ first.length :=
      ((hstep _).mp le_rfl).1.trans hmin
    have hprefix : first.take k <+: n ↔ k ≤ n.length ∧ first.take k = n.take k := by
      have hlength : (first.take k).length = k := by simp [hk]
      constructor
      · intro h
        have hkn := h.length_le
        have htake := List.prefix_iff_eq_take.mp h
        rw [hlength] at hkn htake
        exact ⟨hkn, htake⟩
      · rintro ⟨-, h⟩
        rw [h]
        exact List.take_prefix _ _
    rw [List.foldl_cons, ih hle, hstep, le_min_iff, List.forall_mem_cons, hprefix]
    tauto

/-- **`lcp` is the longest common prefix.** -/
theorem isLongestCommonPrefix_lcp {names : List Bytes} (h : names ≠ []) :
    IsLongestCommonPrefix (lcp names) names := by
  cases names with
  | nil => exact absurd rfl h
  | cons first names =>
    intro q
    rw [lcp, List.prefix_take_iff, List.forall_mem_cons]
    refine and_congr_right fun hq ↦ ?_
    rw [le_foldl_matchLen le_rfl hq.length_le, ← List.prefix_iff_eq_take.mp hq]
    exact and_iff_right hq.length_le

/-! ## Groups -/

/-- The entries whose names go on with `label` behind `p`. -/
def group (p : Bytes) (label : UInt8) (entries : List Entry) : List Entry :=
  entries.filter fun e ↦ e.name[p.length]? = some label

/-- The invariant of the partition loop: every group has its label, and the labels ascend. -/
structure Grouped (p : Bytes) (groups : List (UInt8 × List Entry)) : Prop where
  /-- The labels ascend. -/
  ascending : groups.Pairwise fun g g' ↦ g.1 < g'.1
  /-- No group is empty. -/
  ne_nil : ∀ g ∈ groups, g.2 ≠ []
  /-- The names of a group go on with its label. -/
  concat_isPrefix : ∀ g ∈ groups, ∀ e ∈ g.2, p ++ [g.1] <+: e.name

variable {p : Bytes} {groups gs : List (UInt8 × List Entry)} {entries : List Entry}

theorem Grouped.pushGroup {label : UInt8} {e : Entry} (h : Grouped p groups)
    (he : p ++ [label] <+: e.name) (hle : ∀ g ∈ groups, g.1 ≤ label) :
    Grouped p (pushGroup groups label e) := by
  refine ⟨?_, fun g hg ↦ ?_, fun g hg x hx ↦ ?_⟩
  · rw [Page.pushGroup]
    split
    · rename_i l group hlast
      obtain ⟨init, rfl⟩ := List.getLast?_eq_some_iff.mp hlast
      have hasc := h.ascending
      split
      · rw [List.dropLast_concat]
        rw [List.pairwise_append] at hasc ⊢
        simpa using hasc
      · rename_i hne
        have hl : l < label := lt_of_le_of_ne (hle (l, group) (by simp)) hne
        refine List.pairwise_append.mpr ⟨hasc, List.pairwise_singleton _ _, ?_⟩
        intro g hg g' hg'
        rw [List.mem_singleton.mp hg']
        rcases List.mem_append.mp hg with hg | hg
        · exact lt_trans ((List.pairwise_append.mp hasc).2.2 g hg _ List.mem_cons_self) hl
        · rw [List.mem_singleton.mp hg]
          exact hl
    · exact List.pairwise_singleton _ _
  · rcases mem_pushGroup hg with hg | rfl | ⟨group, -, rfl⟩
    · exact h.ne_nil g hg
    · simp
    · simp
  · rcases mem_pushGroup hg with hg | rfl | ⟨group, hgroup, rfl⟩
    · exact h.concat_isPrefix g hg x hx
    · rwa [List.mem_singleton.mp hx]
    · rcases List.mem_append.mp hx with hx | hx
      · exact h.concat_isPrefix _ hgroup x hx
      · rwa [List.mem_singleton.mp hx]

/-- The partition loop runs through if the names ascend and begin with `p`. -/
theorem partition_grouped (hpre : ∀ e ∈ entries, p <+: e.name)
    (hasc : entries.Pairwise fun a b ↦ a.name < b.name) (h : Grouped p groups)
    (hle : ∀ g ∈ groups, ∀ e ∈ entries, ∀ b, p ++ [b] <+: e.name → g.1 ≤ b) :
    ∃ gs, partition p groups entries = .ok gs ∧ Grouped p gs := by
  induction entries generalizing groups with
  | nil => exact ⟨groups, rfl, h⟩
  | cons e entries ih =>
    obtain ⟨hefirst, hasc⟩ := List.pairwise_cons.mp hasc
    obtain ⟨hepre, hpre⟩ := List.forall_mem_cons.mp hpre
    rw [partition]
    split
    · exact ih hpre hasc h fun g hg x hx ↦ hle g hg x (List.mem_cons_of_mem _ hx)
    · rename_i hname
      obtain ⟨label, hlabel⟩ := exists_concat_isPrefix hepre hname
      have hlast : ∀ g ∈ groups, g.1 ≤ label :=
        fun g hg ↦ hle g hg e List.mem_cons_self label hlabel
      rw [(concat_isPrefix_iff.mp hlabel).2, okOr_some, ok_bind]
      refine ih hpre hasc (h.pushGroup hlabel hlast) fun g hg x hx b hb ↦ ?_
      -- the label of the new entry is the largest so far, and its name the smallest to come
      have hnext : label ≤ b := le_of_lt_of_concat_isPrefix (hefirst x hx) hlabel hb
      rcases mem_pushGroup hg with hg | rfl | ⟨group, -, rfl⟩
      · exact (hlast g hg).trans hnext
      · exact hnext
      · exact hnext

theorem Grouped.eq_group (h : Grouped p gs) {g : UInt8 × List Entry} (hg : g ∈ gs)
    (hflat : gs.flatMap Prod.snd = entries.filter fun e ↦ e.name ≠ p) :
    g.2 = group p g.1 entries := by
  have hfilter : group p g.1 entries =
      (gs.flatMap Prod.snd).filter fun e ↦ e.name[p.length]? = some g.1 := by
    rw [hflat, List.filter_filter, group]
    refine List.filter_congr fun e _ ↦ ?_
    rw [Bool.eq_iff_iff]
    simp only [ne_eq, decide_not, Bool.and_eq_true, decide_eq_true_eq, Bool.not_eq_true',
      decide_eq_false_iff_not]
    refine (and_iff_left_of_imp fun hlabel hname ↦ ?_).symm
    rw [hname, List.getElem?_eq_none le_rfl] at hlabel
    cases hlabel
  -- the labels differ, so only the group of the label remains
  have hself : ∀ g' ∈ gs, (g'.2.filter fun e ↦ e.name[p.length]? = some g.1) =
      if g'.1 = g.1 then g'.2 else [] := by
    intro g' hg'
    have hnext : ∀ e ∈ g'.2, e.name[p.length]? = some g'.1 :=
      fun e he ↦ (concat_isPrefix_iff.mp (h.concat_isPrefix g' hg' e he)).2
    split
    · rename_i heq
      exact List.filter_eq_self.mpr fun e he ↦ by simp [hnext e he, heq]
    · rename_i hne
      exact List.filter_eq_nil_iff.mpr fun e he ↦ by simp [hnext e he, hne]
  rw [hfilter, List.filter_flatMap]
  obtain ⟨A, B, rfl⟩ := List.append_of_mem hg
  have hasc := List.pairwise_append.mp h.ascending
  have hA : A.flatMap (fun g' ↦ g'.2.filter fun e ↦ e.name[p.length]? = some g.1) = [] := by
    refine List.flatMap_eq_nil_iff.mpr fun g' hg' ↦ ?_
    rw [hself g' (by simp [hg']), if_neg (ne_of_lt (hasc.2.2 g' hg' g (by simp)))]
  have hB : B.flatMap (fun g' ↦ g'.2.filter fun e ↦ e.name[p.length]? = some g.1) = [] := by
    refine List.flatMap_eq_nil_iff.mpr fun g' hg' ↦ ?_
    rw [hself g' (by simp [hg']),
      if_neg (ne_of_gt ((List.pairwise_cons.mp hasc.2.1).1 g' hg'))]
  rw [List.flatMap_append, List.flatMap_cons, hA, hB, hself g (by simp), if_pos rfl]
  simp

/-- The terminal comes first. -/
theorem terminal_append (hpre : ∀ e ∈ entries, p <+: e.name)
    (hasc : entries.Pairwise fun a b ↦ a.name < b.name) :
    (entries.find? fun e ↦ e.name = p).toList ++ entries.filter (fun e ↦ e.name ≠ p) =
      entries := by
  have hlt : ∀ e ∈ entries, e.name ≠ p → p < e.name := fun e he hne ↦
    let ⟨_, h⟩ := exists_concat_isPrefix (hpre e he) hne
    lt_of_concat_isPrefix h
  cases entries with
  | nil => rfl
  | cons e entries =>
    obtain ⟨hfirst, -⟩ := List.pairwise_cons.mp hasc
    have hne : ∀ x ∈ entries, x.name ≠ p := by
      rintro x hx rfl
      by_cases he : e.name = x.name
      · exact List.lt_irrefl _ (he ▸ hfirst x hx)
      · exact List.lt_asymm (hfirst x hx) (hlt e List.mem_cons_self he)
    have hrest : entries.filter (fun e ↦ e.name ≠ p) = entries :=
      List.filter_eq_self.mpr fun x hx ↦ by simpa using hne x hx
    by_cases he : e.name = p
    · rw [List.find?_cons_of_pos (by simpa using he), List.filter_cons_of_neg (by simpa using he),
        hrest]
      rfl
    · have hnone : (entries.find? fun e ↦ e.name = p) = none :=
        List.find?_eq_none.mpr fun x hx ↦ by simpa using hne x hx
      rw [List.find?_cons_of_neg (by simpa using he), hnone,
        List.filter_cons_of_pos (by simpa using he), hrest]
      rfl

/-- **The partition of an ascending list**: one group for each byte that comes next, in ascending
order, and the terminal and the groups are the list. -/
theorem partition_eq (hpre : ∀ e ∈ entries, p <+: e.name)
    (hasc : entries.Pairwise fun a b ↦ a.name < b.name) :
    ∃ labels : List UInt8, labels.Pairwise (· < ·) ∧
      (∀ l, l ∈ labels ↔ ∃ e ∈ entries, e.name[p.length]? = some l) ∧
      partition p [] entries = .ok (labels.map fun l ↦ (l, group p l entries)) ∧
      (entries.find? fun e ↦ e.name = p).toList ++ labels.flatMap (group p · entries) =
        entries := by
  have hnil : Grouped p [] := ⟨.nil, by simp, by simp⟩
  obtain ⟨gs, hgs, h⟩ := partition_grouped hpre hasc hnil (by simp)
  have hflat := (partition_eq_ok hgs).1
  rw [List.flatMap_nil, List.nil_append] at hflat
  have hgroup : ∀ g ∈ gs, (g.1, group p g.1 entries) = g :=
    fun g hg ↦ Prod.ext rfl (h.eq_group hg hflat).symm
  have hmap : (gs.map Prod.fst).map (fun l ↦ (l, group p l entries)) = gs := by
    rw [List.map_map]
    exact (List.map_congr_left hgroup).trans (List.map_id gs)
  refine ⟨gs.map Prod.fst, List.pairwise_map.mpr h.ascending, fun l ↦ ?_, ?_, ?_⟩
  · constructor
    · intro hl
      obtain ⟨g, hg, rfl⟩ := List.mem_map.mp hl
      obtain ⟨e, he⟩ := List.exists_mem_of_ne_nil _ (h.ne_nil g hg)
      rw [h.eq_group hg hflat, group, List.mem_filter, decide_eq_true_eq] at he
      exact ⟨e, he⟩
    · rintro ⟨e, he, hl⟩
      have hne : e.name ≠ p := ne_of_concat_isPrefix (concat_isPrefix_iff.mpr ⟨hpre e he, hl⟩)
      have hmem : e ∈ gs.flatMap Prod.snd := by
        rw [hflat]
        exact List.mem_filter.mpr ⟨he, by simpa using hne⟩
      obtain ⟨g, hg, heg⟩ := List.mem_flatMap.mp hmem
      have hlabel := (concat_isPrefix_iff.mp (h.concat_isPrefix g hg e heg)).2
      rw [hl, Option.some.injEq] at hlabel
      exact List.mem_map.mpr ⟨g, hg, hlabel.symm⟩
  · rw [hmap, hgs]
  · have hflatMap : (gs.map Prod.fst).flatMap (group p · entries) = gs.flatMap Prod.snd := by
      conv_rhs => rw [← hmap, List.flatMap_map]
    rw [hflatMap, hflat]
    exact terminal_append hpre hasc

end Page

end Mst2
