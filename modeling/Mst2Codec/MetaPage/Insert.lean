import Mst2Codec.MetaPage.Size

/-!
# One entry more, or one less

Two directories that differ by one entry share almost all of their pages.  The groups beside the way
to the entry are the same, even where it has shortened the prefix of a branch: then all the others
are one group of the new branch (`groups_without`).  What is left are the pages on the way, of which
there are at most 256, and, where an entry too many turns a leaf into a branch, the pages below it.
Those hold at most 129 entries, so that their number is bounded, too.

So the pages that a client has of one directory are, up to 512 of them, all it needs of the other,
however large the directories are (`insert_remove_share`).
-/

set_option autoImplicit false

namespace Mst2

open Bytes Except Lex

namespace Page

/-- The entries without one of them. -/
def without (x : Entry) (S : List Entry) : List Entry := S.filter fun e ↦ e ≠ x

section without

variable {S : List Entry} {x e : Entry} {l : UInt8} {p : Bytes}

theorem mem_without : e ∈ without x S ↔ e ∈ S ∧ e ≠ x := by
  rw [without, List.mem_filter, decide_eq_true_eq]

theorem without_of_notMem (h : x ∉ S) : without x S = S :=
  List.filter_eq_self.mpr fun _ he ↦ decide_eq_true fun heq ↦ h (heq ▸ he)

theorem group_without : group p l (without x S) = without x (group p l S) := by
  rw [group, without, without, group, List.filter_filter, List.filter_filter]
  simp only [Bool.and_comm]

theorem Buildable.without (h : Buildable S) : Buildable (without x S) := h.filter _

theorem Buildable.nodup (h : Buildable S) : S.Nodup :=
  h.ascending.imp fun hlt heq ↦ (heq ▸ hlt).false

/-- One entry is gone, not more. -/
theorem length_le_without (h : Buildable S) : S.length ≤ (Page.without x S).length + 1 := by
  have herase : S.erase x = Page.without x S := by
    rw [h.nodup.erase_eq_filter, Page.without]
    refine List.filter_congr fun e _ ↦ ?_
    by_cases he : e = x <;> simp [he]
  rw [← herase]
  exact Nat.le_add_of_sub_le List.le_length_erase

theorem Fits.without (h : Fits S) : Fits (without x S) := by
  refine ⟨(List.length_filter_le _ _).trans h.1, le_trans ?_ h.2⟩
  have hsub := (List.filter_sublist (p := fun e ↦ decide (e ≠ x)) (l := S)).map Entry.encodedLen
  have hsum := hsub.sum_le_sum fun _ _ ↦ Nat.zero_le _
  exact Nat.add_le_add_left hsum 20

end without

section share

variable [Sha256] {S G : List Entry} {x : Entry} {l : UInt8} {p : Bytes}

/-- The steps from a branch lead to the groups behind its prefix. -/
theorem step_iff_group (hS : Buildable S) (hlen : S.length < 2 ^ 63) (hfits : ¬ Fits S)
    (hp : IsLongestCommonPrefix p (S.map Entry.name)) :
    Step S l G ↔ G = group p l S ∧ G ≠ [] := by
  obtain ⟨page, hpage⟩ := (build_eq_ok_iff hlen).mpr hS
  obtain ⟨-, P, hP, -⟩ := canonical_of_build hlen hpage
  cases hP with
  | leaf h => exact absurd h hfits
  | @branch p' terminal children _ hpart =>
    obtain rfl := hp.unique hpart.isLongestCommonPrefix
    rw [hpart.step_iff hfits, hpart.mem_labels, and_comm, and_congr_right_iff]
    rintro rfl
    constructor
    · rintro ⟨e, he, hnext⟩
      exact List.ne_nil_of_mem (List.mem_filter.mpr ⟨he, by simpa using hnext⟩)
    · intro hne
      obtain ⟨e, he⟩ := List.exists_mem_of_ne_nil _ hne
      exact ⟨e, group_subset he⟩

omit [Sha256] in
/-- **How the prefixes of two directories that differ by one entry compare.**  They are the same, or
the larger directory branches off the entry from all the others. -/
theorem groups_without (hx : x ∈ S) (hne : without x S ≠ [])
    (hp : IsLongestCommonPrefix p (S.map Entry.name)) :
    IsLongestCommonPrefix p ((without x S).map Entry.name) ∨
      ∃ a, group p a S = without x S ∧ ∀ l, l ≠ a → group p l S ⊆ [x] := by
  have hlcp := isLongestCommonPrefix_names hne
  have hsub : ∀ e ∈ without x S, e ∈ S := fun e he ↦ (mem_without.mp he).1
  have hpq : p <+: lcp ((without x S).map Entry.name) := by
    refine (hlcp p).mpr fun n hn ↦ ?_
    obtain ⟨e, he, rfl⟩ := List.mem_map.mp hn
    exact hp.isPrefix (List.mem_map_of_mem (hsub e he))
  by_cases heq : lcp ((without x S).map Entry.name) = p
  · exact .inl (heq ▸ hlcp)
  · -- the others go on with one byte, and the entry does not
    obtain ⟨a, ha⟩ := exists_concat_isPrefix hpq heq
    have hothers : ∀ e ∈ without x S, p ++ [a] <+: e.name := fun e he ↦
      ha.trans (hlcp.isPrefix (List.mem_map_of_mem he))
    have hx' : ¬ p ++ [a] <+: x.name := by
      obtain ⟨n, hn, hnot⟩ := hp.exists_not_isPrefix a
      obtain ⟨e, he, rfl⟩ := List.mem_map.mp hn
      by_cases hex : e = x
      · exact hex ▸ hnot
      · exact absurd (hothers e (mem_without.mpr ⟨he, hex⟩)) hnot
    refine .inr ⟨a, List.filter_congr fun e he ↦ ?_, fun l hl e he ↦ ?_⟩
    · rw [decide_eq_decide]
      constructor
      · rintro hnext rfl
        exact hx' (concat_isPrefix_iff.mpr ⟨hp.isPrefix (List.mem_map_of_mem he), hnext⟩)
      · exact fun hex ↦ (concat_isPrefix_iff.mp (hothers e (mem_without.mpr ⟨he, hex⟩))).2
    · obtain ⟨he, hnext⟩ := group_subset he
      by_contra hex
      rw [List.mem_singleton] at hex
      have hnext' := (concat_isPrefix_iff.mp (hothers e (mem_without.mpr ⟨he, hex⟩))).2
      exact hl (Option.some.inj (hnext.symm.trans hnext'))

/-- A directory of one entry has one page. -/
theorem TreePage.of_subset_singleton {b : Bytes} (h : TreePage G b) (hG : G ⊆ [x])
    (hbuildable : Buildable G) (hne : G ≠ []) : build [x] = .ok b := by
  have hone : G.length ≤ 1 := (hbuildable.nodup.subperm hG).length_le
  obtain ⟨y, rfl⟩ : ∃ y, G = [y] := by
    refine List.length_eq_one_iff.mp (le_antisymm hone ?_)
    exact List.length_pos_iff.mpr hne
  obtain rfl : y = x := by simpa using hG
  cases h with
  | root hb => exact hb
  | step hH h =>
    have hlt := hH.length_lt_length
    have hpos := List.length_pos_iff.mpr hH.ne_nil
    rw [List.length_singleton] at hlt
    omega

/-- The groups of a branch with the same prefix are those of the larger directory, without the
entry. -/
theorem step_without (hS : Buildable S) (hlen : S.length < 2 ^ 63) (hfits : ¬ Fits (without x S))
    (hp : IsLongestCommonPrefix p ((without x S).map Entry.name)) :
    Step (without x S) l G ↔ G = without x (group p l S) ∧ G ≠ [] := by
  rw [step_iff_group hS.without ((List.length_filter_le _ _).trans_lt hlen) hfits hp, group_without]

omit [Sha256] in
/-- An entry is in one group. -/
theorem eq_of_mem_group {l' : UInt8} (h : x ∈ group p l S) (h' : x ∈ group p l' S) : l = l' :=
  Option.some.inj ((group_subset h).2.symm.trans (group_subset h').2)

/-- The pages of `S` are pages of `S'`, but for some of these. -/
def SharesBut (fresh : List Bytes) (S S' : List Entry) : Prop :=
  ∀ b, TreePage S b → TreePage S' b ∨ b ∈ fresh

/-- The page of a directory and the pages of its groups. -/
theorem sharesBut_cons {S' : List Entry} {page : Bytes} {fresh : List Bytes}
    (hpage : build S = .ok page)
    (h : ∀ l G, Step S l G → ∀ b, TreePage G b → TreePage S' b ∨ b ∈ fresh) :
    SharesBut (page :: fresh) S S' := by
  intro b hb
  cases hb with
  | root hb =>
    obtain rfl := Except.ok.inj (hpage.symm.trans hb)
    exact .inr List.mem_cons_self
  | @step _ G l _ hG hb => exact (h l G hG b hb).imp_right (List.mem_cons_of_mem _)

omit [Sha256] in
/-- The common prefix is part of the name. -/
theorem length_lcp_le (hS : Buildable S) (hx : x ∈ S) : (lcp (S.map Entry.name)).length ≤ 255 := by
  have hp := isLongestCommonPrefix_names (List.ne_nil_of_mem hx)
  exact (hp.isPrefix (List.mem_map_of_mem hx)).length_le.trans (hS.length_name_le hx)

/-- **Inserting an entry makes few pages.** -/
theorem exists_inserted (hS : Buildable S) (hlen : S.length < 2 ^ 63) (hx : x ∈ S) :
    ∃ fresh : List Bytes, fresh.length + (lcp (S.map Entry.name)).length ≤ 512 ∧
      SharesBut fresh S (without x S) := by
  induction hn : S.length using Nat.strong_induction_on generalizing S with
  | _ n ih =>
    subst hn
    have hne : S ≠ [] := List.ne_nil_of_mem hx
    have hname := length_lcp_le hS hx
    by_cases hfits : Fits (without x S)
    · -- the pages of 129 entries at most
      obtain ⟨pages, hpages, hlt⟩ := exists_pages_lt hS hlen hne
      have hle := length_le_without (x := x) hS
      have hmax : (without x S).length ≤ 128 := hfits.1
      exact ⟨pages, by omega, fun b hb ↦ .inr (hpages b hb)⟩
    have hp := isLongestCommonPrefix_names hne
    have hne' : without x S ≠ [] := fun h ↦ hfits (h ▸ ⟨Nat.zero_le _, by simp⟩)
    have hstep : ∀ {l G}, Step S l G ↔ G = group (lcp (S.map Entry.name)) l S ∧ G ≠ [] :=
      fun {_ _} ↦ step_iff_group hS hlen (mt Fits.without hfits) hp
    obtain ⟨page, hpage⟩ := (build_eq_ok_iff hlen).mpr hS
    obtain ⟨one, hone⟩ : ∃ b, build [x] = .ok b := (build_eq_ok_iff (by simp)).mpr
      ⟨by simpa using hS.validate x hx, List.pairwise_singleton _ _⟩
    -- if the entry is alone in its group, or in none
    have hfew : (∀ l G, Step S l G → G ⊆ [x] ∨ ∀ b, TreePage G b → TreePage (without x S) b) →
        ∃ fresh : List Bytes, fresh.length + (lcp (S.map Entry.name)).length ≤ 512 ∧
          SharesBut fresh S (without x S) := by
      refine fun h ↦ ⟨[page, one], by simp only [List.length_cons, List.length_nil]; omega,
        sharesBut_cons hpage fun l G hG b hb ↦ ?_⟩
      rcases h l G hG with hsub | hsame
      · obtain rfl := Except.ok.inj
          (hone.symm.trans (hb.of_subset_singleton hsub (hG.buildable hS) hG.ne_nil))
        exact .inr List.mem_cons_self
      · exact .inl (hsame b hb)
    rcases groups_without hx hne' hp with hp' | ⟨a, ha, hothers⟩
    · have hsame : ∀ l G, Step S l G → x ∉ G → ∀ b, TreePage G b → TreePage (without x S) b := by
        intro l G hG hxG b hb
        obtain ⟨rfl, hne⟩ := hstep.mp hG
        exact .step ((step_without hS hlen hfits hp').mpr
          ⟨(without_of_notMem hxG).symm, hne⟩) hb
      by_cases hway : ∃ l, x ∈ group (lcp (S.map Entry.name)) l S ∧
          without x (group (lcp (S.map Entry.name)) l S) ≠ []
      · obtain ⟨l, hxG, hrest⟩ := hway
        have hG : Step S l (group (lcp (S.map Entry.name)) l S) :=
          hstep.mpr ⟨rfl, List.ne_nil_of_mem hxG⟩
        obtain ⟨fresh, hfresh, hpages⟩ :=
          ih _ hG.length_lt_length (hG.buildable hS) (hG.length_lt hlen) hxG rfl
        have hlonger := (hG.concat_isPrefix (List.Subset.refl _) hG.ne_nil).length_le
        rw [List.length_append, List.length_singleton] at hlonger
        refine ⟨page :: fresh, by rw [List.length_cons]; omega,
          sharesBut_cons hpage fun l' G hG' b hb ↦ ?_⟩
        by_cases hxG' : x ∈ G
        · obtain ⟨rfl, -⟩ := hstep.mp hG'
          obtain rfl := eq_of_mem_group hxG hxG'
          exact (hpages b hb).imp_left
            (.step ((step_without hS hlen hfits hp').mpr ⟨rfl, hrest⟩))
        · exact .inl (hsame l' G hG' hxG' b hb)
      · refine hfew fun l G hG ↦ ?_
        by_cases hxG : x ∈ G
        · obtain ⟨rfl, -⟩ := hstep.mp hG
          have hnone := not_not.mp (not_and.mp (not_exists.mp hway l) hxG)
          refine .inl fun e he ↦ ?_
          by_contra hex
          refine List.not_mem_nil (hnone ▸ mem_without.mpr ⟨he, ?_⟩)
          rwa [List.mem_singleton] at hex
        · exact .inr (hsame l G hG hxG)
    · refine hfew fun l G hG ↦ ?_
      obtain ⟨rfl, -⟩ := hstep.mp hG
      by_cases hl : l = a
      · exact .inr fun b hb ↦ by rwa [hl, ha] at hb
      · exact .inl (hothers l hl)

/-- **Removing an entry makes fewer.** -/
theorem exists_removed (hS : Buildable S) (hlen : S.length < 2 ^ 63) (hx : x ∈ S) :
    ∃ fresh : List Bytes, fresh.length + (lcp (S.map Entry.name)).length ≤ 256 ∧
      SharesBut fresh (without x S) S := by
  induction hn : S.length using Nat.strong_induction_on generalizing S with
  | _ n ih =>
    subst hn
    have hne : S ≠ [] := List.ne_nil_of_mem hx
    have hname := length_lcp_le hS hx
    have hlen' : (without x S).length < 2 ^ 63 := (List.length_filter_le _ _).trans_lt hlen
    obtain ⟨page, hpage⟩ := (build_eq_ok_iff hlen').mpr hS.without
    by_cases hfits : Fits (without x S)
    · refine ⟨[page], by rw [List.length_singleton]; omega, ?_⟩
      exact sharesBut_cons hpage fun l G hG ↦ absurd hG hfits.not_step
    have hp := isLongestCommonPrefix_names hne
    have hne' : without x S ≠ [] := fun h ↦ hfits (h ▸ ⟨Nat.zero_le _, by simp⟩)
    have hstep : ∀ {l G}, Step S l G ↔ G = group (lcp (S.map Entry.name)) l S ∧ G ≠ [] :=
      fun {_ _} ↦ step_iff_group hS hlen (mt Fits.without hfits) hp
    rcases groups_without hx hne' hp with hp' | ⟨a, ha, -⟩
    · have hstep' : ∀ {l G}, Step (without x S) l G ↔
          G = without x (group (lcp (S.map Entry.name)) l S) ∧ G ≠ [] :=
        fun {_ _} ↦ step_without hS hlen hfits hp'
      have hsame : ∀ l G, Step (without x S) l G → x ∉ group (lcp (S.map Entry.name)) l S →
          ∀ b, TreePage G b → TreePage S b := by
        intro l G hG hxG b hb
        obtain ⟨rfl, hne⟩ := hstep'.mp hG
        rw [without_of_notMem hxG] at hb hne
        exact .step (hstep.mpr ⟨rfl, hne⟩) hb
      by_cases hway : ∃ l, x ∈ group (lcp (S.map Entry.name)) l S
      · obtain ⟨l, hxG⟩ := hway
        have hG : Step S l (group (lcp (S.map Entry.name)) l S) :=
          hstep.mpr ⟨rfl, List.ne_nil_of_mem hxG⟩
        obtain ⟨fresh, hfresh, hpages⟩ :=
          ih _ hG.length_lt_length (hG.buildable hS) (hG.length_lt hlen) hxG rfl
        have hlonger := (hG.concat_isPrefix (List.Subset.refl _) hG.ne_nil).length_le
        rw [List.length_append, List.length_singleton] at hlonger
        refine ⟨page :: fresh, by rw [List.length_cons]; omega,
          sharesBut_cons hpage fun l' G hG' b hb ↦ ?_⟩
        by_cases hxG' : x ∈ group (lcp (S.map Entry.name)) l' S
        · obtain ⟨rfl, -⟩ := hstep'.mp hG'
          obtain rfl := eq_of_mem_group hxG hxG'
          exact (hpages b hb).imp_left (.step hG)
        · exact .inl (hsame l' G hG' hxG' b hb)
      · refine ⟨[page], by rw [List.length_singleton]; omega, ?_⟩
        exact sharesBut_cons hpage fun l G hG b hb ↦
          .inl (hsame l G hG (not_exists.mp hway l) b hb)
    · -- the smaller directory is a group of the larger one
      refine ⟨[], by rw [List.length_nil]; omega, fun b hb ↦ .inl ?_⟩
      exact .step (hstep.mpr ⟨ha.symm, hne'⟩) hb

/-- A page that the server sends for some route. -/
def Serves (S : List Entry) (b : Bytes) : Prop := ∃ r ps, pagesAlongRoute S r = .ok ps ∧ b ∈ ps

/-- The server sends the pages of the tree. -/
theorem serves_iff {b : Bytes} (hS : Buildable S) (hlen : S.length < 2 ^ 63) :
    Serves S b ↔ TreePage S b := by
  constructor
  · rintro ⟨r, ps, hps, hb⟩
    obtain ⟨page, ps', hpage, hloop, rfl⟩ := (pagesAlongRoute_eq_ok hS hlen).mp hps
    exact treePage_of_routeLoop hS hlen hpage hloop b hb
  · intro h
    induction h with
    | root hb =>
      exact ⟨[], _, (pagesAlongRoute_eq_ok hS hlen).mpr ⟨_, [], hb, rfl, rfl⟩, List.mem_cons_self⟩
    | @step S G l b hG h ih =>
      obtain ⟨r, ps, hps, hb⟩ := ih (hG.buildable hS) (hG.length_lt hlen)
      obtain ⟨below, ps', hbelow, hloop, rfl⟩ :=
        (pagesAlongRoute_eq_ok (hG.buildable hS) (hG.length_lt hlen)).mp hps
      obtain ⟨page, hpage⟩ := (build_eq_ok_iff hlen).mpr hS
      have hstep := (routeLoop_cons hS hlen hpage).mpr ⟨G, below, ps', hG, hbelow, hloop, rfl⟩
      exact ⟨l :: r, _, (pagesAlongRoute_eq_ok hS hlen).mpr ⟨page, _, hpage, hstep, rfl⟩,
        List.mem_cons_of_mem _ hb⟩

/-- **Two directories that differ by one entry share their pages**, but for 512 pages of the larger
one and 256 of the smaller one at most, however many entries they have. -/
theorem insert_remove_share (S : Slice Entry) (x : Entry)
    (hvalid : ∀ e ∈ S.toList, e.validate = .ok ())
    (hasc : S.toList.Pairwise fun a b ↦ a.name < b.name) (hx : x ∈ S.toList) :
    (∃ fresh : List Bytes, fresh.length ≤ 512 ∧
      ∀ b, Serves S.toList b → Serves (without x S.toList) b ∨ b ∈ fresh) ∧
    ∃ fresh : List Bytes, fresh.length ≤ 256 ∧
      ∀ b, Serves (without x S.toList) b → Serves S.toList b ∨ b ∈ fresh := by
  have hS : Buildable S.toList := ⟨hvalid, hasc⟩
  have hlen := S.length_lt
  have hserves : ∀ b, Serves S.toList b ↔ TreePage S.toList b := fun _ ↦ serves_iff hS hlen
  have hserves' : ∀ b, Serves (without x S.toList) b ↔ TreePage (without x S.toList) b :=
    fun _ ↦ serves_iff hS.without ((List.length_filter_le _ _).trans_lt hlen)
  simp only [hserves, hserves']
  obtain ⟨inserted, hinserted, hpages⟩ := exists_inserted hS hlen hx
  obtain ⟨removed, hremoved, hpages'⟩ := exists_removed hS hlen hx
  exact ⟨⟨inserted, by omega, hpages⟩, removed, by omega, hpages'⟩

omit [Sha256] in
/-- The directory of `crowd` and its files. -/
theorem insert_remove_share_crowd :
    letI := crowdSha256
    crowdDir ∈ crowd ∧ without crowdDir crowd = crowdFiles ∧
      ∃ fresh : List Bytes, fresh.length ≤ 512 ∧
        ∀ b, Serves crowd b → Serves crowdFiles b ∨ b ∈ fresh := by
  let _ := crowdSha256
  have hmem : crowdDir ∈ crowd := by
    rw [crowd, List.mem_append, List.mem_singleton]
    exact .inr rfl
  have hwithout : without crowdDir crowd = crowdFiles := by
    have hfiles : crowdDir ∉ crowdFiles := fun h ↦ by
      obtain ⟨i, -, hi⟩ := List.mem_map.mp h
      cases congrArg Entry.kind hi
    rw [crowd, without, List.filter_append, ← without, without_of_notMem hfiles]
    exact List.append_nil _
  have h := (insert_remove_share ⟨crowd, length_crowd_lt⟩ crowdDir buildable_crowd.validate
    buildable_crowd.ascending hmem).1
  exact ⟨hmem, hwithout, hwithout ▸ h⟩

end share

end Page

end Mst2
