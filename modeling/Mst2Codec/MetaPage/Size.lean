import Mst2Codec.Library.Forks
import Mst2Codec.MetaPage.Change

/-!
# The size of a tree of pages

The names of a directory fork at the longest common prefix of each group of entries that has a page
(`Reaches.fork`), and two groups never share it (`Reaches.eq_of_lcp_eq`).  A directory of `n`
entries therefore has at most `2 * n - 1` pages, however the names are chosen, on routes of at most
255 steps, each of which leaves an entry behind (`routes_bounded`).
-/

set_option autoImplicit false

namespace Mst2

open Bytes Except Lex

namespace Page

section size

variable [Sha256]

variable {S G H : List Entry} {l : UInt8} {r : List UInt8} {page : Bytes} {ps : List Bytes}

/-- Each step leaves an entry behind. -/
theorem Reaches.add_length_le (h : Reaches S r G) : r.length + G.length ≤ S.length := by
  induction h with
  | nil S => simp
  | cons hG h ih =>
    have hlt := hG.length_lt_length
    rw [List.length_cons]
    omega

theorem Reaches.ne_nil (h : Reaches S r G) (hS : S ≠ []) : G ≠ [] := by
  induction h with
  | nil S => exact hS
  | cons hG h ih => exact ih hG.ne_nil

omit [Sha256] in
/-- The names of a directory have a longest common prefix. -/
theorem isLongestCommonPrefix_names (hS : S ≠ []) :
    IsLongestCommonPrefix (lcp (S.map Entry.name)) (S.map Entry.name) :=
  isLongestCommonPrefix_lcp (by simpa using hS)

/-- The group below a step has a longer common prefix. -/
theorem Step.concat_isPrefix (hG : Step S l G) (hH : H ⊆ G) (hne : H ≠ []) :
    lcp (S.map Entry.name) ++ [l] <+: lcp (H.map Entry.name) := by
  obtain ⟨p, terminal, children, hP, hl, rfl⟩ := hG
  have hp := hP.partitioned
  have hS : S ≠ [] := fun h ↦ by
    obtain ⟨e, he⟩ := List.exists_mem_of_ne_nil H hne
    have he := (group_subset (hH he)).1
    rw [h] at he
    cases he
  have hlcp := isLongestCommonPrefix_names hS
  rw [hlcp.unique hp.isLongestCommonPrefix]
  refine (isLongestCommonPrefix_names hne _).mpr fun n hn ↦ ?_
  obtain ⟨e, he, rfl⟩ := List.mem_map.mp hn
  exact concat_isPrefix_of_mem_group hp (hH he)

/-- So each step makes it longer. -/
theorem Reaches.length_le_length_lcp (h : Reaches S r G) (hS : S ≠ []) :
    (lcp (S.map Entry.name)).length + r.length ≤ (lcp (G.map Entry.name)).length := by
  induction h with
  | nil S => simp
  | cons hG h ih =>
    have hstep := (hG.concat_isPrefix (List.Subset.refl _) hG.ne_nil).length_le
    have hrest := ih hG.ne_nil
    rw [List.length_append, List.length_singleton] at hstep
    rw [List.length_cons]
    omega

/-- **A group is known by its common prefix.** -/
theorem Reaches.eq_of_lcp_eq {r' : List UInt8} (h : Reaches S r G) (h' : Reaches S r' H)
    (hS : S ≠ []) (heq : lcp (G.map Entry.name) = lcp (H.map Entry.name)) : r = r' := by
  induction h generalizing r' with
  | nil S =>
    cases h' with
    | nil => rfl
    | cons hG h =>
      have hle := (hG.concat_isPrefix h.subset (h.ne_nil hG.ne_nil)).length_le
      rw [← heq, List.length_append, List.length_singleton] at hle
      omega
  | @cons S G₁ G l r hG h ih =>
    have hpre := hG.concat_isPrefix h.subset (h.ne_nil hG.ne_nil)
    cases h' with
    | nil =>
      have hle := hpre.length_le
      rw [heq, List.length_append, List.length_singleton] at hle
      omega
    | @cons _ H₁ _ m r' hH h' =>
      have hpre' := hH.concat_isPrefix h'.subset (h'.ne_nil hH.ne_nil)
      -- the labels follow the same prefix of the same word
      obtain rfl : l = m := eq_of_concat_isPrefix (heq ▸ hpre) hpre'
      obtain rfl := hG.unique hH
      rw [ih h' hG.ne_nil heq]

/-- The names of a directory, as a set. -/
def nameSet (S : List Entry) : Finset Bytes := (S.map Entry.name).toFinset

omit [Sha256] in
theorem card_nameSet_le : (nameSet S).card ≤ S.length := by
  rw [nameSet, ← List.length_map Entry.name]
  exact List.toFinset_card_le _

/-- **The names fork where a group has its page.** -/
theorem Reaches.fork (h : Reaches S r G) (hS : S ≠ []) :
    Fork (nameSet S) (lcp (G.map Entry.name)) := by
  have hne := h.ne_nil hS
  refine .of_isLongestCommonPrefix (isLongestCommonPrefix_names hne) (by simpa using hne)
    fun n hn ↦ ?_
  rw [nameSet, List.mem_toFinset]
  exact List.map_subset _ h.subset hn

/-- The accepted routes are those that lead to a group. -/
theorem exists_routeLoop_iff (hS : Buildable S) (hlen : S.length < 2 ^ 63)
    (hpage : build S = .ok page) :
    (∃ ps, routeLoop S page r = .ok ps) ↔ ∃ G, Reaches S r G := by
  induction r generalizing S page with
  | nil => exact ⟨fun _ ↦ ⟨S, .nil S⟩, fun _ ↦ ⟨[], rfl⟩⟩
  | cons l r ih =>
    constructor
    · rintro ⟨ps, hps⟩
      obtain ⟨G, b, ps', hG, hb, hrest, -⟩ := (routeLoop_cons hS hlen hpage).mp hps
      obtain ⟨H, hH⟩ := (ih (hG.buildable hS) (hG.length_lt hlen) hb).mp ⟨ps', hrest⟩
      exact ⟨H, .cons hG hH⟩
    · rintro ⟨H, h⟩
      cases h with
      | @cons _ G _ _ _ hG h =>
        obtain ⟨b, hb⟩ := (build_eq_ok_iff (hG.length_lt hlen)).mpr (hG.buildable hS)
        obtain ⟨ps, hps⟩ := (ih (hG.buildable hS) (hG.length_lt hlen) hb).mpr ⟨H, h⟩
        exact ⟨b :: ps, (routeLoop_cons hS hlen hpage).mpr ⟨G, b, ps, hG, hb, hps, rfl⟩⟩

/-- The pages of the tree are those of the groups. -/
theorem treePage_iff {b : Bytes} : TreePage S b ↔ ∃ r G, Reaches S r G ∧ build G = .ok b := by
  constructor
  · intro h
    induction h with
    | root hb => exact ⟨[], _, .nil _, hb⟩
    | @step S G l b hG h ih =>
      obtain ⟨r, H, hH, hb⟩ := ih
      exact ⟨l :: r, H, .cons hG hH, hb⟩
  · rintro ⟨r, G, hG, hb⟩
    exact hG.treePage (.root hb)

/-- The pages of a directory fit. -/
theorem TreePage.length_le {b : Bytes} (h : TreePage S b) (hlen : S.length < 2 ^ 63) :
    b.length ≤ pageMaxBytes := by
  induction h with
  | root hb =>
    obtain ⟨hS, P, hP, rfl⟩ := canonical_of_build hlen hb
    exact (hP.valid hS hlen).2.2
  | step hG h ih => exact ih (hG.length_lt hlen)

/-- Fewer groups have pages than there are entries, twice. -/
theorem exists_card_routes_lt (hS : Buildable S) (hlen : S.length < 2 ^ 63) (hne : S ≠ []) :
    ∃ routes : List (List UInt8), routes.Nodup ∧ (∀ r, r ∈ routes ↔ ∃ G, Reaches S r G) ∧
      routes.length < 2 * S.length := by
  obtain ⟨page, hpage⟩ := (build_eq_ok_iff hlen).mpr hS
  obtain ⟨routes, hnodup, hmem, -⟩ := exists_routes hS hlen hpage
  simp only [exists_routeLoop_iff hS hlen hpage] at hmem
  refine ⟨routes, hnodup, hmem, ?_⟩
  have hreaches : ∀ r ∈ routes, ∃ G, Reaches S r G := fun r ↦ (hmem r).mp
  choose! group hgroup using hreaches
  have hinj : (routes.map fun r ↦ lcp ((group r).map Entry.name)).Nodup :=
    (List.nodup_map_iff_inj_on hnodup).mpr fun r hr r' hr' heq ↦
      (hgroup r hr).eq_of_lcp_eq (hgroup r' hr') hne heq
  have hnames : (nameSet S).Nonempty := by simpa [nameSet] using hne
  have hlt := card_lt_of_forks hnames _ fun p hp ↦ by
    obtain ⟨r, hr, rfl⟩ := List.mem_map.mp (List.mem_toFinset.mp hp)
    exact (hgroup r hr).fork hne
  rw [List.toFinset_card_of_nodup hinj, List.length_map] at hlt
  have hcard := card_nameSet_le (S := S)
  omega

/-- A list of all pages. -/
theorem exists_pages_lt (hS : Buildable S) (hlen : S.length < 2 ^ 63) (hne : S ≠ []) :
    ∃ pages : List Bytes, (∀ b, TreePage S b → b ∈ pages) ∧ pages.length < 2 * S.length := by
  obtain ⟨routes, -, hmem, hlt⟩ := exists_card_routes_lt hS hlen hne
  have hreaches : ∀ r ∈ routes, ∃ G, Reaches S r G := fun r ↦ (hmem r).mp
  choose! group hgroup using hreaches
  refine ⟨routes.map fun r ↦ (build (group r)).toOption.getD [], fun b hb ↦ ?_,
    by rwa [List.length_map]⟩
  obtain ⟨r, G, hG, hb⟩ := treePage_iff.mp hb
  have hr := (hmem r).mpr ⟨G, hG⟩
  refine List.mem_map.mpr ⟨r, hr, ?_⟩
  rw [(hgroup r hr).unique hG, hb]
  rfl

/-- **A directory of `n` entries has at most `2 * n - 1` pages**, and the empty one has one page.  A
route has no more than 255 steps and no more than `n - 1`, none if the directory is empty, and its
pages fit. -/
theorem routes_bounded (S : Slice Entry) (hvalid : ∀ e ∈ S.toList, e.validate = .ok ())
    (hasc : S.toList.Pairwise fun a b ↦ a.name < b.name) :
    (∃ routes : List (List UInt8), routes.Nodup ∧
      (∀ r, r ∈ routes ↔ ∃ ps, pagesAlongRoute S.toList r = .ok ps) ∧
      routes.length ≤ max 1 (2 * S.toList.length - 1)) ∧
    ∀ r ps, pagesAlongRoute S.toList r = .ok ps → ps.length = r.length + 1 ∧ r.length ≤ 255 ∧
      r.length ≤ S.toList.length - 1 ∧ ∀ b ∈ ps, b.length ≤ pageMaxBytes := by
  have hS : Buildable S.toList := ⟨hvalid, hasc⟩
  have hlen := S.length_lt
  obtain ⟨page, hpage⟩ := (build_eq_ok_iff hlen).mpr hS
  have hroute : ∀ {r}, (∃ ps, routeLoop S.toList page r = .ok ps) ↔
      ∃ ps, pagesAlongRoute S.toList r = .ok ps := by
    intro r
    constructor
    · rintro ⟨ps, hps⟩
      exact ⟨_, (pagesAlongRoute_eq_ok hS hlen).mpr ⟨page, ps, hpage, hps, rfl⟩⟩
    · rintro ⟨ps, hps⟩
      obtain ⟨page', ps', hpage', hps', -⟩ := (pagesAlongRoute_eq_ok hS hlen).mp hps
      exact ⟨ps', Except.ok.inj (hpage'.symm.trans hpage) ▸ hps'⟩
  -- an empty directory has one page, and no steps
  have hempty : S.toList = [] → ∀ r, (∃ ps, routeLoop S.toList page r = .ok ps) → r = [] := by
    rintro hnil r ⟨ps, hps⟩
    obtain ⟨G, hG⟩ := (exists_routeLoop_iff hS hlen hpage).mp ⟨ps, hps⟩
    have hle := hG.add_length_le
    rw [hnil, List.length_nil] at hle
    exact List.length_eq_zero_iff.mp (by omega)
  constructor
  · by_cases hne : S.toList = []
    · refine ⟨[[]], List.nodup_singleton _, fun r ↦ ?_, le_max_left _ _⟩
      rw [← hroute, List.mem_singleton]
      refine ⟨?_, hempty hne r⟩
      rintro rfl
      exact ⟨[], rfl⟩
    · obtain ⟨routes, hnodup, hmem, hlt⟩ := exists_card_routes_lt hS hlen hne
      exact ⟨routes, hnodup, fun r ↦ ((hmem r).trans
        (exists_routeLoop_iff hS hlen hpage).symm).trans hroute, by omega⟩
  · intro r ps hps
    obtain ⟨page', ps', hpage', hps', rfl⟩ := (pagesAlongRoute_eq_ok hS hlen).mp hps
    obtain rfl := Except.ok.inj (hpage.symm.trans hpage')
    have hlength := length_of_routeLoop hS hlen hpage hps'
    have hfits := fun b hb ↦ (treePage_of_routeLoop hS hlen hpage hps' b hb).length_le hlen
    obtain ⟨G, hG⟩ := (exists_routeLoop_iff hS hlen hpage).mp ⟨ps', hps'⟩
    rw [List.length_cons, hlength]
    by_cases hne : S.toList = []
    · obtain rfl := hempty hne r ⟨ps', hps'⟩
      exact ⟨rfl, Nat.zero_le _, Nat.zero_le _, hfits⟩
    · -- an entry of the group has the common prefix in its name
      obtain ⟨e, he⟩ := List.exists_mem_of_ne_nil G (hG.ne_nil hne)
      have hlcp := isLongestCommonPrefix_names (List.ne_nil_of_mem he)
      have hname := (hlcp.isPrefix (List.mem_map_of_mem he)).length_le
      have hle := hG.length_le_length_lcp hne
      have hadd := hG.add_length_le
      have hmax := hS.length_name_le (hG.subset he)
      have hpos := List.length_pos_of_mem he
      exact ⟨rfl, by omega, by omega, hfits⟩

omit [Sha256] in
/-- The routes of `crowd` are short. -/
theorem routes_bounded_crowd :
    letI := crowdSha256
    ∃ routes : List (List UInt8), routes.Nodup ∧
      (∀ r, r ∈ routes ↔ ∃ ps, pagesAlongRoute crowd r = .ok ps) ∧
      ∀ r ∈ routes, r.length ≤ 255 := by
  let _ := crowdSha256
  obtain ⟨⟨routes, hnodup, hmem, -⟩, hbound⟩ := routes_bounded ⟨crowd, length_crowd_lt⟩
    buildable_crowd.validate buildable_crowd.ascending
  refine ⟨routes, hnodup, hmem, fun r hr ↦ ?_⟩
  obtain ⟨ps, hps⟩ := (hmem r).mp hr
  exact (hbound r ps hps).2.1

end size

end Page

end Mst2
