import Mst2Codec.MetaPage.Route

/-!
# The identity of pages and directories

Two consequences of the codec.  A page has one accepted byte string (`decode_encode_canonical`), so
its identity is that of the page and not of one of its encodings.  And the identity of a root page
is that of the directory (`eq_of_pageId_build_eq`): a branch names its groups by their pages, and
step by step the pages name the groups.
-/

set_option autoImplicit false

namespace Mst2

open Bytes Except Lex

namespace Page

/-! ## One byte string for a page -/

/-- `total_entries`, in wrapping arithmetic. -/
def totalEntries : Page → UInt64
  | .leaf entries => UInt64.ofNat entries.length
  | .branch _ terminal children =>
    terminalCount terminal + (children.map BranchChild.subtreeEntries).foldl (· + ·) 0

/-- The entries that stand in the page itself. -/
def entries : Page → List Entry
  | .leaf entries => entries
  | .branch _ terminal _ => terminal.toList

theorem toNat_foldl_add {l : List UInt64} {a : UInt64}
    (h : a.toNat + (l.map UInt64.toNat).sum < 2 ^ 64) :
    (l.foldl (· + ·) a).toNat = a.toNat + (l.map UInt64.toNat).sum := by
  induction l generalizing a with
  | nil => simp
  | cons b l ih =>
    rw [List.map_cons, List.sum_cons] at h ⊢
    have hab : (a + b).toNat = a.toNat + b.toNat := by
      rw [UInt64.toNat_add, Nat.mod_eq_of_lt (by omega)]
    rw [List.foldl_cons, ih (by omega), hab, Nat.add_assoc]

/-- The sum in `total_entries` does not overflow for a valid page. -/
theorem toNat_totalEntries {p : Page} (h : p.Valid) : p.totalEntries.toNat = p.total := by
  have hmax := total_le h
  rw [maxTotalEntries] at hmax
  cases p with
  | leaf entries => exact toNat_ofNat_u64 (show entries.length < _ by rw [total] at hmax; omega)
  | branch pre terminal children =>
    rw [total] at hmax ⊢
    have hmap : (children.map BranchChild.subtreeEntries).map UInt64.toNat =
        children.map fun c ↦ c.subtreeEntries.toNat := by rw [List.map_map]; rfl
    have hsum : ((children.map BranchChild.subtreeEntries).foldl (· + ·) 0).toNat =
        (children.map fun c ↦ c.subtreeEntries.toNat).sum := by
      rw [toNat_foldl_add, hmap]
      · exact Nat.zero_add _
      · rw [hmap, UInt64.toNat_zero]
        omega
    rw [totalEntries, UInt64.toNat_add, hsum, toNat_terminalCount, Nat.mod_eq_of_lt (by omega),
      Nat.add_comm]

theorem shaped_of_made {p : Page} (h : ∀ e ∈ p.entries, e.Made) : p.Shaped := by
  cases p with
  | leaf entries => exact fun e he ↦ (h e he).shaped
  | branch pre terminal children =>
    intro t ht
    exact (h t (by rw [entries, ht]; exact List.mem_singleton_self t)).shaped

/-- **The page codec is canonical in both directions**: what `decode` accepts is what `encode`
writes, the declared total is the total, and it does not overflow; a page of well-formed entries is
read back; so a page has one accepted byte string. -/
theorem decode_encode_canonical :
    (∀ (b : Bytes) (p : Page) (t : UInt64), decode b = .ok (p, t) →
      encode p = .ok b ∧ p.totalEntries = t ∧ p.total < 2 ^ 64) ∧
    (∀ (p : Page) (b : Bytes), (∀ e ∈ p.entries, e.Made) → encode p = .ok b →
      decode b = .ok (p, p.totalEntries)) ∧
    (∀ (b b' : Bytes) (p : Page) (t t' : UInt64), decode b = .ok (p, t) →
      decode b' = .ok (p, t') → b = b') := by
  refine ⟨fun b p t h ↦ ?_, fun p b hmade h ↦ ?_, fun b b' p t t' h h' ↦ ?_⟩
  · obtain ⟨hvalid, hshaped, rfl, hlen, ht⟩ := decode_eq_ok.mp h
    have htotal := toNat_totalEntries hvalid
    refine ⟨encode_eq_ok.mpr ⟨hvalid, rfl, hlen⟩, UInt64.toNat_inj.mp (htotal.trans ht.symm), ?_⟩
    rw [← htotal]
    exact p.totalEntries.toNat_lt
  · obtain ⟨hvalid, rfl, hlen⟩ := encode_eq_ok.mp h
    exact decode_eq_ok.mpr ⟨hvalid, shaped_of_made hmade, rfl, hlen, toNat_totalEntries hvalid⟩
  · rw [(decode_eq_ok.mp h).2.2.1, (decode_eq_ok.mp h').2.2.1]

/-! ## One directory for an identity -/

section directory

variable [Sha256]

/-- The pages of the tree of a directory. -/
inductive TreePage : List Entry → Bytes → Prop where
  /-- Its own page. -/
  | root {S : List Entry} {b : Bytes} (h : build S = .ok b) : TreePage S b
  /-- A page of the tree of one of its groups. -/
  | step {S G : List Entry} {l : UInt8} {b : Bytes} (hG : Step S l G) (h : TreePage G b) :
      TreePage S b

variable {S S' G : List Entry} {l : UInt8}

/-- The pages of a route are pages of the tree. -/
theorem treePage_of_routeLoop {r : List UInt8} {page : Bytes} {ps : List Bytes} (hS : Buildable S)
    (hlen : S.length < 2 ^ 63) (hpage : build S = .ok page) (hloop : routeLoop S page r = .ok ps) :
    ∀ b ∈ page :: ps, TreePage S b := by
  induction r generalizing S page ps with
  | nil =>
    obtain rfl := Except.ok.inj hloop
    exact List.forall_mem_singleton.mpr (.root hpage)
  | cons l r ih =>
    obtain ⟨G, b, ps', hG, hb, hrest, rfl⟩ := (routeLoop_cons hS hlen hpage).mp hloop
    exact List.forall_mem_cons.mpr ⟨.root hpage, fun b hb' ↦
      .step hG (ih (hG.buildable hS) (hG.length_lt hlen) hb hrest b hb')⟩

/-- A directory that has a tree of pages, from which it can be read back. -/
structure IsDirectory (S : List Entry) : Prop where
  /-- `build` accepts the entries. -/
  buildable : Buildable S
  /-- They fit in a slice. -/
  length_lt : S.length < 2 ^ 63
  /-- None has a field that its kind does not have. -/
  shaped : ∀ e ∈ S, e.Shaped

omit [Sha256] in
/-- What `build` accepts in a slice of entries that the constructors made. -/
theorem IsDirectory.of_made (S : Slice Entry) (hmade : ∀ e ∈ S.toList, e.Made)
    (hS : Buildable S.toList) : IsDirectory S.toList :=
  ⟨hS, S.length_lt, fun e he ↦ (hmade e he).shaped⟩

/-- Groups are directories. -/
theorem Step.isDirectory (h : Step S l G) (hS : IsDirectory S) : IsDirectory G :=
  ⟨h.buildable hS.buildable, h.length_lt hS.length_lt, fun e he ↦ hS.shaped e (h.subset he)⟩

/-- The page of a directory that fits in a leaf is its only one. -/
theorem TreePage.of_fits {b : Bytes} (h : TreePage S b) (hfits : Fits S) : build S = .ok b := by
  cases h with
  | root hb => exact hb
  | step hG h =>
    obtain ⟨p, terminal, children, hpage, -⟩ := hG
    cases hpage with
    | branch hnot hp => exact absurd hfits hnot

/-- Two directories with the same page are the same, if that holds of their groups. -/
theorem Canonical.eq_of_groups {P : Page} (h : Canonical S P) (h' : Canonical S' P)
    (hgroups : ∀ l G G', Step S l G → Step S' l G' → G = G') : S = S' := by
  cases h with
  | leaf hfits =>
    cases h' with
    | leaf hfits' => rfl
  | @branch p terminal children hfits hp =>
    cases h' with
    | branch hfits' hp' =>
      rw [← hp.append_groups, ← hp'.append_groups]
      congr 1
      refine List.flatMap_congr fun c hc ↦ ?_
      have hl := List.mem_map_of_mem (f := BranchChild.label) hc
      exact hgroups c.label _ _ ⟨p, terminal, children, .branch hfits hp, hl, rfl⟩
        ⟨p, terminal, children, .branch hfits' hp', hl, rfl⟩

/-- The groups of a label have the page that the row of the label names. -/
theorem Canonical.exists_build {P : Page} (h : Canonical S P) (h' : Canonical S' P)
    {G' : List Entry} (hG : Step S l G) (hG' : Step S' l G') :
    ∃ b b', build G = .ok b ∧ build G' = .ok b' ∧ pageId b = pageId b' := by
  obtain ⟨p, terminal, children, hP, hl, rfl⟩ := hG
  obtain ⟨p', terminal', children', hP', hl', rfl⟩ := hG'
  cases h with
  | leaf hfits =>
    cases hP with
    | branch hfits' _ => exact absurd hfits hfits'
  | branch hfits hp =>
    cases h' with
    | branch hfits' hp' =>
      obtain rfl := hp.isLongestCommonPrefix.unique hP.partitioned.isLongestCommonPrefix
      obtain rfl := hp'.isLongestCommonPrefix.unique hP'.partitioned.isLongestCommonPrefix
      obtain ⟨c, hc, rfl⟩ := List.mem_map.mp
        (((hp.mem_labels l).trans (hP.partitioned.mem_labels l).symm).mpr hl)
      obtain ⟨-, b, hb, hid⟩ := hp.child c hc
      obtain ⟨-, b', hb', hid'⟩ := hp'.child c hc
      exact ⟨b, b', hb, hb', hid.symm.trans hid'⟩

theorem eq_of_pageId_eq (hS : IsDirectory S) (hS' : IsDirectory S')
    (hfree : CollisionFree {x | ∃ b, (TreePage S b ∨ TreePage S' b) ∧ x = pageInput b})
    {b b' : Bytes} (hb : build S = .ok b) (hb' : build S' = .ok b')
    (hid : pageId b = pageId b') : S = S' := by
  -- the groups are smaller
  induction hn : S.length using Nat.strong_induction_on generalizing S S' b b' with
  | _ n ih =>
    subst hn
    have hbytes : b = b' := List.append_cancel_left
      (hfree ⟨b, .inl (.root hb), rfl⟩ ⟨b', .inr (.root hb'), rfl⟩ hid)
    obtain ⟨-, P, hP, rfl⟩ := canonical_of_build hS.length_lt hb
    obtain ⟨-, P', hP', rfl⟩ := canonical_of_build hS'.length_lt hb'
    -- the two pages are read from the same bytes
    have hread := decode_canonical hP hS.buildable hS.length_lt
    have hread' := decode_canonical hP' hS'.buildable hS'.length_lt
    rw [hbytes, hread', Except.ok.injEq, Prod.mk.injEq, wire_of_shaped (hP.shaped hS.shaped),
      wire_of_shaped (hP'.shaped hS'.shaped)] at hread
    obtain ⟨rfl, -⟩ := hread
    refine hP.eq_of_groups hP' fun l G G' hG hG' ↦ ?_
    obtain ⟨b, b', hb, hb', hid⟩ := hP.exists_build hP' hG hG'
    refine ih _ hG.length_lt_length (hG.isDirectory hS) (hG'.isDirectory hS') (hfree.mono ?_)
      hb hb' hid rfl
    rintro x ⟨b, h | h, rfl⟩
    · exact ⟨b, .inl (.step hG h), rfl⟩
    · exact ⟨b, .inr (.step hG' h), rfl⟩

/-- **The identity of the root page pins the directory.** -/
theorem eq_of_pageId_build_eq (S S' : Slice Entry) (hmade : ∀ e ∈ S.toList, e.Made)
    (hmade' : ∀ e ∈ S'.toList, e.Made) (hvalid : ∀ e ∈ S.toList, e.validate = .ok ())
    (hvalid' : ∀ e ∈ S'.toList, e.validate = .ok ())
    (hasc : S.toList.Pairwise fun a b ↦ a.name < b.name)
    (hasc' : S'.toList.Pairwise fun a b ↦ a.name < b.name)
    (hfree : CollisionFree
      {x | ∃ b, (TreePage S.toList b ∨ TreePage S'.toList b) ∧ x = pageInput b})
    (hid : (build S.toList).map pageId = (build S'.toList).map pageId) :
    S.toList = S'.toList := by
  have hS : Buildable S.toList := ⟨hvalid, hasc⟩
  have hS' : Buildable S'.toList := ⟨hvalid', hasc'⟩
  obtain ⟨b, hb⟩ := (build_eq_ok_iff S.length_lt).mpr hS
  obtain ⟨b', hb'⟩ := (build_eq_ok_iff S'.length_lt).mpr hS'
  rw [hb, hb', Except.map, Except.map, Except.ok.injEq] at hid
  exact eq_of_pageId_eq (.of_made S hmade hS) (.of_made S' hmade' hS') hfree hb hb' hid

omit [Sha256] in
/-- The files of `crowd` and its directory have different root pages. -/
theorem eq_of_pageId_build_eq_crowd :
    letI := crowdSha256
    (build [crowdDir]).map pageId ≠ (build crowdFiles).map pageId := by
  let _ := crowdSha256
  have hfiles : Buildable crowdFiles :=
    ⟨fun e he ↦ buildable_crowd.validate e (List.mem_append_left _ he),
      (List.pairwise_append.mp buildable_crowd.ascending).1⟩
  have hdir : Buildable [crowdDir] :=
    ⟨fun e he ↦ buildable_crowd.validate e (List.mem_append_right _ he),
      List.pairwise_singleton _ _⟩
  have hpage : ∀ b, TreePage [crowdDir] b ∨ TreePage crowdFiles b →
      b = (leaf [crowdDir]).bytes ∨ b = (leaf crowdFiles).bytes := by
    rintro b (h | h)
    · exact .inl (Except.ok.inj ((h.of_fits (by decide)).symm.trans
        (build_of_fits hdir (by decide))))
    · exact .inr (Except.ok.inj ((h.of_fits (by decide +kernel)).symm.trans
        (build_of_fits hfiles (by decide +kernel))))
  have hne : pageId (leaf [crowdDir]).bytes ≠ pageId (leaf crowdFiles).bytes := by decide +kernel
  intro hid
  have h := eq_of_pageId_build_eq ⟨[crowdDir], by decide⟩ ⟨crowdFiles, by decide +kernel⟩
    (fun e he ↦ made_crowd (List.mem_append_right _ he))
    (fun e he ↦ made_crowd (List.mem_append_left _ he)) hdir.validate hfiles.validate
    hdir.ascending hfiles.ascending (by
      rintro x ⟨b, hb, rfl⟩ y ⟨b', hb', rfl⟩ heq
      rcases hpage b hb with rfl | rfl <;> rcases hpage b' hb' with rfl | rfl
      · rfl
      · exact absurd heq hne
      · exact absurd heq.symm hne
      · rfl) hid
  exact absurd (congrArg List.length h) (by decide +kernel)

end directory

end Page

end Mst2
