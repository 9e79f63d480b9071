import Mst2Codec.Library.Replace
import Mst2Codec.MetaPage.Cover
import Mst2Codec.MetaPage.Identity

/-!
# A change to one entry

A directory is split by names, and whether a page is a leaf is a matter of number and size.  When
one entry gets another kind, size or digest, a branch page on the way to it therefore keeps its
prefix, its labels and its counts (`Partitioned.map_eq`), and the groups beside the way are the same
lists of entries as before, with the same pages (`Changed.reaches_iff`).

The entry of a directory is shorter than that of a file, so the change may turn a leaf on the way
into a branch or a branch into a leaf.  Nothing is said about what is below such a page.
-/

set_option autoImplicit false

namespace Mst2

open Bytes Except Lex

namespace Page

section change

variable [Sha256]

/-! ## Where a route ends -/

/-- A route leads to a group, step by step. -/
inductive Reaches : List Entry → List UInt8 → List Entry → Prop where
  /-- The empty route stays. -/
  | nil (S : List Entry) : Reaches S [] S
  /-- Any other takes a step. -/
  | cons {S G H : List Entry} {l : UInt8} {r : List UInt8} (hG : Step S l G) (h : Reaches G r H) :
      Reaches S (l :: r) H

variable {S S' G G' H : List Entry} {l : UInt8} {r : List UInt8}

theorem reaches_cons (hG : Step S l G) : Reaches S (l :: r) H ↔ Reaches G r H := by
  refine ⟨fun h ↦ ?_, .cons hG⟩
  obtain _ | ⟨hG', h⟩ := h
  exact hG.unique hG' ▸ h

theorem Reaches.unique (h : Reaches S r G) (h' : Reaches S r G') : G = G' := by
  induction h with
  | nil S =>
    obtain _ | _ := h'
    rfl
  | cons hG h ih => exact ih ((reaches_cons hG).mp h')

theorem Reaches.subset (h : Reaches S r G) : G ⊆ S := by
  induction h with
  | nil S => exact List.Subset.refl S
  | cons hG h ih => exact fun e he ↦ hG.subset (ih he)

theorem Reaches.isDirectory (h : Reaches S r G) (hS : IsDirectory S) : IsDirectory G := by
  induction h with
  | nil S => exact hS
  | cons hG h ih => exact ih (hG.isDirectory hS)

/-- The pages below the end of a route are pages of the directory. -/
theorem Reaches.treePage {b : Bytes} (h : Reaches S r G) (hb : TreePage G b) : TreePage S b := by
  induction h with
  | nil S => exact hb
  | cons hG h ih => exact .step hG (ih hb)

/-- The server at a label: there is a step, and the pages below it are those of the group, or there
is none, and it stops. -/
theorem pagesAlongRoute_cons_cases (hS : IsDirectory S) (l : UInt8) :
    (∃ G page, Step S l G ∧
      ∀ r, pagesAlongRoute S (l :: r) = (page :: ·) <$> pagesAlongRoute G r) ∨
    (∀ G, ¬ Step S l G) ∧ ∀ r, ∃ e, pagesAlongRoute S (l :: r) = .error e := by
  obtain ⟨page, hpage⟩ := (build_eq_ok_iff hS.length_lt).mpr hS.buildable
  rcases routeLoop_cons_cases hS.buildable hS.length_lt hpage l with
    ⟨G, b, hG, hb, hloop⟩ | ⟨hnone, e, -, hloop⟩
  · refine .inl ⟨G, page, hG, fun r ↦ ?_⟩
    have hG := hG.isDirectory hS
    rw [pagesAlongRoute_eq hS.buildable hS.length_lt hpage, hloop,
      pagesAlongRoute_eq hG.buildable hG.length_lt hb]
  · refine .inr ⟨hnone, fun r ↦ ⟨e, ?_⟩⟩
    rw [pagesAlongRoute_eq hS.buildable hS.length_lt hpage, hloop]
    rfl

/-- **The last page of an accepted route is that of its group.** -/
theorem pagesAlongRoute_last (hS : IsDirectory S) {ps : List Bytes}
    (h : pagesAlongRoute S r = .ok ps) :
    ∃ G b, Reaches S r G ∧ build G = .ok b ∧ ps.getLast? = some b := by
  induction r generalizing S ps with
  | nil =>
    obtain ⟨page, ps', hpage, hps, rfl⟩ := (pagesAlongRoute_eq_ok hS.buildable hS.length_lt).mp h
    obtain rfl := Except.ok.inj hps
    exact ⟨S, page, .nil S, hpage, rfl⟩
  | cons l r ih =>
    rcases pagesAlongRoute_cons_cases hS l with ⟨G, page, hG, hpages⟩ | ⟨-, hnone⟩
    · rw [hpages] at h
      rcases hrest : pagesAlongRoute G r with e | ps'
      · rw [hrest] at h
        exact absurd h nofun
      · rw [hrest] at h
        obtain rfl := Except.ok.inj h
        obtain ⟨H, b, hH, hb, hlast⟩ := ih (hG.isDirectory hS) hrest
        refine ⟨H, b, .cons hG hH, hb, ?_⟩
        rw [List.getLast?_cons, hlast]
        rfl
    · obtain ⟨e, he⟩ := hnone r
      exact absurd (he.symm.trans h) nofun

/-- A route that leads to a group is accepted. -/
theorem Reaches.exists_pages (h : Reaches S r G) (hS : IsDirectory S) :
    ∃ ps, pagesAlongRoute S r = .ok ps := by
  induction h with
  | nil S =>
    obtain ⟨page, hpage⟩ := (build_eq_ok_iff hS.length_lt).mpr hS.buildable
    exact ⟨[page], (pagesAlongRoute_eq_ok hS.buildable hS.length_lt).mpr
      ⟨page, [], hpage, rfl, rfl⟩⟩
  | @cons S G H l r hG h ih =>
    obtain ⟨ps, hps⟩ := ih (hG.isDirectory hS)
    rcases pagesAlongRoute_cons_cases hS l with ⟨G', page, hG', hpages⟩ | ⟨hnone, -⟩
    · obtain rfl := hG.unique hG'
      exact ⟨page :: ps, by rw [hpages, hps]; rfl⟩
    · exact absurd hG (hnone G)

theorem exists_pagesAlongRoute (hS : IsDirectory S) :
    (∃ ps, pagesAlongRoute S r = .ok ps) ↔ ∃ G, Reaches S r G := by
  constructor
  · rintro ⟨ps, h⟩
    obtain ⟨G, -, hG, -⟩ := pagesAlongRoute_last hS h
    exact ⟨G, hG⟩
  · rintro ⟨G, hG⟩
    exact hG.exists_pages hS

/-- A route is accepted and ends at a page, which is read with its number of entries. -/
def EndsAt (S : List Entry) (r : List UInt8) (page : Page) (t : UInt64) : Prop :=
  ∃ ps b, pagesAlongRoute S r = .ok ps ∧ ps.getLast? = some b ∧ decode b = .ok (page, t)

/-- A route is accepted and ends at a branch. -/
def EndsAtBranch (S : List Entry) (r : List UInt8) : Prop :=
  ∃ p terminal children t, EndsAt S r (.branch p terminal children) t

/-- The page of a route covers an entry: it is on that page or on one below it. -/
def Covers (S : List Entry) (r : List UInt8) (x : Entry) : Prop := ∃ s, x ∈ held S (r ++ s)

/-- The last page is the canonical one of the group. -/
theorem EndsAt.canonical {page : Page} {t : UInt64} (h : EndsAt S r page t) (hS : IsDirectory S) :
    ∃ G, Reaches S r G ∧ Canonical G page ∧ t = UInt64.ofNat G.length := by
  obtain ⟨ps, b, hps, hlast, hdecode⟩ := h
  obtain ⟨G, b', hG, hb, hlast'⟩ := pagesAlongRoute_last hS hps
  obtain rfl := Option.some.inj (hlast.symm.trans hlast')
  have hGdir := hG.isDirectory hS
  obtain ⟨-, P, hP, rfl⟩ := canonical_of_build hGdir.length_lt hb
  rw [decode_canonical hP hGdir.buildable hGdir.length_lt, wire_of_shaped (hP.shaped hGdir.shaped),
    Except.ok.injEq, Prod.mk.injEq] at hdecode
  obtain ⟨rfl, rfl⟩ := hdecode
  exact ⟨G, hG, hP, rfl⟩

/-- A route ends at a branch if its group does not fit in a leaf. -/
theorem endsAtBranch_iff (hS : IsDirectory S) :
    EndsAtBranch S r ↔ ∃ G, Reaches S r G ∧ ¬ Fits G := by
  constructor
  · rintro ⟨p, terminal, children, t, h⟩
    obtain ⟨G, hG, hP, -⟩ := h.canonical hS
    obtain _ | ⟨hfits, -⟩ := hP
    exact ⟨G, hG, hfits⟩
  · rintro ⟨G, hG, hfits⟩
    obtain ⟨ps, hps⟩ := hG.exists_pages hS
    obtain ⟨G', b, hG', hb, hlast⟩ := pagesAlongRoute_last hS hps
    obtain rfl := hG.unique hG'
    have hGdir := hG.isDirectory hS
    obtain ⟨-, P, hP, rfl⟩ := canonical_of_build hGdir.length_lt hb
    have hdecode := decode_canonical hP hGdir.buildable hGdir.length_lt
    obtain hfits' | ⟨-, hp⟩ := hP
    · exact absurd hfits' hfits
    · exact ⟨_, _, _, _, ps, _, hps, hlast, hdecode⟩

/-- **A page covers the entries of its group.** -/
theorem covers_iff {x : Entry} (hS : IsDirectory S) :
    Covers S r x ↔ ∃ G, Reaches S r G ∧ x ∈ G := by
  induction r generalizing S with
  | nil =>
    obtain ⟨page, hpage⟩ := (build_eq_ok_iff hS.length_lt).mpr hS.buildable
    have hself : (∃ G, Reaches S [] G ∧ x ∈ G) ↔ x ∈ S := by
      refine ⟨fun h ↦ ?_, fun hx ↦ ⟨S, .nil S, hx⟩⟩
      obtain ⟨G, hG, hx⟩ := h
      exact hG.subset hx
    have hwire : S.map Entry.wire = S := by
      rw [List.map_congr_left fun e he ↦ Entry.wire_of_shaped (hS.shaped e he), List.map_id']
    obtain ⟨routes, -, hmem, hflat⟩ := exists_routes hS.buildable hS.length_lt hpage
    rw [hself, Covers]
    constructor
    · rintro ⟨s, hx⟩
      rw [List.nil_append, held_eq hS.buildable hS.length_lt hpage] at hx
      obtain ⟨e, he, rfl⟩ := mem_of_mem_heldBelow hS.buildable hS.length_lt hpage hx
      rwa [Entry.wire_of_shaped (hS.shaped e he)]
    · intro hx
      rw [← hwire, ← hflat, List.mem_flatMap] at hx
      obtain ⟨s, -, hx⟩ := hx
      exact ⟨s, by rwa [List.nil_append, held_eq hS.buildable hS.length_lt hpage]⟩
  | cons l r ih =>
    rcases pagesAlongRoute_cons_cases hS l with ⟨G, page, hG, hpages⟩ | ⟨hnone, herror⟩
    · have hGdir := hG.isDirectory hS
      have hheld : ∀ s, held S (l :: r ++ s) = held G (r ++ s) := by
        intro s
        rw [held, held, List.cons_append, hpages]
        rcases hrest : pagesAlongRoute G (r ++ s) with e | ps
        · rfl
        · obtain ⟨b, ps', -, -, rfl⟩ :=
            (pagesAlongRoute_eq_ok hGdir.buildable hGdir.length_lt).mp hrest
          exact lastEntries_cons page b ps'
      have hcovers : Covers S (l :: r) x ↔ Covers G r x :=
        exists_congr fun s ↦ by rw [hheld]
      rw [hcovers, ih hGdir]
      exact exists_congr fun H ↦ by rw [reaches_cons hG]
    · refine iff_of_false ?_ ?_
      · rintro ⟨s, hx⟩
        obtain ⟨e, he⟩ := herror (r ++ s)
        rw [held, List.cons_append, he] at hx
        exact absurd hx List.not_mem_nil
      · rintro ⟨H, h, -⟩
        obtain _ | ⟨hG, -⟩ := h
        exact hnone _ hG

/-! ## One entry changes -/

omit [Sha256] in
theorem mem_labels_of_map_name {S S' : List Entry} (h : S'.map Entry.name = S.map Entry.name)
    (n : ℕ) (l : UInt8) :
    (∃ e ∈ S', e.name[n]? = some l) ↔ ∃ e ∈ S, e.name[n]? = some l := by
  have hnames : ∀ T : List Entry, (∃ e ∈ T, e.name[n]? = some l) ↔
      ∃ name ∈ T.map Entry.name, name[n]? = some l := fun T ↦ by
    simp only [List.mem_map, exists_exists_and_eq_and]
  rw [hnames, h, ← hnames]

/-- One entry has got another kind, size or digest. -/
structure Changed (S S' : List Entry) (x x' : Entry) : Prop where
  /-- The other entries are the same. -/
  replaces : Replaces x x' S S'
  /-- The name is the same. -/
  name_eq : x'.name = x.name
  /-- The entry is not. -/
  ne : x' ≠ x

variable {x x' : Entry} {p p' : Bytes} {terminal terminal' : Option Entry}
  {children children' : List BranchChild}

omit [Sha256] in
theorem Changed.map_name (h : Changed S S' x x') : S'.map Entry.name = S.map Entry.name :=
  h.replaces.map_eq h.name_eq

omit [Sha256] in
/-- The group on the way to the entry changes by the entry. -/
theorem Changed.group (h : Changed S S' x x') (hl : x.name[p.length]? = some l) :
    Changed (group p l S) (group p l S') x x' :=
  ⟨h.replaces.filter (by simpa using hl) (by simpa [h.name_eq] using hl), h.name_eq, h.ne⟩

omit [Sha256] in
/-- The other groups do not change. -/
theorem Changed.group_eq (h : Changed S S' x x') (hl : x.name[p.length]? ≠ some l) :
    Page.group p l S' = Page.group p l S :=
  h.replaces.filter_eq (by simpa using hl) (by simpa [h.name_eq] using hl)

omit [Sha256] in
/-- No group changes its size. -/
theorem Changed.length_group (h : Changed S S' x x') (p : Bytes) (l : UInt8) :
    (Page.group p l S').length = (Page.group p l S).length := by
  by_cases hl : x.name[p.length]? = some l
  · exact (h.group hl).replaces.length_eq
  · rw [h.group_eq hl]

/-- The prefix is a matter of names. -/
theorem Partitioned.pre_eq (h : Partitioned S p terminal children)
    (h' : Partitioned S' p' terminal' children') (hnames : S'.map Entry.name = S.map Entry.name) :
    p' = p :=
  h'.isLongestCommonPrefix.unique (hnames ▸ h.isLongestCommonPrefix)

/-- And so are the labels. -/
theorem Partitioned.labels_eq (h : Partitioned S p terminal children)
    (h' : Partitioned S' p terminal' children') (hnames : S'.map Entry.name = S.map Entry.name) :
    children'.map BranchChild.label = children.map BranchChild.label := by
  refine (List.pairwise_map.mpr h'.ascending).eq_of_mem_iff (List.pairwise_map.mpr h.ascending)
    fun l ↦ ?_
  rw [h'.mem_labels, h.mem_labels, mem_labels_of_map_name hnames]

/-- The row of a group. -/
def groupRow (p : Bytes) (S : List Entry) (l : UInt8) : BranchChild :=
  row p S l ((build (Page.group p l S)).toOption.getD [])

/-- The rows of a branch are those of its groups. -/
theorem Partitioned.groupRow_label (h : Partitioned S p terminal children) {c : BranchChild}
    (hc : c ∈ children) : groupRow p S c.label = c := by
  obtain ⟨hcount, b, hb, hid⟩ := h.child c hc
  rw [groupRow, hb]
  show row p S c.label b = c
  rw [row, ← hcount, UInt64.ofNat_toNat, ← hid]

/-- **Branches of the same names** have the same labels, and agree on what the rows of their groups
agree on. -/
theorem Partitioned.map_eq {β : Type} {f : BranchChild → β} (h : Partitioned S p terminal children)
    (h' : Partitioned S' p terminal' children') (hnames : S'.map Entry.name = S.map Entry.name)
    (hf : ∀ l, f (groupRow p S' l) = f (groupRow p S l)) : children'.map f = children.map f := by
  have hrows : ∀ {S terminal children}, Partitioned S p terminal children →
      children.map f = (children.map BranchChild.label).map fun l ↦ f (groupRow p S l) := by
    intro S terminal children h
    rw [List.map_map]
    exact List.map_congr_left fun c hc ↦ congrArg f (h.groupRow_label hc).symm
  rw [hrows h', hrows h, h.labels_eq h' hnames]
  exact List.map_congr_left fun l _ ↦ hf l

/-- Counts do not change. -/
theorem Changed.counts_eq (hchange : Changed S S' x x') (h : Partitioned S p terminal children)
    (h' : Partitioned S' p terminal' children') :
    children'.map BranchChild.subtreeEntries = children.map BranchChild.subtreeEntries :=
  h.map_eq h' hchange.map_name fun l ↦ congrArg UInt64.ofNat (hchange.length_group p l)

/-- Nor do the pages of the groups if the changed entry is the terminal. -/
theorem Changed.childPageIds_eq (hchange : Changed S S' x x') (hx : x.name = p)
    (h : Partitioned S p terminal children) (h' : Partitioned S' p terminal' children') :
    children'.map BranchChild.childPageId = children.map BranchChild.childPageId := by
  refine h.map_eq h' hchange.map_name fun l ↦ ?_
  have hnext : x.name[p.length]? ≠ some l := by
    rw [hx, List.getElem?_eq_none le_rfl]
    exact nofun
  rw [groupRow, groupRow, row, row, hchange.group_eq hnext]

/-- The page of a group that has not changed is referred to as before. -/
theorem Partitioned.childPageId_eq (h : Partitioned S p terminal children)
    (h' : Partitioned S' p terminal' children') {c c' : BranchChild} (hc : c ∈ children)
    (hc' : c' ∈ children') (hlabel : c'.label = c.label)
    (hgroup : Page.group p c.label S' = Page.group p c.label S) :
    c'.childPageId = c.childPageId := by
  obtain ⟨-, b, hb, hid⟩ := h.child c hc
  obtain ⟨-, b', hb', hid'⟩ := h'.child c' hc'
  rw [hlabel, hgroup] at hb'
  rw [hid, hid', Except.ok.inj (hb.symm.trans hb')]

/-- The page of the group with the entry is another one, unless two pages collide. -/
theorem Changed.childPageId_ne (hchange : Changed S S' x x')
    (h : Canonical S (.branch p terminal children))
    (h' : Canonical S' (.branch p terminal' children')) (hS : IsDirectory S) (hS' : IsDirectory S')
    (hfree : CollisionFree {y | ∃ b, (TreePage S b ∨ TreePage S' b) ∧ y = pageInput b})
    {c c' : BranchChild} (hc : c ∈ children) (hc' : c' ∈ children') (hlabel : c'.label = c.label)
    (hl : x.name[p.length]? = some c.label) : c'.childPageId ≠ c.childPageId := by
  intro heq
  obtain ⟨-, b, hb, hid⟩ := h.partitioned.child c hc
  obtain ⟨-, b', hb', hid'⟩ := h'.partitioned.child c' hc'
  have hmem' := List.mem_map_of_mem (f := BranchChild.label) hc'
  rw [hlabel] at hb' hmem'
  have hG : Step S c.label (Page.group p c.label S) :=
    ⟨p, terminal, children, h, List.mem_map_of_mem hc, rfl⟩
  have hG' : Step S' c.label (Page.group p c.label S') := ⟨p, terminal', children', h', hmem', rfl⟩
  have hgroup := hchange.group hl
  refine hgroup.replaces.ne hgroup.ne (eq_of_pageId_eq (hG.isDirectory hS)
    (hG'.isDirectory hS') (hfree.mono ?_) hb hb' (hid.symm.trans (heq.symm.trans hid'))).symm
  rintro y ⟨b, hb | hb, rfl⟩
  · exact ⟨b, .inl (.step hG hb), rfl⟩
  · exact ⟨b, .inr (.step hG' hb), rfl⟩

/-! ## Along a route -/

/-- A directory that does not fit in a leaf has a branch. -/
theorem exists_partitioned (hS : IsDirectory S) (hfits : ¬ Fits S) :
    ∃ p terminal children, Partitioned S p terminal children := by
  obtain ⟨page, hpage, -⟩ := build_canonical hS.buildable hS.length_lt
  obtain hfits' | ⟨-, hp⟩ := hpage
  · exact absurd hfits' hfits
  · exact ⟨_, _, _, hp⟩

/-- **Along the way to the entry** groups change by the entry. -/
theorem Changed.reaches (h : Changed S S' x x') (hG : Reaches S r G) (hG' : Reaches S' r G')
    (hx : x ∈ G) : Changed G G' x x' := by
  induction hG generalizing S' with
  | nil S =>
    obtain _ | _ := hG'
    exact h
  | @cons S G₁ H l r hG hH ih =>
    obtain _ | ⟨hG', hH'⟩ := hG'
    obtain ⟨p, terminal, children, hP, -, rfl⟩ := hG
    obtain ⟨p', terminal', children', hP', -, rfl⟩ := hG'
    obtain rfl := hP.partitioned.pre_eq hP'.partitioned h.map_name
    exact ih (h.group (group_subset (hH.subset hx)).2) hH' hx

/-- The steps beside the way to the entry lead from a branch to the same groups as before. -/
theorem Changed.step_iff (h : Changed S S' x x') (hp : Partitioned S p terminal children)
    (hp' : Partitioned S' p terminal' children') (hfits : ¬ Fits S) (hfits' : ¬ Fits S')
    (hl : x.name[p.length]? ≠ some l) : Step S' l G ↔ Step S l G := by
  rw [hp.step_iff hfits, hp'.step_iff hfits', hp.labels_eq hp' h.map_name, h.group_eq hl]

/-- **A route that leaves the way at a branch** leads to the same group as before. -/
theorem Changed.reaches_iff (h : Changed S S' x x') (hS : IsDirectory S) (hS' : IsDirectory S')
    (hbranch : ∀ q, q <+: r → ∀ G, Reaches S q G → x ∈ G →
      ¬ Fits G ∧ ∃ G', Reaches S' q G' ∧ ¬ Fits G')
    (hleft : ∀ G, Reaches S r G → x ∉ G) : Reaches S' r H ↔ Reaches S r H := by
  induction r generalizing S S' with
  | nil => exact absurd h.replaces.left_mem (hleft S (.nil S))
  | cons l r ih =>
    -- the root covers the entry, so it is a branch before and after
    obtain ⟨hfits, G', hG', hfits'⟩ :=
      hbranch [] List.nil_prefix S (.nil S) h.replaces.left_mem
    obtain rfl := (Reaches.nil S').unique hG'
    obtain ⟨p, terminal, children, hp⟩ := exists_partitioned hS hfits
    obtain ⟨p', terminal', children', hp'⟩ := exists_partitioned hS' hfits'
    obtain rfl := hp.pre_eq hp' h.map_name
    by_cases hl : x.name[p'.length]? = some l
    · have hmem := (hp.mem_labels l).mpr ⟨x, h.replaces.left_mem, hl⟩
      have hG : Step S l (Page.group p' l S) := (hp.step_iff hfits).mpr ⟨hmem, rfl⟩
      have hG' : Step S' l (Page.group p' l S') :=
        (hp'.step_iff hfits').mpr ⟨hp.labels_eq hp' h.map_name ▸ hmem, rfl⟩
      rw [reaches_cons hG, reaches_cons hG']
      refine ih (h.group hl) (hG.isDirectory hS) (hG'.isDirectory hS')
        (fun q hq K hK hx ↦ ?_) fun K hK ↦ hleft K (.cons hG hK)
      obtain ⟨hKfits, K', hK', hKfits'⟩ :=
        hbranch (l :: q) (List.cons_prefix_cons.mpr ⟨rfl, hq⟩) K (.cons hG hK) hx
      exact ⟨hKfits, K', (reaches_cons hG').mp hK', hKfits'⟩
    · constructor
      · intro hH
        obtain _ | ⟨hG, hH⟩ := hH
        exact .cons ((h.step_iff hp hp' hfits hfits' hl).mp hG) hH
      · intro hH
        obtain _ | ⟨hG, hH⟩ := hH
        exact .cons ((h.step_iff hp hp' hfits hfits' hl).mpr hG) hH

/-! ## Sibling pages -/

/-- What becomes of a branch page that covers a changed entry: nothing, but for one page identity,
which is another one unless two of the strings `C` collide. -/
structure KeepsSiblings (C : Set Bytes) (x : Entry) (p p' : Bytes) (terminal : Option Entry)
    (children children' : List BranchChild) : Prop where
  /-- The prefix is the same. -/
  pre_eq : p' = p
  /-- The labels are the same. -/
  labels_eq : children'.map BranchChild.label = children.map BranchChild.label
  /-- The counts are the same. -/
  counts_eq : children'.map BranchChild.subtreeEntries = children.map BranchChild.subtreeEntries
  /-- If the entry is the terminal, then so are the pages of all children. -/
  childPageIds_eq : terminal = some x →
    children'.map BranchChild.childPageId = children.map BranchChild.childPageId
  /-- Otherwise a label selects the entry, and only the child of that label has another page. -/
  childPageId_ne : terminal ≠ some x → ∃ l ∈ children.map BranchChild.label,
    x.name[p.length]? = some l ∧ ∀ c ∈ children, ∀ c' ∈ children', c'.label = c.label →
      (c.label ≠ l → c'.childPageId = c.childPageId) ∧
      (c.label = l → CollisionFree C → c'.childPageId ≠ c.childPageId)

/-- **One changed entry keeps sibling pages.**  When an entry gets another kind, size or digest, the
branch pages that cover it keep everything but one page identity, and the routes that leave the way
to the entry at such a branch end at the same page as before, byte by byte. -/
theorem change_keeps_siblings (S S' : Slice Entry) (x x' : Entry) (hmade : ∀ e ∈ S.toList, e.Made)
    (hmade' : ∀ e ∈ S'.toList, e.Made) (hvalid : ∀ e ∈ S.toList, e.validate = .ok ())
    (hvalid' : ∀ e ∈ S'.toList, e.validate = .ok ())
    (hasc : S.toList.Pairwise fun a b ↦ a.name < b.name)
    (hasc' : S'.toList.Pairwise fun a b ↦ a.name < b.name)
    (hchange : Changed S.toList S'.toList x x') :
    (∀ r p terminal children t p' terminal' children' t',
      EndsAt S.toList r (.branch p terminal children) t →
      EndsAt S'.toList r (.branch p' terminal' children') t' → Covers S.toList r x →
      t' = t ∧
      KeepsSiblings {y | ∃ b, (TreePage S.toList b ∨ TreePage S'.toList b) ∧ y = pageInput b}
        x p p' terminal children children') ∧
    ∀ r, (∀ q, q <+: r → Covers S.toList q x →
        EndsAtBranch S.toList q ∧ EndsAtBranch S'.toList q) →
      ¬ Covers S.toList r x →
      ((∃ ps, pagesAlongRoute S'.toList r = .ok ps) ↔
        ∃ ps, pagesAlongRoute S.toList r = .ok ps) ∧
      ∀ ps ps', pagesAlongRoute S.toList r = .ok ps → pagesAlongRoute S'.toList r = .ok ps' →
        ps'.getLast? = ps.getLast? := by
  have hS : IsDirectory S.toList := .of_made S hmade ⟨hvalid, hasc⟩
  have hS' : IsDirectory S'.toList := .of_made S' hmade' ⟨hvalid', hasc'⟩
  refine ⟨?_, fun r hbranch hleft ↦ ?_⟩
  · intro r p terminal children t p' terminal' children' t' hend hend' hcovers
    obtain ⟨G, hG, hP, rfl⟩ := hend.canonical hS
    obtain ⟨G', hG', hP', rfl⟩ := hend'.canonical hS'
    obtain ⟨G₁, hG₁, hx⟩ := (covers_iff hS).mp hcovers
    obtain rfl := hG.unique hG₁
    have hp := hP.partitioned
    have hp' := hP'.partitioned
    have hgroup := hchange.reaches hG hG' hx
    obtain rfl := hp.pre_eq hp' hgroup.map_name
    refine ⟨congrArg UInt64.ofNat hgroup.replaces.length_eq, rfl,
      hp.labels_eq hp' hgroup.map_name, hgroup.counts_eq hp hp', fun hx' ↦ ?_, fun hx' ↦ ?_⟩
    · exact hgroup.childPageIds_eq ((hp.terminal_eq_some x).mp hx').2 hp hp'
    · have hname : x.name ≠ p' := fun h ↦ hx' ((hp.terminal_eq_some x).mpr ⟨hx, h⟩)
      obtain ⟨l, hl⟩ := exists_concat_isPrefix (hp.isPrefix hx) hname
      have hnext := (concat_isPrefix_iff.mp hl).2
      refine ⟨l, (hp.mem_labels l).mpr ⟨x, hx, hnext⟩, hnext, fun c hc c' hc' hlabel ↦
        ⟨fun hne ↦ ?_, fun heq hfree ↦ ?_⟩⟩
      · refine hp.childPageId_eq hp' hc hc' hlabel (hgroup.group_eq ?_)
        rw [hnext]
        exact fun h ↦ hne (Option.some.inj h).symm
      · refine hgroup.childPageId_ne hP hP' (hG.isDirectory hS) (hG'.isDirectory hS')
          (hfree.mono ?_) hc hc' hlabel (heq ▸ hnext)
        rintro y ⟨b, hb | hb, rfl⟩
        · exact ⟨b, .inl (hG.treePage hb), rfl⟩
        · exact ⟨b, .inr (hG'.treePage hb), rfl⟩
  · have hreaches : ∀ H, Reaches S'.toList r H ↔ Reaches S.toList r H := by
      intro H
      refine hchange.reaches_iff hS hS' (fun q hq G hG hx ↦ ?_) fun G hG hx ↦
        hleft ((covers_iff hS).mpr ⟨G, hG, hx⟩)
      obtain ⟨h, h'⟩ := hbranch q hq ((covers_iff hS).mpr ⟨G, hG, hx⟩)
      obtain ⟨G₁, hG₁, hfits⟩ := (endsAtBranch_iff hS).mp h
      exact ⟨hG.unique hG₁ ▸ hfits, (endsAtBranch_iff hS').mp h'⟩
    refine ⟨?_, fun ps ps' hps hps' ↦ ?_⟩
    · rw [exists_pagesAlongRoute hS, exists_pagesAlongRoute hS']
      exact exists_congr hreaches
    · obtain ⟨G, b, hG, hb, hlast⟩ := pagesAlongRoute_last hS hps
      obtain ⟨G', b', hG', hb', hlast'⟩ := pagesAlongRoute_last hS' hps'
      obtain rfl := hG.unique ((hreaches G').mp hG')
      rw [hlast, hlast', Except.ok.inj (hb.symm.trans hb')]

/-- A file in place of the directory of `crowd`. -/
def recrowdFile : Entry := .file .executable "g".asBytes 1 (.fill 3)

/-- `crowd` with that file. -/
def recrowd : List Entry := crowdFiles ++ [recrowdFile]

/-- The page of `recrowd`. -/
def recrowdPage : Page :=
  .branch [] none
    [⟨102, 128, .ofNat 0x2362e46f7bcb2bca9f56d5596a9fa5092c2190568c224c09e53e06d2fe170b66⟩,
      ⟨103, 1, .ofNat 0x52d695cbda8228f754db9bcb89d3c60bc2013162f41e36bbbf9920dd90c7b37d⟩]

/-- SHA-256 on the pages of `crowd` and of `recrowd`. -/
@[reducible] def recrowdSha256 : Sha256 :=
  .ofTable (crowdTable ++ [(pageInput (leaf [recrowdFile]).bytes,
      .ofNat 0x52d695cbda8228f754db9bcb89d3c60bc2013162f41e36bbbf9920dd90c7b37d),
    (pageInput recrowdPage.bytes,
      .ofNat 0xcc552df05f8e370cdf0962a3a4dc914bdf7a74b42d93b5b327e3e219e598aaba)])

omit [Sha256] in
theorem changed_crowd : Changed crowd recrowd crowdDir recrowdFile :=
  ⟨⟨crowdFiles, [], rfl, rfl⟩, rfl, by decide⟩

omit [Sha256] in
theorem buildable_recrowd : Buildable recrowd :=
  checkInput_eq_ok_iff_buildable.mp (by decide +kernel)

omit [Sha256] in
theorem isDirectory_crowd : IsDirectory crowd :=
  ⟨buildable_crowd, by decide +kernel, fun e he ↦ (made_crowd he).shaped⟩

omit [Sha256] in
theorem made_recrowd {e : Entry} (he : e ∈ recrowd) : e.Made := by
  rcases List.mem_append.mp he with he | he
  · exact made_crowd (List.mem_append_left _ he)
  · rw [List.mem_singleton.mp he]
    exact .file _ _ _ _ (by decide)

omit [Sha256] in
theorem isDirectory_recrowd : IsDirectory recrowd :=
  ⟨buildable_recrowd, by decide +kernel, fun e he ↦ (made_recrowd he).shaped⟩

/-- The step to the files of `crowd`. -/
theorem step_crowd : ∃ G, Step crowd 102 G ∧ crowdDir ∉ G := by
  have hfits : ¬ Fits crowd := fun h ↦ absurd h.1 (by decide +kernel)
  obtain ⟨p, terminal, children, hp⟩ := exists_partitioned isDirectory_crowd hfits
  have hfile : Entry.file .regular [102, 97, 97] 1 (.fill 1) ∈ crowd :=
    List.mem_append_left _ (List.mem_map_of_mem (List.mem_range.mpr (show 0 < 128 by decide)))
  have hdir : p <+: [103] :=
    hp.isPrefix (List.mem_append_right _ (List.mem_singleton_self crowdDir))
  -- `faa` and `g` have nothing in common
  obtain rfl : p = [] := by
    rcases p with _ | ⟨b, p⟩
    · rfl
    · obtain ⟨rfl, -⟩ := List.cons_prefix_cons.mp (hp.isPrefix hfile)
      exact absurd (List.cons_prefix_cons.mp hdir).1 (by decide)
  have hlabel := (hp.mem_labels 102).mpr ⟨_, hfile, rfl⟩
  exact ⟨group [] 102 crowd, (hp.step_iff hfits).mpr ⟨hlabel, rfl⟩,
    fun h ↦ absurd (group_subset h).2 (by decide)⟩

omit [Sha256] in
/-- The files below `crowd` keep their page when the directory becomes a file. -/
theorem change_keeps_siblings_crowd :
    letI := recrowdSha256
    (∃ p terminal children t p' terminal' children' t',
      EndsAt crowd [] (.branch p terminal children) t ∧
      EndsAt recrowd [] (.branch p' terminal' children') t' ∧ t' = t ∧
      KeepsSiblings {y | ∃ b, (TreePage crowd b ∨ TreePage recrowd b) ∧ y = pageInput b}
        crowdDir p p' terminal children children') ∧
    ∃ ps ps', pagesAlongRoute crowd [102] = .ok ps ∧ pagesAlongRoute recrowd [102] = .ok ps' ∧
      ps'.getLast? = ps.getLast? := by
  let _ := recrowdSha256
  have hcovers : Covers crowd [] crowdDir :=
    (covers_iff isDirectory_crowd).mpr ⟨crowd, .nil crowd, by simp [crowd]⟩
  have hbranch : EndsAtBranch crowd [] := (endsAtBranch_iff isDirectory_crowd).mpr
    ⟨crowd, .nil crowd, fun h ↦ absurd h.1 (by decide +kernel)⟩
  have hbranch' : EndsAtBranch recrowd [] := (endsAtBranch_iff isDirectory_recrowd).mpr
    ⟨recrowd, .nil recrowd, fun h ↦ absurd h.1 (by decide +kernel)⟩
  obtain ⟨hpage, hroute⟩ := change_keeps_siblings ⟨crowd, by decide +kernel⟩
    ⟨recrowd, by decide +kernel⟩ crowdDir recrowdFile (fun e he ↦ made_crowd he)
    (fun e he ↦ made_recrowd he) buildable_crowd.validate buildable_recrowd.validate
    buildable_crowd.ascending buildable_recrowd.ascending changed_crowd
  obtain ⟨G, hG, hdir⟩ := step_crowd
  have hleft : ¬ Covers crowd [102] crowdDir := by
    rw [covers_iff isDirectory_crowd]
    rintro ⟨H, hH, hx⟩
    rw [reaches_cons hG] at hH
    exact hdir (hH.subset hx)
  refine ⟨?_, ?_⟩
  · obtain ⟨p, terminal, children, t, hend⟩ := hbranch
    obtain ⟨p', terminal', children', t', hend'⟩ := hbranch'
    exact ⟨p, terminal, children, t, p', terminal', children', t', hend, hend',
      hpage [] _ _ _ _ _ _ _ _ hend hend' hcovers⟩
  · obtain ⟨haccepted, hlast⟩ := hroute [102] (fun q hq hx ↦ by
      obtain rfl | ⟨q, rfl, hnil⟩ := List.prefix_cons_iff.mp hq
      · exact ⟨hbranch, hbranch'⟩
      · obtain rfl := List.prefix_nil.mp hnil
        exact absurd hx hleft) hleft
    have hreaches : Reaches crowd [102] G := .cons hG (.nil G)
    obtain ⟨ps, hps⟩ := hreaches.exists_pages isDirectory_crowd
    obtain ⟨ps', hps'⟩ := haccepted.mpr ⟨ps, hps⟩
    exact ⟨ps, ps', hps, hps', hlast ps ps' hps hps'⟩

end change

end Page

end Mst2
