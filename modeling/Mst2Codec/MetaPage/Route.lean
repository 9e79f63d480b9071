import Mst2Codec.MetaPage.Canonical

/-!
# Client and server agree on directory pages

The server walks a route over the entries and builds a page at each step; the client walks it over
the pages it is sent and checks each against the one before.  Both follow the same steps, from a
directory to the group of a label (`Step`): `routeLoop_cons` says so for the server and
`verifyReceivedChild_iff` for the client, and `verified_iff_pagesAlongRoute` puts the two walks side
by side.
-/

set_option autoImplicit false

namespace Mst2

open Bytes Except Lex

namespace Page

/-! ## The two selections of a group -/

theorem group_subset {p : Bytes} {l : UInt8} {entries : List Entry} {e : Entry}
    (he : e ∈ group p l entries) : e ∈ entries ∧ e.name[p.length]? = some l := by
  rw [group, List.mem_filter, decide_eq_true_eq] at he
  exact he

/-- The server's repartition selects the group. -/
theorem selectGroup_eq {p : Bytes} {l : UInt8} {entries : List Entry}
    (hpre : ∀ e ∈ entries, p <+: e.name) :
    selectGroup p l entries = .ok (group p l entries) := by
  induction entries with
  | nil => rfl
  | cons e entries ih =>
    obtain ⟨hepre, hpre⟩ := List.forall_mem_cons.mp hpre
    rw [selectGroup, ih hpre]
    split
    · rename_i hname
      have hnext : ¬ e.name[p.length]? = some l := by
        rw [hname, List.getElem?_eq_none le_rfl]
        simp
      have hgroup : group p l (e :: entries) = group p l entries :=
        List.filter_cons_of_neg (by simpa using hnext)
      rw [hgroup]
    · rename_i hname
      obtain ⟨a, ha⟩ := exists_concat_isPrefix hepre hname
      have hlt : p.length < e.name.length := by
        have := ha.length_le
        rw [List.length_append, List.length_singleton] at this
        omega
      have htake : e.name.take p.length = p := (List.prefix_iff_eq_take.mp hepre).symm
      have hget : e.name.getD p.length 0 = l ↔ e.name[p.length]? = some l := by
        rw [List.getD_eq_getElem?_getD, List.getElem?_eq_getElem hlt]
        simp
      rw [reject_of_not (by rw [htake]; simp; omega), ok_bind, ok_bind]
      simp only [hget, group, List.filter_cons, decide_eq_true_eq]
      rfl

/-- The child of a label is the one that `find` finds. -/
theorem find?_label_eq_some {children : List BranchChild} {l : UInt8} {c : BranchChild}
    (h : (children.find? fun c ↦ c.label = l) = some c) : c ∈ children ∧ c.label = l :=
  ⟨List.mem_of_find?_eq_some h, by simpa using List.find?_some h⟩

theorem exists_find?_label {children : List BranchChild} {l : UInt8}
    (h : l ∈ children.map BranchChild.label) :
    ∃ c, (children.find? fun c ↦ c.label = l) = some c := by
  obtain ⟨c, hc, hl⟩ := List.mem_map.mp h
  exact Option.isSome_iff_exists.mp (List.find?_isSome.mpr ⟨c, hc, by simpa using hl⟩)

section step

variable [Sha256]

/-- A step of a route: from a directory whose page is a branch with the label `l` to the group of
that label. -/
def Step (S : List Entry) (l : UInt8) (G : List Entry) : Prop :=
  ∃ p terminal children, Canonical S (.branch p terminal children) ∧
    l ∈ children.map BranchChild.label ∧ G = group p l S

theorem Canonical.partitioned {S : List Entry} {p : Bytes} {terminal : Option Entry}
    {children : List BranchChild} (h : Canonical S (.branch p terminal children)) :
    Partitioned S p terminal children := by
  cases h with
  | branch hfits hp => exact hp

theorem Partitioned.isPrefix {S : List Entry} {p : Bytes} {terminal : Option Entry}
    {children : List BranchChild} (h : Partitioned S p terminal children) {e : Entry}
    (he : e ∈ S) : p <+: e.name :=
  h.isLongestCommonPrefix.isPrefix (List.mem_map_of_mem he)

variable {S G : List Entry} {l : UInt8}

theorem Step.buildable (h : Step S l G) (hS : Buildable S) : Buildable G := by
  obtain ⟨p, terminal, children, -, -, rfl⟩ := h
  exact hS.filter _

theorem Step.subset (h : Step S l G) : G ⊆ S := by
  obtain ⟨p, terminal, children, -, -, rfl⟩ := h
  exact fun e he ↦ (group_subset he).1

theorem Step.length_lt (h : Step S l G) (hS : S.length < 2 ^ 63) : G.length < 2 ^ 63 := by
  obtain ⟨p, terminal, children, -, -, rfl⟩ := h
  exact (List.length_filter_le _ _).trans_lt hS

theorem Step.ne_nil (h : Step S l G) : G ≠ [] := by
  obtain ⟨p, terminal, children, hpage, hl, rfl⟩ := h
  obtain ⟨e, he, hnext⟩ := (hpage.partitioned.mem_labels l).mp hl
  exact List.ne_nil_of_mem (List.mem_filter.mpr ⟨he, by simpa using hnext⟩)

/-- A group leaves something out: otherwise its label would belong to the common prefix. -/
theorem Step.length_lt_length (h : Step S l G) : G.length < S.length := by
  obtain ⟨p, terminal, children, hpage, -, rfl⟩ := h
  obtain ⟨n, hn, hnot⟩ := hpage.partitioned.isLongestCommonPrefix.exists_not_isPrefix l
  obtain ⟨e, he, rfl⟩ := List.mem_map.mp hn
  refine List.length_filter_lt_length_iff_exists.mpr ⟨e, he, fun hnext ↦ hnot ?_⟩
  exact concat_isPrefix_iff.mpr ⟨hpage.partitioned.isPrefix he, by simpa using hnext⟩

/-- The steps from a branch: its labels, each to its group. -/
theorem Partitioned.step_iff {p : Bytes} {terminal : Option Entry} {children : List BranchChild}
    (h : Partitioned S p terminal children) (hfits : ¬ Fits S) :
    Step S l G ↔ l ∈ children.map BranchChild.label ∧ G = group p l S := by
  constructor
  · rintro ⟨p', terminal', children', hP', hl, rfl⟩
    have hp' := hP'.partitioned
    obtain rfl := h.isLongestCommonPrefix.unique hp'.isLongestCommonPrefix
    exact ⟨((h.mem_labels l).trans (hp'.mem_labels l).symm).mpr hl, rfl⟩
  · rintro ⟨hl, rfl⟩
    exact ⟨p, terminal, children, .branch hfits h, hl, rfl⟩

/-- There are no steps from a leaf. -/
theorem Fits.not_step (hfits : Fits S) : ¬ Step S l G := by
  rintro ⟨p, terminal, children, hP, -⟩
  cases hP with
  | branch hfits' hp => exact hfits' hfits

/-- A step is determined by its label. -/
theorem Step.unique {G' : List Entry} (h : Step S l G) (h' : Step S l G') : G = G' := by
  obtain ⟨p, terminal, children, hP, -, rfl⟩ := h
  obtain ⟨p', terminal', children', hP', -, rfl⟩ := h'
  rw [hP.partitioned.isLongestCommonPrefix.unique hP'.partitioned.isLongestCommonPrefix]

/-- The names of a group begin with the prefix and the label. -/
theorem concat_isPrefix_of_mem_group {p : Bytes} {terminal : Option Entry}
    {children : List BranchChild} (h : Partitioned S p terminal children) {e : Entry}
    (he : e ∈ group p l S) : p ++ [l] <+: e.name := by
  obtain ⟨he, hnext⟩ := group_subset he
  exact concat_isPrefix_iff.mpr ⟨h.isPrefix he, hnext⟩

/-- What is read of the page of a directory. -/
theorem decode_canonical {page : Page} (h : Canonical S page) (hS : Buildable S)
    (hlen : S.length < 2 ^ 63) :
    decode page.bytes = .ok (page.wire, UInt64.ofNat S.length) := by
  obtain ⟨hvalid, htotal, hbytes⟩ := h.valid hS hlen
  rw [decode_bytes hvalid hbytes, htotal]

/-! ## The server -/

/-- The errors of a route that does not exist. -/
def IsMissing (e : CodecError) : Prop :=
  e = .badOrdering "route descends past a leaf page" ∨
    e = .badOrdering "route label not present in page"

/-- The server's loop at a label: there is a step, and it goes on from the group, or there is none,
and it stops. -/
theorem routeLoop_cons_cases {page : Bytes} (hS : Buildable S) (hlen : S.length < 2 ^ 63)
    (hpage : build S = .ok page) (l : UInt8) :
    (∃ G b, Step S l G ∧ build G = .ok b ∧
      ∀ rest, routeLoop S page (l :: rest) = (b :: ·) <$> routeLoop G b rest) ∨
    (∀ G, ¬ Step S l G) ∧
      ∃ e, IsMissing e ∧ ∀ rest, routeLoop S page (l :: rest) = .error e := by
  obtain ⟨-, P, hP, rfl⟩ := canonical_of_build hlen hpage
  have hdecode := decode_canonical hP hS hlen
  cases hP with
  | leaf hfits =>
    refine .inr ⟨fun G ↦ hfits.not_step, _, .inl rfl, fun rest ↦ ?_⟩
    rw [routeLoop, hdecode, ok_bind]
    rfl
  | @branch p terminal children hfits hp =>
    cases hc : children.find? fun c ↦ c.label = l with
    | none =>
      refine .inr ⟨?_, _, .inr rfl, fun rest ↦ ?_⟩
      · intro G hstep
        obtain ⟨c, hc'⟩ := exists_find?_label ((hp.step_iff hfits).mp hstep).1
        cases hc.symm.trans hc'
      · rw [routeLoop, hdecode]
        simp only [wire, branchParts, ok_bind, hc, okOr_none, error_bind]
    | some c =>
      obtain ⟨hmem, rfl⟩ := find?_label_eq_some hc
      have hstep : Step S c.label (group p c.label S) :=
        (hp.step_iff hfits).mpr ⟨List.mem_map_of_mem hmem, rfl⟩
      obtain ⟨-, b, hb, hid⟩ := hp.child c hmem
      refine .inl ⟨_, b, hstep, hb, fun rest ↦ ?_⟩
      rw [routeLoop, hdecode]
      simp only [wire, branchParts, ok_bind]
      rw [hc, okOr_some, ok_bind, selectGroup_eq fun e he ↦ hp.isPrefix he, ok_bind,
        reject_of_not hstep.ne_nil, ok_bind, hb, ok_bind, reject_of_not (not_not.mpr hid.symm),
        ok_bind]
      cases routeLoop (group p c.label S) b rest with
      | error e => rfl
      | ok ps => rfl

/-- The server's loop takes a step and goes on from the group. -/
theorem routeLoop_cons {page : Bytes} {rest : List UInt8} {ps : List Bytes} (hS : Buildable S)
    (hlen : S.length < 2 ^ 63) (hpage : build S = .ok page) :
    routeLoop S page (l :: rest) = .ok ps ↔ ∃ G b ps', Step S l G ∧ build G = .ok b ∧
      routeLoop G b rest = .ok ps' ∧ ps = b :: ps' := by
  rcases routeLoop_cons_cases hS hlen hpage l with ⟨G, b, hstep, hb, hloop⟩ | ⟨hnone, e, -, hloop⟩
  · rw [hloop]
    constructor
    · intro h
      cases hrest : routeLoop G b rest with
      | error e =>
        rw [hrest] at h
        cases h
      | ok ps' =>
        rw [hrest] at h
        exact ⟨G, b, ps', hstep, hb, hrest, (Except.ok.inj h).symm⟩
    · rintro ⟨G', b', ps', hstep', hb', hrest, rfl⟩
      obtain rfl := hstep.unique hstep'
      obtain rfl := Except.ok.inj (hb.symm.trans hb')
      rw [hrest]
      rfl
  · rw [hloop]
    refine ⟨nofun, fun h ↦ ?_⟩
    obtain ⟨G, _, _, hstep, -⟩ := h
    exact absurd hstep (hnone G)

theorem length_of_routeLoop {page : Bytes} {r : List UInt8} {ps : List Bytes} (hS : Buildable S)
    (hlen : S.length < 2 ^ 63) (hpage : build S = .ok page) (hloop : routeLoop S page r = .ok ps) :
    ps.length = r.length := by
  induction r generalizing S page ps with
  | nil =>
    obtain rfl := Except.ok.inj hloop
    rfl
  | cons l r ih =>
    obtain ⟨G, b, ps', hstep, hb, hrest, rfl⟩ := (routeLoop_cons hS hlen hpage).mp hloop
    rw [List.length_cons, ih (hstep.buildable hS) (hstep.length_lt hlen) hb hrest, List.length_cons]

/-- The route from a directory begins with its own page.  An empty directory is a leaf too. -/
theorem pagesAlongRoute_eq {page : Bytes} (hS : Buildable S) (hlen : S.length < 2 ^ 63)
    (hpage : build S = .ok page) (r : List UInt8) :
    pagesAlongRoute S r = (page :: ·) <$> routeLoop S page r := by
  rw [pagesAlongRoute, hpage]
  split
  · rename_i hnil
    subst hnil
    cases r with
    | nil => rfl
    | cons l r =>
      obtain ⟨-, P, hP, rfl⟩ := canonical_of_build hlen hpage
      cases hP with
      | leaf hfits =>
        rw [routeLoop, decode_canonical (.leaf hfits) hS hlen]
        rfl
      | branch hfits hp => exact absurd (show Fits [] by decide) hfits
  · rw [ok_bind]
    cases routeLoop S page r with
    | error e => rfl
    | ok ps => rfl

theorem pagesAlongRoute_eq_ok {r : List UInt8} {ps : List Bytes} (hS : Buildable S)
    (hlen : S.length < 2 ^ 63) :
    pagesAlongRoute S r = .ok ps ↔ ∃ page ps', build S = .ok page ∧
      routeLoop S page r = .ok ps' ∧ ps = page :: ps' := by
  obtain ⟨page, hpage⟩ := (build_eq_ok_iff hlen).mpr hS
  rw [pagesAlongRoute_eq hS hlen hpage]
  constructor
  · intro h
    cases hr : routeLoop S page r with
    | error e =>
      rw [hr] at h
      cases h
    | ok ps' =>
      rw [hr] at h
      exact ⟨page, ps', hpage, hr, (Except.ok.inj h).symm⟩
  · rintro ⟨page', ps', hpage', hr, rfl⟩
    obtain rfl := Except.ok.inj (hpage.symm.trans hpage')
    rw [hr]
    rfl

/-! ## The client -/

/-- What the client checks. -/
theorem verifyReceivedChild_eq_ok {parent b : Bytes} :
    verifyReceivedChild parent l b = .ok () ↔ ∃ p terminal children t c received,
      decode parent = .ok (.branch p terminal children, t) ∧
      (children.find? fun c ↦ c.label = l) = some c ∧ pageId b = c.childPageId ∧
      decode b = .ok (received, c.subtreeEntries) ∧
      partitionMatches (p ++ [l]) received = true := by
  rw [verifyReceivedChild, bind_eq_ok]
  constructor
  · rintro ⟨⟨page, t⟩, hparent, h⟩
    cases page with
    | leaf entries => cases h
    | branch p terminal children =>
      dsimp only [branchParts] at h
      rw [ok_bind, okOr_bind_eq_ok] at h
      obtain ⟨c, hc, h⟩ := h
      rw [reject_bind_eq_ok, not_not, bind_eq_ok] at h
      obtain ⟨hid, ⟨received, t'⟩, hb, h⟩ := h
      rw [reject_bind_eq_ok, not_not, reject_eq_ok, Bool.not_eq_false] at h
      obtain ⟨rfl, hmatch⟩ := h
      exact ⟨p, terminal, children, t, c, received, hparent, hc, hid, hb, hmatch⟩
  · rintro ⟨p, terminal, children, t, c, received, hparent, hc, hid, hb, hmatch⟩
    refine ⟨_, hparent, ?_⟩
    dsimp only [branchParts]
    rw [ok_bind, okOr_bind_eq_ok]
    refine ⟨c, hc, ?_⟩
    rw [reject_of_not (not_not.mpr hid), ok_bind, hb, ok_bind, reject_of_not (by simp), ok_bind,
      reject_of_not (by simpa using hmatch)]

/-- The page of a group is in its partition. -/
theorem partitionMatches_canonical {page : Page} {q : Bytes} (h : Canonical G page)
    (hpre : ∀ e ∈ G, q <+: e.name) : partitionMatches q page.wire = true := by
  cases h with
  | leaf hfits =>
    rw [wire, partitionMatches, List.all_eq_true]
    intro e he
    obtain ⟨e', he', rfl⟩ := List.mem_map.mp he
    rw [List.isPrefixOf_iff_prefix, Entry.name_wire]
    exact hpre e' he'
  | branch hfits hp =>
    rw [wire, partitionMatches, List.isPrefixOf_iff_prefix]
    refine (hp.isLongestCommonPrefix q).mpr fun n hn ↦ ?_
    obtain ⟨e, he, rfl⟩ := List.mem_map.mp hn
    exact hpre e he

/-- The client accepts the page of a step, and no other unless it collides with it. -/
theorem verifyReceivedChild_iff {page b : Bytes} (hS : Buildable S) (hlen : S.length < 2 ^ 63)
    (hpage : build S = .ok page)
    (hfree : ∀ G b', Step S l G → build G = .ok b' → pageId b = pageId b' → b = b') :
    verifyReceivedChild page l b = .ok () ↔ ∃ G, Step S l G ∧ build G = .ok b := by
  obtain ⟨-, P, hP, rfl⟩ := canonical_of_build hlen hpage
  rw [verifyReceivedChild_eq_ok, decode_canonical hP hS hlen]
  constructor
  · rintro ⟨p, terminal, children, t, c, received, hparent, hc, hid, -, -⟩
    rw [Except.ok.injEq, Prod.mk.injEq] at hparent
    cases hP with
    | leaf hfits => cases hparent.1
    | @branch p' terminal' children' hfits hp =>
      rw [wire, Page.branch.injEq] at hparent
      obtain ⟨⟨rfl, -, rfl⟩, -⟩ := hparent
      obtain ⟨hmem, rfl⟩ := find?_label_eq_some hc
      obtain ⟨-, b', hb', hid'⟩ := hp.child c hmem
      have hstep : Step S c.label (group p' c.label S) :=
        ⟨p', terminal', children', .branch hfits hp, List.mem_map_of_mem hmem, rfl⟩
      obtain rfl := hfree _ b' hstep hb' (hid.trans hid')
      exact ⟨_, hstep, hb'⟩
  · rintro ⟨G, hstep, hb⟩
    have hG := hstep.buildable hS
    have hGlen := hstep.length_lt hlen
    obtain ⟨p, terminal, children, hP', hl, rfl⟩ := hstep
    obtain ⟨-, Q, hQ, rfl⟩ := canonical_of_build hGlen hb
    have hdecode := decode_canonical hQ hG hGlen
    have hp := hP'.partitioned
    have hmatch := partitionMatches_canonical hQ fun e he ↦ concat_isPrefix_of_mem_group hp he
    cases hP with
    | leaf hfits =>
      cases hP' with
      | branch hfits' _ => exact absurd hfits hfits'
    | @branch p' terminal' children' hfits hp' =>
      obtain rfl := hp'.isLongestCommonPrefix.unique hp.isLongestCommonPrefix
      obtain ⟨c, hc⟩ := exists_find?_label
        (((hp'.mem_labels l).trans (hp.mem_labels l).symm).mpr hl)
      obtain ⟨hmem, rfl⟩ := find?_label_eq_some hc
      obtain ⟨hcount, b', hb', hid⟩ := hp'.child c hmem
      obtain rfl := Except.ok.inj (hb.symm.trans hb')
      have ht : UInt64.ofNat (group p' c.label S).length = c.subtreeEntries := by
        rw [← hcount, UInt64.ofNat_toNat]
      rw [ht] at hdecode
      exact ⟨p', _, children', _, c, _, rfl, hc, hid.symm, hdecode, hmatch⟩

/-! ## Both walks -/

/-- The strings that the page identities on a route are digests of: the given pages, and the
server's pages on the way. -/
def hashedPages (S : List Entry) (r : List UInt8) (ps : List Bytes) : List Bytes :=
  (ps ++ r.inits.flatMap fun r' ↦
    match pagesAlongRoute S r' with
    | .ok pages => pages
    | .error _ => []).map pageInput

/-- The walks below a page. -/
theorem verified_iff_routeLoop {page : Bytes} {r : List UInt8} {ps : List Bytes} {C : Set Bytes}
    (hfree : CollisionFree C) (hS : Buildable S) (hlen : S.length < 2 ^ 63)
    (hpage : build S = .ok page) (hr : (page :: ps).length = r.length + 1)
    (hps : ∀ b ∈ ps, pageInput b ∈ C)
    (hserver : ∀ r' ps', r' <+: r → routeLoop S page r' = .ok ps' → ∀ b ∈ ps', pageInput b ∈ C) :
    (∀ i (hi : i < r.length),
      verifyReceivedChild (page :: ps)[i] r[i] (page :: ps)[i + 1] = .ok ()) ↔
      routeLoop S page r = .ok ps := by
  induction r generalizing S page ps with
  | nil =>
    obtain rfl : ps = [] := by simpa using hr
    exact ⟨fun _ ↦ rfl, fun _ i hi ↦ absurd hi (Nat.not_lt_zero i)⟩
  | cons l r ih =>
    cases ps with
    | nil => simp at hr
    | cons b ps =>
      have hr' : (b :: ps).length = r.length + 1 := by simpa using hr
      have hbC := hps b List.mem_cons_self
      -- the first step
      have hstep : verifyReceivedChild page l b = .ok () ↔ ∃ G, Step S l G ∧ build G = .ok b := by
        refine verifyReceivedChild_iff hS hlen hpage fun G b' hG hb' hid ↦ ?_
        have hone : routeLoop S page [l] = .ok [b'] :=
          (routeLoop_cons hS hlen hpage).mpr ⟨G, b', [], hG, hb', rfl, rfl⟩
        have hb'C := hserver [l] [b'] (by simp) hone b' List.mem_cons_self
        exact List.append_cancel_left (hfree hbC hb'C hid)
      -- the steps below it
      have hrest : ∀ G, Step S l G → build G = .ok b →
          ((∀ i (hi : i < r.length),
            verifyReceivedChild (b :: ps)[i] r[i] (b :: ps)[i + 1] = .ok ()) ↔
            routeLoop G b r = .ok ps) := by
        intro G hG hb
        refine ih (hG.buildable hS) (hG.length_lt hlen) hb hr'
          (fun b hb ↦ hps b (List.mem_cons_of_mem _ hb)) fun r' ps' hr' hps' b' hb' ↦ ?_
        exact hserver (l :: r') (b :: ps') (List.cons_prefix_cons.mpr ⟨rfl, hr'⟩)
          ((routeLoop_cons hS hlen hpage).mpr ⟨G, b, ps', hG, hb, hps', rfl⟩) b'
          (List.mem_cons_of_mem _ hb')
      rw [routeLoop_cons hS hlen hpage]
      constructor
      · intro h
        obtain ⟨G, hG, hb⟩ := hstep.mp (h 0 (Nat.zero_lt_succ _))
        exact ⟨G, b, ps, hG, hb,
          (hrest G hG hb).mp fun i hi ↦ h (i + 1) (Nat.succ_lt_succ hi), rfl⟩
      · rintro ⟨G, b', ps', hG, hb, hps', heq⟩
        obtain ⟨rfl, rfl⟩ := List.cons.inj heq
        intro i hi
        cases i with
        | zero => exact hstep.mpr ⟨G, hG, hb⟩
        | succ i => exact (hrest G hG hb).mpr hps' i (Nat.lt_of_succ_lt_succ hi)

/-- **Client and server agree on directory pages.**  A list of pages has the root's identity and
passes every check of the client along a route if and only if it is what the server returns for that
route. -/
theorem verified_iff_pagesAlongRoute (S : Slice Entry)
    (hvalid : ∀ e ∈ S.toList, e.validate = .ok ())
    (hasc : S.toList.Pairwise fun a b ↦ a.name < b.name) (r : List UInt8) (ps : List Bytes)
    (hlen : ps.length = r.length + 1)
    (hfree : CollisionFree {x | x ∈ hashedPages S.toList r ps}) :
    ((build S.toList).map pageId = .ok (pageId ps[0]) ∧
      ∀ i (hi : i < r.length), verifyReceivedChild ps[i] r[i] ps[i + 1] = .ok ()) ↔
    pagesAlongRoute S.toList r = .ok ps := by
  have hS : Buildable S.toList := ⟨hvalid, hasc⟩
  have hSlen := S.length_lt
  obtain ⟨page, hpage⟩ := (build_eq_ok_iff hSlen).mpr hS
  have hserver : ∀ r' ps', r' <+: r → pagesAlongRoute S.toList r' = .ok ps' →
      ∀ b ∈ ps', pageInput b ∈ hashedPages S.toList r ps := by
    intro r' ps' hr' hps' b hb
    refine List.mem_map_of_mem (List.mem_append_right _ (List.mem_flatMap.mpr
      ⟨r', (List.mem_inits _ _).mpr hr', ?_⟩))
    rwa [hps']
  have hgiven : ∀ b ∈ ps, pageInput b ∈ hashedPages S.toList r ps :=
    fun b hb ↦ List.mem_map_of_mem (List.mem_append_left _ hb)
  cases ps with
  | nil => cases hlen
  | cons p ps =>
    have hroot : (build S.toList).map pageId = .ok (pageId p) ↔ p = page := by
      rw [hpage, Except.map, Except.ok.injEq]
      constructor
      · intro hid
        have hmem := hserver [] [page] (List.nil_prefix) ((pagesAlongRoute_eq_ok hS hSlen).mpr
          ⟨page, [], hpage, rfl, rfl⟩) page List.mem_cons_self
        exact List.append_cancel_left (hfree (hgiven p List.mem_cons_self) hmem hid.symm)
      · rintro rfl
        rfl
    have hwalk := verified_iff_routeLoop hfree hS hSlen hpage hlen
      (fun b hb ↦ hgiven b (List.mem_cons_of_mem _ hb))
      fun r' ps' hr' hps' b hb ↦ hserver r' (page :: ps') hr'
        ((pagesAlongRoute_eq_ok hS hSlen).mpr ⟨page, ps', hpage, hps', rfl⟩) b
        (List.mem_cons_of_mem _ hb)
    rw [pagesAlongRoute_eq_ok hS hSlen]
    constructor
    · rintro ⟨hid, hchain⟩
      obtain rfl := hroot.mp hid
      exact ⟨p, ps, hpage, hwalk.mp hchain, rfl⟩
    · rintro ⟨page', ps', hpage', hps', heq⟩
      obtain rfl := Except.ok.inj (hpage.symm.trans hpage')
      obtain ⟨rfl, rfl⟩ := List.cons.inj heq
      exact ⟨hroot.mpr rfl, hwalk.mpr hps'⟩

omit [Sha256] in
/-- The page of the directory in `crowd`, below that of `crowd`. -/
theorem verified_iff_pagesAlongRoute_crowd :
    letI := crowdSha256
    pagesAlongRoute crowd [103] = .ok [crowdPage.bytes, (leaf [crowdDir]).bytes] ∧
      verifyReceivedChild crowdPage.bytes 103 (leaf [crowdDir]).bytes = .ok () := by
  let _ := crowdSha256
  have hserver : pagesAlongRoute crowd [103] = .ok [crowdPage.bytes, (leaf [crowdDir]).bytes] := by
    decide +kernel
  -- the page above is on the way to it
  have hlen : crowd.length < 2 ^ 63 := by decide +kernel
  obtain ⟨page, ps, hpage, -, heq⟩ := (pagesAlongRoute_eq_ok buildable_crowd hlen).mp hserver
  have hroot : pagesAlongRoute crowd [] = .ok [crowdPage.bytes] := by
    rw [(List.cons.inj heq).1]
    exact (pagesAlongRoute_eq_ok buildable_crowd hlen).mpr ⟨page, [], hpage, rfl, rfl⟩
  have hpages : hashedPages crowd [103] [crowdPage.bytes, (leaf [crowdDir]).bytes] =
      [crowdPage.bytes, (leaf [crowdDir]).bytes, crowdPage.bytes, crowdPage.bytes,
        (leaf [crowdDir]).bytes].map pageInput := by
    rw [hashedPages]
    simp only [List.inits, List.flatMap_cons, List.map_cons, List.map_nil, List.flatMap_nil, hroot,
      hserver]
    rfl
  have hfree : ∀ x ∈ hashedPages crowd [103] [crowdPage.bytes, (leaf [crowdDir]).bytes],
      ∀ y ∈ hashedPages crowd [103] [crowdPage.bytes, (leaf [crowdDir]).bytes],
      sha256 x = sha256 y → x = y := by
    rw [hpages]
    decide +kernel
  have h := verified_iff_pagesAlongRoute ⟨crowd, by decide +kernel⟩ buildable_crowd.validate
    buildable_crowd.ascending [103] [crowdPage.bytes, (leaf [crowdDir]).bytes] rfl
    fun x hx y hy ↦ hfree x hx y hy
  exact ⟨hserver, (h.mpr hserver).2 0 (by decide)⟩

end step

end Page

end Mst2
