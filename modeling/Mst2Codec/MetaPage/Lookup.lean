import Mst2Codec.MetaPage.Cover

/-!
# Names are looked up on verified pages

From each branch page a name goes on below one label at most, the byte behind the prefix of the page
(`Page.nextLabel`).  The route that it takes ends at a page from which it goes nowhere
(`Page.Follows`).  There is exactly one such route, no longer than the name
(`Page.exists_unique_follows`), and its last page has the entry of the name or there is none: so
pages that a client has verified prove both that a name is in the directory and that it is not
(`Page.lookup_of_verified`).
-/

set_option autoImplicit false

namespace Mst2

open Bytes Except Lex

namespace Page

/-- The label below which a name goes on from a page, if there is one. -/
def nextLabel (name : Bytes) : Page → Option UInt8
  | .leaf _ => none
  | .branch pre _ children =>
    if pre.isPrefixOf name then
      name[pre.length]?.filter fun l ↦ l ∈ children.map BranchChild.label
    else none

/-- The entry of a name, if there is one. -/
def findName (name : Bytes) (entries : List Entry) : Option Entry :=
  entries.find? fun e ↦ e.name = name

theorem findName_map_wire (name : Bytes) (entries : List Entry) :
    findName name (entries.map Entry.wire) = (findName name entries).map Entry.wire := by
  rw [findName, List.find?_map, findName]
  congr 2
  funext e
  rw [Function.comp_apply, Entry.name_wire]

theorem nextLabel_branch {name pre : Bytes} {terminal : Option Entry} {children : List BranchChild}
    {l : UInt8} : nextLabel name (.branch pre terminal children) = some l ↔
      pre ++ [l] <+: name ∧ l ∈ children.map BranchChild.label := by
  rw [nextLabel, concat_isPrefix_iff]
  split
  · rename_i h
    rw [List.isPrefixOf_iff_prefix] at h
    simp [Option.filter_eq_some_iff, h]
  · rename_i h
    rw [List.isPrefixOf_iff_prefix] at h
    simp [h]

/-- The last page of the route is the first from which the name does not go on. -/
def Follows (name : Bytes) : List Bytes → List UInt8 → Prop
  | [], _ => False
  | b :: ps, [] => (∃ page t, decode b = .ok (page, t) ∧ nextLabel name page = none) ∧ ps = []
  | b :: ps, l :: r =>
    (∃ page t, decode b = .ok (page, t) ∧ nextLabel name page = some l) ∧ Follows name ps r

section directory

variable [Sha256]

variable {S G : List Entry} {l : UInt8} {name page : Bytes}

omit [Sha256] in
theorem findName_eq_some (hS : Buildable S) {e : Entry} :
    findName name S = some e ↔ e ∈ S ∧ e.name = name :=
  find?_name_eq_some hS

omit [Sha256] in
/-- The entry of a name is in the group of the label below which the name goes on. -/
theorem findName_group {p : Bytes} {terminal : Option Entry} {children : List BranchChild}
    (hS : Buildable S) (hl : nextLabel name (.branch p terminal children) = some l) :
    findName name (group p l S) = findName name S := by
  obtain ⟨hname, -⟩ := nextLabel_branch.mp hl
  refine Option.ext fun e ↦ ?_
  have hgroup : Buildable (group p l S) := hS.filter _
  rw [findName_eq_some hgroup, findName_eq_some hS, and_congr_left_iff]
  rintro rfl
  refine ⟨fun he ↦ (group_subset he).1, fun he ↦ List.mem_filter.mpr ⟨he, ?_⟩⟩
  simpa using (concat_isPrefix_iff.mp hname).2

/-- If the name goes nowhere the entry stands in the page itself. -/
theorem Canonical.findName_entriesOf {P : Page} (h : Canonical S P) (hS : Buildable S)
    (hnext : nextLabel name P = none) : findName name (entriesOf P) = findName name S := by
  cases h with
  | leaf hfits => rfl
  | @branch p terminal children hfits hp =>
    have hterminal : ∀ e, findName name (entriesOf (.branch p terminal children)) = some e ↔
        terminal = some e ∧ e.name = name := by
      intro e
      cases terminal with
      | none => simp [findName, entriesOf]
      | some t =>
        simp only [findName, entriesOf, Option.toList_some, List.find?_singleton,
          Option.ite_none_right_eq_some, decide_eq_true_eq, Option.some.injEq]
        constructor
        · rintro ⟨hname, rfl⟩
          exact ⟨rfl, hname⟩
        · rintro ⟨rfl, hname⟩
          exact ⟨hname, rfl⟩
    refine Option.ext fun e ↦ ?_
    rw [hterminal, hp.terminal_eq_some, findName_eq_some hS, and_assoc, and_congr_right_iff]
    refine fun he ↦ ⟨And.right, fun hname ↦ ⟨?_, hname⟩⟩
    -- behind the prefix there would be a label
    by_contra hne
    obtain ⟨a, ha⟩ := exists_concat_isPrefix (hp.isPrefix he) hne
    have hlabel := (hp.mem_labels a).mpr ⟨e, he, (concat_isPrefix_iff.mp ha).2⟩
    rw [nextLabel_branch.mpr ⟨hname ▸ ha, hlabel⟩] at hnext
    cases hnext

/-- A name goes on below the labels of the steps. -/
theorem Canonical.exists_step {P : Page} (h : Canonical S P) (hnext : nextLabel name P = some l) :
    ∃ p terminal children, P = .branch p terminal children ∧ Partitioned S p terminal children ∧
      p ++ [l] <+: name ∧ Step S l (group p l S) := by
  cases h with
  | leaf hfits => cases hnext
  | @branch p terminal children hfits hp =>
    obtain ⟨hname, hl⟩ := nextLabel_branch.mp hnext
    exact ⟨p, terminal, children, rfl, hp, hname, (hp.step_iff hfits).mpr ⟨hl, rfl⟩⟩

omit [Sha256] in
theorem nextLabel_wire (P : Page) : nextLabel name P.wire = nextLabel name P := by
  cases P <;> rfl

/-- **The last page of the route that a name takes has its entry**, or there is none. -/
theorem findName_heldBelow {r : List UInt8} {ps : List Bytes} (hS : Buildable S)
    (hlen : S.length < 2 ^ 63) (hpage : build S = .ok page) (hloop : routeLoop S page r = .ok ps)
    (hfollows : Follows name (page :: ps) r) :
    findName name (heldBelow S page r) = (findName name S).map Entry.wire := by
  induction r generalizing S page ps with
  | nil =>
    obtain rfl := Except.ok.inj hloop
    obtain ⟨-, P, hP, rfl⟩ := canonical_of_build hlen hpage
    obtain ⟨⟨page, t, hdecode, hnext⟩, -⟩ := hfollows
    rw [decode_canonical hP hS hlen, Except.ok.injEq, Prod.mk.injEq] at hdecode
    obtain ⟨rfl, -⟩ := hdecode
    rw [nextLabel_wire] at hnext
    rw [heldBelow_nil hP hS hlen, findName_map_wire, hP.findName_entriesOf hS hnext]
  | cons l r ih =>
    obtain ⟨-, P, hP, rfl⟩ := canonical_of_build hlen hpage
    obtain ⟨G, b, ps', hstep, hb, hrest, rfl⟩ := (routeLoop_cons hS hlen hpage).mp hloop
    obtain ⟨⟨page, t, hdecode, hnext⟩, hfollows⟩ := hfollows
    rw [decode_canonical hP hS hlen, Except.ok.injEq, Prod.mk.injEq] at hdecode
    obtain ⟨rfl, -⟩ := hdecode
    rw [nextLabel_wire] at hnext
    obtain ⟨p, terminal, children, rfl, hp, -, hstep'⟩ := hP.exists_step hnext
    obtain rfl := hstep.unique hstep'
    have hheld : heldBelow S (branch p terminal children).bytes (l :: r) =
        heldBelow (group p l S) b r := by
      rcases routeLoop_cons_cases hS hlen hpage l with ⟨G, b', hG, hb', hcons⟩ | ⟨hnone, -⟩
      · obtain rfl := hG.unique hstep
        obtain rfl := Except.ok.inj (hb.symm.trans hb')
        exact heldBelow_cons (hcons r)
      · exact absurd hstep (hnone _)
    rw [hheld, ih (hstep.buildable hS) (hstep.length_lt hlen) hb hrest hfollows,
      findName_group hS hnext]

/-- A name takes a route from every directory, and each step uses a byte of the name. -/
theorem exists_follows (hS : Buildable S) (hlen : S.length < 2 ^ 63) (hpage : build S = .ok page)
    {q : Bytes} (hq : ∀ e ∈ S, q <+: e.name) : ∃ r ps, routeLoop S page r = .ok ps ∧
      Follows name (page :: ps) r ∧ r.length ≤ name.length - q.length := by
  induction hn : S.length using Nat.strong_induction_on generalizing S page q with
  | _ n ih =>
    subst hn
    obtain ⟨-, P, hP, rfl⟩ := canonical_of_build hlen hpage
    have hdecode := decode_canonical hP hS hlen
    cases hnext : nextLabel name P with
    | none =>
      refine ⟨[], [], rfl, ⟨⟨_, _, hdecode, ?_⟩, rfl⟩, Nat.zero_le _⟩
      rw [nextLabel_wire, hnext]
    | some l =>
      obtain ⟨p, terminal, children, rfl, hp, hname, hstep⟩ := hP.exists_step hnext
      obtain ⟨b, hb⟩ := (build_eq_ok_iff (hstep.length_lt hlen)).mpr (hstep.buildable hS)
      obtain ⟨r, ps, hloop, hfollows, hle⟩ := ih _ hstep.length_lt_length (hstep.buildable hS)
        (hstep.length_lt hlen) hb (fun e he ↦ concat_isPrefix_of_mem_group hp he) rfl
      refine ⟨l :: r, b :: ps, (routeLoop_cons hS hlen hpage).mpr ⟨_, b, ps, hstep, hb, hloop, rfl⟩,
        ⟨⟨_, _, hdecode, ?_⟩, hfollows⟩, ?_⟩
      · rw [nextLabel_wire, hnext]
      · have hqp := ((hp.isLongestCommonPrefix q).mpr fun n hn ↦ by
          obtain ⟨e, he, rfl⟩ := List.mem_map.mp hn
          exact hq e he).length_le
        have hlength := hname.length_le
        rw [List.length_append, List.length_singleton] at hlength hle
        rw [List.length_cons]
        omega

/-- A name takes one route. -/
theorem Follows.unique {r r' : List UInt8} {ps ps' : List Bytes} (hS : Buildable S)
    (hlen : S.length < 2 ^ 63) (hpage : build S = .ok page) (hloop : routeLoop S page r = .ok ps)
    (hloop' : routeLoop S page r' = .ok ps') (h : Follows name (page :: ps) r)
    (h' : Follows name (page :: ps') r') : r = r' := by
  -- a page says one thing about the name
  have hpages : ∀ {b o o'}, (∃ P t, decode b = .ok (P, t) ∧ nextLabel name P = o) →
      (∃ P t, decode b = .ok (P, t) ∧ nextLabel name P = o') → o = o' := by
    rintro b o o' ⟨P, t, hP, rfl⟩ ⟨P', t', hP', rfl⟩
    obtain ⟨rfl, -⟩ := Prod.mk.inj (Except.ok.inj (hP.symm.trans hP'))
    rfl
  induction r generalizing S page r' ps ps' with
  | nil =>
    obtain rfl := Except.ok.inj hloop
    cases r' with
    | nil => rfl
    | cons l r' => cases hpages h.1 h'.1
  | cons l r ih =>
    cases r' with
    | nil =>
      obtain rfl := Except.ok.inj hloop'
      cases hpages h.1 h'.1
    | cons l' r' =>
      obtain rfl := Option.some.inj (hpages h.1 h'.1)
      obtain ⟨G, b, qs, hstep, hb, hrest, rfl⟩ := (routeLoop_cons hS hlen hpage).mp hloop
      obtain ⟨G', b', qs', hstep', hb', hrest', rfl⟩ := (routeLoop_cons hS hlen hpage).mp hloop'
      obtain rfl := hstep.unique hstep'
      obtain rfl := Except.ok.inj (hb.symm.trans hb')
      rw [ih (hstep.buildable hS) (hstep.length_lt hlen) hb hrest hrest' h.2 h'.2]

/-- The last page that a name comes to has its entry, or there is none. -/
theorem findName_lastEntries {r : List UInt8} {ps : List Bytes} (hS : Buildable S)
    (hlen : S.length < 2 ^ 63) (hpage : build S = .ok page) (hloop : routeLoop S page r = .ok ps)
    (hfollows : Follows name (page :: ps) r) :
    findName name (lastEntries (page :: ps)) = (findName name S).map Entry.wire := by
  have hfind := findName_heldBelow hS hlen hpage hloop hfollows
  rwa [heldBelow, hloop] at hfind

/-- **Every name takes exactly one route**, which is no longer than the name, and the last page of
the route has the entry of the name, or there is none. -/
theorem exists_unique_follows (S : Slice Entry) (hvalid : ∀ e ∈ S.toList, e.validate = .ok ())
    (hasc : S.toList.Pairwise fun a b ↦ a.name < b.name) (name : Bytes) :
    ∃ r ps, pagesAlongRoute S.toList r = .ok ps ∧ Follows name ps r ∧ r.length ≤ name.length ∧
      findName name (lastEntries ps) = (findName name S.toList).map Entry.wire ∧
      ∀ r' ps', pagesAlongRoute S.toList r' = .ok ps' → Follows name ps' r' →
        r' = r ∧ ps' = ps := by
  have hS : Buildable S.toList := ⟨hvalid, hasc⟩
  have hlen := S.length_lt
  obtain ⟨page, hpage⟩ := (build_eq_ok_iff hlen).mpr hS
  obtain ⟨r, ps, hloop, hfollows, hle⟩ :=
    exists_follows (q := []) hS hlen hpage fun e _ ↦ List.nil_prefix
  have hroute := (pagesAlongRoute_eq_ok hS hlen).mpr ⟨page, ps, hpage, hloop, rfl⟩
  refine ⟨r, page :: ps, hroute, hfollows, hle,
    findName_lastEntries hS hlen hpage hloop hfollows, fun r' ps' hroute' hfollows' ↦ ?_⟩
  obtain ⟨page', qs, hpage', hloop', rfl⟩ := (pagesAlongRoute_eq_ok hS hlen).mp hroute'
  obtain rfl := Except.ok.inj (hpage.symm.trans hpage')
  obtain rfl := hfollows'.unique hS hlen hpage hloop' hloop hfollows
  exact ⟨rfl, Except.ok.inj (hroute'.symm.trans hroute)⟩

/-- Pages that are verified are those on the route. -/
theorem routeLoop_of_verified {r : List UInt8} {b : Bytes} {ps : List Bytes} {C : Set Bytes}
    (hfree : CollisionFree C) (hS : Buildable S) (hlen : S.length < 2 ^ 63)
    (hpage : build S = .ok page) (hr : (b :: ps).length = r.length + 1)
    (hgiven : ∀ x ∈ b :: ps, pageInput x ∈ C)
    (hserver : ∀ r' ps', r' <+: r → routeLoop S page r' = .ok ps' →
      ∀ x ∈ page :: ps', pageInput x ∈ C) (hroot : pageId page = pageId b)
    (hverified : ∀ i (hi : i < r.length),
      verifyReceivedChild (b :: ps)[i] r[i] (b :: ps)[i + 1] = .ok ()) :
    b = page ∧ routeLoop S page r = .ok ps := by
  obtain rfl : page = b := List.append_cancel_left
    (hfree (hserver [] [] List.nil_prefix rfl page List.mem_cons_self) (hgiven b List.mem_cons_self)
      hroot)
  exact ⟨rfl, (verified_iff_routeLoop hfree hS hlen hpage hr
    (fun x hx ↦ hgiven x (List.mem_cons_of_mem _ hx))
    fun r' ps' hr' hps' x hx ↦ hserver r' ps' hr' hps' x (List.mem_cons_of_mem _ hx)).mp hverified⟩

/-- **Verified pages prove whether a name is in the directory.**  If pages have the root's identity
and pass every check of the client along the route that a name takes over them, the last of them has
the entry of the name, or there is none. -/
theorem lookup_of_verified (S : Slice Entry) (hvalid : ∀ e ∈ S.toList, e.validate = .ok ())
    (hasc : S.toList.Pairwise fun a b ↦ a.name < b.name) (name : Bytes) (r : List UInt8)
    (ps : List Bytes) (hlen : r.length + 1 = ps.length)
    (hfree : CollisionFree {x | x ∈ hashedPages S.toList r ps})
    (hroot : (build S.toList).map pageId = .ok (pageId ps[0]))
    (hverified : ∀ i (hi : i < r.length), verifyReceivedChild ps[i] r[i] ps[i + 1] = .ok ())
    (hfollows : Follows name ps r) :
    (lastEntries ps).find? (fun e ↦ e.name = name) =
      (S.toList.find? fun e ↦ e.name = name).map Entry.wire := by
  have hS : Buildable S.toList := ⟨hvalid, hasc⟩
  have hSlen := S.length_lt
  obtain ⟨page, hpage⟩ := (build_eq_ok_iff hSlen).mpr hS
  cases ps with
  | nil => cases hlen
  | cons b ps =>
    rw [hpage, Except.map, Except.ok.injEq] at hroot
    have hgiven : ∀ x ∈ b :: ps, pageInput x ∈ hashedPages S.toList r (b :: ps) :=
      fun x hx ↦ List.mem_map_of_mem (List.mem_append_left _ hx)
    have hserver : ∀ r' ps', r' <+: r → routeLoop S.toList page r' = .ok ps' →
        ∀ x ∈ page :: ps', pageInput x ∈ hashedPages S.toList r (b :: ps) := by
      intro r' ps' hr' hps' x hx
      refine List.mem_map_of_mem (List.mem_append_right _ (List.mem_flatMap.mpr
        ⟨r', (List.mem_inits _ _).mpr hr', ?_⟩))
      rwa [(pagesAlongRoute_eq_ok hS hSlen).mpr ⟨page, ps', hpage, hps', rfl⟩]
    obtain ⟨rfl, hloop⟩ := routeLoop_of_verified hfree hS hSlen hpage hlen.symm hgiven hserver hroot
      hverified
    exact findName_lastEntries hS hSlen hpage hloop hfollows

/-- A hashed page is a given page or one that the server walks. -/
theorem exists_of_mem_hashedPages {S : List Entry} {r : List UInt8} {ps : List Bytes} {x : Bytes}
    (hx : x ∈ hashedPages S r ps) :
    ∃ b, pageInput b = x ∧
      (b ∈ ps ∨ ∃ r' pages, r' ∈ r.inits ∧ pagesAlongRoute S r' = .ok pages ∧ b ∈ pages) := by
  obtain ⟨b, hb, rfl⟩ := List.mem_map.mp hx
  refine ⟨b, rfl, (List.mem_append.mp hb).imp_right fun hb ↦ ?_⟩
  obtain ⟨r', hr', hb⟩ := List.mem_flatMap.mp hb
  split at hb
  next pages hpages => exact ⟨r', pages, hr', hpages, hb⟩
  next => cases hb

/-! ### A name in a crowd -/

omit [Sha256] in
/-- The code on the directory, evaluated. -/
theorem crowd_computed :
    letI := crowdSha256
    build crowd = .ok crowdPage.bytes ∧
      routeLoop crowd crowdPage.bytes [103] = .ok [(leaf [crowdDir]).bytes] ∧
      decode crowdPage.bytes = .ok (crowdPage, 129) ∧
      decode (leaf [crowdDir]).bytes = .ok (leaf [crowdDir], 1) ∧
      verifyReceivedChild crowdPage.bytes 103 (leaf [crowdDir]).bytes = .ok () ∧
      (findName "g".asBytes crowd).map Entry.wire = some crowdDir ∧
      (findName "ga".asBytes crowd).map Entry.wire = none ∧
      ∀ x ∈ [crowdPage.bytes, (leaf [crowdDir]).bytes],
        ∀ y ∈ [crowdPage.bytes, (leaf [crowdDir]).bytes],
        sha256 (pageInput x) = sha256 (pageInput y) → pageInput x = pageInput y := by
  decide +kernel

omit [Sha256] in
theorem pagesAlongRoute_crowd :
    letI := crowdSha256
    pagesAlongRoute crowd [] = .ok [crowdPage.bytes] ∧
      pagesAlongRoute crowd [103] = .ok [crowdPage.bytes, (leaf [crowdDir]).bytes] := by
  let _ := crowdSha256
  obtain ⟨hbuild, hloop, -⟩ := crowd_computed
  exact ⟨(pagesAlongRoute_eq_ok buildable_crowd length_crowd_lt).mpr ⟨_, [], hbuild, rfl, rfl⟩,
    (pagesAlongRoute_eq_ok buildable_crowd length_crowd_lt).mpr ⟨_, _, hbuild, hloop, rfl⟩⟩

omit [Sha256] in
/-- The name of the directory takes the route to its page. -/
theorem follows_crowd {name : Bytes} (hname : name[0]? = some 103) :
    Follows name [crowdPage.bytes, (leaf [crowdDir]).bytes] [103] := by
  let _ := crowdSha256
  obtain ⟨-, -, hpage, hleaf, -⟩ := crowd_computed
  refine ⟨⟨crowdPage, 129, hpage, nextLabel_branch.mpr ⟨?_, by decide⟩⟩,
    ⟨leaf [crowdDir], 1, hleaf, rfl⟩, rfl⟩
  cases name with
  | nil => cases hname
  | cons a name =>
    obtain rfl := Option.some.inj hname
    exact ⟨name, rfl⟩

omit [Sha256] in
/-- The directory is found. -/
theorem exists_unique_follows_crowd :
    letI := crowdSha256
    ∃ r ps, pagesAlongRoute crowd r = .ok ps ∧ findName "g".asBytes (lastEntries ps) =
      some crowdDir := by
  let _ := crowdSha256
  obtain ⟨-, -, -, -, -, hfound, -⟩ := crowd_computed
  obtain ⟨r, ps, hroute, -, -, hfind, -⟩ := exists_unique_follows ⟨crowd, length_crowd_lt⟩
    buildable_crowd.validate buildable_crowd.ascending "g".asBytes
  exact ⟨r, ps, hroute, hfind.trans hfound⟩

omit [Sha256] in
/-- The pages that are hashed for the directory. -/
theorem mem_hashedPages_crowd {x : Bytes} :
    letI := crowdSha256
    x ∈ hashedPages crowd [103] [crowdPage.bytes, (leaf [crowdDir]).bytes] →
      ∃ b ∈ [crowdPage.bytes, (leaf [crowdDir]).bytes], pageInput b = x := by
  let _ := crowdSha256
  intro hx
  obtain ⟨b, rfl, hb | ⟨r, pages, hr, hpages, hb⟩⟩ := exists_of_mem_hashedPages hx
  · exact ⟨b, hb, rfl⟩
  rcases List.mem_pair.mp hr with rfl | rfl
  · obtain rfl := Except.ok.inj (hpages.symm.trans pagesAlongRoute_crowd.1)
    exact ⟨b, List.mem_cons.mpr (.inl (List.mem_singleton.mp hb)), rfl⟩
  · obtain rfl := Except.ok.inj (hpages.symm.trans pagesAlongRoute_crowd.2)
    exact ⟨b, hb, rfl⟩

omit [Sha256] in
theorem collisionFree_crowd :
    letI := crowdSha256
    CollisionFree {x | x ∈ hashedPages crowd [103] [crowdPage.bytes, (leaf [crowdDir]).bytes]} := by
  let _ := crowdSha256
  obtain ⟨-, -, -, -, -, -, -, hfree⟩ := crowd_computed
  intro x hx y hy hxy
  obtain ⟨a, ha, rfl⟩ := mem_hashedPages_crowd hx
  obtain ⟨b, hb, rfl⟩ := mem_hashedPages_crowd hy
  exact hfree a ha b hb hxy

omit [Sha256] in
/-- No name but its own is found on its page. -/
theorem lookup_of_verified_crowd :
    letI := crowdSha256
    (lastEntries [crowdPage.bytes, (leaf [crowdDir]).bytes]).find?
      (fun e ↦ e.name = "ga".asBytes) = none := by
  let _ := crowdSha256
  obtain ⟨hbuild, -, -, -, hchild, -, hmissing, -⟩ := crowd_computed
  have hroot : (build crowd).map pageId = .ok (pageId crowdPage.bytes) := by
    rw [hbuild]
    rfl
  have h := lookup_of_verified ⟨crowd, length_crowd_lt⟩ buildable_crowd.validate
    buildable_crowd.ascending "ga".asBytes [103] [crowdPage.bytes, (leaf [crowdDir]).bytes] rfl
    collisionFree_crowd hroot (by
      intro i hi
      obtain rfl : i = 0 := by simpa using hi
      exact hchild) (follows_crowd rfl)
  exact h.trans hmissing

end directory

end Page

end Mst2
