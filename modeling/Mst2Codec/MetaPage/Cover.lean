import Mst2Codec.MetaPage.Route

/-!
# Routes cover a directory

The routes of a directory are the empty one and, for each label of its branch page, the routes of
the group of that label.  A leaf page holds its entries and a branch page its terminal, so that the
last pages of all routes hold the directory, entry by entry and in order (`exists_routes`).  A route
stops at a leaf or at a label that is not there, and nowhere else (`isMissing_of_routeLoop`).

What a page holds of an entry is its `wire` form: the fields that its kind has.
-/

set_option autoImplicit false

namespace Mst2

open Bytes Except Lex

namespace Page

/-- The entries that a page holds itself: those of a leaf, the terminal of a branch. -/
def entriesOf : Page → List Entry
  | .leaf entries => entries
  | .branch _ terminal _ => terminal.toList

/-- The entries of the last page. -/
def lastEntries (pages : List Bytes) : List Entry :=
  match pages.getLast?.map decode with
  | some (.ok (page, _)) => entriesOf page
  | _ => []

section cover

variable [Sha256]

/-- The entries of the last page of a route; none if there is no such route. -/
def held (S : List Entry) (r : List UInt8) : List Entry :=
  match pagesAlongRoute S r with
  | .ok pages => lastEntries pages
  | .error _ => []

/-- The entries of the last page of a route that goes on below a page. -/
def heldBelow (S : List Entry) (page : Bytes) (r : List UInt8) : List Entry :=
  match routeLoop S page r with
  | .ok pages => lastEntries (page :: pages)
  | .error _ => []

variable {S G : List Entry} {l : UInt8} {page : Bytes}

theorem held_eq (hS : Buildable S) (hlen : S.length < 2 ^ 63) (hpage : build S = .ok page)
    (r : List UInt8) : held S r = heldBelow S page r := by
  rw [held, heldBelow, pagesAlongRoute_eq hS hlen hpage]
  cases routeLoop S page r with
  | error e => rfl
  | ok ps => rfl

omit [Sha256] in
theorem lastEntries_cons (page b : Bytes) (ps : List Bytes) :
    lastEntries (page :: b :: ps) = lastEntries (b :: ps) := by
  rw [lastEntries, List.getLast?_cons_cons, lastEntries]

theorem lastEntries_singleton {P : Page} (hP : Canonical S P) (hS : Buildable S)
    (hlen : S.length < 2 ^ 63) : lastEntries [P.bytes] = entriesOf P.wire := by
  rw [lastEntries, List.getLast?_singleton, Option.map_some, decode_canonical hP hS hlen]

omit [Sha256] in
theorem entriesOf_wire (P : Page) : entriesOf P.wire = (entriesOf P).map Entry.wire := by
  cases P with
  | leaf entries => rfl
  | branch p terminal children => cases terminal <;> rfl

/-- The empty route ends at the page itself. -/
theorem heldBelow_nil {P : Page} (hP : Canonical S P) (hS : Buildable S)
    (hlen : S.length < 2 ^ 63) : heldBelow S P.bytes [] = (entriesOf P).map Entry.wire := by
  rw [← entriesOf_wire, ← lastEntries_singleton hP hS hlen]
  rfl

/-- A route that goes on ends where it ends below the group. -/
theorem heldBelow_cons {b : Bytes} {r : List UInt8}
    (hloop : routeLoop S page (l :: r) = (b :: ·) <$> routeLoop G b r) :
    heldBelow S page (l :: r) = heldBelow G b r := by
  rw [heldBelow, heldBelow, hloop]
  cases routeLoop G b r with
  | error e => rfl
  | ok ps => exact lastEntries_cons page b ps

/-- **A route stops at a leaf or at a missing label, and nowhere else.** -/
theorem isMissing_of_routeLoop {r : List UInt8} {e : CodecError} (hS : Buildable S)
    (hlen : S.length < 2 ^ 63) (hpage : build S = .ok page)
    (h : routeLoop S page r = .error e) : IsMissing e := by
  induction r generalizing S page with
  | nil => cases h
  | cons l r ih =>
    rcases routeLoop_cons_cases hS hlen hpage l with ⟨G, b, hstep, hb, hloop⟩ | ⟨-, e', he', hloop⟩
    · rw [hloop] at h
      cases hr : routeLoop G b r with
      | error e' =>
        rw [hr] at h
        obtain rfl := Except.error.inj h
        exact ih (hstep.buildable hS) (hstep.length_lt hlen) hb hr
      | ok ps =>
        rw [hr] at h
        cases h
    · rw [hloop] at h
      exact Except.error.inj h ▸ he'

omit [Sha256] in
/-- The routes of a branch: the empty one, and those of the groups behind their labels. -/
theorem nodup_routes {labels : List UInt8} {below : UInt8 → List (List UInt8)}
    (hlabels : labels.Pairwise (· < ·)) (hbelow : ∀ l ∈ labels, (below l).Nodup) :
    ([] :: labels.flatMap fun l ↦ (below l).map (l :: ·)).Nodup := by
  rw [List.nodup_cons, List.nodup_flatMap]
  refine ⟨by simp, fun l hl ↦ (hbelow l hl).map fun _ _ h ↦ (List.cons.inj h).2,
    hlabels.imp fun {a b} hab ↦ ?_⟩
  intro r hr hr'
  obtain ⟨s, -, rfl⟩ := List.mem_map.mp hr
  obtain ⟨s', -, heq⟩ := List.mem_map.mp hr'
  exact hab.ne' (List.cons.inj heq).1

/-- **The last pages of the routes hold the directory.** -/
theorem exists_routes (hS : Buildable S) (hlen : S.length < 2 ^ 63) (hpage : build S = .ok page) :
    ∃ routes : List (List UInt8), routes.Nodup ∧
      (∀ r, r ∈ routes ↔ ∃ ps, routeLoop S page r = .ok ps) ∧
      routes.flatMap (heldBelow S page) = S.map Entry.wire := by
  -- the groups are smaller
  induction hn : S.length using Nat.strong_induction_on generalizing S page with
  | _ n ih =>
    subst hn
    obtain ⟨-, P, hP, rfl⟩ := canonical_of_build hlen hpage
    cases hP with
    | leaf hfits =>
      refine ⟨[[]], List.nodup_singleton _, fun r ↦ ?_, ?_⟩
      · rw [List.mem_singleton]
        constructor
        · rintro rfl
          exact ⟨[], rfl⟩
        · rintro ⟨ps, hps⟩
          cases r with
          | nil => rfl
          | cons l r =>
            obtain ⟨G, b, ps', hstep, -⟩ := (routeLoop_cons hS hlen hpage).mp hps
            exact absurd hstep hfits.not_step
      · rw [List.flatMap_singleton, heldBelow_nil (.leaf hfits) hS hlen]
        rfl
    | @branch p terminal children hfits hp =>
      have hP : Canonical S (.branch p terminal children) := .branch hfits hp
      -- the routes below each label
      have hbelow : ∀ l, ∃ routes : List (List UInt8), l ∈ children.map BranchChild.label →
          routes.Nodup ∧ (∀ r, r ∈ routes ↔
            ∃ ps, routeLoop S (branch p terminal children).bytes (l :: r) = .ok ps) ∧
          routes.flatMap (fun r ↦ heldBelow S (branch p terminal children).bytes (l :: r)) =
            (group p l S).map Entry.wire := by
        intro l
        by_cases hl : l ∈ children.map BranchChild.label
        swap
        · exact ⟨[], fun h ↦ absurd h hl⟩
        have hstep : Step S l (group p l S) := (hp.step_iff hfits).mpr ⟨hl, rfl⟩
        rcases routeLoop_cons_cases hS hlen hpage l with ⟨G, b, hG, hb, hloop⟩ | ⟨hnone, -⟩
        · obtain rfl := hG.unique hstep
          obtain ⟨routes, hnodup, hmem, hflat⟩ := ih _ hstep.length_lt_length (hstep.buildable hS)
            (hstep.length_lt hlen) hb rfl
          refine ⟨routes, fun _ ↦ ⟨hnodup, fun r ↦ ?_, ?_⟩⟩
          · rw [hmem, hloop]
            cases routeLoop (group p l S) b r with
            | error e => exact ⟨nofun, nofun⟩
            | ok ps => exact ⟨fun _ ↦ ⟨_, rfl⟩, fun _ ↦ ⟨_, rfl⟩⟩
          · rw [← hflat]
            exact List.flatMap_congr fun r _ ↦ heldBelow_cons (hloop r)
        · exact absurd hstep (hnone _)
      choose below hbelow using hbelow
      refine ⟨[] :: (children.map BranchChild.label).flatMap fun l ↦ (below l).map (l :: ·),
        nodup_routes (List.pairwise_map.mpr hp.ascending) fun l hl ↦ (hbelow l hl).1,
        fun r ↦ ?_, ?_⟩
      · cases r with
        | nil => exact ⟨fun _ ↦ ⟨[], rfl⟩, fun _ ↦ List.mem_cons_self⟩
        | cons l r =>
          rw [List.mem_cons, List.mem_flatMap]
          constructor
          · rintro (h | ⟨l', hl, h⟩)
            · cases h
            · obtain ⟨r', hr, heq⟩ := List.mem_map.mp h
              obtain ⟨rfl, rfl⟩ := List.cons.inj heq
              exact ((hbelow l' hl).2.1 r').mp hr
          · rintro ⟨ps, hps⟩
            obtain ⟨G, b, ps', hstep, -⟩ := (routeLoop_cons hS hlen hpage).mp hps
            have hl := ((hp.step_iff hfits).mp hstep).1
            exact .inr ⟨l, hl, List.mem_map_of_mem (((hbelow l hl).2.1 r).mpr ⟨ps, hps⟩)⟩
      · have hgroups : ((children.map BranchChild.label).flatMap fun l ↦
            (below l).map (l :: ·)).flatMap (heldBelow S (branch p terminal children).bytes) =
            (children.flatMap fun c ↦ group p c.label S).map Entry.wire := by
          rw [List.flatMap_assoc, List.map_flatMap, List.flatMap_map]
          refine List.flatMap_congr fun c hc ↦ ?_
          rw [List.flatMap_map]
          exact (hbelow c.label (List.mem_map_of_mem hc)).2.2
        rw [List.flatMap_cons, heldBelow_nil hP hS hlen, hgroups, ← List.map_append, entriesOf,
          hp.append_groups]

/-- A page of a route holds entries of the directory. -/
theorem mem_of_mem_heldBelow {r : List UInt8} {x : Entry} (hS : Buildable S)
    (hlen : S.length < 2 ^ 63) (hpage : build S = .ok page) (hx : x ∈ heldBelow S page r) :
    ∃ e ∈ S, e.wire = x := by
  obtain ⟨routes, -, hmem, hflat⟩ := exists_routes hS hlen hpage
  have hr : r ∈ routes := by
    rw [hmem]
    rw [heldBelow] at hx
    cases hloop : routeLoop S page r with
    | error e =>
      rw [hloop] at hx
      cases hx
    | ok ps => exact ⟨ps, rfl⟩
  rw [← List.mem_map, ← hflat]
  exact List.mem_flatMap.mpr ⟨r, hr, hx⟩

/-- **The route to an entry spells its name**, one byte for each branch page on the way: the byte
behind the prefix of the page. -/
theorem spells_of_mem_heldBelow {r : List UInt8} {ps : List Bytes} {x : Entry} (hS : Buildable S)
    (hlen : S.length < 2 ^ 63) (hpage : build S = .ok page) (hloop : routeLoop S page r = .ok ps)
    (hx : x ∈ heldBelow S page r) (i : ℕ) (l : UInt8) (hi : r[i]? = some l) :
    ∃ b p terminal children t, (page :: ps)[i]? = some b ∧
      decode b = .ok (.branch p terminal children, t) ∧ x.name[p.length]? = some l := by
  induction r generalizing S page ps i with
  | nil => simp at hi
  | cons l' r ih =>
    rcases routeLoop_cons_cases hS hlen hpage l' with ⟨G, b, hstep, hb, hcons⟩ | ⟨-, e, -, hcons⟩
    swap
    · cases (hcons r).symm.trans hloop
    have hG := hstep.buildable hS
    have hGlen := hstep.length_lt hlen
    rw [heldBelow_cons (hcons r)] at hx
    cases i with
    | zero =>
      obtain rfl : l' = l := by simpa using hi
      obtain ⟨-, P, hP, rfl⟩ := canonical_of_build hlen hpage
      have hdecode := decode_canonical hP hS hlen
      obtain ⟨e, he, rfl⟩ := mem_of_mem_heldBelow hG hGlen hb hx
      cases hP with
      | leaf hfits => exact absurd hstep hfits.not_step
      | @branch p terminal children hfits hp =>
        obtain ⟨-, rfl⟩ := (hp.step_iff hfits).mp hstep
        refine ⟨_, p, _, children, _, rfl, hdecode, ?_⟩
        rw [Entry.name_wire]
        exact (group_subset he).2
    | succ i =>
      rw [hcons] at hloop
      cases hr : routeLoop G b r with
      | error e =>
        rw [hr] at hloop
        cases hloop
      | ok ps' =>
        rw [hr] at hloop
        obtain rfl := Except.ok.inj hloop
        exact ih hG hGlen hb hr hx i (by simpa using hi)

/-- **Routes cover a directory exactly once.**  The last pages of the routes that exist hold the
entries, each once and nothing else; the route to an entry takes the byte of its name behind the
prefix of each branch page; any other route ends at a leaf or at a missing label. -/
theorem routes_cover (S : Slice Entry) (hvalid : ∀ e ∈ S.toList, e.validate = .ok ())
    (hasc : S.toList.Pairwise fun a b ↦ a.name < b.name) :
    (∃ routes : List (List UInt8), routes.Nodup ∧
      (∀ r, r ∈ routes ↔ ∃ ps, pagesAlongRoute S.toList r = .ok ps) ∧
      routes.flatMap (held S.toList) = S.toList.map Entry.wire) ∧
    (S.toList.map Entry.wire).Nodup ∧ (∀ e ∈ S.toList, e.Made → e.wire = e) ∧
    (∀ (r : List UInt8) (ps : List Bytes), pagesAlongRoute S.toList r = .ok ps →
      ∀ x ∈ held S.toList r, ∀ (i : ℕ) (l : UInt8), r[i]? = some l →
        ∃ b p terminal children t, ps[i]? = some b ∧
          decode b = .ok (.branch p terminal children, t) ∧ x.name[p.length]? = some l) ∧
    ∀ r e, pagesAlongRoute S.toList r = .error e →
      (e = .badOrdering "route descends past a leaf page" ∨
        e = .badOrdering "route label not present in page") ∧
      e ≠ .badOrdering "entry outside branch prefix" ∧
      e ≠ .badOrdering "route label selects an empty group" ∧
      e ≠ .digestMismatch "branch child page id" := by
  have hS : Buildable S.toList := ⟨hvalid, hasc⟩
  have hlen := S.length_lt
  obtain ⟨page, hpage⟩ := (build_eq_ok_iff hlen).mpr hS
  have hroute := pagesAlongRoute_eq hS hlen hpage
  refine ⟨?_, ?_, fun e _ hmade ↦ Entry.wire_of_shaped hmade.shaped, ?_, ?_⟩
  · obtain ⟨routes, hnodup, hmem, hflat⟩ := exists_routes hS hlen hpage
    refine ⟨routes, hnodup, fun r ↦ ?_, ?_⟩
    · rw [hmem, hroute]
      cases routeLoop S.toList page r with
      | error e => exact ⟨nofun, nofun⟩
      | ok ps => exact ⟨fun _ ↦ ⟨_, rfl⟩, fun _ ↦ ⟨_, rfl⟩⟩
    · rw [← hflat]
      exact List.flatMap_congr fun r _ ↦ held_eq hS hlen hpage r
  · refine List.Nodup.of_map Entry.name ?_
    rw [List.map_map, show Entry.name ∘ Entry.wire = Entry.name from funext Entry.name_wire]
    exact List.pairwise_map.mpr (hasc.imp ne_of_lt)
  · intro r ps hps x hx i l hi
    rw [held_eq hS hlen hpage] at hx
    rw [hroute] at hps
    cases hloop : routeLoop S.toList page r with
    | error e =>
      rw [hloop] at hps
      cases hps
    | ok ps' =>
      rw [hloop] at hps
      obtain rfl := Except.ok.inj hps
      exact spells_of_mem_heldBelow hS hlen hpage hloop hx i l hi
  · intro r e he
    rw [hroute] at he
    cases hloop : routeLoop S.toList page r with
    | ok ps =>
      rw [hloop] at he
      cases he
    | error e' =>
      rw [hloop] at he
      obtain rfl := Except.error.inj he
      have hmissing := isMissing_of_routeLoop hS hlen hpage hloop
      refine ⟨hmissing, ?_⟩
      rcases hmissing with rfl | rfl <;> decide

omit [Sha256] in
/-- The routes of `crowd`. -/
theorem routes_cover_crowd :
    letI := crowdSha256
    ∃ routes : List (List UInt8), routes.Nodup ∧
      (∀ r, r ∈ routes ↔ ∃ ps, pagesAlongRoute crowd r = .ok ps) ∧
      routes.flatMap (held crowd) = crowd := by
  let _ := crowdSha256
  obtain ⟨⟨routes, hnodup, hmem, hflat⟩, -, hmade, -⟩ := routes_cover ⟨crowd, by decide +kernel⟩
    buildable_crowd.validate buildable_crowd.ascending
  refine ⟨routes, hnodup, hmem, hflat.trans ?_⟩
  rw [List.map_congr_left fun e he ↦ hmade e he (made_crowd he), List.map_id']

end cover

end Page

end Mst2
