import Mst2Codec.MetaPage

/-!
# Building and walking the canonical tree

`build`, `pagesAlongRoute` and `verifyReceivedChild` of `src/metapage.rs`.

`build` calls itself on the groups of a partition.  That a group is smaller than the whole is not
a matter of sorted names: no entry is in two groups (`partition_eq_ok`), and the check for at least
two groups, of which the terminal counts as one, leaves something outside each of them
(`length_lt_of_partition`).
-/

set_option autoImplicit false

namespace Mst2

open Bytes Except

namespace Page

/-! ## The groups of a partition -/

theorem flatMap_pushGroup (groups : List (UInt8 × List Entry)) (label : UInt8) (e : Entry) :
    (pushGroup groups label e).flatMap Prod.snd = groups.flatMap Prod.snd ++ [e] := by
  rw [pushGroup]
  split
  · rename_i l group hlast
    obtain ⟨init, rfl⟩ := List.getLast?_eq_some_iff.mp hlast
    split <;> simp
  · rename_i hlast
    rw [List.getLast?_eq_none_iff.mp hlast]
    simp

theorem mem_pushGroup {groups : List (UInt8 × List Entry)} {label : UInt8} {e : Entry}
    {g : UInt8 × List Entry} (h : g ∈ pushGroup groups label e) :
    g ∈ groups ∨ g = (label, [e]) ∨
      ∃ group, (label, group) ∈ groups ∧ g = (label, group ++ [e]) := by
  rw [pushGroup] at h
  split at h
  · rename_i l group hlast
    obtain ⟨init, rfl⟩ := List.getLast?_eq_some_iff.mp hlast
    split at h
    · rename_i hl
      subst hl
      rw [List.dropLast_concat, List.mem_append, List.mem_singleton] at h
      rcases h with h | rfl
      · exact .inl (List.mem_append_left _ h)
      · exact .inr (.inr ⟨group, by simp, rfl⟩)
    · rcases List.mem_append.mp h with h | h
      · exact .inl h
      · exact .inr (.inl (List.mem_singleton.mp h))
  · exact .inr (.inl (List.mem_singleton.mp h))

/-- **A partition loses nothing and repeats nothing**: its groups, one after the other, are the
entries without the terminal, and none is empty. -/
theorem partition_eq_ok {p : Bytes} {groups gs : List (UInt8 × List Entry)} {entries : List Entry}
    (h : partition p groups entries = .ok gs) :
    gs.flatMap Prod.snd = groups.flatMap Prod.snd ++ entries.filter (fun e ↦ e.name ≠ p) ∧
      ((∀ g ∈ groups, g.2 ≠ []) → ∀ g ∈ gs, g.2 ≠ []) := by
  induction entries generalizing groups with
  | nil =>
    obtain rfl : groups = gs := Except.ok.inj h
    exact ⟨by simp, fun h ↦ h⟩
  | cons e entries ih =>
    rw [partition] at h
    split at h
    · rename_i hname
      obtain ⟨hflat, hne⟩ := ih h
      exact ⟨by rw [hflat, List.filter_cons_of_neg (by simpa using hname)], hne⟩
    · rename_i hname
      obtain ⟨label, -, h⟩ := okOr_bind_eq_ok.mp h
      obtain ⟨hflat, hne⟩ := ih h
      refine ⟨?_, fun hgroups ↦ hne fun g hg ↦ ?_⟩
      · rw [hflat, flatMap_pushGroup, List.filter_cons_of_pos (by simpa using hname),
          List.append_assoc, List.singleton_append]
      · rcases mem_pushGroup hg with hg | rfl | ⟨group, -, rfl⟩
        · exact hgroups g hg
        · simp
        · simp

/-- **Every group is smaller than the whole**, if there are at least two of them. -/
theorem length_lt_of_partition {p : Bytes} {gs : List (UInt8 × List Entry)} {entries : List Entry}
    (h : partition p [] entries = .ok gs)
    (htwo : ¬ gs.length + (entries.find? fun e ↦ e.name = p).toList.length < 2)
    {g : UInt8 × List Entry} (hg : g ∈ gs) : g.2.length < entries.length := by
  obtain ⟨hflat, hne⟩ := partition_eq_ok h
  have hne := hne (by simp)
  have hlen := congrArg List.length hflat
  rw [List.flatMap_nil, List.nil_append] at hlen
  obtain ⟨A, B, rfl⟩ := List.append_of_mem hg
  have hfilter := List.length_filter_le (fun e ↦ decide (e.name ≠ p)) entries
  simp only [List.flatMap_append, List.flatMap_cons, List.length_append] at hlen
  cases hterminal : entries.find? fun e ↦ e.name = p with
  | some e =>
    -- the terminal is in no group
    have hlt : (entries.filter fun e ↦ e.name ≠ p).length < entries.length := by
      refine List.length_filter_lt_length_iff_exists.mpr
        ⟨e, List.mem_of_find?_eq_some hterminal, ?_⟩
      simpa using List.find?_some hterminal
    omega
  | none =>
    -- there is another group
    rw [hterminal] at htwo
    simp only [List.length_append, List.length_cons, Option.toList_none, List.length_nil] at htwo
    have hother : 0 < (A.flatMap Prod.snd).length + (B.flatMap Prod.snd).length := by
      cases A with
      | cons a A =>
        have := List.length_pos_iff.mpr (hne a (by simp))
        simp only [List.flatMap_cons, List.length_append]
        omega
      | nil =>
        cases B with
        | nil => simp at htwo
        | cons b B =>
          have := List.length_pos_iff.mpr (hne b (by simp))
          simp only [List.flatMap_cons, List.length_append]
          omega
    omega

variable [Sha256]

/-! ## Building -/

/-- `build` -/
def build (entries : List Entry) : CodecResult Bytes := do
  checkInput none entries
  match leafBytes entries with
  | some bytes => pure bytes
  | none =>
    let p := lcp (entries.map Entry.name)
    let terminal := entries.find? fun e ↦ e.name = p
    match _hgroups : partition p [] entries with
    | .error e => .error e
    | .ok groups =>
      if _htwo : groups.length + terminal.toList.length < 2 then
        .error (.badOrdering "partition produced fewer than two groups")
      else do
        let children ← groups.attach.mapM fun ⟨(label, group), _hmem⟩ ↦ do
          let bytes ← build group
          pure (⟨label, UInt64.ofNat group.length, pageId bytes⟩ : BranchChild)
        encode (.branch p terminal children)
termination_by entries.length
decreasing_by exact length_lt_of_partition _hgroups _htwo _hmem

/-! ## Walking a route -/

/-- The entries that go below `label`: `build`'s partition again, for one label. -/
def selectGroup (pre : Bytes) (label : UInt8) : List Entry → CodecResult (List Entry)
  | [] => pure []
  | e :: entries =>
    if e.name = pre then selectGroup pre label entries
    else do
      reject (e.name.length ≤ pre.length ∨ e.name.take pre.length ≠ pre)
        (.badOrdering "entry outside branch prefix")
      let group ← selectGroup pre label entries
      pure (if e.name.getD pre.length 0 = label then e :: group else group)

/-- The prefix and the children of a branch page. -/
def branchParts (error : String) : Page → CodecResult (Bytes × List BranchChild)
  | .leaf _ => .error (.badOrdering error)
  | .branch pre _ children => .ok (pre, children)

/-- The loop of `pages_along_route`: the pages below `page`, whose entries are `current`. -/
def routeLoop (current : List Entry) (page : Bytes) : List UInt8 → CodecResult (List Bytes)
  | [] => pure []
  | label :: rest => do
    let (decoded, _) ← decode page
    let (pre, children) ← branchParts "route descends past a leaf page" decoded
    let child ← okOr (children.find? fun c ↦ c.label = label)
      (.badOrdering "route label not present in page")
    let group ← selectGroup pre label current
    reject (group = []) (.badOrdering "route label selects an empty group")
    let childBytes ← build group
    reject (pageId childBytes ≠ child.childPageId) (.digestMismatch "branch child page id")
    let pages ← routeLoop group childBytes rest
    pure (childBytes :: pages)

/-- `pages_along_route` -/
def pagesAlongRoute (entries : List Entry) (route : List UInt8) : CodecResult (List Bytes) :=
  if entries = [] then
    if route = [] then do
      let page ← build entries
      pure [page]
    else .error (.badOrdering "route descends past a leaf page")
  else do
    let page ← build entries
    let pages ← routeLoop entries page route
    pure (page :: pages)

/-- Whether the names of a received page are in the partition of the parent's choice. -/
def partitionMatches (expectedPrefix : Bytes) : Page → Bool
  | .leaf entries => entries.all fun e ↦ expectedPrefix.isPrefixOf e.name
  | .branch pre _ _ => expectedPrefix.isPrefixOf pre

/-- `verify_received_child` -/
def verifyReceivedChild (parentPageBytes : Bytes) (label : UInt8) (receivedPageBytes : Bytes) :
    CodecResult Unit := do
  let (parent, _) ← decode parentPageBytes
  let (pre, children) ← branchParts "cannot verify a child of a leaf page" parent
  let child ← okOr (children.find? fun c ↦ c.label = label)
    (.badOrdering "label not present in parent")
  reject (pageId receivedPageBytes ≠ child.childPageId)
    (.digestMismatch "received page does not match parent's child_page_id")
  let (received, totalEntries) ← decode receivedPageBytes
  reject (totalEntries ≠ child.subtreeEntries)
    (.badOrdering "received child count does not match parent")
  reject (partitionMatches (pre ++ [label]) received = false)
    (.badOrdering "received child outside parent prefix/label partition")

end Page

end Mst2
