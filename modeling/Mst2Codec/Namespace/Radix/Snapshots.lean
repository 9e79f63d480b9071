import Mst2Codec.Namespace.Radix.FiniteMap

/-!
# Snapshots

Over a content-addressed store whose calls may fail, `update` may be called again and again, each
time from any root returned so far.  A `Snapshot` is where such a history has come to, and `Later`
says that one continues another.

As nodes are never changed, only added, a root that was returned keeps its trie whatever happens
later (`Sound.later`).  So what `get`, `longestPrefix` and `update` do from that root depends on
the root alone, unless a call fails; and then the operation fails (`snapshots_survive`).
-/

set_option autoImplicit false

namespace Mst2

open Bytes Except

open Relation (ReflTransGen)

namespace RadixIndex

variable [Sha256] {σ : Type}

/-! ## Histories -/

/-- A history of `update` calls up to some point. -/
structure Snapshot (σ : Type) where
  /-- The state of the store. -/
  state : σ
  /-- The roots returned so far, and the empty one. -/
  roots : List Digest
  /-- The calls of the store so far. -/
  trace : List StoreEvent

/-- Nothing has been called yet. -/
def Snapshot.start (s : σ) : Snapshot σ := ⟨s, [emptyRoot], []⟩

/-- One more call of `update`: its root is available afterwards, if it returns one. -/
def Snapshot.call (S : NodeStore σ) (c : Snapshot σ) (root : Digest) (path : String)
    (binding : Option Digest) : Snapshot σ where
  state := ((update root path binding).run S.env c.state).2
  roots :=
    match ((update root path binding).run S.env c.state).1 with
    | .ok root' => root' :: c.roots
    | .error _ => c.roots
  trace := c.trace ++ (update root path binding).trace S.env c.state

/-- A call of `update` from a root returned earlier. -/
inductive Step (S : NodeStore σ) : Snapshot σ → Snapshot σ → Prop
  | call {c : Snapshot σ} {root : Digest} (hroot : root ∈ c.roots) (path : String)
      (binding : Option Digest) : Step S c (c.call S root path binding)

/-- A history goes on, with any number of calls. -/
def Later (S : NodeStore σ) : Snapshot σ → Snapshot σ → Prop := ReflTransGen (Step S)

/-! ## Roots keep their tries -/

/-- Every root returned so far is that of a trie the store holds. -/
structure Sound (contents : σ → Digest → Option Bytes) (K : Set Bytes) (c : Snapshot σ) : Prop where
  /-- The store stays within the strings of the history. -/
  within : Within K (contents c.state)
  /-- Roots have tries. -/
  rooted : ∀ root ∈ c.roots, ∃ t, Rooted (contents c.state) root t

section

variable {S : NodeStore σ} {contents : σ → Digest → Option Bytes} {K : Set Bytes}
  {c c' : Snapshot σ}

omit [Sha256] in
theorem encodeKey_error {path : String} (hp : ¬ ValidPath path) :
    ∃ e, encodeKey path = .error e := by
  cases hkey : encodeKey path with
  | error e => exact ⟨e, rfl⟩
  | ok key => exact absurd (encodeKey_eq_ok.mp hkey).1 hp

/-- With a path that is not valid, nothing is called. -/
theorem update_of_error {root : Digest} {path : String} {binding : Option Digest} {e : CodecError}
    (h : encodeKey path = .error e) : update root path binding = .fail (.codec e) := by
  rw [update, h]
  rfl

theorem walk_of_error {root : Digest} {path : String} {ancestors : Bool} {e : CodecError}
    (h : encodeKey path = .error e) : walk root path ancestors = .fail (.codec e) := by
  rw [walk, h]
  rfl

/-- **A call keeps the history sound**, whether it succeeds or fails. -/
theorem Sound.call (hS : S.Immutable contents) (hK : CollisionFree K)
    (hempty : RadixNode.empty.encode ∈ K) (h : Sound contents K c) {root : Digest}
    (hroot : root ∈ c.roots) (path : String) (binding : Option Digest)
    (hins : insertedIn (c.call S root path binding).trace ⊆ K) :
    Sound contents K (c.call S root path binding) ∧
      heldBytes (contents c.state) ⊆ heldBytes (contents (c.call S root path binding).state) := by
  by_cases hp : ValidPath path
  · obtain ⟨t, ht⟩ := h.rooted root hroot
    have hins' := hins
    rw [Snapshot.call, insertedIn_append] at hins'
    obtain ⟨hwithin, hle, -, hok⟩ := update_run hS hK hempty h.within ht hp binding
      (Set.subset_union_right.trans hins')
    refine ⟨⟨hwithin, fun r hr ↦ ?_⟩, hle⟩
    have hold : r ∈ c.roots → ∃ t, Rooted (contents (c.call S root path binding).state) r t := by
      intro hr
      obtain ⟨u, hu⟩ := h.rooted r hr
      exact ⟨u, hu.mono hle⟩
    rw [Snapshot.call] at hr
    cases hrun : ((update root path binding).run S.env c.state).1 with
    | error e =>
      rw [hrun] at hr
      exact hold hr
    | ok root' =>
      rw [hrun] at hr
      rcases List.mem_cons.mp hr with rfl | hr
      · exact ⟨_, (hok r hrun).2.1⟩
      · exact hold hr
  · obtain ⟨e, he⟩ := encodeKey_error hp
    have hcall : (c.call S root path binding).state = c.state ∧
        (c.call S root path binding).roots = c.roots := by
      rw [Snapshot.call, update_of_error he]
      exact ⟨rfl, rfl⟩
    rw [hcall.1]
    exact ⟨⟨hcall.1 ▸ h.within, by rw [hcall.1, hcall.2]; exact h.rooted⟩, subset_rfl⟩

/-- **A sound history stays sound**, and no node is lost. -/
theorem Sound.later (hS : S.Immutable contents) (hK : CollisionFree K)
    (hempty : RadixNode.empty.encode ∈ K) (h : Sound contents K c) (hc : Later S c c')
    (hins : insertedIn c'.trace ⊆ K) :
    Sound contents K c' ∧ heldBytes (contents c.state) ⊆ heldBytes (contents c'.state) := by
  induction hc with
  | refl => exact ⟨h, subset_rfl⟩
  | tail _ hstep ih =>
    obtain ⟨hroot, path, binding⟩ := hstep
    have hins' := hins
    rw [Snapshot.call, insertedIn_append] at hins'
    obtain ⟨hsound, hle⟩ := ih (Set.subset_union_left.trans hins')
    obtain ⟨hsound', hle'⟩ := hsound.call hS hK hempty hroot path binding hins
    exact ⟨hsound', hle.trans hle'⟩

theorem sound_start {s : σ} (hs : Within K (contents s)) : Sound contents K (.start s) :=
  ⟨hs, fun root hroot ↦ by
    rw [List.mem_singleton.mp hroot]
    exact ⟨_, rooted_empty _⟩⟩

/-- The calls of a history stay on record. -/
theorem Later.trace_subset (hc : Later S c c') (held : Digest → Option Bytes) :
    hashedBytes held c.trace ⊆ hashedBytes held c'.trace := by
  induction hc with
  | refl => exact subset_rfl
  | tail _ hstep ih =>
    obtain ⟨hroot, path, binding⟩ := hstep
    exact ih.trans (hashedBytes_mono _ _ _)

end

/-! ## What depends on the root alone -/

omit [Sha256] in
/-- A trie resolves a path in one way. -/
theorem exists_foundAt {t : Trie UInt8 Digest} (ht : t.Canonical) (hk : Keyed [] t)
    (path : String) : ∃ o, ∀ x, FoundAt [] (t.longest (keyOf path)) none x → x = o := by
  cases hlongest : t.longest (keyOf path) with
  | none => exact ⟨none, fun x hx ↦ hx⟩
  | some found =>
    obtain ⟨q, d⟩ := found
    obtain ⟨p, hp, hkey⟩ := hk q d (ht.longest_eq_some hlongest).2.1
    refine ⟨some (p, d), ?_⟩
    rintro x ⟨p', hp', hkey', rfl⟩
    rw [keyOf_injective hp' hp (hkey'.trans hkey.symm)]

/-- **Snapshots survive later updates and failures.**  From a root that has been returned, a call
during which a call of the store fails returns an error; later on, `get` and `longestPrefix` answer
as they do now; and an update that does not fail returns the root it would return now, over any
store that holds the same nodes. -/
theorem snapshots_survive {S : NodeStore σ} {contents : σ → Digest → Option Bytes}
    (hS : S.Immutable contents) (s₀ : σ) (haddr : Addressed (contents s₀)) {c : Snapshot σ}
    (hc : Later S (.start s₀) c) (hfree : CollisionFree (hashedBytes (contents s₀) c.trace))
    {root : Digest} (hroot : root ∈ c.roots) (path : String) (binding : Option Digest) :
    (CollisionFree (hashedBytes (contents s₀) (c.call S root path binding).trace) →
      (∃ e ∈ (update root path binding).trace S.env c.state, Failed e) →
        ∃ e, ((update root path binding).run S.env c.state).1 = .error e) ∧
    (∃ answer resolved, (ValidPath path → (∃ o, answer = .ok o) ∧ ∃ o, resolved = .ok o) ∧
      ∀ c', Later S c c' → CollisionFree (hashedBytes (contents s₀) c'.trace) →
        ((∀ e ∈ (get root path).trace S.env c'.state, ¬ Failed e) →
          ((get root path).run S.env c'.state).1 = answer) ∧
        ((∀ e ∈ (longestPrefix root path).trace S.env c'.state, ¬ Failed e) →
          ((longestPrefix root path).run S.env c'.state).1 = resolved)) ∧
    ∃ result, (ValidPath path → ∃ r, result = .ok r) ∧
      ∀ c', Later S c c' → ∀ {τ : Type} (T : NodeStore τ) (contentsT : τ → Digest → Option Bytes)
        (s : τ), T.Immutable contentsT → contentsT s = contents c'.state →
        CollisionFree (hashedBytes (contents s₀)
          (c'.trace ++ (update root path binding).trace T.env s)) →
        (∀ e ∈ (update root path binding).trace T.env s, ¬ Failed e) →
          ((update root path binding).run T.env s).1 = result := by
  obtain ⟨hsound, -⟩ := (sound_start (within_hashedBytes haddr c.trace)).later hS hfree
    (empty_mem_hashedBytes _ _) hc (insertedIn_subset_hashedBytes _ _)
  obtain ⟨t, ht⟩ := hsound.rooted root hroot
  -- later on, the store still holds the trie
  have hlater : ∀ c' K, Later S c c' → CollisionFree K →
      hashedBytes (contents s₀) c'.trace ⊆ K →
      Within K (contents c'.state) ∧ Rooted (contents c'.state) root t := by
    intro c' K hc' hK hsub
    have hsub' := (hc'.trace_subset (contents s₀)).trans hsub
    obtain ⟨hsound', hle⟩ := Sound.later hS hK (hsub (empty_mem_hashedBytes _ _))
      ⟨hsound.within.mono hsub', hsound.rooted⟩ hc'
      ((insertedIn_subset_hashedBytes _ _).trans hsub)
    exact ⟨hsound'.within, ht.mono hle⟩
  by_cases hp : ValidPath path
  · refine ⟨fun hfree' hfailed ↦ ?_, ?_, ?_⟩
    · obtain ⟨hwithin, hrooted⟩ := hlater c _ .refl hfree' (hashedBytes_mono _ _ _)
      obtain ⟨-, -, -, hok⟩ := update_run hS hfree' (empty_mem_hashedBytes _ _) hwithin hrooted hp
        binding (insertedIn_right_subset_hashedBytes _ _ _)
      cases hrun : ((update root path binding).run S.env c.state).1 with
      | error e => exact ⟨e, rfl⟩
      | ok r =>
        obtain ⟨e, he, hfail⟩ := hfailed
        exact absurd hfail ((hok r hrun).1 e he)
    · obtain ⟨o, ho⟩ := exists_foundAt ht.canonical ht.keyed path
      refine ⟨.ok (t.lookup (keyOf path)), .ok o, fun _ ↦ ⟨⟨_, rfl⟩, _, rfl⟩, ?_⟩
      intro c' hc' hfree'
      have hempty := empty_mem_hashedBytes (contents s₀) c'.trace
      obtain ⟨hwithin, hrooted⟩ := hlater c' _ hc' hfree' subset_rfl
      constructor
      · intro hno
        obtain ⟨herr, hok⟩ := get_run hS hfree' hempty hwithin hrooted hp
        cases hrun : ((get root path).run S.env c'.state).1 with
        | error e =>
          obtain ⟨e, he, hfail⟩ := (herr e hrun).2
          exact absurd hfail (hno e he)
        | ok o => rw [(hok o hrun).2]
      · intro hno
        obtain ⟨herr, hok⟩ := longestPrefix_run hS hfree' hempty hwithin hrooted hp
        cases hrun : ((longestPrefix root path).run S.env c'.state).1 with
        | error e =>
          obtain ⟨e, he, hfail⟩ := (herr e hrun).2
          exact absurd hfail (hno e he)
        | ok o => rw [ho o (hok o hrun).2]
    · refine ⟨.ok (rootId (t.set (keyOf path) binding)), fun _ ↦ ⟨_, rfl⟩, ?_⟩
      intro c' hc' τ T contentsT s hT hcontents hfree' hno
      obtain ⟨hwithin, hrooted⟩ := hlater c' _ hc' hfree' (hashedBytes_mono _ _ _)
      rw [← hcontents] at hwithin hrooted
      obtain ⟨-, -, herr, hok⟩ := update_run hT hfree' (empty_mem_hashedBytes _ _) hwithin hrooted
        hp binding (insertedIn_right_subset_hashedBytes _ _ _)
      cases hrun : ((update root path binding).run T.env s).1 with
      | error e =>
        obtain ⟨e, he, hfail⟩ := (herr e hrun).2
        exact absurd hfail (hno e he)
      | ok r => rw [(hok r hrun).2.1.root_eq]
  · -- the path is rejected before anything is called
    obtain ⟨e, he⟩ := encodeKey_error hp
    have hget : get root path = .fail (.codec e) := by
      rw [get, walk_of_error he]
      rfl
    rw [hget, longestPrefix, walk_of_error he, update_of_error he]
    exact ⟨fun _ _ ↦ ⟨_, rfl⟩, ⟨_, _, fun h ↦ absurd h hp, fun _ _ _ ↦ ⟨fun _ ↦ rfl, fun _ ↦ rfl⟩⟩,
      _, fun h ↦ absurd h hp, fun _ _ _ _ _ _ _ _ _ _ ↦ rfl⟩

omit [Sha256] in
/-- `/x/lib` is bound, and binding `/x/library` fails at the fourth write, after one of its leaves
has been inserted.  The call can be repeated, and returns the root that a store without the failure
returns. -/
theorem snapshots_survive_library :
    letI := librarySha256
    ∃ (c : Snapshot MemoryStore) (root : Digest),
      Later (MemoryStore.store (some 4)) (.start .default) c ∧ root ∈ c.roots ∧
      (∃ e, ((update root "/x/library" (some (value 2))).run
        (MemoryStore.store (some 4)).env c.state).1 = .error e) ∧
      ∃ result,
        ((update root "/x/library" (some (value 2))).run (MemoryStore.store (some 4)).env
          (c.call (MemoryStore.store (some 4)) root "/x/library" (some (value 2))).state).1 =
            .ok result ∧
        ((update root "/x/library" (some (value 2))).run (MemoryStore.store none).env c.state).1 =
          .ok result := by
  let _ := librarySha256
  let S := MemoryStore.store (some 4)
  let c := (Snapshot.start MemoryStore.default).call S emptyRoot "/x/lib" (some (value 1))
  let root := Digest.ofNat 0xe9934adce1c5a18af14e8cdf9e7f95384ed112b5b61b0115027a4553bef35ea7
  have hc : Later S (.start .default) c := .single (.call (List.mem_singleton.mpr rfl) _ _)
  have hroot : root ∈ c.roots := by decide +kernel
  obtain ⟨hfail, -, result, hvalid, hretry⟩ := snapshots_survive (MemoryStore.immutable (some 4))
    .default (fun _ _ h ↦ by cases h) hc
    (collisionFree_library.mono (hashedBytes_subset_library (by decide +kernel))) hroot
    "/x/library" (some (value 2))
  obtain ⟨r, rfl⟩ := hvalid (by decide)
  refine ⟨c, root, hc, hroot, ?_, r, ?_, ?_⟩
  · exact hfail (collisionFree_library.mono (hashedBytes_subset_library (by decide +kernel)))
      (by decide +kernel)
  · exact hretry _ (.single (.call hroot _ _)) S MemoryStore.contents _
      (MemoryStore.immutable (some 4)) rfl
      (collisionFree_library.mono (hashedBytes_subset_library (by decide +kernel)))
      (by decide +kernel)
  · exact hretry c .refl (MemoryStore.store none) MemoryStore.contents _
      (MemoryStore.immutable none) rfl
      (collisionFree_library.mono (hashedBytes_subset_library (by decide +kernel)))
      (by decide +kernel)

end RadixIndex

end Mst2
