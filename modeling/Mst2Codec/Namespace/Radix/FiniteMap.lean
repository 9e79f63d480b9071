import Mst2Codec.Namespace.Radix.Memory

/-!
# The binding index is a finite map

The purpose of the index, stated without digests or nodes: a sequence of updates defines a map from
paths to bindings (`mapOf`), `get` reads it, and the longest prefix of a path is the bound path with
the most components among its ancestors and itself (`IsLongestPrefix`).

Over an honest store, every sequence of updates with valid paths succeeds, and the root it ends in

* answers as the map does (`update_get_update`, `longestPrefix_updateAll`), and
* **is determined by the map, and determines it** (`updateAll_root_eq_iff`): it does not depend on
  the order of the updates, nor on bindings that have been overwritten or removed.
-/

set_option autoImplicit false

namespace Mst2

open Bytes Except

/-! ## The map a sequence of updates defines -/

/-- The path and the binding of an update. -/
abbrev Op := String × Option Digest

/-- The map after more updates. -/
def mapFrom (M : String → Option Digest) (ops : List Op) : String → Option Digest :=
  ops.foldl (fun M op ↦ Function.update M op.1 op.2) M

/-- The map a sequence of updates defines. -/
def mapOf (ops : List Op) : String → Option Digest := mapFrom (fun _ ↦ none) ops

theorem mapFrom_append (M : String → Option Digest) (ops ops' : List Op) :
    mapFrom M (ops ++ ops') = mapFrom (mapFrom M ops) ops' := List.foldl_append

/-- What `longestPrefix` is to return: the bound path with the most components among those whose
components begin the components of `path`. -/
def IsLongestPrefix (M : String → Option Digest) (path : String) :
    Option (String × Digest) → Prop
  | some (q, binding) => ValidPath q ∧ M q = some binding ∧ components q <+: components path ∧
      ∀ q', M q' ≠ none → components q' <+: components path → q' ≠ q →
        (components q').length < (components q).length
  | none => ∀ q, M q ≠ none → ¬ components q <+: components path

namespace RadixIndex

variable [Sha256]

/-- A sequence of `update` calls, each from the root the one before returned. -/
def updateAll (root : Digest) : List Op → IndexM Digest
  | [] => pure root
  | (path, binding) :: ops => do
    let root ← update root path binding
    updateAll root ops

/-! ## The run of the two libraries -/

section library

omit [Sha256]

/-- The root with both libraries bound. -/
def libraryRoot : Digest :=
  .ofNat 0xebdc130963fbc77b5179bcb50e187b18ca2ce8083cb8976cb20ce7d2deac13b6

theorem updateAll_libraryOps :
    letI := librarySha256
    ((updateAll emptyRoot libraryOps).run (MemoryStore.store none).env .default).1 =
      .ok libraryRoot := by decide +kernel

/-- Its strings do not collide. -/
theorem collisionFree_libraryOps :
    letI := librarySha256
    CollisionFree (hashedBytes MemoryStore.default.contents
      ((updateAll emptyRoot libraryOps).trace (MemoryStore.store none).env .default)) := by
  let _ := librarySha256
  exact collisionFree_library.mono (hashedBytes_subset_library (by decide +kernel))

/-- Nor do they if `/x/lib` is unbound afterwards. -/
theorem collisionFree_unbind :
    letI := librarySha256
    CollisionFree (hashedBytes MemoryStore.default.contents
      ((updateAll emptyRoot libraryOps).trace (MemoryStore.store none).env .default ++
        (update libraryRoot "/x/lib" none).trace (MemoryStore.store none).env
          ((updateAll emptyRoot libraryOps).run (MemoryStore.store none).env .default).2)) := by
  let _ := librarySha256
  exact collisionFree_library.mono (hashedBytes_subset_library (by decide +kernel))

end library

/-! ## Tries of maps -/

/-- The trie `t` has the bindings of the map `M`. -/
structure Maps (t : Trie UInt8 Digest) (M : String → Option Digest) : Prop where
  /-- Valid paths have the same binding. -/
  lookup_eq : ∀ p, ValidPath p → t.lookup (keyOf p) = M p
  /-- Nothing else is bound. -/
  valid : ∀ p, M p ≠ none → ValidPath p

section maps

omit [Sha256]

variable {t u : Trie UInt8 Digest} {M N : String → Option Digest}

theorem maps_absent : Maps .absent fun _ ↦ none :=
  ⟨fun _ _ ↦ Trie.lookup_absent _, fun _ h ↦ absurd rfl h⟩

theorem Maps.set (h : Maps t M) (ht : t.Canonical) {path : String} (hp : ValidPath path)
    (binding : Option Digest) :
    Maps (t.set (keyOf path) binding) (Function.update M path binding) := by
  constructor
  · intro p hvalid
    rw [ht.lookup_set]
    by_cases hpath : p = path
    · rw [hpath, if_pos rfl, Function.update_self]
    · rw [if_neg fun hkey ↦ hpath (keyOf_injective hvalid hp hkey), Function.update_of_ne hpath]
      exact h.lookup_eq p hvalid
  · intro p hne
    by_cases hpath : p = path
    · rwa [hpath]
    · rw [Function.update_of_ne hpath] at hne
      exact h.valid p hne

/-- The bindings of a keyed trie are those of its map. -/
theorem Maps.lookup_eq_some (h : Maps t M) (hk : Keyed [] t) {k : Bytes} {d : Digest} :
    t.lookup k = some d ↔ ∃ p, ValidPath p ∧ keyOf p = k ∧ M p = some d := by
  constructor
  · intro hd
    obtain ⟨p, hp, rfl⟩ := hk k d hd
    exact ⟨p, hp, rfl, by rw [← h.lookup_eq p hp]; exact hd⟩
  · rintro ⟨p, hp, rfl, hd⟩
    rw [h.lookup_eq p hp, hd]

/-- A canonical trie is determined by its map of paths. -/
theorem Maps.trie_eq (h : Maps t M) (h' : Maps u M) (ht : t.Canonical) (hu : u.Canonical)
    (hkt : Keyed [] t) (hku : Keyed [] u) : t = u :=
  ht.ext hu fun _ ↦ Option.ext fun _ ↦ (h.lookup_eq_some hkt).trans (h'.lookup_eq_some hku).symm

/-- The map of paths is determined by the trie. -/
theorem Maps.map_eq (h : Maps t M) (h' : Maps t N) : M = N := by
  funext p
  by_cases hp : ValidPath p
  · rw [← h.lookup_eq p hp, h'.lookup_eq p hp]
  · rw [not_not.mp (mt (h.valid p) hp), not_not.mp (mt (h'.valid p) hp)]

/-- **The longest bound prefix of a key is that of the path.** -/
theorem Maps.isLongestPrefix (h : Maps t M) (ht : t.Canonical) {path : String}
    (hp : ValidPath path) {o : Option (String × Digest)}
    (ho : FoundAt [] (t.longest (keyOf path)) none o) : IsLongestPrefix M path o := by
  cases hlongest : t.longest (keyOf path) with
  | none =>
    rw [hlongest] at ho
    obtain rfl : o = none := ho
    intro q hq hpre
    have hvalid := h.valid q hq
    rw [← h.lookup_eq q hvalid] at hq
    exact hq (Trie.longest_eq_none hlongest _ ((keyOf_isPrefix_iff hvalid hp).mpr hpre))
  | some found =>
    obtain ⟨k, d⟩ := found
    rw [hlongest] at ho
    obtain ⟨q, hq, rfl, rfl⟩ : ∃ q, ValidPath q ∧ keyOf q = k ∧ o = some (q, d) := ho
    obtain ⟨hpre, hd, hmax⟩ := ht.longest_eq_some hlongest
    rw [keyOf_isPrefix_iff hq hp] at hpre
    refine ⟨hq, by rw [← h.lookup_eq q hq]; exact hd, hpre, fun q' hq' hpre' hne ↦ ?_⟩
    have hvalid := h.valid q' hq'
    by_contra hlen
    rcases Nat.lt_or_eq_of_le (not_lt.mp hlen) with hlt | heq
    · have hnone := hmax _ ((keyOf_isPrefix_iff hvalid hp).mpr hpre')
        ((length_keyOf_lt hpre hpre').mpr hlt)
      rw [h.lookup_eq q' hvalid] at hnone
      exact hq' hnone
    · refine hne (components_injective hvalid hq ?_)
      exact (List.prefix_of_prefix_length_le hpre' hpre heq.ge).eq_of_length heq.symm

end maps

/-! ## Sequences of updates -/

section runs

variable {σ : Type} {S : NodeStore σ} {contents : σ → Digest → Option Bytes} {K : Set Bytes}

/-- An honest store lets every update succeed. -/
theorem update_eq_ok (hS : S.Honest contents) (hK : CollisionFree K)
    (hempty : RadixNode.empty.encode ∈ K) {s : σ} (hs : Within K (contents s)) {root : Digest}
    {t : Trie UInt8 Digest} (h : Rooted (contents s) root t) {path : String}
    (hp : ValidPath path) (binding : Option Digest)
    (hins : insertedIn ((update root path binding).trace S.env s) ⊆ K) :
    ∃ root' s', (update root path binding).run S.env s = (.ok root', s') ∧
      Within K (contents s') ∧ Rooted (contents s') root' (t.set (keyOf path) binding) ∧
      (t.lookup (keyOf path) = binding →
        root' = root ∧ insertedIn ((update root path binding).trace S.env s) = ∅) := by
  obtain ⟨hs', -, herr, hok⟩ := update_run hS.toImmutable hK hempty hs h hp binding hins
  rcases hrun : (update root path binding).run S.env s with ⟨x, s'⟩
  rw [hrun] at hs' herr hok
  cases x with
  | error e => exact absurd hS (herr e rfl).1
  | ok root' =>
    obtain ⟨-, hroot', hsame⟩ := hok root' rfl
    exact ⟨root', s', rfl, hs', hroot', hsame⟩

/-- An honest store returns what `get` finds in the trie. -/
theorem get_eq_ok (hS : S.Honest contents) (hK : CollisionFree K)
    (hempty : RadixNode.empty.encode ∈ K) {s : σ} (hs : Within K (contents s)) {root : Digest}
    {t : Trie UInt8 Digest} (h : Rooted (contents s) root t) {path : String}
    (hp : ValidPath path) : ((get root path).run S.env s).1 = .ok (t.lookup (keyOf path)) := by
  obtain ⟨herr, hok⟩ := get_run hS.toImmutable hK hempty hs h hp
  cases hx : ((get root path).run S.env s).1 with
  | error e => exact absurd hS (herr e hx).1
  | ok o => rw [(hok o hx).2]

/-- **A sequence of updates over an honest store** succeeds, with the trie of its map. -/
theorem updateAll_run (hS : S.Honest contents) (hK : CollisionFree K)
    (hempty : RadixNode.empty.encode ∈ K) {ops : List Op} (hops : ∀ op ∈ ops, ValidPath op.1)
    {s : σ} {root : Digest} {t : Trie UInt8 Digest} {M : String → Option Digest}
    (hs : Within K (contents s)) (h : Rooted (contents s) root t) (hM : Maps t M)
    (hins : insertedIn ((updateAll root ops).trace S.env s) ⊆ K) :
    ∃ root' s' t', (updateAll root ops).run S.env s = (.ok root', s') ∧ Within K (contents s') ∧
      Rooted (contents s') root' t' ∧ Maps t' (mapFrom M ops) := by
  induction ops generalizing s root t M with
  | nil => exact ⟨root, s, t, rfl, hs, h, hM⟩
  | cons op ops ih =>
    obtain ⟨path, binding⟩ := op
    obtain ⟨hp, hops⟩ := List.forall_mem_cons.mp hops
    rw [updateAll, Prog.trace_bind, insertedIn_append] at hins
    obtain ⟨root', s', hrun, hs', hroot', -⟩ := update_eq_ok hS hK hempty hs h hp binding
      (Set.subset_union_left.trans hins)
    rw [hrun] at hins
    rw [updateAll, Prog.run_bind, hrun]
    exact ih hops hs' hroot' (hM.set h.canonical hp binding) (Set.subset_union_right.trans hins)

/-- **The index is a finite map.**  Every sequence of updates succeeds.  One more update changes
the answer at its own path and nowhere else; if that path had the binding already, it returns the
root it was given and inserts nothing. -/
theorem update_get_update (hS : S.Honest contents) (s₀ : σ) (haddr : Addressed (contents s₀))
    (ops : List Op) (hops : ∀ op ∈ ops, ValidPath op.1)
    (hfree : CollisionFree
      (hashedBytes (contents s₀) ((updateAll emptyRoot ops).trace S.env s₀))) :
    ∃ root s, (updateAll emptyRoot ops).run S.env s₀ = (.ok root, s) ∧
      ∀ path binding, ValidPath path →
        CollisionFree (hashedBytes (contents s₀) ((updateAll emptyRoot ops).trace S.env s₀ ++
          (update root path binding).trace S.env s)) →
        ∃ root' s', (update root path binding).run S.env s = (.ok root', s') ∧
          (∀ q, ValidPath q → ∃ a, ((get root q).run S.env s).1 = .ok a ∧
            ((get root' q).run S.env s').1 = .ok (if q = path then binding else a)) ∧
          (((get root path).run S.env s).1 = .ok binding →
            root' = root ∧ insertedIn ((update root path binding).trace S.env s) = ∅) := by
  obtain ⟨root, s, t, hrun, hs, hroot, -⟩ := updateAll_run hS hfree (empty_mem_hashedBytes _ _)
    hops (within_hashedBytes haddr _) (rooted_empty _) maps_absent
    (insertedIn_subset_hashedBytes _ _)
  refine ⟨root, s, hrun, fun path binding hp hfree' ↦ ?_⟩
  have hempty := empty_mem_hashedBytes (contents s₀)
    ((updateAll emptyRoot ops).trace S.env s₀ ++ (update root path binding).trace S.env s)
  have hs₁ := hs.mono (hashedBytes_mono _ _ ((update root path binding).trace S.env s))
  obtain ⟨root', s', hrun', hs', hroot', hsame⟩ := update_eq_ok hS hfree' hempty hs₁ hroot hp
    binding (insertedIn_right_subset_hashedBytes _ _ _)
  refine ⟨root', s', hrun', fun q hq ↦ ?_, fun hget ↦ hsame ?_⟩
  · refine ⟨_, get_eq_ok hS hfree' hempty hs₁ hroot hq, ?_⟩
    rw [get_eq_ok hS hfree' hempty hs' hroot' hq, hroot.canonical.lookup_set]
    by_cases hqp : q = path
    · rw [if_pos hqp, if_pos (by rw [hqp])]
    · rw [if_neg hqp, if_neg fun h ↦ hqp (keyOf_injective hq hp h)]
  · rw [get_eq_ok hS hfree' hempty hs₁ hroot hp] at hget
    exact Except.ok.inj hget

omit [Sha256] in
/-- Unbinding `/x/lib` beside `/x/library`. -/
theorem update_get_update_library :
    letI := librarySha256
    ∃ root s root' s',
      (updateAll emptyRoot libraryOps).run (MemoryStore.store none).env .default = (.ok root, s) ∧
      (update root "/x/lib" none).run (MemoryStore.store none).env s = (.ok root', s') ∧
      ((get root' "/x/lib").run (MemoryStore.store none).env s').1 = .ok none ∧
      ∃ a, ((get root "/x/library").run (MemoryStore.store none).env s).1 = .ok a ∧
        ((get root' "/x/library").run (MemoryStore.store none).env s').1 = .ok a := by
  let _ := librarySha256
  obtain ⟨root, s, hrun, h⟩ := update_get_update MemoryStore.honest .default
    (fun _ _ h ↦ by cases h) libraryOps (by decide) collisionFree_libraryOps
  obtain rfl := congrArg Prod.snd hrun
  obtain rfl := Except.ok.inj ((congrArg Prod.fst hrun).symm.trans updateAll_libraryOps)
  obtain ⟨root', s', hupdate, hget, -⟩ := h "/x/lib" none (by decide) collisionFree_unbind
  obtain ⟨_, _, hlib⟩ := hget "/x/lib" (by decide)
  obtain ⟨a, ha, ha'⟩ := hget "/x/library" (by decide)
  exact ⟨_, _, root', s', hrun, hupdate, hlib, a, ha, ha'⟩

/-- **Longest-prefix resolution.**  The root of a sequence of updates resolves a path to its
longest bound ancestor or itself, by components. -/
theorem longestPrefix_updateAll (hS : S.Honest contents) (s₀ : σ)
    (haddr : Addressed (contents s₀)) (ops : List Op) (hops : ∀ op ∈ ops, ValidPath op.1)
    (hfree : CollisionFree
      (hashedBytes (contents s₀) ((updateAll emptyRoot ops).trace S.env s₀)))
    (path : String) (hp : ValidPath path) :
    ∃ root s o, (updateAll emptyRoot ops).run S.env s₀ = (.ok root, s) ∧
      ((longestPrefix root path).run S.env s).1 = .ok o ∧ IsLongestPrefix (mapOf ops) path o := by
  have hempty := empty_mem_hashedBytes (contents s₀) ((updateAll emptyRoot ops).trace S.env s₀)
  obtain ⟨root, s, t, hrun, hs, hroot, hM⟩ := updateAll_run hS hfree hempty hops
    (within_hashedBytes haddr _) (rooted_empty _) maps_absent (insertedIn_subset_hashedBytes _ _)
  obtain ⟨herr, hok⟩ := longestPrefix_run hS.toImmutable hfree hempty hs hroot hp
  cases hx : ((longestPrefix root path).run S.env s).1 with
  | error e => exact absurd hS (herr e hx).1
  | ok o => exact ⟨root, s, o, hrun, hx, hM.isLongestPrefix hroot.canonical hp (hok o hx).2⟩

omit [Sha256] in
/-- A path below `/x/lib`, where `/x/library` is bound too. -/
theorem longestPrefix_updateAll_library :
    letI := librarySha256
    ∃ root s o,
      (updateAll emptyRoot libraryOps).run (MemoryStore.store none).env .default = (.ok root, s) ∧
      ((longestPrefix root "/x/lib/b").run (MemoryStore.store none).env s).1 = .ok o ∧
      IsLongestPrefix (mapOf libraryOps) "/x/lib/b" o := by
  let _ := librarySha256
  exact longestPrefix_updateAll MemoryStore.honest .default (fun _ _ h ↦ by cases h) libraryOps
    (by decide) collisionFree_libraryOps "/x/lib/b" (by decide)

/-- Names that only share bytes are not ancestors of each other. -/
example : ¬ components "/x/lib" <+: components "/x/library" := by decide

end runs

/-! ## Canonical roots -/

section two

variable {σ σ' : Type} {S : NodeStore σ} {S' : NodeStore σ'}
  {contents : σ → Digest → Option Bytes} {contents' : σ' → Digest → Option Bytes}

omit [Sha256] in
/-- Updates at different paths commute in the map. -/
theorem mapOf_swap {p q : String} (hpq : p ≠ q) (v w : Option Digest) (before after : List Op) :
    mapOf (before ++ (p, v) :: (q, w) :: after) =
      mapOf (before ++ (q, w) :: (p, v) :: after) := by
  rw [mapOf, mapOf, mapFrom_append, mapFrom_append]
  exact congrArg (mapFrom · after)
    (Function.update_comm hpq v w (mapFrom (fun _ ↦ none) before))

omit [Sha256] in
/-- Removing a binding and putting it back restores the map. -/
theorem mapOf_reinsert {p : String} {v : Digest} {ops : List Op} (h : mapOf ops p = some v) :
    mapOf (ops ++ [(p, none), (p, some v)]) = mapOf ops := by
  rw [mapOf, mapFrom_append]
  show Function.update (Function.update (mapOf ops) p none) p (some v) = mapOf ops
  rw [Function.update_idem, ← h, Function.update_eq_self]

/-- **The root is canonical.**  Two sequences of updates, over two stores, end in the same root
exactly if they define the same map; so the root is the empty one exactly if nothing is bound,
updates at different paths commute, and removing a binding and putting it back restores the
root. -/
theorem updateAll_root_eq_iff (hS : S.Honest contents) (hS' : S'.Honest contents') (s₀ : σ)
    (s₀' : σ') (haddr : Addressed (contents s₀)) (haddr' : Addressed (contents' s₀'))
    (ops ops' : List Op) (hops : ∀ op ∈ ops, ValidPath op.1) (hops' : ∀ op ∈ ops', ValidPath op.1)
    (hfree : CollisionFree
      (hashedBytes (contents s₀) ((updateAll emptyRoot ops).trace S.env s₀) ∪
        hashedBytes (contents' s₀') ((updateAll emptyRoot ops').trace S'.env s₀'))) :
    ∃ root s root' s', (updateAll emptyRoot ops).run S.env s₀ = (.ok root, s) ∧
      (updateAll emptyRoot ops').run S'.env s₀' = (.ok root', s') ∧
      (root = root' ↔ mapOf ops = mapOf ops') ∧
      (root = emptyRoot ↔ ∀ p, mapOf ops p = none) ∧
      (∀ before p v q w after, p ≠ q → ops = before ++ (p, v) :: (q, w) :: after →
        ops' = before ++ (q, w) :: (p, v) :: after → root = root') ∧
      (∀ p v, mapOf ops p = some v → ops' = ops ++ [(p, none), (p, some v)] → root = root') := by
  have hempty := Set.mem_union_left
    (hashedBytes (contents' s₀') ((updateAll emptyRoot ops').trace S'.env s₀'))
    (empty_mem_hashedBytes (contents s₀) ((updateAll emptyRoot ops).trace S.env s₀))
  obtain ⟨root, s, t, hrun, hs, hroot, hM⟩ := updateAll_run hS hfree hempty hops
    ((within_hashedBytes haddr _).mono Set.subset_union_left) (rooted_empty _) maps_absent
    ((insertedIn_subset_hashedBytes _ _).trans Set.subset_union_left)
  obtain ⟨root', s', t', hrun', hs', hroot', hM'⟩ := updateAll_run hS' hfree hempty hops'
    ((within_hashedBytes haddr' _).mono Set.subset_union_right) (rooted_empty _) maps_absent
    ((insertedIn_subset_hashedBytes _ _).trans Set.subset_union_right)
  have hiff : root = root' ↔ mapOf ops = mapOf ops' := by
    rw [hroot.root_eq, hroot'.root_eq]
    constructor
    · intro h
      obtain rfl := eq_of_rootId_eq hfree hempty hroot.canonical hroot'.canonical hroot.keyed
        hroot'.keyed (hroot.stored.mono hs.subset) (hroot'.stored.mono hs'.subset) h
      exact hM.map_eq hM'
    · intro h
      have hM'' : Maps t' (mapFrom (fun _ ↦ none) ops) := by
        rwa [show mapFrom (fun _ ↦ none) ops = mapFrom (fun _ ↦ none) ops' from h]
      rw [hM.trie_eq hM'' hroot.canonical hroot'.canonical hroot.keyed hroot'.keyed]
  refine ⟨root, s, root', s', hrun, hrun', hiff, ?_, ?_, ?_⟩
  · have habsent := rooted_empty (contents s)
    rw [hroot.root_eq, ← rootId_absent]
    constructor
    · intro h p
      obtain rfl := eq_of_rootId_eq hfree hempty hroot.canonical habsent.canonical hroot.keyed
        habsent.keyed (hroot.stored.mono hs.subset) (habsent.stored.mono hs.subset) h
      exact congrFun (hM.map_eq maps_absent) p
    · intro h
      have hnone : mapFrom (fun _ ↦ none) ops = fun _ ↦ none := funext h
      rw [hnone] at hM
      rw [hM.trie_eq maps_absent hroot.canonical habsent.canonical hroot.keyed habsent.keyed]
  · rintro before p v q w after hpq rfl rfl
    exact hiff.mpr (mapOf_swap hpq v w before after)
  · rintro p v hv rfl
    exact hiff.mpr (mapOf_reinsert hv).symm

omit [Sha256] in
/-- Two orders, two stores, one root. -/
theorem updateAll_root_eq_iff_library :
    letI := librarySha256
    ∃ root s s',
      (updateAll emptyRoot libraryOps).run (MemoryStore.store none).env .default = (.ok root, s) ∧
      (updateAll emptyRoot libraryOps.reverse).run (MemoryStore.store none).env .default =
        (.ok root, s') := by
  let _ := librarySha256
  obtain ⟨root, s, root', s', hrun, hrun', -, -, hswap, -⟩ := updateAll_root_eq_iff
    MemoryStore.honest MemoryStore.honest .default .default (fun _ _ h ↦ by cases h)
    (fun _ _ h ↦ by cases h) libraryOps libraryOps.reverse (by decide) (by decide)
    (collisionFree_library.mono (Set.union_subset
      (hashedBytes_subset_library (by decide +kernel))
      (hashedBytes_subset_library (by decide +kernel))))
  obtain rfl := hswap [] "/x/lib" (some (value 1)) "/x/library" (some (value 2)) [] (by decide)
    rfl rfl
  exact ⟨root, s, s', hrun, hrun'⟩

end two

end RadixIndex

end Mst2
