import Mst2Codec.Library.TrieNodes
import Mst2Codec.Namespace.Radix.Sharing

/-!
# The live nodes of an index

What is reached from a root digest through the child tables of the nodes a store holds is live
(`liveBytes`).  Updates only ever add nodes, so a store holds dead ones, too; but the live ones are
the nodes of the trie behind the root (`Rooted.liveBytes_eq`), none without bindings and otherwise
fewer than twice as many as there are (`liveBytes_updateAll`).

They are also all that the index needs.  Another store that holds the live nodes of a root gives the
same answers, and updates that go on from it end in the same root as those over the first store
(`replica_agrees`).
-/

set_option autoImplicit false

namespace Mst2

open Bytes Except

namespace RadixIndex

variable [Sha256] {t u : Trie UInt8 Digest} {l p done : Bytes} {v : Option Digest}
  {c : UInt8 → Trie UInt8 Digest} {held : Digest → Option Bytes} {id d root : Digest}
  {K : Set Bytes}

/-- The nodes that can be reached from a root.  The empty root is not read from the store. -/
def liveBytes (held : Digest → Option Bytes) (root : Digest) : Set Bytes :=
  {b | ∃ id, Relation.ReflTransGen (ChildOf held) root id ∧ id ≠ emptyRoot ∧ held id = some b}

/-! ## The nodes of a stored trie -/

/-- The stored forms of the nodes of a trie. -/
def nodeBytes (t : Trie UInt8 Digest) : Set Bytes :=
  {b | ∃ p l v c, t.At p (.node l v c) ∧ b = (toNode l v c).encode}

/-- Every node of a trie is stored with it. -/
theorem stored_nodeBytes (t : Trie UInt8 Digest) : Stored (nodeBytes t) t := by
  induction t with
  | absent => trivial
  | node l v c ih =>
    refine ⟨⟨l, l, v, c, .here l v c, rfl⟩, fun a ↦ (ih a).mono ?_⟩
    rintro b ⟨p, l', v', c', h, rfl⟩
    exact ⟨l ++ p, l', v', c', h.child, rfl⟩

theorem Stored.nodeBytes_subset {S : Set Bytes} (h : Stored S t) : nodeBytes t ⊆ S := by
  rintro b ⟨p, l, v, c, hat, rfl⟩
  induction t generalizing p with
  | absent => exact absurd hat Trie.not_at_absent
  | node l' v' c' ih =>
    rcases Trie.at_node.mp hat with ⟨-, heq⟩ | ⟨a, q, -, hq⟩
    · obtain ⟨rfl, rfl, rfl⟩ := Trie.node.inj heq
      exact h.1
    · exact ih a (h.2 a) q hq

omit [Sha256] in
/-- The nodes of a keyed trie are keyed. -/
theorem Keyed.at (h : Keyed done t) (ht : t.Canonical) (hat : t.At p u) :
    ∃ done', Keyed done' u := by
  induction hat generalizing done with
  | here l v c => exact ⟨done, h⟩
  | @child l p v c a u hat ih => exact ih (h.child a (ht.2.1 a)) (ht.1 a)

/-- A node of the trie is held under its digest. -/
theorem Within.held_eq (h : Within K held) {b : Bytes} (hb : b ∈ heldBytes held) :
    held (sha256 b) = some b := by
  obtain ⟨id, hid⟩ := hb
  rwa [h.addressed id b hid]

/-- The children of a held node are those of the trie. -/
theorem childOf_iff (hs : Within K held) (ht : (Trie.node l v c).Canonical)
    (hk : Keyed done (.node l v c)) (hstored : Stored (heldBytes held) (.node l v c)) :
    ChildOf held (toNode l v c).id d ↔ ∃ a, digest? (c a) = some d := by
  have hdecode := RadixNode.decode_encode (shaped_toNode hk ht)
  have hheld := hs.held_eq hstored.1
  constructor
  · rintro ⟨b, node, child, hb, hnode, hchild, rfl⟩
    obtain rfl := Option.some.inj (hheld.symm.trans hb)
    obtain rfl := Except.ok.inj (hdecode.symm.trans hnode)
    exact ⟨child.edge, (mem_refsOn.mp hchild).2⟩
  · rintro ⟨a, ha⟩
    exact ⟨_, _, ⟨a, d⟩, hheld, hdecode, mem_refsOn.mpr ⟨mem_allBytes a, ha⟩, rfl⟩

/-- **What is reached from the digest of a trie are the digests of its nodes.** -/
theorem reaches_iff (hs : Within K held) (ht : t.Canonical) (hk : Keyed done t)
    (hstored : Stored (heldBytes held) t) (hd : digest? t = some d) :
    Relation.ReflTransGen (ChildOf held) d id ↔ ∃ p u, t.At p u ∧ digest? u = some id := by
  induction t generalizing d done with
  | absent => cases hd
  | node l v c ih =>
    obtain rfl : (toNode l v c).id = d := Option.some.inj hd
    have hchild : ∀ {a d}, digest? (c a) = some d →
        (Relation.ReflTransGen (ChildOf held) d id ↔ ∃ p u, (c a).At p u ∧ digest? u = some id) :=
      fun {a _} ha ↦ ih a (ht.1 a) (hk.child a (ht.2.1 a)) (hstored.2 a) ha
    constructor
    · intro h
      rcases h.cases_head with rfl | ⟨d, hd, h⟩
      · exact ⟨l, _, .here l v c, rfl⟩
      · obtain ⟨a, ha⟩ := (childOf_iff hs ht hk hstored).mp hd
        obtain ⟨p, u, hat, hu⟩ := (hchild ha).mp h
        exact ⟨l ++ p, u, hat.child, hu⟩
    · rintro ⟨p, u, hat, hu⟩
      rcases Trie.at_node.mp hat with ⟨-, rfl⟩ | ⟨a, q, -, hq⟩
      · obtain rfl := Option.some.inj hu
        exact .refl
      · have ha : c a ≠ .absent := by
          intro habsent
          rw [habsent] at hq
          exact Trie.not_at_absent hq
        obtain ⟨d, hd⟩ := Option.ne_none_iff_exists'.mp (mt digest?_eq_none.mp ha)
        exact .head ((childOf_iff hs ht hk hstored).mpr ⟨a, hd⟩) ((hchild hd).mpr ⟨q, u, hq, hu⟩)

/-- Nothing is below the empty root. -/
theorem eq_of_reaches_emptyRoot (hK : CollisionFree K) (hempty : RadixNode.empty.encode ∈ K)
    (hs : Within K held) (h : Relation.ReflTransGen (ChildOf held) emptyRoot id) :
    id = emptyRoot := by
  rcases h.cases_head with rfl | ⟨d, ⟨b, node, child, hb, hnode, hchild, -⟩, -⟩
  · rfl
  · obtain rfl : b = RadixNode.empty.encode :=
      hK (hs.subset ⟨_, hb⟩) hempty (hs.addressed _ _ hb)
    rw [RadixNode.decode_encode RadixNode.shaped_empty] at hnode
    obtain rfl := Except.ok.inj hnode
    cases hchild

/-- **The live nodes below a root are the nodes of its trie.** -/
theorem Rooted.liveBytes_eq (h : Rooted held root t) (hK : CollisionFree K)
    (hempty : RadixNode.empty.encode ∈ K) (hs : Within K held) :
    liveBytes held root = nodeBytes t := by
  obtain ⟨ht, hk, hstored, rfl⟩ := h
  cases t with
  | absent =>
    refine Set.ext fun b ↦ ⟨?_, ?_⟩
    · rintro ⟨id, hid, hne, -⟩
      exact absurd (eq_of_reaches_emptyRoot hK hempty hs hid) hne
    · rintro ⟨p, l, v, c, hat, -⟩
      exact absurd hat Trie.not_at_absent
  | node l v c =>
    have hreaches : ∀ {id}, Relation.ReflTransGen (ChildOf held) (rootId (.node l v c)) id ↔
        ∃ p u, (Trie.node l v c).At p u ∧ digest? u = some id :=
      fun {_} ↦ reaches_iff hs ht hk hstored rfl
    refine Set.ext fun b ↦ ⟨?_, ?_⟩
    · rintro ⟨id, hid, -, hb⟩
      obtain ⟨p, u, hat, hu⟩ := hreaches.mp hid
      cases u with
      | absent => cases hu
      | node l' v' c' =>
        obtain rfl : (toNode l' v' c').id = id := Option.some.inj hu
        have hnode := hstored.nodeBytes_subset ⟨p, l', v', c', hat, rfl⟩
        exact ⟨p, l', v', c', hat, Option.some.inj (hb.symm.trans (hs.held_eq hnode))⟩
    · rintro ⟨p, l', v', c', hat, rfl⟩
      have hnode := hstored.nodeBytes_subset ⟨p, l', v', c', hat, rfl⟩
      obtain ⟨done', hk'⟩ := hk.at ht hat
      refine ⟨_, hreaches.mpr ⟨p, _, hat, rfl⟩, fun heq ↦ ?_, hs.held_eq hnode⟩
      refine toNode_ne_empty (hat.canonical ht) (RadixNode.encode_injective
        (shaped_toNode hk' (hat.canonical ht)) RadixNode.shaped_empty
        (hK (hs.subset hnode) hempty heq))

/-! ## How many there are -/

omit [Sha256] in
/-- The keys of a trie are those of the bound paths. -/
theorem Maps.ncard_keys {M : String → Option Digest} (h : Maps t M) (hk : Keyed [] t) :
    {k | ∃ d, t.lookup k = some d}.ncard = {path | M path ≠ none}.ncard := by
  have himage : {k | ∃ d, t.lookup k = some d} = keyOf '' {path | M path ≠ none} := by
    refine Set.ext fun k ↦ ⟨?_, ?_⟩
    · rintro ⟨d, hd⟩
      obtain ⟨path, -, hkey, hM⟩ := (h.lookup_eq_some hk).mp hd
      exact ⟨path, by simp [hM], hkey⟩
    · rintro ⟨path, hpath, rfl⟩
      obtain ⟨d, hd⟩ := Option.ne_none_iff_exists'.mp hpath
      exact ⟨d, (h.lookup_eq_some hk).mpr ⟨path, h.valid path hpath, rfl, hd⟩⟩
  rw [himage, Set.InjOn.ncard_image]
  exact fun p hp q hq ↦ keyOf_injective (h.valid p hp) (h.valid q hq)

/-- A trie with keys has fewer than twice as many nodes, one without has none, and each fits. -/
theorem nodeBytes_bounded {M : String → Option Digest} (ht : t.Canonical) (hk : Keyed [] t)
    (hM : Maps t M) : (nodeBytes t).Finite ∧
      (nodeBytes t).ncard ≤ 2 * {path | M path ≠ none}.ncard - 1 ∧
      ∀ b ∈ nodeBytes t, b.length ≤ nodeMaxBytes := by
  have hfits : ∀ b ∈ nodeBytes t, b.length ≤ nodeMaxBytes := by
    rintro b ⟨p, l, v, c, hat, rfl⟩
    obtain ⟨done, hkeyed⟩ := hk.at ht hat
    exact RadixNode.length_encode_le (shaped_toNode hkeyed (hat.canonical ht))
  -- a node is known by its place
  have hplace : ∀ b ∈ nodeBytes t, ∃ p, ∃ l v c, t.At p (.node l v c) ∧
      b = (toNode l v c).encode := fun b hb ↦ hb
  choose! place hplace using hplace
  have hmaps : Set.MapsTo place (nodeBytes t) {p | ∃ u, t.At p u} := by
    intro b hb
    obtain ⟨l, v, c, hat, -⟩ := hplace b hb
    exact ⟨_, hat⟩
  have hinj : Set.InjOn place (nodeBytes t) := by
    intro b hb b' hb' heq
    obtain ⟨l, v, c, hat, rfl⟩ := hplace b hb
    obtain ⟨l', v', c', hat', rfl⟩ := hplace b' hb'
    rw [heq] at hat
    obtain ⟨rfl, rfl, rfl⟩ := Trie.node.inj (hat.unique hat' ht)
    rfl
  refine ⟨(Trie.finite_at t).of_injOn hmaps hinj, ?_, hfits⟩
  have hle := Set.ncard_le_ncard_of_injOn place hmaps hinj (Trie.finite_at t)
  rw [← hM.ncard_keys hk]
  by_cases hne : t = .absent
  · subst hne
    have hnone : {p | ∃ u, Trie.At (.absent : Trie UInt8 Digest) p u} = ∅ :=
      Set.eq_empty_of_forall_notMem fun p hp ↦ Trie.not_at_absent hp.choose_spec
    rw [hnone, Set.ncard_empty] at hle
    omega
  · exact Nat.le_sub_one_of_lt (hle.trans_lt (Trie.ncard_at_lt ht hne))

/-! ## Over whole runs -/

section runs

variable {σ σ' : Type} {S : NodeStore σ} {S' : NodeStore σ'}
  {contents : σ → Digest → Option Bytes} {contents' : σ' → Digest → Option Bytes}

/-- **An index of `n` bindings has at most `2 * n - 1` live nodes**, none without bindings, each of
which fits, however many updates have led to it and whatever else the store holds. -/
theorem liveBytes_updateAll (hS : S.Honest contents) (s₀ : σ) (haddr : Addressed (contents s₀))
    (ops : List Op) (hops : ∀ op ∈ ops, ValidPath op.1)
    (hfree : CollisionFree
      (hashedBytes (contents s₀) ((updateAll emptyRoot ops).trace S.env s₀))) :
    ∃ root s, (updateAll emptyRoot ops).run S.env s₀ = (.ok root, s) ∧
      (liveBytes (contents s) root).Finite ∧
      (liveBytes (contents s) root).ncard ≤ 2 * {path | mapOf ops path ≠ none}.ncard - 1 ∧
      ∀ b ∈ liveBytes (contents s) root, b.length ≤ nodeMaxBytes := by
  have hempty := empty_mem_hashedBytes (contents s₀) ((updateAll emptyRoot ops).trace S.env s₀)
  obtain ⟨root, s, t, hrun, hs, hroot, hM⟩ := updateAll_run hS hfree hempty hops
    (within_hashedBytes haddr _) (rooted_empty _) maps_absent (insertedIn_subset_hashedBytes _ _)
  refine ⟨root, s, hrun, ?_⟩
  rw [hroot.liveBytes_eq hfree hempty hs]
  exact nodeBytes_bounded hroot.canonical hroot.keyed hM

omit [Sha256] in
/-- Two libraries take three nodes. -/
theorem liveBytes_updateAll_library :
    letI := librarySha256
    ∃ root s,
      (updateAll emptyRoot libraryOps).run (MemoryStore.store none).env .default = (.ok root, s) ∧
      (liveBytes s.contents root).ncard ≤ 3 := by
  let _ := librarySha256
  obtain ⟨root, s, hrun, -, hle, -⟩ := liveBytes_updateAll MemoryStore.honest .default
    (fun _ _ h ↦ by cases h) libraryOps (by decide) collisionFree_libraryOps
  refine ⟨root, s, hrun, hle.trans ?_⟩
  have hsub : {path | mapOf libraryOps path ≠ none} ⊆ {"/x/lib", "/x/library"} := by
    intro path hpath
    by_contra hnot
    rw [Set.mem_insert_iff, Set.mem_singleton_iff, not_or] at hnot
    refine hpath ?_
    show Function.update (Function.update (fun _ ↦ none) "/x/lib" (some (value 1))) "/x/library"
      (some (value 2)) path = none
    rw [Function.update_of_ne hnot.2, Function.update_of_ne hnot.1]
  have hpair := (Set.ncard_le_ncard hsub (Set.toFinite _)).trans (Set.ncard_insert_le _ _)
  rw [Set.ncard_singleton] at hpair
  omega

omit [Sha256] in
/-- What a walk finds is determined by the trie. -/
theorem FoundAt.unique {o : Option (Bytes × Digest)} {found x y : Option (String × Digest)}
    (hx : FoundAt done o found x) (hy : FoundAt done o found y) : x = y := by
  cases o with
  | none => exact Eq.trans hx (Eq.symm hy)
  | some o =>
    obtain ⟨p, hp, hkey, rfl⟩ := hx
    obtain ⟨q, hq, hkey', rfl⟩ := hy
    rw [keyOf_injective hp hq (hkey.trans hkey'.symm)]

/-- An honest store returns what `longest_prefix` finds in the trie. -/
theorem longestPrefix_eq_ok (hS : S.Honest contents) (hK : CollisionFree K)
    (hempty : RadixNode.empty.encode ∈ K) {s : σ} (hs : Within K (contents s))
    (h : Rooted (contents s) root t) {path : String} (hp : ValidPath path) :
    ∃ o, ((longestPrefix root path).run S.env s).1 = .ok o ∧
      FoundAt [] (t.longest (keyOf path)) none o := by
  obtain ⟨herr, hok⟩ := longestPrefix_run hS.toImmutable hK hempty hs h hp
  cases hx : ((longestPrefix root path).run S.env s).1 with
  | error e => exact absurd hS (herr e hx).1
  | ok o => exact ⟨o, rfl, (hok o hx).2⟩

/-- **The live nodes are all that an index needs.**  If another store holds the live nodes of a
root, every sequence of updates from it ends over both stores in the same root with the same live
nodes, and both answer every lookup alike. -/
theorem replica_agrees (hS : S.Honest contents) (hS' : S'.Honest contents') (s₀ : σ)
    (haddr : Addressed (contents s₀)) (ops : List Op) (hops : ∀ op ∈ ops, ValidPath op.1)
    (hfree : CollisionFree
      (hashedBytes (contents s₀) ((updateAll emptyRoot ops).trace S.env s₀))) :
    ∃ root s, (updateAll emptyRoot ops).run S.env s₀ = (.ok root, s) ∧
      ∀ (s' : σ') (ops' : List Op), Addressed (contents' s') →
        liveBytes (contents s) root ⊆ heldBytes (contents' s') → (∀ op ∈ ops', ValidPath op.1) →
        CollisionFree (hashedBytes (contents s₀) ((updateAll emptyRoot ops).trace S.env s₀ ++
            (updateAll root ops').trace S.env s) ∪
          hashedBytes (contents' s') ((updateAll root ops').trace S'.env s')) →
        ∃ root' u u', (updateAll root ops').run S.env s = (.ok root', u) ∧
          (updateAll root ops').run S'.env s' = (.ok root', u') ∧
          liveBytes (contents u) root' = liveBytes (contents' u') root' ∧
          ∀ path, ValidPath path → ∃ o x,
            ((get root' path).run S.env u).1 = .ok o ∧
            ((get root' path).run S'.env u').1 = .ok o ∧
            ((longestPrefix root' path).run S.env u).1 = .ok x ∧
            ((longestPrefix root' path).run S'.env u').1 = .ok x := by
  have hempty := empty_mem_hashedBytes (contents s₀) ((updateAll emptyRoot ops).trace S.env s₀)
  obtain ⟨root, s, t, hrun, hs, hroot, hM⟩ := updateAll_run hS hfree hempty hops
    (within_hashedBytes haddr _) (rooted_empty _) maps_absent (insertedIn_subset_hashedBytes _ _)
  refine ⟨root, s, hrun, fun s' ops' haddr' hlive hops' hfree' ↦ ?_⟩
  rw [hroot.liveBytes_eq hfree hempty hs] at hlive
  -- both stores hold the same trie
  have hroot' : Rooted (contents' s') root t :=
    ⟨hroot.canonical, hroot.keyed, (stored_nodeBytes t).mono hlive, hroot.root_eq⟩
  have hempty' := Set.mem_union_left (hashedBytes (contents' s')
    ((updateAll root ops').trace S'.env s')) (empty_mem_hashedBytes (contents s₀)
      ((updateAll emptyRoot ops).trace S.env s₀ ++ (updateAll root ops').trace S.env s))
  obtain ⟨r₁, u, t₁, hrun₁, hu, hroot₁, hM₁⟩ := updateAll_run hS hfree' hempty' hops'
    (hs.mono ((hashedBytes_mono _ _ _).trans Set.subset_union_left)) hroot hM
    ((insertedIn_right_subset_hashedBytes _ _ _).trans Set.subset_union_left)
  obtain ⟨r₂, u', t₂, hrun₂, hu', hroot₂, hM₂⟩ := updateAll_run hS' hfree' hempty' hops'
    ((within_hashedBytes haddr' _).mono Set.subset_union_right) hroot' hM
    ((insertedIn_subset_hashedBytes _ _).trans Set.subset_union_right)
  -- and they do after the same updates
  obtain rfl := hM₁.trie_eq hM₂ hroot₁.canonical hroot₂.canonical hroot₁.keyed hroot₂.keyed
  obtain rfl : r₁ = r₂ := hroot₁.root_eq.trans hroot₂.root_eq.symm
  refine ⟨r₁, u, u', hrun₁, hrun₂, ?_, fun path hp ↦ ?_⟩
  · rw [hroot₁.liveBytes_eq hfree' hempty' hu, hroot₂.liveBytes_eq hfree' hempty' hu']
  · obtain ⟨x, hx, hfound⟩ := longestPrefix_eq_ok hS hfree' hempty' hu hroot₁ hp
    obtain ⟨y, hy, hfound'⟩ := longestPrefix_eq_ok hS' hfree' hempty' hu' hroot₂ hp
    obtain rfl := hfound.unique hfound'
    exact ⟨_, x, get_eq_ok hS hfree' hempty' hu hroot₁ hp,
      get_eq_ok hS' hfree' hempty' hu' hroot₂ hp, hx, hy⟩

/-! ### A replica of one node -/

section library

omit [Sha256]

/-- Bind both libraries and unbind one again. -/
def unbindOps : List Op := libraryOps ++ [("/x/lib", none)]

/-- The node that is left. -/
def libraryNode : RadixNode := ⟨"x\x00library\x00".asBytes, some (value 2), []⟩

/-- Its digest. -/
def unbindRoot : Digest :=
  .ofNat 0xe6b6bbbb82513bf5b3fbd428b844bda3fed25722867af3b77e191ef473d50fb9

/-- A store that holds nothing else. -/
def replica : MemoryStore := ⟨[(unbindRoot, libraryNode.encode)], 0, 0⟩

/-- Binding the library again over the replica. -/
theorem replica_agrees_library :
    letI := librarySha256
    ∃ s root u u',
      (updateAll emptyRoot unbindOps).run (MemoryStore.store none).env .default =
        (.ok unbindRoot, s) ∧
      (updateAll unbindRoot [("/x/lib", some (value 1))]).run (MemoryStore.store none).env s =
        (.ok root, u) ∧
      (updateAll unbindRoot [("/x/lib", some (value 1))]).run (MemoryStore.store none).env
        replica = (.ok root, u') := by
  let _ := librarySha256
  obtain ⟨root, s, hrun, h⟩ := replica_agrees MemoryStore.honest MemoryStore.honest .default
    (fun _ _ h ↦ by cases h) unbindOps (by decide)
    (collisionFree_library.mono (hashedBytes_subset_library (by decide +kernel)))
  have hroot : ((updateAll emptyRoot unbindOps).run (MemoryStore.store none).env .default).1 =
      .ok unbindRoot := by decide +kernel
  obtain rfl := congrArg Prod.snd hrun
  obtain rfl := Except.ok.inj ((congrArg Prod.fst hrun).symm.trans hroot)
  have hheld : ((updateAll emptyRoot unbindOps).run (MemoryStore.store none).env
      .default).2.contents unbindRoot = some libraryNode.encode := by decide +kernel
  have hdecode : RadixNode.decode libraryNode.encode = .ok libraryNode := by decide +kernel
  have hreplica : ∀ id b, replica.contents id = some b →
      id = unbindRoot ∧ b = libraryNode.encode := by
    intro id b hb
    by_cases hid : id = unbindRoot
    · subst hid
      exact ⟨rfl, (Option.some.inj hb).symm⟩
    · simp [replica, MemoryStore.contents, List.lookup_cons, beq_false_of_ne hid] at hb
  have haddr : Addressed replica.contents := by
    intro id b hb
    obtain ⟨rfl, rfl⟩ := hreplica id b hb
    decide +kernel
  have hlive : liveBytes ((updateAll emptyRoot unbindOps).run (MemoryStore.store none).env
      .default).2.contents unbindRoot ⊆ heldBytes replica.contents := by
    rintro b ⟨id, hid, -, hb⟩
    rcases hid.cases_head with rfl | ⟨d, ⟨b', node, child, hb', hnode, hchild, -⟩, -⟩
    · obtain rfl := Option.some.inj (hheld.symm.trans hb)
      exact ⟨unbindRoot, rfl⟩
    · obtain rfl := Option.some.inj (hheld.symm.trans hb')
      obtain rfl := Except.ok.inj (hdecode.symm.trans hnode)
      cases hchild
  have hinserts : ∀ b ∈ inserts ((updateAll unbindRoot [("/x/lib", some (value 1))]).trace
      (MemoryStore.store none).env replica), b ∈ libraryStrings := by decide +kernel
  have hsub : hashedBytes replica.contents ((updateAll unbindRoot
      [("/x/lib", some (value 1))]).trace (MemoryStore.store none).env replica) ⊆
        {b | b ∈ libraryStrings} := by
    rintro b (rfl | ⟨id, hid⟩ | ⟨id, a, hmem⟩)
    · decide
    · obtain ⟨-, rfl⟩ := hreplica id b hid
      decide
    · exact hinserts b (List.mem_filterMap.mpr ⟨_, hmem, rfl⟩)
  obtain ⟨root', u, u', hu, hu', -⟩ := h replica [("/x/lib", some (value 1))] haddr hlive
    (by decide) (collisionFree_library.mono (Set.union_subset
      (hashedBytes_subset_library (by decide +kernel)) hsub))
  exact ⟨_, root', u, u', hrun, hu, hu'⟩

end library

end runs

end RadixIndex

end Mst2
