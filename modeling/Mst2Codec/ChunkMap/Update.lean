import Mst2Codec.ChunkMap.Content

/-!
# Trees whose leaves differ

The root of a tree determines its leaves and how many there are
(`Merkle.merkleRoot_eq_iff`).  When one leaf is replaced its proof stays as it is, so the proof
alone gives the new root, and any other proof stays as it is but for the digest of one step.  If
the leaf is another one, so is this digest, unless strings collide (`Merkle.leafProof_set`).
-/

set_option autoImplicit false

namespace Mst2

open Bytes Except

namespace Merkle

variable [Sha256]

/-! ## Trees with the same root -/

omit [Sha256] in
theorem ne_nil_take_drop {leaves : List Digest} (h : 1 < leaves.length) :
    leaves.take (largestPow2Below leaves.length) ≠ [] ∧
      leaves.drop (largestPow2Below leaves.length) ≠ [] := by
  obtain ⟨htake, hdrop⟩ := length_take_drop h
  have hlt := largestPow2Below_lt h
  have hpos := largestPow2Below_pos h
  exact ⟨List.ne_nil_of_length_pos (by omega), List.ne_nil_of_length_pos (by omega)⟩

theorem subtreeInputs_of_forall {K : Set Bytes} {leaves : List Digest} (h : 1 < leaves.length)
    (hmem : ∀ x ∈ subtreeInputs leaves, x ∈ K) :
    (∀ x ∈ subtreeInputs (leaves.take (largestPow2Below leaves.length)), x ∈ K) ∧
      ∀ x ∈ subtreeInputs (leaves.drop (largestPow2Below leaves.length)), x ∈ K := by
  rw [subtreeInputs_of_lt h] at hmem
  exact List.forall_mem_append.mp (List.forall_mem_cons.mp hmem).2

/-- Branches with the same root have the same subtrees. -/
theorem of_buildSubtree_eq {K : Set Bytes} (hK : CollisionFree K) {hs hs' : List Digest}
    (hone : 1 < hs.length) (hone' : 1 < hs'.length) (hlen : hs.length < 2 ^ 63)
    (hlen' : hs'.length < 2 ^ 63) (htree : ∀ x ∈ subtreeInputs hs, x ∈ K)
    (htree' : ∀ x ∈ subtreeInputs hs', x ∈ K)
    (h : (buildSubtree hs).1 = (buildSubtree hs').1) :
    (buildSubtree (hs.take (largestPow2Below hs.length))).1 =
        (buildSubtree (hs'.take (largestPow2Below hs'.length))).1 ∧
      (buildSubtree (hs.drop (largestPow2Below hs.length))).1 =
        (buildSubtree (hs'.drop (largestPow2Below hs'.length))).1 := by
  rw [subtreeInputs_of_lt hone] at htree
  rw [subtreeInputs_of_lt hone'] at htree'
  have hlt := largestPow2Below_lt hone
  have hlt' := largestPow2Below_lt hone'
  rw [buildSubtree_of_lt hone, buildSubtree_of_lt hone'] at h
  have hinput := hK (List.forall_mem_cons.mp htree).1 (List.forall_mem_cons.mp htree').1 h
  rw [buildSubtree_take_snd hone, buildSubtree_drop_snd hone, buildSubtree_take_snd hone',
    buildSubtree_drop_snd hone'] at hinput
  obtain ⟨hleft, hright, -, -⟩ :=
    branchInput_inj (by omega) (by omega) (by omega) (by omega) hinput
  exact ⟨hleft, hright⟩

/-- Trees of the same size with the same root have the same digests for leaves. -/
theorem eq_of_buildSubtree_eq_of_length {K : Set Bytes} (hK : CollisionFree K)
    {hs hs' : List Digest} (hlength : hs.length = hs'.length) (hpos : 0 < hs.length)
    (hlen : hs.length < 2 ^ 63) (htree : ∀ x ∈ subtreeInputs hs, x ∈ K)
    (htree' : ∀ x ∈ subtreeInputs hs', x ∈ K)
    (h : (buildSubtree hs).1 = (buildSubtree hs').1) : hs = hs' := by
  induction hn : hs.length using Nat.strong_induction_on generalizing hs hs' with
  | _ n ih =>
    subst hn
    by_cases hone : 1 < hs.length
    · have hone' : 1 < hs'.length := hlength ▸ hone
      have hlt := largestPow2Below_lt hone
      have hkpos := largestPow2Below_pos hone
      obtain ⟨htake, hdrop⟩ := length_take_drop hone
      obtain ⟨htake', hdrop'⟩ := length_take_drop hone'
      obtain ⟨hleft, hright⟩ := of_buildSubtree_eq hK hone hone' hlen (hlength ▸ hlen) htree htree' h
      obtain ⟨hsub, hsub₂⟩ := subtreeInputs_of_forall hone htree
      obtain ⟨hsub', hsub₂'⟩ := subtreeInputs_of_forall hone' htree'
      rw [← hlength] at htake' hdrop' hleft hright hsub' hsub₂'
      rw [← List.take_append_drop (largestPow2Below hs.length) hs,
        ← List.take_append_drop (largestPow2Below hs.length) hs',
        ih _ (by omega) (by omega) (by omega) (by omega) hsub hsub' hleft htake,
        ih _ (by omega) (by omega) (by omega) (by omega) hsub₂ hsub₂' hright hdrop]
    · obtain ⟨d, rfl⟩ := List.length_eq_one_iff.mp (show hs.length = 1 by omega)
      obtain ⟨d', rfl⟩ := List.length_eq_one_iff.mp hlength.symm
      rw [buildSubtree_singleton, buildSubtree_singleton] at h
      rw [show d = d' from h]

/-- The root determines the size, since no leaf is a branch. -/
theorem length_eq_of_buildSubtree_eq {K : Set Bytes} (hK : CollisionFree K) {hs hs' : List Digest}
    (hne : hs ≠ []) (hne' : hs' ≠ []) (hlen : hs.length < 2 ^ 63) (hlen' : hs'.length < 2 ^ 63)
    (hleaves : ∀ d ∈ hs, IsLeafHash K d) (hleaves' : ∀ d ∈ hs', IsLeafHash K d)
    (htree : ∀ x ∈ subtreeInputs hs, x ∈ K) (htree' : ∀ x ∈ subtreeInputs hs', x ∈ K)
    (h : (buildSubtree hs).1 = (buildSubtree hs').1) : hs.length = hs'.length := by
  induction hn : hs.length using Nat.strong_induction_on generalizing hs hs' with
  | _ n ih =>
    subst hn
    have hpos := List.length_pos_iff.mpr hne
    have hpos' := List.length_pos_iff.mpr hne'
    by_cases hone : 1 < hs.length
    · by_cases hone' : 1 < hs'.length
      · have hlt := largestPow2Below_lt hone
        have hkpos := largestPow2Below_pos hone
        have hlt' := largestPow2Below_lt hone'
        obtain ⟨htake, hdrop⟩ := length_take_drop hone
        obtain ⟨htake', hdrop'⟩ := length_take_drop hone'
        obtain ⟨hleft, hright⟩ := of_buildSubtree_eq hK hone hone' hlen hlen' htree htree' h
        obtain ⟨hsub, hsub₂⟩ := subtreeInputs_of_forall hone htree
        obtain ⟨hsub', hsub₂'⟩ := subtreeInputs_of_forall hone' htree'
        obtain ⟨htne, hdne⟩ := ne_nil_take_drop hone
        obtain ⟨htne', hdne'⟩ := ne_nil_take_drop hone'
        have hl := ih _ (by omega) htne htne' (by omega) (by omega)
          (fun d hd ↦ hleaves d (List.mem_of_mem_take hd))
          (fun d hd ↦ hleaves' d (List.mem_of_mem_take hd)) hsub hsub' hleft htake
        have hr := ih _ (by omega) hdne hdne' (by omega) (by omega)
          (fun d hd ↦ hleaves d (List.mem_of_mem_drop hd))
          (fun d hd ↦ hleaves' d (List.mem_of_mem_drop hd)) hsub₂ hsub₂' hright hdrop
        omega
      · obtain ⟨d, rfl⟩ := List.length_eq_one_iff.mp (show hs'.length = 1 by omega)
        rw [buildSubtree_of_lt hone, buildSubtree_singleton] at h
        have hmem := htree _ (by rw [subtreeInputs_of_lt hone]; exact List.mem_cons_self)
        exact absurd h.symm ((hleaves' d (List.mem_singleton_self d)).ne_branch hK hmem)
    · obtain ⟨d, rfl⟩ := List.length_eq_one_iff.mp (show hs.length = 1 by omega)
      by_cases hone' : 1 < hs'.length
      · rw [buildSubtree_of_lt hone', buildSubtree_singleton] at h
        have hmem := htree' _ (by rw [subtreeInputs_of_lt hone']; exact List.mem_cons_self)
        exact absurd h ((hleaves d (List.mem_singleton_self d)).ne_branch hK hmem)
      · rw [List.length_singleton]
        omega

/-- **Trees with the same root have the same leaves.** -/
theorem eq_of_buildSubtree_eq {K : Set Bytes} (hK : CollisionFree K) {hs hs' : List Digest}
    (hne : hs ≠ []) (hne' : hs' ≠ []) (hlen : hs.length < 2 ^ 63) (hlen' : hs'.length < 2 ^ 63)
    (hleaves : ∀ d ∈ hs, IsLeafHash K d) (hleaves' : ∀ d ∈ hs', IsLeafHash K d)
    (htree : ∀ x ∈ subtreeInputs hs, x ∈ K) (htree' : ∀ x ∈ subtreeInputs hs', x ∈ K)
    (h : (buildSubtree hs).1 = (buildSubtree hs').1) : hs = hs' := by
  have hlength :=
    length_eq_of_buildSubtree_eq hK hne hne' hlen hlen' hleaves hleaves' htree htree' h
  exact eq_of_buildSubtree_eq_of_length hK hlength (List.length_pos_iff.mpr hne) hlen htree htree' h

/-- The strings that are hashed for leaf pages and the tree over them. -/
def treeStrings (leaves : List ChunkLeaf) (hs : List Digest) : List Bytes :=
  leaves.filterMap (fun l ↦ l.encode.toOption.map ChunkLeaf.hashInput) ++ subtreeInputs hs

/-- The hash of a leaf page is that of its string. -/
theorem mem_treeStrings {leaves : List ChunkLeaf} {hs : List Digest} {l : ChunkLeaf} {b : Bytes}
    (hl : l ∈ leaves) (hb : l.encode = .ok b) : ChunkLeaf.hashInput b ∈ treeStrings leaves hs := by
  refine List.mem_append_left _ (List.mem_filterMap.mpr ⟨l, hl, ?_⟩)
  rw [hb]
  rfl

theorem isLeafHash_of_mapM {leaves : List ChunkLeaf} {hs : List Digest}
    (hhs : leaves.mapM ChunkLeaf.leafHash = .ok hs) {K : Set Bytes}
    (hK : ∀ x ∈ treeStrings leaves hs, x ∈ K) {d : Digest} (hd : d ∈ hs) : IsLeafHash K d := by
  have hall := forall₂_of_mapM_eq_ok hhs
  have hlength := hall.length_eq
  obtain ⟨j, hj, rfl⟩ := List.mem_iff_getElem.mp hd
  obtain ⟨b, hb, hd⟩ := ChunkLeaf.leafHash_eq_ok.mp (hall.get (i := j) (by omega) hj)
  exact ⟨b, hK _ (mem_treeStrings (List.get_mem _ _) hb), hd⟩

/-- Leaf pages with the same hashes are the same. -/
theorem eq_of_mapM_leafHash {leaves leaves' : List ChunkLeaf} {hs : List Digest} {K : Set Bytes}
    (hK : CollisionFree K) (hhs : leaves.mapM ChunkLeaf.leafHash = .ok hs)
    (hhs' : leaves'.mapM ChunkLeaf.leafHash = .ok hs) (hmem : ∀ x ∈ treeStrings leaves hs, x ∈ K)
    (hmem' : ∀ x ∈ treeStrings leaves' hs, x ∈ K) : leaves = leaves' := by
  have hall := forall₂_of_mapM_eq_ok hhs
  have hall' := forall₂_of_mapM_eq_ok hhs'
  refine List.ext_getElem (hall.length_eq.trans hall'.length_eq.symm) fun j hj hj' ↦ ?_
  obtain ⟨b, hb, hd⟩ := ChunkLeaf.leafHash_eq_ok.mp (hall.get hj (hall.length_eq ▸ hj))
  obtain ⟨b', hb', hd'⟩ := ChunkLeaf.leafHash_eq_ok.mp (hall'.get hj' (hall'.length_eq ▸ hj'))
  have hbytes := hK (hmem _ (mem_treeStrings (List.get_mem _ _) hb))
    (hmem' _ (mem_treeStrings (List.get_mem _ _) hb')) (hd.symm.trans hd')
  obtain rfl : b = b' := List.append_cancel_left hbytes
  exact ChunkLeaf.encode_inj hb hb'

/-- **The root determines the pages**, and how many there are. -/
theorem merkleRoot_eq_iff (leaves leaves' : Slice ChunkLeaf) (hs hs' : List Digest)
    (hhs : leaves.toList.mapM ChunkLeaf.leafHash = .ok hs)
    (hhs' : leaves'.toList.mapM ChunkLeaf.leafHash = .ok hs') (root root' : Digest)
    (hroot : merkleRoot hs = .ok root) (hroot' : merkleRoot hs' = .ok root')
    (hfree : CollisionFree
      {x | x ∈ treeStrings leaves.toList hs ++ treeStrings leaves'.toList hs'}) :
    root = root' ↔ leaves.toList = leaves'.toList := by
  have hlen := leaves.length_lt
  have hlen' := leaves'.length_lt
  rw [(forall₂_of_mapM_eq_ok hhs).length_eq] at hlen
  rw [(forall₂_of_mapM_eq_ok hhs').length_eq] at hlen'
  have hmem : ∀ x ∈ treeStrings leaves.toList hs,
      x ∈ {x | x ∈ treeStrings leaves.toList hs ++ treeStrings leaves'.toList hs'} :=
    fun x hx ↦ List.mem_append_left _ hx
  have hmem' : ∀ x ∈ treeStrings leaves'.toList hs',
      x ∈ {x | x ∈ treeStrings leaves.toList hs ++ treeStrings leaves'.toList hs'} :=
    fun x hx ↦ List.mem_append_right _ hx
  rw [merkleRoot, reject_bind_eq_ok] at hroot hroot'
  obtain ⟨hne, hroot⟩ := hroot
  obtain ⟨hne', hroot'⟩ := hroot'
  obtain rfl := Except.ok.inj hroot
  obtain rfl := Except.ok.inj hroot'
  constructor
  · intro h
    obtain rfl := eq_of_buildSubtree_eq hfree hne hne' hlen hlen'
      (fun d hd ↦ isLeafHash_of_mapM hhs hmem hd) (fun d hd ↦ isLeafHash_of_mapM hhs' hmem' hd)
      (fun x hx ↦ hmem x (List.mem_append_right _ hx))
      (fun x hx ↦ hmem' x (List.mem_append_right _ hx)) h
    exact eq_of_mapM_leafHash hfree hhs hhs' hmem hmem'
  · intro h
    rw [h, hhs', Except.ok.injEq] at hhs
    rw [hhs]

omit [Sha256] in
/-- The root of three leaves and the root of the first two. -/
theorem merkleRoot_eq_iff_trio :
    letI := trioSha256
    merkleRoot trioHashes.toList ≠ merkleRoot (trioHashes.toList.take 2) := by
  let _ := trioSha256
  have hfree : ∀ x ∈ treeStrings trio.toList trioHashes.toList ++
        treeStrings (trio.toList.take 2) (trioHashes.toList.take 2),
      ∀ y ∈ treeStrings trio.toList trioHashes.toList ++
        treeStrings (trio.toList.take 2) (trioHashes.toList.take 2),
      sha256 x = sha256 y → x = y := by
    decide +kernel
  have hroot : merkleRoot trioHashes.toList = .ok trioRoot := by decide +kernel
  have hleft : merkleRoot (trioHashes.toList.take 2) = .ok trioLeft := by decide +kernel
  have hiff := merkleRoot_eq_iff trio ⟨trio.toList.take 2, by decide⟩ _ _ (by decide +kernel)
    (by decide +kernel) trioRoot trioLeft hroot hleft (fun x hx y hy ↦ hfree x hx y hy)
  rw [hroot, hleft, ne_eq, Except.ok.injEq, hiff]
  decide

/-! ## A leaf that is replaced -/

/-- The proof of the leaf does not have it. -/
theorem proofDescent_set_self (leaves : List Digest) (i : ℕ) (leaf : Digest) :
    proofDescent (leaves.set i leaf) i = proofDescent leaves i := by
  induction hn : leaves.length using Nat.strong_induction_on generalizing leaves i with
  | _ n ih =>
    subst hn
    by_cases h : 1 < leaves.length
    · have hset : 1 < (leaves.set i leaf).length := by rwa [List.length_set]
      obtain ⟨htake, hdrop⟩ := length_take_drop h
      have hlt := largestPow2Below_lt h
      have hpos := largestPow2Below_pos h
      by_cases hi : i < largestPow2Below leaves.length
      · rw [proofDescent_right h hi, proofDescent_right hset (by rwa [List.length_set]),
          List.length_set, List.take_set, List.drop_set_of_lt hi, ih _ hlt _ _ htake]
      · rw [proofDescent_left h hi, proofDescent_left hset (by rwa [List.length_set]),
          List.length_set, List.take_set_of_le (not_lt.mp hi), List.drop_set, if_neg hi,
          ih _ (by omega) _ _ hdrop]
    · have hset : (leaves.set i leaf).length ≤ 1 := by
        rw [List.length_set]
        omega
      rw [proofDescent_of_le hset, proofDescent_of_le (not_lt.mp h)]

/-- The root stays as it is if the leaf does. -/
theorem getElem?_of_buildSubtree_set_eq {K : Set Bytes} (hK : CollisionFree K)
    {leaves : List Digest} {i : ℕ} (hi : i < leaves.length) {leaf : Digest}
    (hlen : leaves.length < 2 ^ 63) (htree : ∀ x ∈ subtreeInputs leaves, x ∈ K)
    (htree' : ∀ x ∈ subtreeInputs (leaves.set i leaf), x ∈ K)
    (h : (buildSubtree (leaves.set i leaf)).1 = (buildSubtree leaves).1) :
    leaves[i]? = some leaf := by
  rw [eq_of_buildSubtree_eq_of_length hK List.length_set.symm (by omega) hlen htree htree' h.symm]
  exact List.getElem?_set_self hi

/-- Any other proof has it in one sibling. -/
theorem proofDescent_set_of_ne {leaves : List Digest} {i j : ℕ} (hi : i < leaves.length)
    (hj : j < leaves.length) (hij : i ≠ j) (hlen : leaves.length < 2 ^ 63) (leaf : Digest) :
    ∃ pre step post digest, proofDescent leaves j = pre ++ step :: post ∧
      proofDescent (leaves.set i leaf) j = pre ++ { step with digest := digest } :: post ∧
      ∀ K, CollisionFree K → (∀ x ∈ subtreeInputs leaves, x ∈ K) →
        (∀ x ∈ subtreeInputs (leaves.set i leaf), x ∈ K) → digest = step.digest →
          leaves[i]? = some leaf := by
  induction hn : leaves.length using Nat.strong_induction_on generalizing leaves i j with
  | _ n ih =>
    subst hn
    have h : 1 < leaves.length := by omega
    have hset : 1 < (leaves.set i leaf).length := by rwa [List.length_set]
    obtain ⟨htake, hdrop⟩ := length_take_drop h
    have hlt := largestPow2Below_lt h
    have hpos := largestPow2Below_pos h
    by_cases hik : i < largestPow2Below leaves.length
    · -- the leaf is on the left
      have hleft : (leaves.set i leaf).take (largestPow2Below leaves.length) =
          (leaves.take (largestPow2Below leaves.length)).set i leaf := List.take_set
      have hget : leaves[i]? = (leaves.take (largestPow2Below leaves.length))[i]? :=
        (List.getElem?_take_of_lt hik).symm
      have hinputs {K : Set Bytes} (hmem : ∀ x ∈ subtreeInputs (leaves.set i leaf), x ∈ K) :
          ∀ x ∈ subtreeInputs ((leaves.take (largestPow2Below leaves.length)).set i leaf),
            x ∈ K := by
        have hsub := (subtreeInputs_of_forall hset hmem).1
        rwa [List.length_set, hleft] at hsub
      by_cases hjk : j < largestPow2Below leaves.length
      · obtain ⟨pre, step, post, digest, hold, hnew, hdigest⟩ :=
          ih _ hlt (htake.symm ▸ hik) (htake.symm ▸ hjk) hij (by omega) htake
        rw [proofDescent_right h hjk, proofDescent_right hset (by rwa [List.length_set]),
          List.length_set, hleft, List.drop_set_of_lt hik, hold, hnew]
        refine ⟨_ :: pre, step, post, digest, rfl, rfl, fun K hK hmem hmem' heq ↦ ?_⟩
        rw [hget]
        exact hdigest K hK (subtreeInputs_of_forall h hmem).1 (hinputs hmem') heq
      · rw [proofDescent_left h hjk, proofDescent_left hset (by rwa [List.length_set]),
          List.length_set, List.drop_set_of_lt hik, hleft]
        refine ⟨[], _, _, _, rfl, rfl, fun K hK hmem hmem' heq ↦ ?_⟩
        rw [hget]
        exact getElem?_of_buildSubtree_set_eq hK (htake.symm ▸ hik) (by omega)
          (subtreeInputs_of_forall h hmem).1 (hinputs hmem') heq
    · -- the leaf is on the right
      have hright : (leaves.set i leaf).drop (largestPow2Below leaves.length) =
          (leaves.drop (largestPow2Below leaves.length)).set
            (i - largestPow2Below leaves.length) leaf := by rw [List.drop_set, if_neg hik]
      have hget : leaves[i]? = (leaves.drop (largestPow2Below leaves.length))[
          i - largestPow2Below leaves.length]? := by
        rw [List.getElem?_drop, Nat.add_sub_cancel' (not_lt.mp hik)]
      have hinputs {K : Set Bytes} (hmem : ∀ x ∈ subtreeInputs (leaves.set i leaf), x ∈ K) :
          ∀ x ∈ subtreeInputs ((leaves.drop (largestPow2Below leaves.length)).set
            (i - largestPow2Below leaves.length) leaf), x ∈ K := by
        have hsub := (subtreeInputs_of_forall hset hmem).2
        rwa [List.length_set, hright] at hsub
      by_cases hjk : j < largestPow2Below leaves.length
      · rw [proofDescent_right h hjk, proofDescent_right hset (by rwa [List.length_set]),
          List.length_set, List.take_set_of_le (not_lt.mp hik), hright]
        refine ⟨[], _, _, _, rfl, rfl, fun K hK hmem hmem' heq ↦ ?_⟩
        rw [hget]
        exact getElem?_of_buildSubtree_set_eq hK (by omega) (by omega)
          (subtreeInputs_of_forall h hmem).2 (hinputs hmem') heq
      · obtain ⟨pre, step, post, digest, hold, hnew, hdigest⟩ :=
          ih _ (by omega) (by omega : i - largestPow2Below leaves.length < _)
            (by omega : j - largestPow2Below leaves.length < _) (by omega) (by omega) hdrop
        rw [proofDescent_left h hjk, proofDescent_left hset (by rwa [List.length_set]),
          List.length_set, List.take_set_of_le (not_lt.mp hik), hright, hold, hnew]
        refine ⟨_ :: pre, step, post, digest, rfl, rfl, fun K hK hmem hmem' heq ↦ ?_⟩
        rw [hget]
        exact hdigest K hK (subtreeInputs_of_forall h hmem).2 (hinputs hmem') heq

/-- **When a leaf is replaced, its own proof stays as it is**, so that the new root can be had from
the proof without the other leaves, **and any other proof stays as it is but for the digest of one
step**, which is the same digest only if the leaf is the same or strings collide. -/
theorem leafProof_set (leaves : Slice Digest) (i : UInt64) (hi : i.toNat < leaves.toList.length)
    (leaf : Digest) :
    (∃ proof root, leafProof leaves.toList i = .ok proof ∧
      leafProof (leaves.toList.set i.toNat leaf) i = .ok proof ∧
      merkleRoot (leaves.toList.set i.toNat leaf) = .ok root ∧
      ∀ root', verifyLeaf (UInt64.ofNat leaves.toList.length) i leaf proof root' = .ok () ↔
        root' = root) ∧
    ∀ j : UInt64, j.toNat < leaves.toList.length → i ≠ j → ∃ pre step post digest,
      leafProof leaves.toList j = .ok (pre ++ step :: post) ∧
      leafProof (leaves.toList.set i.toNat leaf) j =
        .ok (pre ++ { step with digest := digest } :: post) ∧
      (CollisionFree {x | x ∈ subtreeInputs leaves.toList ++
          subtreeInputs (leaves.toList.set i.toNat leaf)} →
        (digest = step.digest ↔ leaves.toList[i.toNat]? = some leaf)) := by
  have hlen := leaves.length_lt
  have hn : (UInt64.ofNat leaves.toList.length).toNat = leaves.toList.length :=
    toNat_ofNat_u64 (by omega)
  have hset : (leaves.toList.set i.toNat leaf).length = leaves.toList.length := List.length_set
  refine ⟨⟨(proofDescent leaves.toList i.toNat).reverse,
    (buildSubtree (leaves.toList.set i.toNat leaf)).1, leafProof_eq_ok.mpr ⟨hi, rfl⟩,
    leafProof_eq_ok.mpr ⟨hset.symm ▸ hi, ?_⟩, ?_, fun root' ↦ ?_⟩, fun j hj hij ↦ ?_⟩
  · rw [proofDescent_set_self]
  · rw [merkleRoot, reject_of_not (List.ne_nil_of_length_pos (by omega))]
    rfl
  · have hverify := verifyLeaf_proofDescent (hset.trans_lt hlen) (hn.trans hset.symm)
      (List.getElem?_set_self hi)
    rw [proofDescent_set_self] at hverify
    refine ⟨fun h ↦ ?_, fun h ↦ h ▸ hverify⟩
    obtain ⟨-, -, count, hfold⟩ := verifyLeaf_eq_ok.mp h
    obtain ⟨-, -, count', hfold'⟩ := verifyLeaf_eq_ok.mp hverify
    exact (Prod.mk.inj (Except.ok.inj (hfold.symm.trans hfold'))).1
  · obtain ⟨pre, step, post, digest, hold, hnew, hdigest⟩ :=
      proofDescent_set_of_ne hi hj (fun h ↦ hij (UInt64.toNat_inj.mp h)) hlen leaf
    refine ⟨post.reverse, step, pre.reverse, digest, leafProof_eq_ok.mpr ⟨hj, ?_⟩,
      leafProof_eq_ok.mpr ⟨hset.symm ▸ hj, ?_⟩, fun hfree ↦ ⟨?_, fun hsame ↦ ?_⟩⟩
    · rw [hold, List.reverse_append, List.reverse_cons, List.append_assoc]
      rfl
    · rw [hnew, List.reverse_append, List.reverse_cons, List.append_assoc]
      rfl
    · exact hdigest _ hfree (fun x hx ↦ List.mem_append_left _ hx)
        fun x hx ↦ List.mem_append_right _ hx
    · -- nothing has been replaced
      obtain ⟨_, hleaf⟩ := List.getElem?_eq_some_iff.mp hsame
      rw [← hleaf, List.set_getElem_self, hold] at hnew
      exact congrArg ProofStep.digest (List.cons.inj (List.append_cancel_left hnew)).1.symm

/-- SHA-256 on the branches over `trioHashes`, and on those with another digest for the second. -/
@[reducible] def retrioSha256 : Sha256 := .ofTable
  [(branchInput (trioHashes.toList.getD 0 .zero) (trioHashes.toList.getD 1 .zero) 1 1, trioLeft),
    (branchInput trioLeft (trioHashes.toList.getD 2 .zero) 2 1, trioRoot),
    (branchInput (trioHashes.toList.getD 0 .zero) (.fill 9) 1 1,
      .ofNat 0x3df6043bad55a8c2a3d94143e6d3af2e94062652740290ec99c28952fe22d124),
    (branchInput (.ofNat 0x3df6043bad55a8c2a3d94143e6d3af2e94062652740290ec99c28952fe22d124)
      (trioHashes.toList.getD 2 .zero) 2 1,
      .ofNat 0x45d98f2c9f112522c545c0fdcf248e2d87a4ef98a3bfcc53f3af232a21dba623)]

omit [Sha256] in
/-- The proof of the third leaf when the second is replaced. -/
theorem leafProof_set_trio :
    letI := retrioSha256
    ∃ pre step post digest, leafProof trioHashes.toList 2 = .ok (pre ++ step :: post) ∧
      leafProof (trioHashes.toList.set 1 (.fill 9)) 2 =
        .ok (pre ++ { step with digest := digest } :: post) ∧ digest ≠ step.digest := by
  let _ := retrioSha256
  have hfree : ∀ x ∈ subtreeInputs trioHashes.toList ++
        subtreeInputs (trioHashes.toList.set 1 (.fill 9)),
      ∀ y ∈ subtreeInputs trioHashes.toList ++ subtreeInputs (trioHashes.toList.set 1 (.fill 9)),
      sha256 x = sha256 y → x = y := by
    decide +kernel
  obtain ⟨pre, step, post, digest, hold, hnew, hdigest⟩ :=
    (leafProof_set trioHashes 1 (by decide) (.fill 9)).2 2 (by decide) (by decide)
  refine ⟨pre, step, post, digest, hold, hnew, fun heq ↦ ?_⟩
  exact absurd ((hdigest fun x hx y hy ↦ hfree x hx y hy).mp heq) (by decide)

end Merkle

end Mst2
