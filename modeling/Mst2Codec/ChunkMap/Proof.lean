import Mst2Codec.ChunkMap

/-!
# Merkle proofs are complete and sound

`verifyLeaf_leafProof` (completeness): the proof of a leaf is accepted, whatever the hash function.
`eq_of_verifyLeaf` (soundness): what is accepted against the root of a tree is the proof of a leaf
of that tree at its position, unless two of the strings that were hashed collide.

Proofs are written from the leaf to the root and their shape is derived from the root to the leaf.
`foldlM_reverse_cons` takes off the step next to the root, so that both results are inductions on
the shape.  `trio` is a map of three leaves with their SHA-256 digests.
-/

set_option autoImplicit false

namespace Mst2

open Bytes Except

/-! ## The bytes of a leaf -/

namespace ChunkLeaf

theorem encode_inj {l l' : ChunkLeaf} {b : Bytes} (h : l.encode = .ok b) (h' : l'.encode = .ok b) :
    l = l' := by
  rw [encode, reject_bind_eq_ok] at h h'
  have heq := (Except.ok.inj h.2).trans (Except.ok.inj h'.2).symm
  simp only [List.append_assoc, List.append_cancel_left_eq] at heq
  obtain ⟨hindex, heq⟩ := List.append_inj heq (by simp)
  obtain ⟨-, heq⟩ := List.append_inj heq (by simp)
  exact ChunkLeaf.ext (writeU64_injective hindex)
    (Digest.flatMap_bytes_injective (List.append_cancel_left heq))

theorem leafHash_eq_ok [Sha256] {l : ChunkLeaf} {d : Digest} :
    l.leafHash = .ok d ↔ ∃ b, l.encode = .ok b ∧ d = sha256 (hashInput b) := by
  rw [leafHash, bind_eq_ok]
  simp only [pure, Except.pure, Except.ok.injEq]
  exact exists_congr fun b ↦ and_congr_right fun _ ↦ eq_comm

end ChunkLeaf

namespace Merkle

/-! ## The shape -/

theorem shapeDescent_of_le {n idx : ℕ} (hn : n ≤ 1) : shapeDescent n idx = [] := by
  rw [shapeDescent, dif_neg (by omega)]

theorem shapeDescent_right {n idx : ℕ} (hn : 1 < n) (h : idx < largestPow2Below n) :
    shapeDescent n idx =
      (.right, n - largestPow2Below n) :: shapeDescent (largestPow2Below n) idx := by
  rw [shapeDescent, dif_pos hn]
  simp only [h, if_true]

theorem shapeDescent_left {n idx : ℕ} (hn : 1 < n) (h : ¬ idx < largestPow2Below n) :
    shapeDescent n idx = (.left, largestPow2Below n) ::
      shapeDescent (n - largestPow2Below n) (idx - largestPow2Below n) := by
  rw [shapeDescent, dif_pos hn]
  simp only [h, if_false]

/-- The siblings on the way to a leaf have all other leaves. -/
theorem sum_shapeDescent {n : ℕ} (hn : 0 < n) (idx : ℕ) :
    1 + ((shapeDescent n idx).map Prod.snd).sum = n := by
  induction hm : n using Nat.strong_induction_on generalizing n idx with
  | _ m ih =>
    subst hm
    by_cases h : 1 < n
    · have hlt := largestPow2Below_lt h
      have hpos := largestPow2Below_pos h
      by_cases hidx : idx < largestPow2Below n
      · have := ih _ hlt hpos idx rfl
        rw [shapeDescent_right h hidx, List.map_cons, List.sum_cons]
        omega
      · have := ih (n - largestPow2Below n) (by omega) (by omega) (idx - largestPow2Below n) rfl
        rw [shapeDescent_left h hidx, List.map_cons, List.sum_cons]
        omega
    · rw [shapeDescent_of_le (by omega), List.map_nil, List.sum_nil]
      omega

theorem expectedProofShape_eq_ok {n i : UInt64} {shape : List (ProofSide × ℕ)} :
    expectedProofShape n i = .ok shape ↔
      i.toNat < n.toNat ∧ shape = (shapeDescent n.toNat i.toNat).reverse := by
  rw [expectedProofShape, reject_bind_eq_ok, ge_iff_le, UInt64.le_iff_toNat_le,
    ← UInt64.toNat_inj, UInt64.toNat_zero]
  simp only [pure, Except.pure, Except.ok.injEq]
  exact ⟨fun h ↦ ⟨by omega, h.2.symm⟩, fun h ↦ ⟨by omega, h.2.symm⟩⟩

/-- The two subtrees of a tree with more than one leaf. -/
theorem length_take_drop {leaves : List Digest} (h : 1 < leaves.length) :
    (leaves.take (largestPow2Below leaves.length)).length = largestPow2Below leaves.length ∧
      (leaves.drop (largestPow2Below leaves.length)).length =
        leaves.length - largestPow2Below leaves.length := by
  have hlt := largestPow2Below_lt h
  rw [List.length_take, List.length_drop]
  omega

section hashing

variable [Sha256]

/-! ## The tree -/

theorem buildSubtree_singleton (d : Digest) : buildSubtree [d] = (d, 1) := by
  rw [buildSubtree, dif_neg (by simp)]
  rfl

theorem buildSubtree_of_lt {leaves : List Digest} (h : 1 < leaves.length) :
    buildSubtree leaves =
      (branchHash (buildSubtree (leaves.take (largestPow2Below leaves.length))).1
        (buildSubtree (leaves.drop (largestPow2Below leaves.length))).1
        (buildSubtree (leaves.take (largestPow2Below leaves.length))).2
        (buildSubtree (leaves.drop (largestPow2Below leaves.length))).2, leaves.length) := by
  rw [buildSubtree, dif_pos h]

theorem buildSubtree_snd {leaves : List Digest} (h : leaves ≠ []) :
    (buildSubtree leaves).2 = leaves.length := by
  by_cases hlen : 1 < leaves.length
  · rw [buildSubtree_of_lt hlen]
  · have hpos := List.length_pos_iff.mpr h
    rw [buildSubtree, dif_neg hlen]
    omega

theorem buildSubtree_take_snd {leaves : List Digest} (h : 1 < leaves.length) :
    (buildSubtree (leaves.take (largestPow2Below leaves.length))).2 =
      largestPow2Below leaves.length := by
  have hlen := (length_take_drop h).1
  have hpos := largestPow2Below_pos h
  rw [buildSubtree_snd (List.ne_nil_of_length_pos (by omega)), hlen]

theorem buildSubtree_drop_snd {leaves : List Digest} (h : 1 < leaves.length) :
    (buildSubtree (leaves.drop (largestPow2Below leaves.length))).2 =
      leaves.length - largestPow2Below leaves.length := by
  have hlen := (length_take_drop h).2
  have hlt := largestPow2Below_lt h
  rw [buildSubtree_snd (List.ne_nil_of_length_pos (by omega)), hlen]

theorem proofDescent_of_le {leaves : List Digest} {idx : ℕ} (h : leaves.length ≤ 1) :
    proofDescent leaves idx = [] := by
  rw [proofDescent, dif_neg (by omega)]

theorem proofDescent_right {leaves : List Digest} {idx : ℕ} (h : 1 < leaves.length)
    (hidx : idx < largestPow2Below leaves.length) :
    proofDescent leaves idx =
      ⟨.right, UInt64.ofNat (leaves.length - largestPow2Below leaves.length),
        (buildSubtree (leaves.drop (largestPow2Below leaves.length))).1⟩ ::
        proofDescent (leaves.take (largestPow2Below leaves.length)) idx := by
  rw [proofDescent, dif_pos h]
  simp only [hidx, if_true, buildSubtree_drop_snd h]

theorem proofDescent_left {leaves : List Digest} {idx : ℕ} (h : 1 < leaves.length)
    (hidx : ¬ idx < largestPow2Below leaves.length) :
    proofDescent leaves idx =
      ⟨.left, UInt64.ofNat (largestPow2Below leaves.length),
        (buildSubtree (leaves.take (largestPow2Below leaves.length))).1⟩ ::
        proofDescent (leaves.drop (largestPow2Below leaves.length))
          (idx - largestPow2Below leaves.length) := by
  rw [proofDescent, dif_pos h]
  simp only [hidx, if_false, buildSubtree_take_snd h]

/-! ## Folding a proof -/

/-- What a step of `verify_leaf` hashes. -/
def stepInput (cur : Digest × ℕ) (s : ProofStep × ProofSide × ℕ) : Bytes :=
  match s.2.1 with
  | .right => branchInput cur.1 s.1.digest cur.2 s.2.2
  | .left => branchInput s.1.digest cur.1 s.2.2 cur.2

theorem verifyStep_eq_ok {cur cur' : Digest × ℕ} {s : ProofStep × ProofSide × ℕ} :
    verifyStep cur s = .ok cur' ↔ s.1.side = s.2.1 ∧ s.1.siblingPages.toNat = s.2.2 ∧
      cur' = (sha256 (stepInput cur s), cur.2 + s.2.2) := by
  obtain ⟨step, side, count⟩ := s
  unfold verifyStep
  dsimp only
  rw [reject_bind_eq_ok, not_or, not_not, not_not, and_assoc]
  refine and_congr_right fun _ ↦ and_congr_right fun _ ↦ ?_
  simp only [pure, Except.pure, Except.ok.injEq, stepInput, branchHash]
  cases side <;> exact eq_comm

omit [Sha256] in
/-- The step next to the root comes last. -/
theorem zip_reverse_cons {step : ProofStep} {x : ProofSide × ℕ} {proof : List ProofStep}
    {shape : List (ProofSide × ℕ)} (h : proof.length = shape.length) :
    (step :: proof).reverse.zip (x :: shape).reverse =
      proof.reverse.zip shape.reverse ++ [(step, x)] := by
  rw [List.reverse_cons, List.reverse_cons, List.zip_append (by simpa using h)]
  rfl

theorem foldlM_reverse_cons {step : ProofStep} {x : ProofSide × ℕ} {proof : List ProofStep}
    {shape : List (ProofSide × ℕ)} {st : Digest × ℕ} (h : proof.length = shape.length) :
    ((step :: proof).reverse.zip (x :: shape).reverse).foldlM verifyStep st =
      (proof.reverse.zip shape.reverse).foldlM verifyStep st >>= fun cur ↦
        verifyStep cur (step, x) := by
  rw [zip_reverse_cons h, List.foldlM_append]
  congr 1
  funext cur
  rw [List.foldlM_cons]
  cases verifyStep cur (step, x) <;> rfl

/-- The count of the subtree reached by a proof. -/
theorem snd_of_foldlM {l : List (ProofStep × ProofSide × ℕ)} {st cur : Digest × ℕ}
    (h : l.foldlM verifyStep st = .ok cur) : cur.2 = st.2 + (l.map fun s ↦ s.2.2).sum := by
  induction l generalizing st with
  | nil =>
    obtain rfl := Except.ok.inj h
    simp
  | cons s l ih =>
    rw [List.foldlM_cons, bind_eq_ok] at h
    obtain ⟨st', hst, h⟩ := h
    obtain ⟨-, -, rfl⟩ := verifyStep_eq_ok.mp hst
    rw [ih h, List.map_cons, List.sum_cons, Nat.add_assoc]

/-- A proof that fits the shape of `n` leaves reaches a subtree of `n` leaves. -/
theorem snd_of_foldlM_shape {n idx : ℕ} (hn : 0 < n) {proof : List ProofStep} {leaf : Digest}
    {cur : Digest × ℕ} (hlen : proof.length = (shapeDescent n idx).length)
    (h : (proof.reverse.zip (shapeDescent n idx).reverse).foldlM verifyStep (leaf, 1) = .ok cur) :
    cur.2 = n := by
  have hmap : ((proof.reverse.zip (shapeDescent n idx).reverse).map fun s ↦ s.2.2) =
      ((shapeDescent n idx).map Prod.snd).reverse := by
    rw [show (fun s : ProofStep × ProofSide × ℕ ↦ s.2.2) = Prod.snd ∘ Prod.snd from rfl,
      ← List.map_map, List.map_snd_zip (by simp [hlen]), List.map_reverse]
  rw [snd_of_foldlM h, hmap, List.sum_reverse, sum_shapeDescent hn]

/-! ## Completeness -/

theorem length_proofDescent (leaves : List Digest) (idx : ℕ) :
    (proofDescent leaves idx).length = (shapeDescent leaves.length idx).length := by
  induction hn : leaves.length using Nat.strong_induction_on generalizing leaves idx with
  | _ n ih =>
    subst hn
    by_cases h : 1 < leaves.length
    · obtain ⟨htake, hdrop⟩ := length_take_drop h
      have hlt := largestPow2Below_lt h
      have hpos := largestPow2Below_pos h
      by_cases hidx : idx < largestPow2Below leaves.length
      · rw [proofDescent_right h hidx, shapeDescent_right h hidx, List.length_cons,
          List.length_cons, ih _ (by omega) _ _ htake]
      · rw [proofDescent_left h hidx, shapeDescent_left h hidx, List.length_cons,
          List.length_cons, ih _ (by omega) _ _ hdrop]
    · rw [proofDescent_of_le (by omega), shapeDescent_of_le (by omega)]
      rfl

/-- The proof of a leaf folds to the root. -/
theorem foldlM_proofDescent {leaves : List Digest} {idx : ℕ} {leaf : Digest}
    (hlen : leaves.length < 2 ^ 63) (hleaf : leaves[idx]? = some leaf) :
    ((proofDescent leaves idx).reverse.zip (shapeDescent leaves.length idx).reverse).foldlM
      verifyStep (leaf, 1) = .ok (buildSubtree leaves) := by
  induction hn : leaves.length using Nat.strong_induction_on generalizing leaves idx with
  | _ n ih =>
    subst hn
    have hidx := (List.getElem?_eq_some_iff.mp hleaf).1
    by_cases h : 1 < leaves.length
    swap
    · -- one leaf
      obtain ⟨d, rfl⟩ := List.length_eq_one_iff.mp (show leaves.length = 1 by omega)
      obtain rfl : idx = 0 := by simpa using hidx
      rw [proofDescent_of_le (by simp), shapeDescent_of_le (by simp), buildSubtree_singleton]
      obtain rfl : d = leaf := by simpa using hleaf
      rfl
    obtain ⟨htake, hdrop⟩ := length_take_drop h
    have hlt := largestPow2Below_lt h
    have hpos := largestPow2Below_pos h
    by_cases hk : idx < largestPow2Below leaves.length
    · have hsub : (leaves.take (largestPow2Below leaves.length))[idx]? = some leaf := by
        rw [List.getElem?_take_of_lt hk, hleaf]
      have hrec := ih _ (by omega) (by omega) hsub rfl
      have hlength := length_proofDescent (leaves.take (largestPow2Below leaves.length)) idx
      rw [htake] at hrec hlength
      rw [proofDescent_right h hk, shapeDescent_right h hk, foldlM_reverse_cons hlength, hrec,
        ok_bind]
      refine verifyStep_eq_ok.mpr ⟨rfl, toNat_ofNat_u64 (by omega), ?_⟩
      rw [stepInput, buildSubtree_of_lt h, branchHash, buildSubtree_take_snd h,
        buildSubtree_drop_snd h]
      exact Prod.ext rfl (Nat.add_sub_cancel' hlt.le).symm
    · have hsub : (leaves.drop (largestPow2Below leaves.length))[idx -
          largestPow2Below leaves.length]? = some leaf := by
        rw [List.getElem?_drop, ← hleaf]
        congr 1
        omega
      have hrec := ih _ (by omega) (by omega) hsub rfl
      have hlength := length_proofDescent (leaves.drop (largestPow2Below leaves.length))
        (idx - largestPow2Below leaves.length)
      rw [hdrop] at hrec hlength
      rw [proofDescent_left h hk, shapeDescent_left h hk, foldlM_reverse_cons hlength, hrec,
        ok_bind]
      refine verifyStep_eq_ok.mpr ⟨rfl, toNat_ofNat_u64 (by omega), ?_⟩
      rw [stepInput, buildSubtree_of_lt h, branchHash, buildSubtree_take_snd h,
        buildSubtree_drop_snd h]
      exact Prod.ext rfl (Nat.sub_add_cancel hlt.le).symm

theorem leafProof_eq_ok {leaves : List Digest} {i : UInt64} {proof : List ProofStep} :
    leafProof leaves i = .ok proof ↔
      i.toNat < leaves.length ∧ proof = (proofDescent leaves i.toNat).reverse := by
  rw [leafProof, reject_bind_eq_ok, ge_iff_le, not_le]
  simp only [pure, Except.pure, Except.ok.injEq]
  exact and_congr_right fun _ ↦ eq_comm

/-- What `verify_leaf` accepts. -/
theorem verifyLeaf_eq_ok {n i : UInt64} {leaf root : Digest} {proof : List ProofStep} :
    verifyLeaf n i leaf proof root = .ok () ↔ i.toNat < n.toNat ∧
      proof.length = (shapeDescent n.toNat i.toNat).length ∧
      ∃ count, (proof.zip (shapeDescent n.toNat i.toNat).reverse).foldlM verifyStep (leaf, 1) =
        .ok (root, count) := by
  rw [verifyLeaf, bind_eq_ok]
  simp only [expectedProofShape_eq_ok]
  refine ⟨?_, ?_⟩
  · rintro ⟨shape, ⟨hi, rfl⟩, h⟩
    rw [reject_bind_eq_ok, not_not, List.length_reverse, bind_eq_ok] at h
    obtain ⟨hlen, ⟨cur, count⟩, hcur, h⟩ := h
    rw [reject_eq_ok, not_not] at h
    exact ⟨hi, hlen, count, h ▸ hcur⟩
  · rintro ⟨hi, hlen, count, h⟩
    refine ⟨_, ⟨hi, rfl⟩, ?_⟩
    rw [reject_of_not (by simpa using hlen), ok_bind, h, ok_bind]
    exact reject_of_not (by simp)

/-- **Merkle proofs are complete**: the proof of a leaf exists and is accepted, whatever the hash
function. -/
theorem verifyLeaf_leafProof (leaves : Slice Digest) (i : UInt64)
    (leaf : Digest) (hleaf : leaves.toList[i.toNat]? = some leaf) :
    ∃ proof root, leafProof leaves.toList i = .ok proof ∧ merkleRoot leaves.toList = .ok root ∧
      verifyLeaf (UInt64.ofNat leaves.toList.length) i leaf proof root = .ok () := by
  have hlen := leaves.length_lt
  have hn : (UInt64.ofNat leaves.toList.length).toNat = leaves.toList.length :=
    toNat_ofNat_u64 (by omega)
  have hi := (List.getElem?_eq_some_iff.mp hleaf).1
  refine ⟨(proofDescent leaves.toList i.toNat).reverse, (buildSubtree leaves.toList).1,
    leafProof_eq_ok.mpr ⟨hi, rfl⟩, ?_, ?_⟩
  · rw [merkleRoot, reject_of_not (List.ne_nil_of_length_pos (by omega))]
    rfl
  · refine verifyLeaf_eq_ok.mpr ?_
    rw [hn]
    refine ⟨hi, ?_, (buildSubtree leaves.toList).2, foldlM_proofDescent hlen hleaf⟩
    rw [List.length_reverse, length_proofDescent]

/-! ### Three leaves -/

/-- Three leaves of one chunk each. -/
def trio : Slice ChunkLeaf := ⟨[⟨0, [.fill 1]⟩, ⟨1, [.fill 2]⟩, ⟨2, [.fill 3]⟩], by decide⟩

/-- The digests of the three leaves. -/
def trioHashes : Slice Digest :=
  ⟨[.ofNat 0xfd5db2856ecd57b6d9bc3f5a211b3ad4d9c0890e0bf988f47920fed8d4564d19,
    .ofNat 0x7845b29c51ed54909ce1dee73051e0c631cc066958fc041ac7d822e201245eb5,
    .ofNat 0x5c292254b56d868bb5e6760536a76df585ec4e0d3233fa303319c8ebab9e6f8e], by decide⟩

/-- The digest of the first two leaves. -/
def trioLeft : Digest :=
  .ofNat 0xbfd760e713efd5e2417d38268d86b11eb6d4a89bd975fc459ca90789383e8655

/-- The root of the three leaves. -/
def trioRoot : Digest :=
  .ofNat 0xf5124a5f89c74b82779090fb160ce53ac603969912ae3f7c48e744cb5026c47b

/-- SHA-256 on the strings that are hashed for the three leaves. -/
@[reducible] def trioSha256 : Sha256 := .ofTable
  (((trio.toList.filterMap fun l ↦ l.encode.toOption.map ChunkLeaf.hashInput).zip
    trioHashes.toList) ++
    [(branchInput (trioHashes.toList.getD 0 .zero) (trioHashes.toList.getD 1 .zero) 1 1, trioLeft),
      (branchInput trioLeft (trioHashes.toList.getD 2 .zero) 2 1, trioRoot)])

/-- The proof of the middle one of three leaves. -/
def trioProof : List ProofStep :=
  [⟨.left, 1, trioHashes.toList.getD 0 .zero⟩, ⟨.right, 1, trioHashes.toList.getD 2 .zero⟩]

omit [Sha256] in
/-- The middle one of three leaves. -/
theorem verifyLeaf_leafProof_trio :
    letI := trioSha256
    ∃ proof root, leafProof trioHashes.toList 1 = .ok proof ∧
      merkleRoot trioHashes.toList = .ok root ∧
      verifyLeaf 3 1 (trioHashes.toList.getD 1 .zero) proof root = .ok () :=
  letI := trioSha256
  verifyLeaf_leafProof trioHashes 1 (trioHashes.toList.getD 1 .zero) (by decide)

/-! ## Soundness -/

/-- The strings hashed for the root of a tree. -/
def subtreeInputs (leaves : List Digest) : List Bytes :=
  if _h : 1 < leaves.length then
    let k := largestPow2Below leaves.length
    let left := buildSubtree (leaves.take k)
    let right := buildSubtree (leaves.drop k)
    branchInput left.1 right.1 left.2 right.2 ::
      (subtreeInputs (leaves.take k) ++ subtreeInputs (leaves.drop k))
  else []
termination_by leaves.length
decreasing_by
  · have := largestPow2Below_lt _h
    rw [List.length_take]
    omega
  · have := largestPow2Below_pos _h
    rw [List.length_drop]
    omega

/-- The strings hashed while a proof is folded. -/
def verifyInputs (st : Digest × ℕ) : List (ProofStep × ProofSide × ℕ) → List Bytes
  | [] => []
  | s :: l => stepInput st s :: match verifyStep st s with
    | .ok cur => verifyInputs cur l
    | .error _ => []

theorem subtreeInputs_of_lt {leaves : List Digest} (h : 1 < leaves.length) :
    subtreeInputs leaves =
      branchInput (buildSubtree (leaves.take (largestPow2Below leaves.length))).1
        (buildSubtree (leaves.drop (largestPow2Below leaves.length))).1
        (buildSubtree (leaves.take (largestPow2Below leaves.length))).2
        (buildSubtree (leaves.drop (largestPow2Below leaves.length))).2 ::
        (subtreeInputs (leaves.take (largestPow2Below leaves.length)) ++
          subtreeInputs (leaves.drop (largestPow2Below leaves.length))) := by
  rw [subtreeInputs, dif_pos h]

theorem verifyInputs_concat {l : List (ProofStep × ProofSide × ℕ)}
    {s : ProofStep × ProofSide × ℕ} {st cur : Digest × ℕ}
    (h : l.foldlM verifyStep st = .ok cur) :
    verifyInputs st (l ++ [s]) = verifyInputs st l ++ [stepInput cur s] := by
  induction l generalizing st with
  | nil =>
    obtain rfl := Except.ok.inj h
    rw [List.nil_append, verifyInputs, verifyInputs]
    cases verifyStep st s <;> rfl
  | cons x l ih =>
    rw [List.foldlM_cons, bind_eq_ok] at h
    obtain ⟨st', hst, h⟩ := h
    rw [List.cons_append, verifyInputs, verifyInputs, hst]
    dsimp only
    rw [ih h]
    rfl

omit [Sha256] in
/-- The hash input of a branch determines the subtrees and their counts. -/
theorem branchInput_inj {l r l' r' : Digest} {m n m' n' : ℕ} (hm : m < 2 ^ 64) (hn : n < 2 ^ 64)
    (hm' : m' < 2 ^ 64) (hn' : n' < 2 ^ 64)
    (h : branchInput l r m n = branchInput l' r' m' n') : l = l' ∧ r = r' ∧ m = m' ∧ n = n' := by
  have hcount : ∀ {x y : ℕ}, x < 2 ^ 64 → y < 2 ^ 64 →
      writeU64 (UInt64.ofNat x) = writeU64 (UInt64.ofNat y) → x = y := by
    intro x y hx hy h
    have h := congrArg UInt64.toNat (writeU64_injective h)
    rwa [toNat_ofNat_u64 (by omega), toNat_ofNat_u64 (by omega)] at h
  simp only [branchInput, List.append_assoc, List.append_cancel_left_eq] at h
  obtain ⟨h₁, h⟩ := List.append_inj h (by simp)
  obtain ⟨h₂, h⟩ := List.append_inj h (by simp)
  obtain ⟨h₃, h₄⟩ := List.append_inj h (by simp)
  exact ⟨Digest.ext h₂, Digest.ext h₄, hcount hm hm' h₁, hcount hn hn' h₃⟩

omit [Sha256] in
/-- The two domains differ, so no leaf poses as a branch. -/
theorem hashInput_ne_branchInput {b : Bytes} {l r : Digest} {m n : ℕ} :
    ChunkLeaf.hashInput b ≠ branchInput l r m n := by
  intro h
  have h15 := congrArg (fun x ↦ x.take 16) h
  simp only [ChunkLeaf.hashInput, branchInput, List.append_assoc] at h15
  rw [List.take_append_of_le_length (by decide), List.take_append_of_le_length (by decide)] at h15
  revert h15
  decide

/-- A digest that is the hash of a leaf page among the strings of `K`. -/
def IsLeafHash (K : Set Bytes) (d : Digest) : Prop :=
  ∃ b, ChunkLeaf.hashInput b ∈ K ∧ d = sha256 (ChunkLeaf.hashInput b)

theorem IsLeafHash.ne_branch {K : Set Bytes} (hK : CollisionFree K) {d l r : Digest} {m n : ℕ}
    (hd : IsLeafHash K d) (hmem : branchInput l r m n ∈ K) : d ≠ branchHash l r m n := by
  obtain ⟨b, hb, rfl⟩ := hd
  exact fun h ↦ hashInput_ne_branchInput (hK hb hmem h)

/-- **A folded proof that reaches the root of a tree is the proof of a leaf of the tree.** -/
theorem eq_of_foldlM {K : Set Bytes} (hK : CollisionFree K) {n idx : ℕ} (hn : n < 2 ^ 64)
    (hidx : idx < n) {leaves : List Digest} (hne : leaves ≠ []) (hlen : leaves.length < 2 ^ 63)
    {leaf : Digest} (hleaf : IsLeafHash K leaf) (hleaves : ∀ d ∈ leaves, IsLeafHash K d)
    (htree : ∀ x ∈ subtreeInputs leaves, x ∈ K) {proof : List ProofStep}
    (hlength : proof.length = (shapeDescent n idx).length)
    (hinputs : ∀ x ∈ verifyInputs (leaf, 1) (proof.reverse.zip (shapeDescent n idx).reverse), x ∈ K)
    {cur : Digest × ℕ}
    (hfold : (proof.reverse.zip (shapeDescent n idx).reverse).foldlM verifyStep (leaf, 1) = .ok cur)
    (hroot : cur.1 = (buildSubtree leaves).1) :
    n = leaves.length ∧ leaves[idx]? = some leaf ∧ proof = proofDescent leaves idx := by
  -- the induction is on the claimed size, and the tree follows
  induction hN : n using Nat.strong_induction_on generalizing n idx leaves proof cur with
  | _ N ih =>
    subst hN
    have hpos := List.length_pos_iff.mpr hne
    by_cases h : 1 < n
    swap
    · -- no step: the leaf is the root
      rw [shapeDescent_of_le (by omega)] at hlength hfold
      obtain rfl := List.length_eq_zero_iff.mp hlength
      obtain rfl := Except.ok.inj hfold
      by_cases hone : 1 < leaves.length
      · rw [buildSubtree_of_lt hone] at hroot
        have hmem := htree _ (by rw [subtreeInputs_of_lt hone]; exact List.mem_cons_self)
        exact absurd hroot (hleaf.ne_branch hK hmem)
      · obtain ⟨d, rfl⟩ := List.length_eq_one_iff.mp (show leaves.length = 1 by omega)
        rw [buildSubtree_singleton] at hroot
        obtain rfl : idx = 0 := by omega
        have hd : leaf = d := hroot
        refine ⟨by simp; omega, by simp [hd], ?_⟩
        rw [proofDescent_of_le (by simp)]
    have hlt := largestPow2Below_lt h
    have hkpos := largestPow2Below_pos h
    -- the step next to the root hashes a branch, so the root is one
    have htwo : ∀ {c : Digest × ℕ} {s : ProofStep × ProofSide × ℕ}, stepInput c s ∈ K →
        sha256 (stepInput c s) = (buildSubtree leaves).1 → 1 < leaves.length ∧
          stepInput c s =
            branchInput (buildSubtree (leaves.take (largestPow2Below leaves.length))).1
              (buildSubtree (leaves.drop (largestPow2Below leaves.length))).1
              (largestPow2Below leaves.length)
              (leaves.length - largestPow2Below leaves.length) := by
      intro c s hmem hroot
      have hone : 1 < leaves.length := by
        by_contra hone
        obtain ⟨d, rfl⟩ := List.length_eq_one_iff.mp (show leaves.length = 1 by omega)
        rw [buildSubtree_singleton] at hroot
        have hd := hleaves d (List.mem_singleton_self d)
        obtain ⟨step, side, count⟩ := s
        cases side with
        | left => exact hd.ne_branch hK hmem hroot.symm
        | right => exact hd.ne_branch hK hmem hroot.symm
      refine ⟨hone, ?_⟩
      have hbranch := htree _ (by rw [subtreeInputs_of_lt hone]; exact List.mem_cons_self)
      rw [buildSubtree_of_lt hone] at hroot
      rw [hK hmem hbranch hroot, buildSubtree_take_snd hone, buildSubtree_drop_snd hone]
    have hsub : 1 < leaves.length →
        (∀ x ∈ subtreeInputs (leaves.take (largestPow2Below leaves.length)), x ∈ K) ∧
          ∀ x ∈ subtreeInputs (leaves.drop (largestPow2Below leaves.length)), x ∈ K := by
      intro hone
      rw [subtreeInputs_of_lt hone] at htree
      exact ⟨fun x hx ↦ htree x (List.mem_cons_of_mem _ (List.mem_append_left _ hx)),
        fun x hx ↦ htree x (List.mem_cons_of_mem _ (List.mem_append_right _ hx))⟩
    by_cases hk : idx < largestPow2Below n
    · rw [shapeDescent_right h hk] at hlength hfold hinputs
      obtain ⟨s, proof, rfl⟩ := List.exists_cons_of_length_eq_add_one hlength
      rw [List.length_cons, List.length_cons, Nat.add_right_cancel_iff] at hlength
      rw [foldlM_reverse_cons hlength, bind_eq_ok] at hfold
      obtain ⟨c, hc, hstep⟩ := hfold
      rw [zip_reverse_cons hlength, verifyInputs_concat hc] at hinputs
      obtain ⟨hside, hpages, rfl⟩ := verifyStep_eq_ok.mp hstep
      obtain ⟨hone, hinput⟩ := htwo (hinputs _ (by simp)) hroot
      have hcount := snd_of_foldlM_shape hkpos hlength hc
      have hlt' := largestPow2Below_lt hone
      replace hinput : branchInput c.1 s.digest c.2 (n - largestPow2Below n) = _ := hinput
      obtain ⟨hleft, hright, hk', hrest⟩ :=
        branchInput_inj (by omega) (by omega) (by omega) (by omega) hinput
      obtain ⟨htake, -⟩ := length_take_drop hone
      have hne' : leaves.take (largestPow2Below leaves.length) ≠ [] :=
        List.ne_nil_of_length_pos (by omega)
      obtain ⟨-, hget, rfl⟩ := ih _ hlt (by omega) hk hne' (by omega)
        (fun d hd ↦ hleaves d (List.mem_of_mem_take hd)) (hsub hone).1 hlength
        (fun x hx ↦ hinputs x (List.mem_append_left _ hx)) hc hleft rfl
      have hkk : largestPow2Below n = largestPow2Below leaves.length := hcount.symm.trans hk'
      have hnn : n = leaves.length := by omega
      refine ⟨hnn, ?_, ?_⟩
      · rwa [List.getElem?_take_of_lt (by omega)] at hget
      · rw [proofDescent_right hone (by omega)]
        congr 1
        obtain ⟨side, pages, digest⟩ := s
        obtain rfl : side = .right := hside
        obtain rfl : digest = _ := hright
        congr 1
        rw [← UInt64.ofNat_toNat (x := pages), show pages.toNat = _ from hpages, hnn]
    · rw [shapeDescent_left h hk] at hlength hfold hinputs
      obtain ⟨s, proof, rfl⟩ := List.exists_cons_of_length_eq_add_one hlength
      rw [List.length_cons, List.length_cons, Nat.add_right_cancel_iff] at hlength
      rw [foldlM_reverse_cons hlength, bind_eq_ok] at hfold
      obtain ⟨c, hc, hstep⟩ := hfold
      rw [zip_reverse_cons hlength, verifyInputs_concat hc] at hinputs
      obtain ⟨hside, hpages, rfl⟩ := verifyStep_eq_ok.mp hstep
      obtain ⟨hone, hinput⟩ := htwo (hinputs _ (by simp)) hroot
      have hcount := snd_of_foldlM_shape (by omega) hlength hc
      have hlt' := largestPow2Below_lt hone
      replace hinput : branchInput s.digest c.1 (largestPow2Below n) c.2 = _ := hinput
      obtain ⟨hleft, hright, hk', hrest⟩ :=
        branchInput_inj (by omega) (by omega) (by omega) (by omega) hinput
      obtain ⟨-, hdrop⟩ := length_take_drop hone
      have hne' : leaves.drop (largestPow2Below leaves.length) ≠ [] :=
        List.ne_nil_of_length_pos (by omega)
      obtain ⟨-, hget, rfl⟩ := ih _ (by omega) (by omega) (by omega) hne' (by omega)
        (fun d hd ↦ hleaves d (List.mem_of_mem_drop hd)) (hsub hone).2 hlength
        (fun x hx ↦ hinputs x (List.mem_append_left _ hx)) hc hright rfl
      have hkk : largestPow2Below n = largestPow2Below leaves.length := hk'
      have hnn : n = leaves.length := by omega
      refine ⟨hnn, ?_, ?_⟩
      · rw [List.getElem?_drop] at hget
        rw [← hget]
        congr 1
        omega
      · rw [proofDescent_left hone (by omega), ← hkk]
        congr 1
        obtain ⟨side, pages, digest⟩ := s
        obtain rfl : side = .left := hside
        obtain rfl : digest = _ := hleft
        congr 1
        · rw [← UInt64.ofNat_toNat (x := pages), show pages.toNat = _ from hpages]
        · rw [hkk]

/-- The strings hashed for the leaves and their tree, for the leaf that is verified, and while it is
verified. -/
def hashedStrings (leaves : List ChunkLeaf) (hs : List Digest) (n i : UInt64) (l : ChunkLeaf)
    (leaf : Digest) (proof : List ProofStep) : List Bytes :=
  (l :: leaves).filterMap (fun l ↦ l.encode.toOption.map ChunkLeaf.hashInput) ++
    subtreeInputs hs ++ verifyInputs (leaf, 1) (proof.zip (shapeDescent n.toNat i.toNat).reverse)

/-- **Merkle proofs are sound**: what `verify_leaf` accepts against the root of a list of leaves is
one of them, at its position, with its proof, and the claimed number of leaves is right. -/
theorem eq_of_verifyLeaf (leaves : Slice ChunkLeaf) (hne : leaves.toList ≠ []) (hs : List Digest)
    (hhs : leaves.toList.mapM ChunkLeaf.leafHash = .ok hs) (root : Digest)
    (hroot : merkleRoot hs = .ok root) (n i : UInt64) (l : ChunkLeaf) (leaf : Digest)
    (hleaf : l.leafHash = .ok leaf) (proof : List ProofStep)
    (hfree : CollisionFree {x | x ∈ hashedStrings leaves.toList hs n i l leaf proof})
    (h : verifyLeaf n i leaf proof root = .ok ()) :
    n.toNat = leaves.toList.length ∧ i < n ∧ leaves.toList[i.toNat]? = some l ∧
      leafProof hs i = .ok proof := by
  have hforall := forall₂_of_mapM_eq_ok hhs
  have hlength := hforall.length_eq
  have hlen := leaves.length_lt
  have hpos := List.length_pos_iff.mpr hne
  -- the strings that are hashed for a leaf page
  have hmem : ∀ l' b, l' = l ∨ l' ∈ leaves.toList → l'.encode = .ok b →
      ChunkLeaf.hashInput b ∈ hashedStrings leaves.toList hs n i l leaf proof := by
    intro l' b hl' hb
    refine List.mem_append_left _ (List.mem_append_left _ (List.mem_filterMap.mpr
      ⟨l', List.mem_cons.mpr hl', ?_⟩))
    rw [hb]
    rfl
  obtain ⟨b, hb, rfl⟩ := ChunkLeaf.leafHash_eq_ok.mp hleaf
  obtain ⟨hi, hproof, count, hfold⟩ := verifyLeaf_eq_ok.mp h
  rw [merkleRoot, reject_bind_eq_ok] at hroot
  obtain ⟨-, hroot⟩ := hroot
  obtain rfl := Except.ok.inj hroot
  rw [← List.length_reverse] at hproof
  rw [← List.reverse_reverse proof] at hfold
  have hleaves : ∀ d ∈ hs, IsLeafHash
      {x | x ∈ hashedStrings leaves.toList hs n i l (sha256 (ChunkLeaf.hashInput b)) proof} d := by
    intro d hd
    obtain ⟨j, hj, rfl⟩ := List.mem_iff_getElem.mp hd
    obtain ⟨b', hb', hd⟩ := ChunkLeaf.leafHash_eq_ok.mp (hforall.get (i := j) (by omega) hj)
    exact ⟨b', hmem _ b' (.inr (List.get_mem _ _)) hb', hd⟩
  obtain ⟨hn, hget, hproof⟩ := eq_of_foldlM hfree n.toNat_lt hi
    (List.ne_nil_of_length_pos (by omega)) (by omega) ⟨b, hmem l b (.inl rfl) hb, rfl⟩ hleaves
    (fun x hx ↦ List.mem_append_left _ (List.mem_append_right _ hx)) hproof
    (fun x hx ↦ List.mem_append_right _ (by rwa [List.reverse_reverse] at hx)) hfold rfl
  obtain ⟨hi', hget⟩ := List.getElem?_eq_some_iff.mp hget
  refine ⟨hn.trans hlength.symm, UInt64.lt_iff_toNat_lt.mpr hi, ?_, leafProof_eq_ok.mpr ⟨hi', ?_⟩⟩
  · -- the leaf at the position has the same bytes
    obtain ⟨b', hb', hd⟩ := ChunkLeaf.leafHash_eq_ok.mp (hforall.get (i := i.toNat) (by omega) hi')
    have hbytes := hfree (hmem l b (.inl rfl) hb)
      (hmem _ b' (.inr (List.get_mem _ ⟨i.toNat, by omega⟩)) hb') (hget.symm.trans hd)
    obtain rfl : b = b' := List.append_cancel_left hbytes
    rw [ChunkLeaf.encode_inj hb hb']
    exact List.getElem?_eq_getElem _
  · rw [← hproof, List.reverse_reverse]

omit [Sha256] in
/-- The middle one of three leaves. -/
theorem eq_of_verifyLeaf_trio :
    letI := trioSha256
    verifyLeaf 3 1 (trioHashes.toList.getD 1 .zero) trioProof trioRoot = .ok () ∧
      leafProof trioHashes.toList 1 = .ok trioProof := by
  let _ := trioSha256
  have hverify : verifyLeaf 3 1 (trioHashes.toList.getD 1 .zero) trioProof trioRoot = .ok () := by
    decide +kernel
  have hfree : ∀ x ∈ hashedStrings trio.toList trioHashes.toList 3 1 ⟨1, [.fill 2]⟩
        (trioHashes.toList.getD 1 .zero) trioProof,
      ∀ y ∈ hashedStrings trio.toList trioHashes.toList 3 1 ⟨1, [.fill 2]⟩
        (trioHashes.toList.getD 1 .zero) trioProof, sha256 x = sha256 y → x = y := by
    decide +kernel
  obtain ⟨-, -, -, hproof⟩ := eq_of_verifyLeaf trio (by decide) trioHashes.toList
    (by decide +kernel) trioRoot (by decide +kernel) 3 1 ⟨1, [.fill 2]⟩
    (trioHashes.toList.getD 1 .zero) (by decide +kernel) trioProof
    (fun x hx y hy ↦ hfree x hx y hy) hverify
  exact ⟨hverify, hproof⟩

end hashing

end Merkle

end Mst2
