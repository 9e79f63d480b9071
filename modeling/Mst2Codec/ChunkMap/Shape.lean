import Mst2Codec.ChunkMap.Proof

/-!
# The shape of a proof tells its position

`expectedProofShape` walks from the root to a leaf and passes a sibling at each split.  The siblings
have all other leaves, those on the left have the leaves before it: the counts of a shape add up to
the size of the tree, its `Left` counts to the position (`sum_shapeDescent`,
`leftPages_shapeDescent`).  So two positions never share a shape, and a proof is good for one
position at most.

The walk is short because each split leaves at most half of a power of two
(`largestPow2Below_eq_pow`).
-/

set_option autoImplicit false

namespace Mst2

namespace Merkle

open Except

/-! ## The length of the walk -/

theorem halveBelow_eq_pow {n : ℕ} (hn : 1 < n) (e : ℕ) :
    ∃ d, halveBelow n (2 ^ e) = 2 ^ d ∧ (n ≤ 2 ^ (d + 1) ∨ d = e) := by
  induction e with
  | zero => exact ⟨0, by rw [pow_zero, halveBelow, if_neg (by omega), if_neg (by omega)], .inr rfl⟩
  | succ e ih =>
    rw [halveBelow, if_neg (by positivity)]
    split
    · rename_i hle
      rw [pow_succ, Nat.mul_div_cancel _ (by omega)]
      obtain ⟨d, hd, h⟩ := ih
      refine ⟨d, hd, .inl ?_⟩
      rcases h with h | rfl
      · exact h
      · exact hle
    · exact ⟨e + 1, rfl, .inr rfl⟩

/-- Up to `2 ^ 64` leaves the search that starts at the top bit finds the power of two next
below. -/
theorem largestPow2Below_eq_pow {n : ℕ} (hn : 1 < n) (hmax : n ≤ 2 ^ 64) :
    ∃ d, largestPow2Below n = 2 ^ d ∧ n ≤ 2 ^ (d + 1) := by
  obtain ⟨d, hd, h⟩ := halveBelow_eq_pow hn 63
  refine ⟨d, hd, ?_⟩
  rcases h with h | rfl
  · exact h
  · exact hmax

/-- A tree of at most `2 ^ e` leaves is at most `e` splits deep. -/
theorem length_shapeDescent_le {n e : ℕ} (hn : n ≤ 2 ^ e) (he : e ≤ 64) (idx : ℕ) :
    (shapeDescent n idx).length ≤ e := by
  induction e generalizing n idx with
  | zero => rw [shapeDescent_of_le (by simpa using hn), List.length_nil]
  | succ e ih =>
    by_cases h : 1 < n
    swap
    · rw [shapeDescent_of_le (by omega)]
      exact Nat.zero_le _
    have hmax : n ≤ 2 ^ 64 := hn.trans (Nat.pow_le_pow_right (by omega) he)
    obtain ⟨d, hd, hle⟩ := largestPow2Below_eq_pow h hmax
    have hlt := largestPow2Below_lt h
    -- both subtrees have at most half of `2 ^ (e + 1)` leaves
    have hde : d < e + 1 := (Nat.pow_lt_pow_iff_right (by omega)).mp (hd ▸ hlt.trans_le hn)
    have hhalf : (2 : ℕ) ^ d ≤ 2 ^ e := Nat.pow_le_pow_right (by omega) (by omega)
    rw [pow_succ] at hle
    by_cases hidx : idx < largestPow2Below n
    · have hrec := ih (hd.le.trans hhalf) (by omega) idx
      rw [shapeDescent_right h hidx, List.length_cons]
      omega
    · have hrec := ih (n := n - largestPow2Below n) (by omega) (by omega)
        (idx - largestPow2Below n)
      rw [shapeDescent_left h hidx, List.length_cons]
      omega

/-! ## What the counts say -/

/-- No sibling is empty. -/
theorem one_le_of_mem_shapeDescent {n idx : ℕ} {s : ProofSide × ℕ} (hs : s ∈ shapeDescent n idx) :
    1 ≤ s.2 := by
  fun_induction shapeDescent n idx with
  | case1 n idx h k hidx ih =>
    have hlt := largestPow2Below_lt h
    rcases List.mem_cons.mp hs with rfl | hs
    · exact Nat.sub_pos_of_lt hlt
    · exact ih hs
  | case2 n idx h k hidx ih =>
    rcases List.mem_cons.mp hs with rfl | hs
    · exact largestPow2Below_pos h
    · exact ih hs
  | case3 n idx h => exact absurd hs List.not_mem_nil

/-- The counts of the siblings on the left. -/
def leftPages (shape : List (ProofSide × ℕ)) : ℕ :=
  ((shape.filter fun s ↦ s.1 = .left).map Prod.snd).sum

@[simp] theorem leftPages_nil : leftPages [] = 0 := rfl

@[simp] theorem leftPages_cons_left (k : ℕ) (shape : List (ProofSide × ℕ)) :
    leftPages ((.left, k) :: shape) = k + leftPages shape := by
  simp [leftPages]

@[simp] theorem leftPages_cons_right (k : ℕ) (shape : List (ProofSide × ℕ)) :
    leftPages ((.right, k) :: shape) = leftPages shape := by
  simp [leftPages]

@[simp] theorem leftPages_reverse (shape : List (ProofSide × ℕ)) :
    leftPages shape.reverse = leftPages shape := by
  rw [leftPages, List.filter_reverse, List.map_reverse, List.sum_reverse, leftPages]

/-- The siblings on the left of the way to a leaf have the leaves before it. -/
theorem leftPages_shapeDescent {n idx : ℕ} (hidx : idx < n) :
    leftPages (shapeDescent n idx) = idx := by
  fun_induction shapeDescent n idx with
  | case1 n idx h k hk ih => rw [leftPages_cons_right, ih hk]
  | case2 n idx h k hk ih =>
    have hlt : k < n := largestPow2Below_lt h
    rw [leftPages_cons_left, ih (by omega)]
    omega
  | case3 n idx h =>
    rw [leftPages_nil]
    omega

/-- The position is read off the shape. -/
theorem eq_of_expectedProofShape {n i n' i' : UInt64} {shape : List (ProofSide × ℕ)}
    (h : expectedProofShape n i = .ok shape) (h' : expectedProofShape n' i' = .ok shape) :
    n' = n ∧ i' = i := by
  obtain ⟨hi, rfl⟩ := expectedProofShape_eq_ok.mp h
  obtain ⟨hi', heq⟩ := expectedProofShape_eq_ok.mp h'
  have hshape := List.reverse_injective heq
  have hn := sum_shapeDescent (show 0 < n.toNat by omega) i.toNat
  have hn' := sum_shapeDescent (show 0 < n'.toNat by omega) i'.toNat
  rw [← hshape] at hn'
  refine ⟨UInt64.toNat_inj.mp (hn'.symm.trans hn), UInt64.toNat_inj.mp ?_⟩
  rw [← leftPages_shapeDescent hi, ← leftPages_shapeDescent hi', hshape]

/-! ## Proofs of a shape -/

/-- The side and the count of a step, without its digest. -/
def stepShape (s : ProofStep) : ProofSide × ℕ := (s.side, s.siblingPages.toNat)

section verifying

variable [Sha256]

/-- The fold of `verify_leaf` compares each step with the shape. -/
theorem map_shape_of_foldlM {proof : List ProofStep} {shape : List (ProofSide × ℕ)}
    (hlen : proof.length = shape.length) {st cur : Digest × ℕ}
    (h : (proof.zip shape).foldlM verifyStep st = .ok cur) : proof.map stepShape = shape := by
  induction proof generalizing shape st with
  | nil => rw [List.map_nil, List.length_eq_zero_iff.mp hlen.symm]
  | cons step proof ih =>
    obtain ⟨s, shape, rfl⟩ := List.exists_cons_of_length_eq_add_one hlen.symm
    rw [List.zip_cons_cons, List.foldlM_cons, bind_eq_ok] at h
    obtain ⟨st', hst, h⟩ := h
    obtain ⟨hside, hpages, -⟩ := verifyStep_eq_ok.mp hst
    rw [List.map_cons, ih (by simpa using hlen) h]
    exact congrArg (· :: shape) (Prod.ext hside hpages)

/-- What `verify_leaf` accepts has the shape of the position it is verified at. -/
theorem map_shape_of_verifyLeaf {n i : UInt64} {leaf root : Digest} {proof : List ProofStep}
    (h : verifyLeaf n i leaf proof root = .ok ()) :
    expectedProofShape n i = .ok (proof.map stepShape) := by
  obtain ⟨hi, hlen, count, hfold⟩ := verifyLeaf_eq_ok.mp h
  exact expectedProofShape_eq_ok.mpr
    ⟨hi, map_shape_of_foldlM (hlen.trans List.length_reverse.symm) hfold⟩

/-- **The shape of a proof determines its position**: it has at most 64 steps, none with an empty
sibling, its counts add up to the other leaves and its `Left` counts to the leaves before.  No other
position has it, so a proof that has it is rejected at every other position, whatever the digests
and the hash function. -/
theorem expectedProofShape_determines_position (n i : UInt64) (hi : i < n) :
    ∃ shape, expectedProofShape n i = .ok shape ∧ shape.length ≤ 64 ∧ (∀ s ∈ shape, 1 ≤ s.2) ∧
      (shape.map Prod.snd).sum = n.toNat - 1 ∧ leftPages shape = i.toNat ∧
      (∀ n' i', expectedProofShape n' i' = .ok shape → n' = n ∧ i' = i) ∧
      ∀ (proof : List ProofStep), proof.map stepShape = shape → ∀ n' i', (n', i') ≠ (n, i) →
        ∀ leaf root, ∃ e, verifyLeaf n' i' leaf proof root = .error e := by
  rw [UInt64.lt_iff_toNat_lt] at hi
  have hshape := expectedProofShape_eq_ok.mpr ⟨hi, rfl⟩
  refine ⟨_, hshape, ?_, fun s hs ↦ one_le_of_mem_shapeDescent (List.mem_reverse.mp hs), ?_, ?_,
    fun n' i' h' ↦ eq_of_expectedProofShape hshape h', ?_⟩
  · rw [List.length_reverse]
    exact length_shapeDescent_le n.toNat_lt.le le_rfl _
  · have hsum := sum_shapeDescent (show 0 < n.toNat by omega) i.toNat
    rw [List.map_reverse, List.sum_reverse]
    omega
  · rw [leftPages_reverse, leftPages_shapeDescent hi]
  · intro proof hproof n' i' hne leaf root
    rcases h : verifyLeaf n' i' leaf proof root with e | ⟨⟩
    · exact ⟨e, rfl⟩
    · obtain ⟨rfl, rfl⟩ := eq_of_expectedProofShape hshape (hproof ▸ map_shape_of_verifyLeaf h)
      exact absurd rfl hne

omit [Sha256] in
/-- The fourth of five leaves. -/
theorem expectedProofShape_determines_position_five :
    letI := trioSha256
    (3 : UInt64) < 5 ∧
      expectedProofShape 5 3 = .ok [(.left, 1), (.left, 2), (.right, 1)] ∧
      ∃ e, verifyLeaf 5 2 (.fill 1)
        [⟨.left, 1, .fill 2⟩, ⟨.left, 2, .fill 3⟩, ⟨.right, 1, .fill 4⟩] (.fill 5) = .error e := by
  let _ := trioSha256
  have hshape : expectedProofShape 5 3 = .ok [(.left, 1), (.left, 2), (.right, 1)] := by
    decide +kernel
  obtain ⟨shape, h, -, -, -, -, -, hreject⟩ :=
    expectedProofShape_determines_position 5 3 (by decide)
  obtain rfl := Except.ok.inj (hshape.symm.trans h)
  exact ⟨by decide, hshape, hreject _ rfl 5 2 (by decide) _ _⟩

end verifying

end Merkle

end Mst2
