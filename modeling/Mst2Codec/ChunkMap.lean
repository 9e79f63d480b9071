import Mst2Codec.Basic

/-!
# Chunk maps

The model of `src/chunkmap.rs`: the chunk map of a file (MCM2), its leaf pages (MCL2), the Merkle
tree over their hashes, and the proofs that a leaf is in it.

The tree over `n` leaves splits at the largest power of two below `n`.  Four functions walk it, each
in its own way: `buildSubtree` computes the root, `proofDescent` collects the siblings on the way to
a leaf, `shapeDescent` does the same without the leaves, and `verifyLeaf` folds a proof from the
leaf to the root.  Counts are natural numbers in the walks and `UInt64` where the source stores or
takes one.

The lengths of the chunks and pages, and the chunks of a range, are computed in `UInt64`.
-/

set_option autoImplicit false

namespace Mst2

open Bytes Except

/-- `CHUNK_SIZE` -/
def chunkSize : UInt32 := 1048576

/-- `CHUNKS_PER_PAGE` -/
def chunksPerPage : ℕ := 256

/-- `MAP_LEN` -/
def mapLen : ℕ := 100

/-- `MAP_DOMAIN` -/
def mapDomain : Bytes := "mega.mst2.chunkmap\x00".asBytes

/-- `LEAF_DOMAIN` -/
def chunkLeafDomain : Bytes := "mega.mst2.chunkleaf\x00".asBytes

/-- `BRANCH_DOMAIN` -/
def chunkBranchDomain : Bytes := "mega.mst2.chunkbranch\x00".asBytes

/-- `MAP_MAGIC` -/
def mapMagic : Bytes := "MCM2".asBytes

/-- `LEAF_MAGIC` -/
def chunkLeafMagic : Bytes := "MCL2".asBytes

/-! ## Maps -/

/-- The map of a file. -/
@[ext] structure ChunkMap where
  /-- The digest of the raw bytes of the file. -/
  fileContentId : Digest
  /-- The number of its bytes. -/
  fileSize : UInt64
  /-- The number of its chunks. -/
  chunkCount : UInt64
  /-- The number of leaf pages. -/
  pageCount : UInt64
  /-- The root of the tree over the leaf pages. -/
  pagesRoot : Digest
deriving DecidableEq

/-- `u64::div_ceil` -/
def divCeil (a b : UInt64) : UInt64 := if 0 < a % b then a / b + 1 else a / b

/-- `new` -/
def ChunkMap.new (fileContentId : Digest) (fileSize : UInt64) (pagesRoot : Digest) :
    CodecResult ChunkMap := do
  reject (fileSize = 0) (.badLength "empty file must not have a chunk map")
  let chunkCount := divCeil fileSize chunkSize.toUInt64
  let pageCount := divCeil chunkCount (UInt64.ofNat chunksPerPage)
  pure ⟨fileContentId, fileSize, chunkCount, pageCount, pagesRoot⟩

/-- `encode` -/
def ChunkMap.encode (m : ChunkMap) : Bytes :=
  mapMagic ++ writeU16 2 ++ writeU16 0 ++ m.fileContentId.bytes ++ writeU64 m.fileSize ++
    writeU32 chunkSize ++ writeU64 m.chunkCount ++ writeU64 m.pageCount ++ m.pagesRoot.bytes

/-- `map_id` -/
def ChunkMap.mapId [Sha256] (m : ChunkMap) : Digest := sha256 (mapDomain ++ m.encode)

/-- `decode`: with the length checked, the digests are there to be copied. -/
def ChunkMap.decode (buf : Bytes) : CodecResult ChunkMap := do
  reject (buf.length ≠ mapLen) (.badLength "chunk map must be exactly 100 bytes")
  reject (buf.take 4 ≠ mapMagic) (.badConstant "MCM2 magic")
  let schemaVersion ← readU16 buf 4
  reject (schemaVersion ≠ 2) (.badConstant "chunk map schema_version")
  let reserved ← readU16 buf 6
  reject (reserved ≠ 0) (.badConstant "chunk map reserved")
  let fileContentId ← readDigestAt "file_content_id" buf 8
  let fileSize ← readU64 buf 40
  let size ← readU32 buf 48
  reject (size ≠ chunkSize) (.badConstant "only chunk_size 1MiB accepted this profile")
  let chunkCount ← readU64 buf 52
  let pageCount ← readU64 buf 60
  let pagesRoot ← readDigestAt "pages_root" buf 68
  reject (fileSize = 0) (.badLength "empty file must not have a chunk map")
  let expectChunks := divCeil fileSize chunkSize.toUInt64
  reject (chunkCount ≠ expectChunks) (.badLength "chunk_count != ceil(file_size/chunk_size)")
  reject (chunkCount = 0) (.badLength "chunk_count must be at least 1")
  let expectPages := divCeil chunkCount (UInt64.ofNat chunksPerPage)
  reject (pageCount ≠ expectPages) (.badLength "page_count != ceil(chunk_count/256)")
  pure ⟨fileContentId, fileSize, chunkCount, pageCount, pagesRoot⟩

/-- `last_chunk_index` -/
def ChunkMap.lastChunkIndex (m : ChunkMap) : UInt64 := m.chunkCount - 1

/-- `chunk_len` -/
def ChunkMap.chunkLen (m : ChunkMap) (index : UInt64) : CodecResult UInt64 := do
  reject (index ≥ m.chunkCount) (.badLength "chunk index out of range")
  if index < m.lastChunkIndex then pure chunkSize.toUInt64
  else
    let rem := m.fileSize - index * chunkSize.toUInt64
    pure rem

/-! ## Leaf pages -/

/-- A leaf page of a chunk map. -/
@[ext] structure ChunkLeaf where
  /-- The position of the page. -/
  pageIndex : UInt64
  /-- The digests of the raw bytes of its chunks. -/
  chunkSha256 : List Digest
deriving DecidableEq

namespace ChunkLeaf

/-- `encode` -/
def encode (leaf : ChunkLeaf) : CodecResult Bytes := do
  reject (leaf.chunkSha256 = [] ∨ leaf.chunkSha256.length > chunksPerPage)
    (.badLength "leaf count must be 1..256")
  pure (chunkLeafMagic ++ writeU64 leaf.pageIndex ++
    writeU16 (UInt16.ofNat leaf.chunkSha256.length) ++ writeU16 0 ++
    leaf.chunkSha256.flatMap Digest.bytes)

/-- The digests from `off` on. -/
def decodeDigests (buf : Bytes) : ℕ → ℕ → CodecResult (List Digest)
  | 0, _ => pure []
  | n + 1, off => do
    let d ← readDigestAt "chunk digest" buf off
    let ds ← decodeDigests buf n (off + 32)
    pure (d :: ds)

/-- `decode` -/
def decode (buf : Bytes) : CodecResult ChunkLeaf := do
  reject (buf.length < 16) (.truncated "chunk leaf header")
  reject (buf.take 4 ≠ chunkLeafMagic) (.badConstant "MCL2 magic")
  let pageIndex ← readU64 buf 4
  let count ← readU16 buf 12
  reject (¬ (1 ≤ count.toNat ∧ count.toNat ≤ chunksPerPage))
    (.badLength "leaf count must be 1..256")
  let reserved ← readU16 buf 14
  reject (reserved ≠ 0) (.badConstant "chunk leaf reserved")
  reject (buf.length ≠ 16 + 32 * count.toNat) (.badLength "leaf length must be 16 + 32*count")
  let chunkSha256 ← decodeDigests buf count.toNat 16
  pure ⟨pageIndex, chunkSha256⟩

/-- What `leaf_hash` hashes. -/
def hashInput (bytes : Bytes) : Bytes := chunkLeafDomain ++ bytes

/-- `leaf_hash` -/
def leafHash [Sha256] (leaf : ChunkLeaf) : CodecResult Digest := do
  let bytes ← leaf.encode
  pure (sha256 (hashInput bytes))

/-- `expected_count` -/
def expectedCount (chunkCount pageIndex : UInt64) : UInt64 :=
  let full := chunkCount / UInt64.ofNat chunksPerPage
  let rem := chunkCount % UInt64.ofNat chunksPerPage
  if pageIndex < full then UInt64.ofNat chunksPerPage else max rem 1

end ChunkLeaf

/-! ## The Merkle tree -/

/-- Which side the sibling sits on. -/
inductive ProofSide where
  /-- The sibling is the left subtree. -/
  | left
  /-- The sibling is the right subtree. -/
  | right
deriving DecidableEq

/-- One step of a proof, from a leaf toward the root. -/
structure ProofStep where
  /-- The side of the sibling. -/
  side : ProofSide
  /-- The number of leaves of the sibling. -/
  siblingPages : UInt64
  /-- The digest of the sibling. -/
  digest : Digest
deriving DecidableEq

namespace Merkle

/-- What `branch_hash` hashes: the counts are interleaved with the digests. -/
def branchInput (left right : Digest) (leftCount rightCount : ℕ) : Bytes :=
  chunkBranchDomain ++ writeU64 (UInt64.ofNat leftCount) ++ left.bytes ++
    writeU64 (UInt64.ofNat rightCount) ++ right.bytes

/-- The loop of `largest_pow2_below`: halve `k` until it is below `n`.  With `1 < n` it stops before
`k` is 0 (`halveBelow_pos`). -/
def halveBelow (n k : ℕ) : ℕ :=
  if k = 0 then 0 else if n ≤ k then halveBelow n (k / 2) else k
termination_by k
decreasing_by omega

/-- `largest_pow2_below` -/
def largestPow2Below (n : ℕ) : ℕ := halveBelow n (2 ^ 63)

theorem halveBelow_lt {n k : ℕ} (hn : 0 < n) : halveBelow n k < n := by
  fun_induction halveBelow n k with
  | case1 => exact hn
  | case2 k hk hnk ih => exact ih
  | case3 k hk hnk => omega

theorem halveBelow_pos {n e : ℕ} (hn : 1 < n) : 0 < halveBelow n (2 ^ e) := by
  induction e with
  | zero => rw [pow_zero, halveBelow, if_neg (by omega), if_neg (by omega)]; omega
  | succ e ih =>
    rw [halveBelow, if_neg (by positivity), pow_succ, Nat.mul_div_cancel _ (by omega)]
    split
    · exact ih
    · positivity

theorem largestPow2Below_lt {n : ℕ} (hn : 1 < n) : largestPow2Below n < n :=
  halveBelow_lt (by omega)

theorem largestPow2Below_pos {n : ℕ} (hn : 1 < n) : 0 < largestPow2Below n := halveBelow_pos hn

section hashing

variable [Sha256]

/-- `branch_hash` -/
def branchHash (left right : Digest) (leftCount rightCount : ℕ) : Digest :=
  sha256 (branchInput left right leftCount rightCount)

/-- `build_subtree`: the root of the tree and the number of leaves.  The source never calls it
without leaves. -/
def buildSubtree (leaves : List Digest) : Digest × ℕ :=
  if _h : 1 < leaves.length then
    let k := largestPow2Below leaves.length
    let left := buildSubtree (leaves.take k)
    let right := buildSubtree (leaves.drop k)
    (branchHash left.1 right.1 left.2 right.2, leaves.length)
  else (leaves.headD .zero, 1)
termination_by leaves.length
decreasing_by
  · have := largestPow2Below_lt _h
    rw [List.length_take]
    omega
  · have := largestPow2Below_pos _h
    rw [List.length_drop]
    omega

/-- `merkle_root` -/
def merkleRoot (leaves : List Digest) : CodecResult Digest := do
  reject (leaves = []) (.badLength "merkle over zero leaves")
  pure (buildSubtree leaves).1

/-- The loop of `leaf_proof`, from the root to the leaf at `idx`. -/
def proofDescent (leaves : List Digest) (idx : ℕ) : List ProofStep :=
  if _h : 1 < leaves.length then
    let k := largestPow2Below leaves.length
    if idx < k then
      let (root, count) := buildSubtree (leaves.drop k)
      ⟨.right, UInt64.ofNat count, root⟩ :: proofDescent (leaves.take k) idx
    else
      let (root, count) := buildSubtree (leaves.take k)
      ⟨.left, UInt64.ofNat count, root⟩ :: proofDescent (leaves.drop k) (idx - k)
  else []
termination_by leaves.length
decreasing_by
  · have := largestPow2Below_lt _h
    rw [List.length_take]
    omega
  · have := largestPow2Below_pos _h
    rw [List.length_drop]
    omega

/-- `leaf_proof`: the steps are emitted from the leaf to the root. -/
def leafProof (leaves : List Digest) (pageIndex : UInt64) : CodecResult (List ProofStep) := do
  reject (pageIndex.toNat ≥ leaves.length) (.badLength "page_index out of range")
  pure (proofDescent leaves pageIndex.toNat).reverse

end hashing

/-- The loop of `expected_proof_shape`, from the root to the leaf at `idx` of `n`. -/
def shapeDescent (n idx : ℕ) : List (ProofSide × ℕ) :=
  if _h : 1 < n then
    let k := largestPow2Below n
    if idx < k then (.right, n - k) :: shapeDescent k idx
    else (.left, k) :: shapeDescent (n - k) (idx - k)
  else []
termination_by n
decreasing_by
  · exact largestPow2Below_lt _h
  · have := largestPow2Below_pos _h
    omega

/-- `expected_proof_shape` -/
def expectedProofShape (pageCount pageIndex : UInt64) : CodecResult (List (ProofSide × ℕ)) := do
  reject (pageCount = 0 ∨ pageIndex ≥ pageCount) (.badLength "page_index out of range")
  pure (shapeDescent pageCount.toNat pageIndex.toNat).reverse

section verifying

variable [Sha256]

/-- One round of the loop of `verify_leaf`: the subtree reached so far and its number of leaves are
joined with the sibling. -/
def verifyStep (cur : Digest × ℕ) (s : ProofStep × ProofSide × ℕ) : CodecResult (Digest × ℕ) := do
  let (step, side, sibCount) := s
  reject (step.side ≠ side ∨ step.siblingPages.toNat ≠ sibCount)
    (.badOrdering "proof step does not match derived path")
  let digest := match side with
    | .right => branchHash cur.1 step.digest cur.2 sibCount
    | .left => branchHash step.digest cur.1 sibCount cur.2
  pure (digest, cur.2 + sibCount)

/-- `verify_leaf` -/
def verifyLeaf (pageCount pageIndex : UInt64) (leafHash : Digest) (proof : List ProofStep)
    (pagesRoot : Digest) : CodecResult Unit := do
  let shape ← expectedProofShape pageCount pageIndex
  reject (proof.length ≠ shape.length) (.badLength "proof length does not match tree shape")
  let (cur, _) ← (proof.zip shape).foldlM verifyStep (leafHash, 1)
  reject (cur ≠ pagesRoot) (.digestMismatch "pages_root")

end verifying

end Merkle

/-! ## Ranges -/

/-- `range_chunks`: the first and the last chunk of the range.  The end is past the range. -/
def rangeChunks (offset length fileSize : UInt64) : CodecResult (UInt64 × UInt64) := do
  reject (length = 0) (.badLength "zero-length read")
  reject (offset ≥ fileSize) (.badLength "offset at or past EOF")
  let endOffset := if length ≥ fileSize - offset then fileSize else offset + length
  let chunk := chunkSize.toUInt64
  let startChunk := offset / chunk
  let endChunk := (endOffset - 1) / chunk
  pure (startChunk, endChunk)

end Mst2
