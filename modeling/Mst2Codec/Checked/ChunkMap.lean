import Mst2Codec.Checked.Readers
import Mst2Codec.ChunkMap

/-!
# Checked decoding and arithmetic of chunk maps

`ChunkMap::decode`, `ChunkLeaf::decode`, `ChunkMap::chunk_len` and `range_chunks` of
`src/chunkmap.rs`, operation by operation.
-/

set_option autoImplicit false

namespace Mst2

namespace Checked

open Bytes Machine

/-- `u64::div_ceil` -/
def divCeil (a b : UInt64) : Run UInt64 := do
  let d ← div a.toNat b.toNat
  let r ← rem a.toNat b.toNat
  if 0 < r then do
    let d ← add 64 d 1
    pure (UInt64.ofNat d)
  else pure (UInt64.ofNat d)

/-- `ChunkMap::decode` -/
def ChunkMap.decode (buf : Bytes) : Run ChunkMap := do
  reject (buf.length ≠ mapLen) (.badLength "chunk map must be exactly 100 bytes")
  let magic ← range buf 0 4
  reject (magic ≠ mapMagic) (.badConstant "MCM2 magic")
  let schemaVersion ← readU16 buf 4
  reject (schemaVersion ≠ 2) (.badConstant "chunk map schema_version")
  let reserved ← readU16 buf 6
  reject (reserved ≠ 0) (.badConstant "chunk map reserved")
  let fileContentId ← copyRange buf 8 40
  let fileSize ← readU64 buf 40
  let size ← readU32 buf 48
  reject (size ≠ chunkSize) (.badConstant "only chunk_size 1MiB accepted this profile")
  let chunkCount ← readU64 buf 52
  let pageCount ← readU64 buf 60
  let pagesRoot ← copyRange buf 68 100
  reject (fileSize = 0) (.badLength "empty file must not have a chunk map")
  let expectChunks ← divCeil fileSize chunkSize.toUInt64
  reject (chunkCount ≠ expectChunks) (.badLength "chunk_count != ceil(file_size/chunk_size)")
  reject (chunkCount = 0) (.badLength "chunk_count must be at least 1")
  let expectPages ← divCeil chunkCount (UInt64.ofNat chunksPerPage)
  reject (pageCount ≠ expectPages) (.badLength "page_count != ceil(chunk_count/256)")
  pure ⟨fileContentId, fileSize, chunkCount, pageCount, pagesRoot⟩

/-- The loop of `ChunkLeaf::decode`, from the digest `i` on. -/
def ChunkLeaf.decodeDigests (buf : Bytes) : ℕ → ℕ → Run (List Digest)
  | 0, _ => pure []
  | n + 1, i => do
    let lo ← mul 64 i 32
    let lo ← add 64 16 lo
    let next ← add 64 i 1
    let hi ← mul 64 next 32
    let hi ← add 64 16 hi
    let d ← copyRange buf lo hi
    let ds ← ChunkLeaf.decodeDigests buf n (i + 1)
    pure (d :: ds)

/-- `ChunkLeaf::decode` -/
def ChunkLeaf.decode (buf : Bytes) : Run ChunkLeaf := do
  reject (buf.length < 16) (.truncated "chunk leaf header")
  let magic ← range buf 0 4
  reject (magic ≠ chunkLeafMagic) (.badConstant "MCL2 magic")
  let pageIndex ← readU64 buf 4
  let count ← readU16 buf 12
  reject (¬ (1 ≤ count.toNat ∧ count.toNat ≤ chunksPerPage))
    (.badLength "leaf count must be 1..256")
  let reserved ← readU16 buf 14
  reject (reserved ≠ 0) (.badConstant "chunk leaf reserved")
  let len ← mul 64 32 count.toNat
  let len ← add 64 16 len
  reject (buf.length ≠ len) (.badLength "leaf length must be 16 + 32*count")
  let chunkSha256 ← ChunkLeaf.decodeDigests buf count.toNat 0
  pure ⟨pageIndex, chunkSha256⟩

/-- `ChunkMap::last_chunk_index` -/
def ChunkMap.lastChunkIndex (m : ChunkMap) : Run ℕ := sub m.chunkCount.toNat 1

/-- `ChunkMap::chunk_len` -/
def ChunkMap.chunkLen (m : ChunkMap) (index : UInt64) : Run UInt64 := do
  reject (index ≥ m.chunkCount) (.badLength "chunk index out of range")
  let last ← ChunkMap.lastChunkIndex m
  if index.toNat < last then pure chunkSize.toUInt64
  else do
    let start ← mul 64 index.toNat chunkSize.toNat
    let rem ← sub m.fileSize.toNat start
    pure (UInt64.ofNat rem)

/-- The end of the range in `range_chunks`. -/
def rangeEnd (offset length fileSize : UInt64) : Run ℕ := do
  let rest ← sub fileSize.toNat offset.toNat
  if length.toNat ≥ rest then pure fileSize.toNat else add 64 offset.toNat length.toNat

/-- `range_chunks` -/
def rangeChunks (offset length fileSize : UInt64) : Run (UInt64 × UInt64) := do
  reject (length = 0) (.badLength "zero-length read")
  reject (offset ≥ fileSize) (.badLength "offset at or past EOF")
  let endOffset ← rangeEnd offset length fileSize
  let startChunk ← div offset.toNat chunkSize.toNat
  let lastOffset ← sub endOffset 1
  let endChunk ← div lastOffset chunkSize.toNat
  pure (UInt64.ofNat startChunk, UInt64.ofNat endChunk)

/-! ## They do not panic -/

/-- A quotient by 2 or more can be incremented. -/
theorem divCeil_eq (a : UInt64) {b : UInt64} (hb : 2 ≤ b.toNat) :
    divCeil a b = .ok (Mst2.divCeil a b) := by
  have ha := a.toNat_lt
  have hdiv : a.toNat / b.toNat ≤ a.toNat / 2 := Nat.div_le_div_left hb (by decide)
  show divCeil a b = lift (.ok (Mst2.divCeil a b))
  rw [← sim_eq_iff, divCeil, Mst2.divCeil]
  refine .div (by omega) (.rem (by omega) ?_)
  rw [← UInt64.toNat_mod, ← UInt64.toNat_div]
  have hrem : 0 < (a % b).toNat ↔ 0 < a % b := by
    rw [UInt64.lt_iff_toNat_lt, UInt64.toNat_zero]
  by_cases hr : 0 < a % b
  · rw [if_pos hr, if_pos (hrem.mpr hr)]
    refine .add (by rw [UInt64.toNat_div]; omega) ?_
    rw [UInt64.ofNat_add, UInt64.ofNat_toNat]
    exact .ok rfl
  · rw [if_neg hr, if_neg (hrem.not.mpr hr), UInt64.ofNat_toNat]
    exact .ok rfl

theorem ChunkMap.decode_eq (buf : Bytes) :
    ChunkMap.decode buf = lift (Mst2.ChunkMap.decode buf) := by
  rw [← sim_eq_iff, decode, Mst2.ChunkMap.decode]
  refine .reject fun hlen ↦ ?_
  rw [not_not, mapLen] at hlen
  refine .range (by omega) (by omega) (.reject fun _ ↦ ?_)
  refine sim_readU16 (by omega) fun schemaVersion ↦ .reject fun _ ↦ ?_
  refine sim_readU16 (by omega) fun reserved ↦ .reject fun _ ↦ ?_
  refine sim_copyRange rfl (by omega) fun fileContentId ↦ ?_
  refine sim_readU64 (by omega) fun fileSize ↦ ?_
  refine sim_readU32 (by omega) fun size ↦ .reject fun _ ↦ ?_
  refine sim_readU64 (by omega) fun chunkCount ↦ ?_
  refine sim_readU64 (by omega) fun pageCount ↦ ?_
  refine sim_copyRange rfl (by omega) fun pagesRoot ↦ .reject fun _ ↦ ?_
  rw [divCeil_eq _ (by decide), divCeil_eq _ (by decide)]
  exact .ok_bind (.reject fun _ ↦ .reject fun _ ↦ .ok_bind (.reject fun _ ↦ .ok rfl))

theorem ChunkLeaf.decodeDigests_eq {buf : Bytes} (n i : ℕ) (hlen : buf.length < 2 ^ 63)
    (hi : 16 + (i + n) * 32 ≤ buf.length) :
    ChunkLeaf.decodeDigests buf n i =
      lift (Mst2.ChunkLeaf.decodeDigests buf n (16 + i * 32)) := by
  rw [← sim_eq_iff]
  induction n generalizing i with
  | zero => exact .ok rfl
  | succ n ih =>
    rw [decodeDigests, Mst2.ChunkLeaf.decodeDigests]
    refine .mul (by omega) (.add (by omega) ?_)
    refine .add (by omega) (.mul (by omega) (.add (by omega) ?_))
    rw [show 16 + i * 32 + 32 = 16 + (i + 1) * 32 by omega]
    exact sim_copyRange (by omega) (by omega) fun d ↦ (ih _ (by omega)).andThen fun ds ↦ .ok rfl

theorem ChunkLeaf.decode_eq (buf : Bytes) :
    ChunkLeaf.decode buf = lift (Mst2.ChunkLeaf.decode buf) := by
  rw [← sim_eq_iff, decode, Mst2.ChunkLeaf.decode]
  refine .reject fun hmin ↦ .range (by omega) (by omega) (.reject fun _ ↦ ?_)
  refine sim_readU64 (by omega) fun pageIndex ↦ ?_
  refine sim_readU16 (by omega) fun count ↦ .reject fun _ ↦ ?_
  have hcount := count.toNat_lt
  refine sim_readU16 (by omega) fun reserved ↦ .reject fun _ ↦ .mul (by omega) (.add (by omega)
    (.reject fun hlen ↦ ?_))
  rw [decodeDigests_eq _ _ (by omega) (by omega)]
  exact .lift fun chunkSha256 _ ↦ .ok rfl

/-- The only subtractions are of chunks before the last and of whole chunks of the file. -/
theorem ChunkMap.chunkLen_eq (m : ChunkMap) (index : UInt64)
    (h : index < m.chunkCount → index.toNat * chunkSize.toNat ≤ m.fileSize.toNat) :
    ChunkMap.chunkLen m index = lift (m.chunkLen index) := by
  rw [← sim_eq_iff, chunkLen, Mst2.ChunkMap.chunkLen]
  refine .reject fun hindex ↦ ?_
  rw [ge_iff_le, UInt64.not_le] at hindex
  have hstart := h hindex
  have hsize := m.fileSize.toNat_lt
  rw [UInt64.lt_iff_toNat_lt] at hindex
  have hlast : m.lastChunkIndex.toNat = m.chunkCount.toNat - 1 := by
    rw [Mst2.ChunkMap.lastChunkIndex, UInt64.toNat_sub_of_le]
    · rfl
    · rw [UInt64.le_iff_toNat_le, UInt64.toNat_one]
      omega
  refine .sub (by omega) ?_
  rw [← hlast]
  by_cases hlt : index < m.lastChunkIndex
  · rw [if_pos hlt, if_pos (UInt64.lt_iff_toNat_lt.mp hlt)]
    exact .ok rfl
  · rw [if_neg hlt, if_neg (UInt64.lt_iff_toNat_lt.not.mp hlt)]
    refine .mul (by omega) (.sub hstart (.ok ?_))
    have hmul : (index * chunkSize.toUInt64).toNat = index.toNat * chunkSize.toNat := by
      rw [UInt64.toNat_mul, UInt32.toNat_toUInt64]
      exact Nat.mod_eq_of_lt (by omega)
    rw [← hmul, ← UInt64.toNat_sub_of_le _ _ (UInt64.le_iff_toNat_le.mpr (hmul ▸ hstart)),
      UInt64.ofNat_toNat]

/-- The end of a range that starts in the file: the sum is taken only where it stays in the file. -/
theorem toNat_rangeEnd {offset fileSize : UInt64} (length : UInt64) (hoffset : offset < fileSize) :
    (if length ≥ fileSize - offset then fileSize else offset + length).toNat =
      min fileSize.toNat (offset.toNat + length.toNat) := by
  have hsize := fileSize.toNat_lt
  have hrest : (fileSize - offset).toNat = fileSize.toNat - offset.toNat :=
    UInt64.toNat_sub_of_le _ _ (UInt64.le_of_lt hoffset)
  rw [UInt64.lt_iff_toNat_lt] at hoffset
  by_cases hlong : length ≥ fileSize - offset
  · rw [if_pos hlong]
    rw [ge_iff_le, UInt64.le_iff_toNat_le, hrest] at hlong
    omega
  · rw [if_neg hlong]
    rw [ge_iff_le, UInt64.not_le, UInt64.lt_iff_toNat_lt, hrest] at hlong
    rw [UInt64.toNat_add, Nat.mod_eq_of_lt (by omega)]
    omega

theorem rangeEnd_eq {offset length fileSize : UInt64} (hoffset : offset < fileSize) :
    rangeEnd offset length fileSize =
      .ok (if length ≥ fileSize - offset then fileSize else offset + length).toNat := by
  have hsize := fileSize.toNat_lt
  rw [toNat_rangeEnd length hoffset]
  rw [UInt64.lt_iff_toNat_lt] at hoffset
  rw [rangeEnd, sub, if_pos hoffset.le, Except.ok_bind]
  split
  · exact congrArg Except.ok (by omega)
  · exact add_eq_ok.mpr ⟨by omega, by omega⟩

theorem rangeChunks_eq (offset length fileSize : UInt64) :
    rangeChunks offset length fileSize = lift (Mst2.rangeChunks offset length fileSize) := by
  rw [← sim_eq_iff, rangeChunks, Mst2.rangeChunks]
  refine .reject fun hlength ↦ .reject fun hoffset ↦ ?_
  rw [ge_iff_le, UInt64.not_le] at hoffset
  have hpos : 0 < length.toNat := Nat.pos_of_ne_zero fun h ↦ hlength (UInt64.toNat_inj.mp h)
  have hend := toNat_rangeEnd length hoffset
  rw [rangeEnd_eq hoffset]
  dsimp only
  -- the end `e` is not 0
  generalize (if length ≥ fileSize - offset then fileSize else offset + length) = e at hend ⊢
  rw [UInt64.lt_iff_toNat_lt] at hoffset
  have hone : 1 ≤ e.toNat := by omega
  have hsub : (e - 1).toNat = e.toNat - 1 :=
    UInt64.toNat_sub_of_le _ _ (UInt64.le_iff_toNat_le.mpr hone)
  refine .ok_bind (.div (by decide) (.sub hone (.div (by decide) ?_)))
  rw [← hsub, ← UInt32.toNat_toUInt64, ← UInt64.toNat_div, ← UInt64.toNat_div, UInt64.ofNat_toNat,
    UInt64.ofNat_toNat]
  exact .ok rfl

end Checked

end Mst2
