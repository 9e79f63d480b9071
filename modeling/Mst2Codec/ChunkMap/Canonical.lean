import Mst2Codec.ChunkMap

/-!
# Chunk maps and their leaves are canonical bytes

The counts of a chunk map are redundant: the decoder recomputes them from the file size, in the
words of `ChunkMap.new`.  `toNat_divCeil` says that the recomputation is the ceiling division of
natural numbers, without overflow up to the last file size, so the check that a map has a chunk
never fails where the file is not empty.

Accepted bytes are the encodings of the maps that `new` computes (`ChunkMap.decode_eq_ok`) and of
the leaves within their limit (`ChunkLeaf.decode_eq_ok`), hence the map id and the leaf hash
identify the value.
-/

set_option autoImplicit false

namespace Mst2

open Bytes Except

theorem add_sub_one_div (a : ℕ) {b : ℕ} (hb : 0 < b) :
    (a + b - 1) / b = if 0 < a % b then a / b + 1 else a / b := by
  have hmod := Nat.div_add_mod' a b
  have hlt := Nat.mod_lt a hb
  have hsucc : (a / b + 1) * b = a / b * b + b := Nat.succ_mul _ _
  split
  · exact Nat.div_eq_of_lt_le (by omega) (by rw [Nat.succ_mul]; omega)
  · exact Nat.div_eq_of_lt_le (by omega) (by omega)

/-- `div_ceil` rounds up, and nothing overflows. -/
theorem toNat_divCeil (a : UInt64) {b : UInt64} (hb : 0 < b.toNat) :
    (divCeil a b).toNat = (a.toNat + b.toNat - 1) / b.toNat := by
  have ha := a.toNat_lt
  have hrem : 0 < a % b ↔ 0 < a.toNat % b.toNat := by
    rw [UInt64.lt_iff_toNat_lt, UInt64.toNat_zero, UInt64.toNat_mod]
  rw [divCeil, add_sub_one_div _ hb]
  simp only [hrem]
  split
  · rename_i h
    -- a remainder needs a divisor of at least 2, so that the quotient can be increased
    have hlt := Nat.mod_lt a.toNat hb
    have hdiv : a.toNat / b.toNat ≤ a.toNat / 2 := Nat.div_le_div_left (by omega) (by decide)
    rw [UInt64.toNat_add, UInt64.toNat_div, UInt64.toNat_one, Nat.mod_eq_of_lt (by omega)]
  · exact UInt64.toNat_div a b

theorem divCeil_ne_zero {a b : UInt64} (ha : a ≠ 0) (hb : 0 < b.toNat) : divCeil a b ≠ 0 := by
  have ha' : 0 < a.toNat := Nat.pos_of_ne_zero fun h ↦ ha (UInt64.toNat_inj.mp h)
  intro h
  have hzero := toNat_divCeil a hb
  rw [h, UInt64.toNat_zero] at hzero
  have := Nat.div_pos (show b.toNat ≤ a.toNat + b.toNat - 1 by omega) hb
  omega

/-! ## Maps -/

namespace ChunkMap

theorem new_eq_ok {fileContentId pagesRoot : Digest} {fileSize : UInt64} {m : ChunkMap} :
    new fileContentId fileSize pagesRoot = .ok m ↔ fileSize ≠ 0 ∧
      m = ⟨fileContentId, fileSize, divCeil fileSize chunkSize.toUInt64,
        divCeil (divCeil fileSize chunkSize.toUInt64) (UInt64.ofNat chunksPerPage), pagesRoot⟩ := by
  rw [new, reject_bind_eq_ok]
  simp only [pure, Except.pure, Except.ok.injEq]
  exact and_congr_right fun _ ↦ eq_comm

@[simp] theorem length_mapMagic : mapMagic.length = 4 := rfl

theorem length_encode (m : ChunkMap) : m.encode.length = mapLen := by
  simp [encode, mapLen]

/-- The fields of a map in their places. -/
theorem slice?_encode {buf : Bytes} {m : ChunkMap} :
    slice? buf 0 mapLen = some m.encode ↔
      slice? buf 0 4 = some mapMagic ∧ readU16 buf 4 = .ok 2 ∧ readU16 buf 6 = .ok 0 ∧
      readDigestAt "file_content_id" buf 8 = .ok m.fileContentId ∧
      readU64 buf 40 = .ok m.fileSize ∧ readU32 buf 48 = .ok chunkSize ∧
      readU64 buf 52 = .ok m.chunkCount ∧ readU64 buf 60 = .ok m.pageCount ∧
      readDigestAt "pages_root" buf 68 = .ok m.pagesRoot := by
  rw [encode, mapLen, slice?_append_eq_some (n := 68) (m := 32) (by simp),
    slice?_append_eq_some (n := 60) (m := 8) (by simp),
    slice?_append_eq_some (n := 52) (m := 8) (by simp),
    slice?_append_eq_some (n := 48) (m := 4) (by simp),
    slice?_append_eq_some (n := 40) (m := 8) (by simp),
    slice?_append_eq_some (n := 8) (m := 32) (by simp),
    slice?_append_eq_some (n := 6) (m := 2) (by simp),
    slice?_append_eq_some (n := 4) (m := 2) (by rfl)]
  simp only [readU16_eq_ok, readU32_eq_ok, readU64_eq_ok, readDigestAt_eq_ok, Nat.zero_add,
    and_assoc]

/-- **What `decode` accepts**: the bytes of the maps that `new` computes. -/
theorem decode_eq_ok {b : Bytes} {m : ChunkMap} : decode b = .ok m ↔
    new m.fileContentId m.fileSize m.pagesRoot = .ok m ∧ b = m.encode := by
  rw [decode]
  constructor
  · intro h
    rw [reject_bind_eq_ok, not_not, reject_bind_eq_ok, not_not, bind_eq_ok] at h
    obtain ⟨hlen, hmagic, v, hv, h⟩ := h
    rw [reject_bind_eq_ok, not_not, bind_eq_ok] at h
    obtain ⟨rfl, reserved, hreserved, h⟩ := h
    rw [reject_bind_eq_ok, not_not, bind_eq_ok] at h
    obtain ⟨rfl, fileContentId, hid, h⟩ := h
    rw [bind_eq_ok] at h
    obtain ⟨fileSize, hfileSize, h⟩ := h
    rw [bind_eq_ok] at h
    obtain ⟨size, hsize, h⟩ := h
    rw [reject_bind_eq_ok, not_not, bind_eq_ok] at h
    obtain ⟨rfl, chunkCount, hchunks, h⟩ := h
    rw [bind_eq_ok] at h
    obtain ⟨pageCount, hpages, h⟩ := h
    rw [bind_eq_ok] at h
    obtain ⟨pagesRoot, hroot, h⟩ := h
    rw [reject_bind_eq_ok, reject_bind_eq_ok, not_not, reject_bind_eq_ok, reject_bind_eq_ok,
      not_not] at h
    obtain ⟨hne, rfl, -, rfl, h⟩ := h
    obtain rfl := Except.ok.inj h
    refine ⟨new_eq_ok.mpr ⟨hne, rfl⟩, ?_⟩
    refine (slice?_length_eq_some hlen).mp (slice?_encode.mpr ⟨?_, hv, hreserved, hid, hfileSize,
      hsize, hchunks, hpages, hroot⟩)
    rw [mapLen] at hlen
    rw [slice?, if_pos (by omega), List.drop_zero, hmagic]
  · rintro ⟨hnew, rfl⟩
    obtain ⟨hne, hm⟩ := new_eq_ok.mp hnew
    have hlen := length_encode m
    obtain ⟨hmagic, hv, hreserved, hid, hfileSize, hsize, hchunks, hpages, hroot⟩ :=
      slice?_encode.mp ((slice?_length_eq_some hlen).mpr rfl)
    have hmagic' : m.encode.take 4 = mapMagic := by
      rw [slice?_eq_some, List.drop_zero] at hmagic
      rw [hmagic.2.2, List.take_left' hmagic.2.1]
    have hcount : divCeil m.fileSize chunkSize.toUInt64 ≠ 0 := divCeil_ne_zero hne (by decide)
    have hchunksEq : m.chunkCount = divCeil m.fileSize chunkSize.toUInt64 := by rw [hm]
    have hpagesEq : m.pageCount = divCeil m.chunkCount (UInt64.ofNat chunksPerPage) := by rw [hm]
    rw [reject_of_not (not_not.mpr hlen), ok_bind, reject_of_not (not_not.mpr hmagic'), ok_bind,
      hv, ok_bind, reject_of_not (not_not.mpr rfl), ok_bind, hreserved, ok_bind,
      reject_of_not (not_not.mpr rfl), ok_bind, hid, ok_bind, hfileSize, ok_bind, hsize, ok_bind,
      reject_of_not (not_not.mpr rfl), ok_bind, hchunks, ok_bind, hpages, ok_bind, hroot, ok_bind,
      reject_of_not hne, ok_bind]
    dsimp only
    rw [reject_of_not (not_not.mpr hchunksEq), ok_bind, reject_of_not (hchunksEq ▸ hcount), ok_bind,
      reject_of_not (not_not.mpr hpagesEq)]
    rfl

end ChunkMap

/-! ## Leaf pages -/

namespace ChunkLeaf

@[simp] theorem length_chunkLeafMagic : chunkLeafMagic.length = 4 := rfl

/-- The bytes of a leaf. -/
def bytes (l : ChunkLeaf) : Bytes :=
  chunkLeafMagic ++ writeU64 l.pageIndex ++ writeU16 (UInt16.ofNat l.chunkSha256.length) ++
    writeU16 0 ++ l.chunkSha256.flatMap Digest.bytes

theorem encode_eq_ok {l : ChunkLeaf} {b : Bytes} : l.encode = .ok b ↔
    (1 ≤ l.chunkSha256.length ∧ l.chunkSha256.length ≤ chunksPerPage) ∧ b = l.bytes := by
  rw [encode, reject_bind_eq_ok, not_or, not_lt, ← ne_eq, ← List.length_pos_iff]
  simp only [pure, Except.pure, Except.ok.injEq]
  exact and_congr_right fun _ ↦ eq_comm

/-- The loop over the digests reads as many as it is asked for. -/
theorem decodeDigests_eq_ok {buf : Bytes} {n off : ℕ} {ds : List Digest} (hoff : off ≤ buf.length) :
    decodeDigests buf n off = .ok ds ↔
      ds.length = n ∧ slice? buf off (32 * n) = some (ds.flatMap Digest.bytes) := by
  induction n generalizing off ds with
  | zero =>
    simp only [decodeDigests, pure, Except.pure, Except.ok.injEq, List.length_eq_zero_iff]
    constructor
    · rintro rfl
      simp [slice?, hoff]
    · rintro ⟨rfl, -⟩
      rfl
  | succ n ih =>
    rw [decodeDigests, bind_eq_ok]
    have hsucc : 32 * (n + 1) = 32 + 32 * n := by omega
    constructor
    · rintro ⟨d, hd, h⟩
      rw [readDigestAt_eq_ok] at hd
      obtain ⟨rest, hrest, h⟩ := bind_eq_ok.mp h
      obtain rfl := Except.ok.inj h
      obtain ⟨rfl, hslice⟩ := (ih (le_of_slice? hd)).mp hrest
      refine ⟨rfl, ?_⟩
      rw [hsucc, List.flatMap_cons, slice?_append_eq_some d.length_eq]
      exact ⟨hd, hslice⟩
    · rintro ⟨hlength, hslice⟩
      obtain ⟨d, rest, rfl⟩ := List.exists_cons_of_length_eq_add_one hlength
      rw [hsucc, List.flatMap_cons, slice?_append_eq_some d.length_eq] at hslice
      refine ⟨d, readDigestAt_eq_ok.mpr hslice.1, bind_eq_ok.mpr ⟨rest, ?_, rfl⟩⟩
      exact (ih (le_of_slice? hslice.1)).mpr ⟨Nat.succ.inj hlength, hslice.2⟩

/-- The header of a leaf and its digests in their places. -/
theorem slice?_leafBytes {buf : Bytes} {l : ChunkLeaf} {n : ℕ} (hn : l.chunkSha256.length = n) :
    slice? buf 0 (16 + 32 * n) = some l.bytes ↔
      slice? buf 0 4 = some chunkLeafMagic ∧ readU64 buf 4 = .ok l.pageIndex ∧
      readU16 buf 12 = .ok (UInt16.ofNat n) ∧ readU16 buf 14 = .ok 0 ∧
      slice? buf 16 (32 * n) = some (l.chunkSha256.flatMap Digest.bytes) := by
  rw [bytes, hn, slice?_append_eq_some (n := 16) (by simp),
    slice?_append_eq_some (n := 14) (m := 2) (by simp),
    slice?_append_eq_some (n := 12) (m := 2) (by simp),
    slice?_append_eq_some (n := 4) (m := 8) (by rfl)]
  simp only [readU16_eq_ok, readU64_eq_ok, Nat.zero_add, and_assoc]

theorem length_bytes (l : ChunkLeaf) : l.bytes.length = 16 + 32 * l.chunkSha256.length := by
  simp [bytes]
  omega

/-- **What `decode` accepts**: the bytes of the leaves within their limit. -/
theorem decode_eq_ok {b : Bytes} {l : ChunkLeaf} : decode b = .ok l ↔
    (1 ≤ l.chunkSha256.length ∧ l.chunkSha256.length ≤ chunksPerPage) ∧ b = l.bytes := by
  rw [decode]
  constructor
  · intro h
    rw [reject_bind_eq_ok, reject_bind_eq_ok, not_not, bind_eq_ok] at h
    obtain ⟨hmin, hmagic, pageIndex, hindex, h⟩ := h
    rw [bind_eq_ok] at h
    obtain ⟨count, hcount, h⟩ := h
    rw [reject_bind_eq_ok, not_not, bind_eq_ok] at h
    obtain ⟨hrange, reserved, hreserved, h⟩ := h
    rw [reject_bind_eq_ok, not_not, reject_bind_eq_ok, not_not, bind_eq_ok] at h
    obtain ⟨rfl, hlen, ds, hds, h⟩ := h
    obtain rfl := Except.ok.inj h
    obtain ⟨hlength, hslice⟩ := (decodeDigests_eq_ok (by omega)).mp hds
    refine ⟨hlength ▸ hrange, (slice?_length_eq_some hlen).mp ?_⟩
    refine (slice?_leafBytes hlength).mpr ⟨?_, hindex, ?_, hreserved, hslice⟩
    · rw [slice?, if_pos (by omega), List.drop_zero, hmagic]
    · rwa [UInt16.ofNat_toNat]
  · rintro ⟨hrange, rfl⟩
    have hlen := length_bytes l
    have hnat : (UInt16.ofNat l.chunkSha256.length).toNat = l.chunkSha256.length := by
      refine toNat_ofNat_u16 ?_
      rw [chunksPerPage] at hrange
      omega
    obtain ⟨hmagic, hindex, hcount, hreserved, hslice⟩ :=
      (slice?_leafBytes rfl).mp ((slice?_length_eq_some hlen).mpr rfl)
    have hmagic' : l.bytes.take 4 = chunkLeafMagic := by
      rw [slice?_eq_some, List.drop_zero] at hmagic
      rw [hmagic.2.2, List.take_left' hmagic.2.1]
    rw [reject_of_not (by omega), ok_bind, reject_of_not (not_not.mpr hmagic'), ok_bind, hindex,
      ok_bind, hcount, ok_bind, hnat, reject_of_not (not_not.mpr hrange), ok_bind, hreserved,
      ok_bind, reject_of_not (not_not.mpr rfl), ok_bind, reject_of_not (not_not.mpr hlen), ok_bind,
      (decodeDigests_eq_ok (by omega)).mpr ⟨rfl, hslice⟩, ok_bind]
    rfl

theorem decode_eq_ok_iff_encode {b : Bytes} {l : ChunkLeaf} :
    decode b = .ok l ↔ l.encode = .ok b := decode_eq_ok.trans encode_eq_ok.symm

end ChunkLeaf

/-! ## Canonical bytes -/

/-- **Chunk maps and chunk leaves are canonical bytes.**  A map that `new` computes is read back,
and what is read as a map is the encoding of the map that `new` computes from its fields; leaves
are encoded to the bytes that are decoded to them. -/
theorem ChunkMap.canonical_chunkMap :
    (∀ (fileContentId : Digest) (fileSize : UInt64) (pagesRoot : Digest), fileSize ≠ 0 →
      ∃ m, new fileContentId fileSize pagesRoot = .ok m ∧ decode m.encode = .ok m) ∧
    (∀ (b : Bytes) (m : ChunkMap), decode b = .ok m →
      m.encode = b ∧ new m.fileContentId m.fileSize m.pagesRoot = .ok m) ∧
    (∀ (l : ChunkLeaf) (b : Bytes), l.encode = .ok b → ChunkLeaf.decode b = .ok l) ∧
    ∀ (b : Bytes) (l : ChunkLeaf), ChunkLeaf.decode b = .ok l → l.encode = .ok b := by
  refine ⟨fun fileContentId fileSize pagesRoot hne ↦ ?_, fun b m h ↦ ?_,
    fun l b h ↦ ChunkLeaf.decode_eq_ok_iff_encode.mpr h,
    fun b l h ↦ ChunkLeaf.decode_eq_ok_iff_encode.mp h⟩
  · have hnew : new fileContentId fileSize pagesRoot = .ok _ := new_eq_ok.mpr ⟨hne, rfl⟩
    exact ⟨_, hnew, decode_eq_ok.mpr ⟨hnew, rfl⟩⟩
  · obtain ⟨hnew, rfl⟩ := decode_eq_ok.mp h
    exact ⟨rfl, hnew⟩

/-- The largest file, and a leaf of two chunks. -/
theorem ChunkMap.canonical_chunkMap_largest :
    (∃ m, new (.fill 1) 0xFFFFFFFFFFFFFFFF (.fill 2) = .ok m ∧ decode m.encode = .ok m ∧
      m.chunkCount = 0x100000000000 ∧ m.pageCount = 0x1000000000) ∧
    ∃ b, (ChunkLeaf.mk 3 [.fill 1, .fill 2]).encode = .ok b ∧
      ChunkLeaf.decode b = .ok ⟨3, [.fill 1, .fill 2]⟩ := by
  obtain ⟨hnew, -, hleaf, hback⟩ := canonical_chunkMap
  refine ⟨?_, ?_⟩
  · obtain ⟨m, hm, hdecode⟩ := hnew (.fill 1) 0xFFFFFFFFFFFFFFFF (.fill 2) (by decide)
    obtain ⟨-, rfl⟩ := new_eq_ok.mp hm
    exact ⟨_, hm, hdecode, by decide, by decide⟩
  · have h : (ChunkLeaf.mk 3 [.fill 1, .fill 2]).encode =
        .ok (ChunkLeaf.mk 3 [.fill 1, .fill 2]).bytes := by rfl
    exact ⟨_, hback _ _ (hleaf _ _ h), hleaf _ _ h⟩

end Mst2
