import Mst2Codec.Checked.ChunkMap
import Mst2Codec.ChunkMap.Canonical
import Mst2Codec.Library.Tiling

/-!
# Chunks tile the file and pages tile the chunks

A chunk map cuts its file into chunks and its chunks into pages.  `chunkLen` and `expectedCount`
compute the lengths of the pieces, each in its own way, and `rangeChunks` computes which chunks meet
a range of bytes.  `Made.chunkLen_eq_ok` and `Made.toNat_expectedCount` say that both levels are
tilings, and the results about maps follow from those about tiles.

They hold for the maps that `new` or `decode` return: there the counts are the numbers of tiles
(`Made.toNat_chunkCount`), and the multiplication and subtraction in `chunkLen` stay in the file.
-/

set_option autoImplicit false

namespace Mst2

open Except Tiling

/-! ## Maps that were made -/

namespace ChunkMap

/-- The maps that `new` and `decode` return. -/
inductive Made (m : ChunkMap) : Prop where
  /-- Returned by `new`. -/
  | new {fileContentId pagesRoot : Digest} {fileSize : UInt64}
      (h : ChunkMap.new fileContentId fileSize pagesRoot = .ok m)
  /-- Returned by `decode`. -/
  | decode {buf : Bytes} (h : ChunkMap.decode buf = .ok m)

variable {m : ChunkMap}

theorem Made.eq_new (hm : m.Made) :
    ChunkMap.new m.fileContentId m.fileSize m.pagesRoot = .ok m := by
  rcases hm with h | h
  · obtain ⟨-, rfl⟩ := new_eq_ok.mp h
    exact h
  · exact (decode_eq_ok.mp h).1

theorem Made.fileSize_pos (hm : m.Made) : 0 < m.fileSize.toNat :=
  Nat.pos_of_ne_zero fun h ↦ (new_eq_ok.mp hm.eq_new).1 (UInt64.toNat_inj.mp h)

theorem Made.toNat_chunkCount (hm : m.Made) :
    m.chunkCount.toNat = m.fileSize.toNat ⌈/⌉ chunkSize.toNat := by
  rw [(new_eq_ok.mp hm.eq_new).2]
  exact toNat_divCeil _ (by decide)

theorem Made.toNat_pageCount (hm : m.Made) :
    m.pageCount.toNat = m.chunkCount.toNat ⌈/⌉ chunksPerPage := by
  rw [(new_eq_ok.mp hm.eq_new).2]
  exact toNat_divCeil _ (by decide)

/-! ## Chunks -/

theorem Made.lt_chunkCount_iff (hm : m.Made) {i : UInt64} :
    i < m.chunkCount ↔ i.toNat * chunkSize.toNat < m.fileSize.toNat := by
  rw [UInt64.lt_iff_toNat_lt, hm.toNat_chunkCount, lt_ceilDiv_iff (by decide)]

/-- A map has a chunk. -/
theorem Made.chunkCount_pos (hm : m.Made) : 0 < m.chunkCount.toNat := by
  rw [hm.toNat_chunkCount, lt_ceilDiv_iff (by decide), Nat.zero_mul]
  exact hm.fileSize_pos

theorem Made.toNat_lastChunkIndex (hm : m.Made) :
    m.lastChunkIndex.toNat = m.chunkCount.toNat - 1 :=
  UInt64.toNat_sub_of_le _ _ (UInt64.le_iff_toNat_le.mpr hm.chunkCount_pos)

/-- **The length of a chunk is that of a tile of the file.** -/
theorem Made.chunkLen_eq_ok (hm : m.Made) {i : UInt64} (hi : i < m.chunkCount) :
    m.chunkLen i = .ok (UInt64.ofNat (tileLen chunkSize.toNat m.fileSize.toNat i.toNat)) := by
  have hstart := hm.lt_chunkCount_iff.mp hi
  have hcount := hm.toNat_chunkCount
  rw [chunkLen, reject_of_not (UInt64.not_le.mpr hi), ok_bind]
  rw [UInt64.lt_iff_toNat_lt] at hi
  by_cases hlast : i < m.lastChunkIndex
  · rw [if_pos hlast]
    rw [UInt64.lt_iff_toNat_lt, hm.toNat_lastChunkIndex] at hlast
    rw [tileLen_of_succ_lt (by decide) (by omega)]
    rfl
  · rw [if_neg hlast]
    rw [UInt64.lt_iff_toNat_lt, hm.toNat_lastChunkIndex] at hlast
    have hsize := m.fileSize.toNat_lt
    have hmul : (i * chunkSize.toUInt64).toNat = i.toNat * chunkSize.toNat := by
      rw [UInt64.toNat_mul, UInt32.toNat_toUInt64]
      exact Nat.mod_eq_of_lt (by omega)
    rw [tileLen_of_succ_eq (by decide) (by omega), ← hmul,
      ← UInt64.toNat_sub_of_le _ _ (UInt64.le_iff_toNat_le.mpr (hmul ▸ hstart.le)),
      UInt64.ofNat_toNat]
    rfl

/-- The length of a tile is a chunk length, so `UInt64` has it. -/
theorem toNat_tileLen (size i : ℕ) :
    (UInt64.ofNat (tileLen chunkSize.toNat size i)).toNat = tileLen chunkSize.toNat size i := by
  have hle : tileLen chunkSize.toNat size i ≤ chunkSize.toNat := tileLen_le
  have hsize := chunkSize.toNat_lt
  exact toNat_ofNat_u64 (by omega)

/-- No operation of `chunk_len` overflows. -/
theorem Made.checked_chunkLen (hm : m.Made) (i : UInt64) :
    Checked.ChunkMap.chunkLen m i = Machine.lift (m.chunkLen i) :=
  Checked.ChunkMap.chunkLen_eq m i fun hi ↦ (hm.lt_chunkCount_iff.mp hi).le

/-- All lengths, in order. -/
theorem Made.mapM_chunkLen (hm : m.Made) :
    (List.range m.chunkCount.toNat).mapM (fun i ↦ m.chunkLen (UInt64.ofNat i)) =
      .ok ((List.range m.chunkCount.toNat).map fun i ↦
        UInt64.ofNat (tileLen chunkSize.toNat m.fileSize.toNat i)) := by
  refine mapM_eq_ok fun i hi ↦ ?_
  rw [List.mem_range] at hi
  have hcount := m.chunkCount.toNat_lt
  have hi' : (UInt64.ofNat i).toNat = i := toNat_ofNat_u64 (by omega)
  rw [hm.chunkLen_eq_ok (by rwa [UInt64.lt_iff_toNat_lt, hi']), hi']

end ChunkMap

/-! ## Pages -/

theorem toNat_max_u64 (a b : UInt64) : (max a b).toNat = max a.toNat b.toNat := by
  show (if a ≤ b then b else a).toNat = _
  split
  · rename_i h
    exact (max_eq_right (UInt64.le_iff_toNat_le.mp h)).symm
  · rename_i h
    exact (max_eq_left (UInt64.le_of_lt (UInt64.not_le.mp h))).symm

/-- **The count of a page is that of a tile of the chunks.** -/
theorem ChunkMap.Made.toNat_expectedCount {m : ChunkMap} (hm : m.Made) {j : UInt64}
    (hj : j < m.pageCount) : (ChunkLeaf.expectedCount m.chunkCount j).toNat =
      tileLen chunksPerPage m.chunkCount.toNat j.toNat := by
  rw [UInt64.lt_iff_toNat_lt, hm.toNat_pageCount, lt_ceilDiv_iff (by decide)] at hj
  have hpage : (UInt64.ofNat chunksPerPage).toNat = chunksPerPage := rfl
  rw [ChunkLeaf.expectedCount, tileLen]
  by_cases hfull : j < m.chunkCount / UInt64.ofNat chunksPerPage
  · rw [if_pos hfull, hpage]
    rw [UInt64.lt_iff_toNat_lt, UInt64.toNat_div, hpage] at hfull
    have hle := (Nat.le_div_iff_mul_le (by decide)).mp (Nat.succ_le_of_lt hfull)
    rw [Nat.succ_mul] at hle
    omega
  · -- the page begins behind the full ones and before the end, so a remainder is left
    rw [if_neg hfull]
    rw [UInt64.lt_iff_toNat_lt, UInt64.toNat_div, hpage, not_lt] at hfull
    have hrem : (m.chunkCount % UInt64.ofNat chunksPerPage).toNat =
        m.chunkCount.toNat - j.toNat * chunksPerPage := by
      rw [UInt64.toNat_mod, hpage]
      have hdiv := Nat.div_add_mod' m.chunkCount.toNat chunksPerPage
      have hle := Nat.mul_le_mul_right chunksPerPage hfull
      have hlt := Nat.mod_lt m.chunkCount.toNat (show chunksPerPage > 0 by decide)
      have heq : j.toNat = m.chunkCount.toNat / chunksPerPage :=
        le_antisymm ((Nat.le_div_iff_mul_le (by decide)).mpr hj.le) hfull
      rw [heq]
      omega
    have hlt := Nat.mod_lt m.chunkCount.toNat (show chunksPerPage > 0 by decide)
    rw [UInt64.toNat_mod, hpage] at hrem
    rw [toNat_max_u64, UInt64.toNat_mod, hpage, UInt64.toNat_one]
    omega

/-- Six chunks, the last with one byte. -/
def ChunkMap.sixChunks : ChunkMap := ⟨.fill 1, 5242881, 6, 1, .fill 2⟩

theorem ChunkMap.made_sixChunks : sixChunks.Made := by
  have h : ChunkMap.new (.fill 1) 5242881 (.fill 2) = .ok sixChunks := by decide
  exact .new h

/-- **Chunks tile the file and pages tile the chunks**: no chunk of a map is empty, all but the last
are full, and together they have the length of the file; the same holds for the pages and the number
of chunks.  No operation overflows. -/
theorem ChunkMap.chunks_and_pages_tile (m : ChunkMap) (hm : m.Made) :
    (∀ i < m.chunkCount, ∃ len, m.chunkLen i = .ok len ∧
      Checked.ChunkMap.chunkLen m i = .ok len ∧ 1 ≤ len.toNat ∧ len.toNat ≤ chunkSize.toNat ∧
      (i.toNat + 1 ≠ m.chunkCount.toNat → len.toNat = chunkSize.toNat)) ∧
    (∃ lens, (List.range m.chunkCount.toNat).mapM (fun i ↦ m.chunkLen (UInt64.ofNat i)) = .ok lens ∧
      (lens.map UInt64.toNat).sum = m.fileSize.toNat) ∧
    (∀ j < m.pageCount, 1 ≤ (ChunkLeaf.expectedCount m.chunkCount j).toNat ∧
      (ChunkLeaf.expectedCount m.chunkCount j).toNat ≤ chunksPerPage ∧
      (j.toNat + 1 ≠ m.pageCount.toNat →
        (ChunkLeaf.expectedCount m.chunkCount j).toNat = chunksPerPage)) ∧
    ((List.range m.pageCount.toNat).map fun j ↦
      (ChunkLeaf.expectedCount m.chunkCount (UInt64.ofNat j)).toNat).sum = m.chunkCount.toNat := by
  refine ⟨fun i hi ↦ ⟨_, hm.chunkLen_eq_ok hi, ?_, ?_, ?_, fun hlast ↦ ?_⟩,
    ⟨_, hm.mapM_chunkLen, ?_⟩, fun j hj ↦ ?_, ?_⟩
  · rw [hm.checked_chunkLen, hm.chunkLen_eq_ok hi]
    rfl
  · rw [UInt64.lt_iff_toNat_lt, hm.toNat_chunkCount] at hi
    rw [toNat_tileLen]
    exact tileLen_pos (by decide) hi
  · rw [toNat_tileLen]
    exact tileLen_le
  · rw [UInt64.lt_iff_toNat_lt] at hi
    rw [toNat_tileLen]
    exact tileLen_of_succ_lt (by decide) (hm.toNat_chunkCount ▸ by omega)
  · rw [List.map_map, hm.toNat_chunkCount]
    simp only [Function.comp_def, toNat_tileLen]
    exact sum_tileLen (by decide) _
  · rw [hm.toNat_expectedCount hj]
    rw [UInt64.lt_iff_toNat_lt] at hj
    exact ⟨tileLen_pos (by decide) (hm.toNat_pageCount ▸ hj), tileLen_le,
      fun hlast ↦ tileLen_of_succ_lt (by decide) (hm.toNat_pageCount ▸ by omega)⟩
  · have hcount := m.pageCount.toNat_lt
    have htile : ∀ j ∈ List.range m.pageCount.toNat,
        (ChunkLeaf.expectedCount m.chunkCount (UInt64.ofNat j)).toNat =
          tileLen chunksPerPage m.chunkCount.toNat j := by
      intro j hj
      rw [List.mem_range] at hj
      have hj' : (UInt64.ofNat j).toNat = j := toNat_ofNat_u64 (by omega)
      rw [hm.toNat_expectedCount (by rwa [UInt64.lt_iff_toNat_lt, hj']), hj']
    rw [List.map_congr_left htile, hm.toNat_pageCount]
    exact sum_tileLen (by decide) _

/-- Six chunks on one page. -/
theorem ChunkMap.chunks_and_pages_tile_six :
    sixChunks.Made ∧ sixChunks.chunkLen 5 = .ok 1 ∧
      ChunkLeaf.expectedCount sixChunks.chunkCount 0 = 6 ∧
      (∃ lens, (List.range 6).mapM (fun i ↦ sixChunks.chunkLen (UInt64.ofNat i)) = .ok lens ∧
        (lens.map UInt64.toNat).sum = 5242881) := by
  obtain ⟨-, hsum, -, -⟩ := chunks_and_pages_tile sixChunks made_sixChunks
  exact ⟨made_sixChunks, by decide, by decide, hsum⟩

/-! ## Ranges -/

/-- The places of a chunk in the file. -/
def ChunkMap.chunkBytes (m : ChunkMap) (i : UInt64) : Set ℕ :=
  {x | ∃ len, m.chunkLen i = .ok len ∧ i.toNat * chunkSize.toNat ≤ x ∧
    x < i.toNat * chunkSize.toNat + len.toNat}

/-- They are those of a tile, and there are none where there is no chunk. -/
theorem ChunkMap.Made.chunkBytes_eq {m : ChunkMap} (hm : m.Made) (i : UInt64) :
    m.chunkBytes i = tile chunkSize.toNat m.fileSize.toNat i.toNat := by
  ext x
  by_cases hi : i < m.chunkCount
  · simp only [chunkBytes, hm.chunkLen_eq_ok hi, Except.ok.injEq, Set.mem_ofPred_eq,
      exists_eq_left', toNat_tileLen]
    rfl
  · have hlen : ∀ len, m.chunkLen i ≠ .ok len := by
      intro len h
      rw [chunkLen, reject_bind_eq_ok, ge_iff_le, UInt64.not_le] at h
      exact hi h.1
    rw [hm.lt_chunkCount_iff, not_lt] at hi
    refine ⟨fun h ↦ ?_, fun h ↦ ?_⟩
    · obtain ⟨len, h, -⟩ := h
      exact absurd h (hlen len)
    · have hx := ((mem_tile (by decide)).mp h).1
      rw [tile, Set.mem_Ico] at h
      omega

theorem rangeChunks_eq_ok {offset length fileSize s e : UInt64} :
    rangeChunks offset length fileSize = .ok (s, e) ↔ length ≠ 0 ∧ offset < fileSize ∧
      s.toNat = offset.toNat / chunkSize.toNat ∧
      e.toNat = (min fileSize.toNat (offset.toNat + length.toNat) - 1) / chunkSize.toNat := by
  rw [rangeChunks, reject_bind_eq_ok, reject_bind_eq_ok, ge_iff_le, UInt64.not_le]
  refine and_congr_right fun hlength ↦ and_congr_right fun hoffset ↦ ?_
  have hend := Checked.toNat_rangeEnd length hoffset
  have hpos : 0 < length.toNat := Nat.pos_of_ne_zero fun h ↦ hlength (UInt64.toNat_inj.mp h)
  rw [UInt64.lt_iff_toNat_lt] at hoffset
  have hone : (1 : UInt64) ≤
      if length ≥ fileSize - offset then fileSize else offset + length := by
    rw [UInt64.le_iff_toNat_le, hend, UInt64.toNat_one]
    omega
  have hlast := UInt64.toNat_sub_of_le _ _ hone
  rw [hend, UInt64.toNat_one] at hlast
  dsimp only
  rw [← hlast, ← UInt32.toNat_toUInt64, ← UInt64.toNat_div, ← UInt64.toNat_div, UInt64.toNat_inj,
    UInt64.toNat_inj]
  simp only [pure, Except.pure, Except.ok.injEq, Prod.mk.injEq]
  exact and_congr eq_comm eq_comm

/-- **Range arithmetic selects exactly the chunks that meet the range**, and no operation
overflows, wherever the range ends. -/
theorem rangeChunks_selects (offset length fileSize : UInt64) :
    ((∃ r, rangeChunks offset length fileSize = .ok r) ↔ 0 < length ∧ offset < fileSize) ∧
    Checked.rangeChunks offset length fileSize =
      Machine.lift (rangeChunks offset length fileSize) ∧
    ∀ s e, rangeChunks offset length fileSize = .ok (s, e) →
      ∀ m : ChunkMap, m.Made → m.fileSize = fileSize → s ≤ e ∧ e < m.chunkCount ∧
        ∀ i, (m.chunkBytes i ∩ Set.Ico offset.toNat
          (min fileSize.toNat (offset.toNat + length.toNat))).Nonempty ↔ s ≤ i ∧ i ≤ e := by
  refine ⟨⟨fun h ↦ ?_, fun h ↦ ?_⟩, Checked.rangeChunks_eq _ _ _, fun s e h m hm hsize ↦ ?_⟩
  · obtain ⟨⟨s, e⟩, h⟩ := h
    obtain ⟨hlength, hoffset, -⟩ := rangeChunks_eq_ok.mp h
    exact ⟨UInt64.pos_iff_ne_zero.mpr hlength, hoffset⟩
  · obtain ⟨hlength, hoffset⟩ := h
    rw [rangeChunks, reject_of_not (UInt64.pos_iff_ne_zero.mp hlength), ok_bind,
      reject_of_not (UInt64.not_le.mpr hoffset), ok_bind]
    exact ⟨_, rfl⟩
  · subst hsize
    obtain ⟨hlength, hoffset, hs, he⟩ := rangeChunks_eq_ok.mp h
    have hpos : 0 < length.toNat := Nat.pos_of_ne_zero fun h ↦ hlength (UInt64.toNat_inj.mp h)
    rw [UInt64.lt_iff_toNat_lt] at hoffset
    refine ⟨?_, ?_, fun i ↦ ?_⟩
    · rw [UInt64.le_iff_toNat_le, hs, he]
      exact Nat.div_le_div_right (by omega)
    · rw [hm.lt_chunkCount_iff, he]
      have hle := Nat.div_mul_le_self
        (min m.fileSize.toNat (offset.toNat + length.toNat) - 1) chunkSize.toNat
      omega
    · rw [hm.chunkBytes_eq, tile_inter_nonempty (by decide) (by omega) (min_le_left _ _), ← hs,
        ← he, UInt64.le_iff_toNat_le, UInt64.le_iff_toNat_le]

/-- The bytes of the fourth chunk and the one after it. -/
theorem rangeChunks_selects_six :
    rangeChunks 3145728 1048577 5242881 = .ok (3, 4) ∧ (3 : UInt64) ≤ 4 ∧
      (4 : UInt64) < ChunkMap.sixChunks.chunkCount := by
  have h : rangeChunks 3145728 1048577 5242881 = .ok (3, 4) := by decide
  obtain ⟨-, -, hselect⟩ := rangeChunks_selects 3145728 1048577 5242881
  obtain ⟨hle, hlt, -⟩ := hselect 3 4 h ChunkMap.sixChunks ChunkMap.made_sixChunks rfl
  exact ⟨h, hle, hlt⟩

end Mst2
