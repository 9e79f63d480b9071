import Mst2Codec.Checked.Readers
import Mst2Codec.Zstd1

/-!
# Checked decompression

`validate_frame_header` and `decompress_strict` of `src/zstd1.rs`, operation by operation.  The loop
of `decompress_strict` has no operation of its own that could panic, so it is the one of `Zstd1`.
-/

set_option autoImplicit false

namespace Mst2

namespace Checked

open Bytes Machine

/-- The window size of a window byte. -/
def windowBytes (window : UInt8) : Run UInt64 := do
  let amount ← add 8 10 (window >>> 3).toNat
  let base ← shl 64 1 amount
  let fraction ← mul 64 (base >>> 3) (window &&& 7).toNat
  let bytes ← add 64 base fraction
  pure (UInt64.ofNat bytes)

/-- The offset behind the window. -/
def windowOffset (wire : Bytes) (singleSegment : Bool) : Run ℕ :=
  if singleSegment then pure 5
  else do
    let window ← okOr wire[5]? (.truncated "zstd window")
    let offset ← add 64 5 1
    let bytes ← windowBytes window
    let limit ← shl 64 1 maxWindowLog
    reject (bytes > UInt64.ofNat limit) (.badLength "zstd window exceeds 8MiB")
    pure offset

/-- The little-endian bytes of the content size. -/
def contentSize (bytes : Bytes) : Run UInt64 :=
  bytes.zipIdx.foldlM (fun size (byte, i) ↦ do
    let amount ← mul 64 8 i
    let part ← shl 64 byte.toNat amount
    pure (size ||| UInt64.ofNat part)) 0

/-- The content size behind the dictionary ID. -/
def checkContentSize (wire : Bytes) (rawLen : ℕ) (singleSegment : Bool) (offset len : ℕ) :
    Run Unit :=
  if len ≠ 0 then do
    let hi ← add 64 offset len
    let bytes ← okOr (getRange wire offset hi) (.truncated "zstd content size")
    let size ← contentSize bytes
    let size ← (if len = 2 then add 64 size.toNat 256 else pure size.toNat)
    let limit ← shl 64 1 maxWindowLog
    reject (singleSegment ∧ UInt64.ofNat size > UInt64.ofNat limit)
      (.badLength "zstd window exceeds 8MiB")
    reject (UInt64.ofNat size ≠ UInt64.ofNat rawLen)
      (.badLength "zstd content size differs from raw_len")
  else pure ()

/-- `validate_frame_header` -/
def validateFrameHeader (wire : Bytes) (rawLen : ℕ) : Run Unit := do
  let descriptor ← okOr wire[4]? (.truncated "zstd header")
  reject (descriptor &&& 0x08 ≠ 0) (.badConstant "zstd reserved header bit")
  let singleSegment : Bool := descriptor &&& 0x20 ≠ 0
  let offset ← windowOffset wire singleSegment
  let hi ← add 64 offset (dictionaryLen descriptor)
  let dictionary ← okOr (getRange wire offset hi) (.truncated "zstd dictionary ID")
  reject (dictionary.any (· ≠ 0)) (.unsupported "external zstd dictionary")
  let offset ← add 64 offset (dictionaryLen descriptor)
  checkContentSize wire rawLen singleSegment offset (contentSizeLen descriptor singleSegment)

/-- `wire.len() < 4 || wire[0..4] != [0x28, 0xB5, 0x2F, 0xFD]` -/
def isNoFrame (wire : Bytes) : Run Bool :=
  if wire.length < 4 then pure true
  else do
    let magic ← range wire 0 4
    pure (magic ≠ zstdMagic)

/-- `decompress_strict` -/
def decompressStrict (z : ZstdLib) (wire : Bytes) (rawLen : ℕ) : Run Bytes := do
  reject (rawLen > maxRawPayload) (.badLength "zstd raw_len exceeds the spec 14 payload limit")
  let noFrame ← isNoFrame wire
  reject (noFrame = true) (.badConstant "zstd payload is not one standard frame")
  validateFrameHeader wire rawLen
  let ctx ← okOr (z.setWindowLogMax z.create maxWindowLog)
    (.unsupported "zstd window larger than 8MiB")
  let (rest, out) ← lift (z.decompressLoop rawLen ctx wire [])
  reject (out.length ≠ rawLen) (.badLength "zstd output shorter than header raw_len")
  reject (rest ≠ []) (.badOrdering "trailing bytes/second frame after the single zstd frame")
  pure out

theorem windowBytes_eq (window : UInt8) :
    windowBytes window = .ok (Mst2.windowBytes window) := by
  have h : ∀ n < 256, windowBytes (UInt8.ofNat n) = .ok (Mst2.windowBytes (UInt8.ofNat n)) := by
    decide +kernel
  have := h window.toNat window.toNat_lt
  rwa [UInt8.ofNat_toNat] at this

theorem windowOffset_sim (wire : Bytes) (singleSegment : Bool) {S : Unit → Unit → Prop}
    {F : ℕ → Run Unit} {f : ℕ → CodecResult Unit} (hF : ∀ offset ≤ 6, Sim S (F offset) (f offset)) :
    Sim S (windowOffset wire singleSegment >>= F)
      (if singleSegment then f 5 else do
        let window ← Except.okOr wire[5]? (.truncated "zstd window")
        Except.reject (Mst2.windowBytes window > (1 : UInt64) <<< UInt64.ofNat maxWindowLog)
          (.badLength "zstd window exceeds 8MiB")
        f 6) := by
  rw [windowOffset]
  split
  · exact hF 5 (by omega)
  · rw [bind_assoc]
    refine .okOr fun window _ ↦ ?_
    rw [bind_assoc]
    refine .add (by omega) ?_
    rw [windowBytes_eq, Except.ok_bind, bind_assoc]
    refine .shl (by rw [maxWindowLog]; omega) ?_
    rw [bind_assoc]
    exact .reject fun _ ↦ hF 6 le_rfl

theorem shl_byte (byte : UInt8) {i : ℕ} (h : i < 8) :
    UInt64.ofNat (byte.toNat * 2 ^ (8 * i) % 2 ^ 64) =
      byte.toUInt64 <<< UInt64.ofNat (8 * i) := by
  have hi : (UInt64.ofNat (8 * i)).toNat % 64 = 8 * i := by
    rw [UInt64.toNat_ofNat']
    omega
  rw [← UInt64.toNat_inj, UInt64.toNat_ofNat', UInt64.toNat_shiftLeft, hi, Nat.mod_mod,
    Nat.shiftLeft_eq, UInt8.toNat_toUInt64]

theorem contentSize_eq {bytes : Bytes} (h : bytes.length ≤ 8) :
    contentSize bytes = .ok (Mst2.contentSize bytes) := by
  suffices H : ∀ (k : ℕ) (size : UInt64), k + bytes.length ≤ 8 →
      (bytes.zipIdx k).foldlM (fun size (byte, i) ↦ do
        let amount ← mul 64 8 i
        let part ← shl 64 byte.toNat amount
        pure (size ||| UInt64.ofNat part)) size =
      (.ok ((bytes.zipIdx k).foldl (fun size (byte, i) ↦
        size ||| (byte.toUInt64 <<< UInt64.ofNat (8 * i))) size) : Run UInt64) from
    H 0 0 (by omega)
  intro k size hk
  clear h
  induction bytes generalizing k size with
  | nil => rfl
  | cons byte bytes ih =>
    rw [List.length_cons] at hk
    rw [List.zipIdx_cons, List.foldlM_cons, List.foldl_cons]
    dsimp only
    rw [mul, if_pos (by omega), Except.ok_bind, shl, if_pos (by omega), Except.ok_bind, pure_bind,
      shl_byte byte (by omega)]
    exact ih (k + 1) _ (by omega)

/-- A content size of two bytes is below `2 ^ 16`, so 256 can be added. -/
theorem contentSize_lt (bytes : Bytes) (h : bytes.length = 2) :
    (Mst2.contentSize bytes).toNat < 2 ^ 16 := by
  obtain ⟨a, b, rfl⟩ := List.length_eq_two.mp h
  have ha := a.toNat_lt
  have hb := b.toNat_lt
  show (0 ||| a.toUInt64 <<< UInt64.ofNat (8 * 0) ||| b.toUInt64 <<< UInt64.ofNat (8 * 1)).toNat < _
  rw [← shl_byte a (by omega), ← shl_byte b (by omega), UInt64.toNat_or, UInt64.toNat_or]
  refine Nat.or_lt_two_pow (Nat.or_lt_two_pow (by decide) ?_) ?_
  · rw [UInt64.toNat_ofNat']
    omega
  · rw [UInt64.toNat_ofNat']
    omega

theorem contentSizeLen_le (descriptor : UInt8) (singleSegment : Bool) :
    contentSizeLen descriptor singleSegment ≤ 8 := by
  rw [contentSizeLen]
  grind

theorem dictionaryLen_le (descriptor : UInt8) : dictionaryLen descriptor ≤ 4 := by
  rw [dictionaryLen]
  grind

theorem checkContentSize_sim (wire : Bytes) (rawLen : ℕ) (singleSegment : Bool) {offset len : ℕ}
    (hoffset : offset ≤ 10) (hlen : len ≤ 8) :
    Sim Eq (checkContentSize wire rawLen singleSegment offset len)
      (if len ≠ 0 then do
        let bytes ← Except.okOr (slice? wire offset len) (.truncated "zstd content size")
        let size := if len = 2 then Mst2.contentSize bytes + 256 else Mst2.contentSize bytes
        Except.reject (singleSegment ∧ size > (1 : UInt64) <<< UInt64.ofNat maxWindowLog)
          (.badLength "zstd window exceeds 8MiB")
        Except.reject (size ≠ UInt64.ofNat rawLen)
          (.badLength "zstd content size differs from raw_len")
      else pure ()) := by
  rw [checkContentSize]
  split
  · refine .add (by omega) ?_
    rw [getRange_eq_slice?]
    refine .okOr fun bytes hbytes ↦ ?_
    have hbytes := length_of_slice? hbytes
    rw [contentSize_eq (by omega), Except.ok_bind]
    dsimp only
    split
    · have hsize := contentSize_lt bytes (by omega)
      refine .add (by omega) (.shl (by rw [maxWindowLog]; omega) ?_)
      rw [UInt64.ofNat_add, UInt64.ofNat_toNat]
      exact .reject fun _ ↦ sim_lift _
    · rw [pure_bind]
      refine .shl (by rw [maxWindowLog]; omega) ?_
      rw [UInt64.ofNat_toNat]
      exact .reject fun _ ↦ sim_lift _
  · exact .ok rfl

theorem validateFrameHeader_eq (wire : Bytes) (rawLen : ℕ) :
    validateFrameHeader wire rawLen = lift (Mst2.validateFrameHeader wire rawLen) := by
  rw [← sim_eq_iff, validateFrameHeader, Mst2.validateFrameHeader]
  refine .okOr fun descriptor _ ↦ .reject fun _ ↦ ?_
  extract_lets singleSegment len tail
  refine windowOffset_sim wire singleSegment (f := tail) fun offset hoffset ↦ ?_
  have hdictionary := dictionaryLen_le descriptor
  refine .add (by omega) ?_
  rw [getRange_eq_slice?]
  exact .okOr fun dictionary _ ↦ .reject fun _ ↦ .add (by omega)
    (checkContentSize_sim wire rawLen singleSegment (by omega) (contentSizeLen_le _ _))

theorem isNoFrame_eq (wire : Bytes) :
    isNoFrame wire = .ok (decide (wire.length < 4 ∨ wire.take 4 ≠ zstdMagic)) := by
  rw [isNoFrame]
  split
  · rename_i h
    rw [decide_eq_true (Or.inl h)]
    rfl
  · rename_i h
    rw [range, getRange_eq_some (by omega) (by omega), List.drop_zero]
    show Except.ok _ = _
    congr 1
    exact decide_eq_decide.mpr (or_iff_right h).symm

theorem decompressStrict_eq (z : ZstdLib) (wire : Bytes) (rawLen : ℕ) :
    decompressStrict z wire rawLen = lift (z.decompressStrict wire rawLen) := by
  rw [← sim_eq_iff, decompressStrict, ZstdLib.decompressStrict]
  refine .reject fun _ ↦ ?_
  rw [isNoFrame_eq, Except.ok_bind]
  simp only [decide_eq_true_eq]
  refine .reject fun _ ↦ ?_
  rw [validateFrameHeader_eq]
  exact .lift fun _ _ ↦ .okOr fun ctx _ ↦ .liftPair fun rest out _ ↦ .reject fun _ ↦
    .reject fun _ ↦ .ok rfl

end Checked

end Mst2
