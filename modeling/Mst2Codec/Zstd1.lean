import Mst2Codec.Basic

/-!
# Strict zstd frames

The model of `src/zstd1.rs`: one zstd frame, whose header is checked before the library sees it and
whose output must have exactly the length the frame header of the protocol announces.

The library itself is a parameter.  `ZstdLib` holds its one-shot compressor and its streaming
decoder, of which nothing is assumed but that a call stays within the slices it is given.  A build
of the crate has the library or it has not (`Features`).
-/

set_option autoImplicit false

namespace Mst2

open Bytes Except

/-- `MAX_WINDOW_LOG` -/
def maxWindowLog : ℕ := 23

/-- `MAX_RAW_PAYLOAD` -/
def maxRawPayload : ℕ := 1048576 + 76

/-- The magic of a zstd frame. -/
def zstdMagic : Bytes := [0x28, 0xB5, 0x2F, 0xFD]

/-! ## The library -/

/-- What one call of the streaming decoder does with the rest of the input and `room` bytes of
output. -/
structure DecoderStep (State : Type) (rest : Bytes) (room : ℕ) where
  /-- The hint: 0 at the end of a frame. -/
  hint : ℕ
  /-- The context after the call. -/
  state : State
  /-- How far the input has moved. -/
  consumed : ℕ
  /-- The bytes that were written. -/
  produced : Bytes
  /-- The input stays in its slice. -/
  consumed_le : consumed ≤ rest.length
  /-- The output stays in its slice. -/
  length_produced_le : produced.length ≤ room

/-- The crates `zstd` and `zstd-safe`. -/
structure ZstdLib where
  /-- `zstd::bulk::compress` -/
  compress : Bytes → ℤ → Option Bytes
  /-- `DCtx` -/
  DCtx : Type
  /-- `DCtx::create` -/
  create : DCtx
  /-- `set_parameter(WindowLogMax(_))` -/
  setWindowLogMax : DCtx → ℕ → Option DCtx
  /-- `decompress_stream` -/
  decompressStream (ctx : DCtx) (rest : Bytes) (room : ℕ) : Option (DecoderStep DCtx rest room)

/-- The features of a build. -/
class Features where
  /-- The library, in a build with the feature `zstd`. -/
  zstd : Option ZstdLib

/-- `compress` -/
def ZstdLib.compressFrame (z : ZstdLib) (payload : Bytes) (level : ℤ) : CodecResult Bytes :=
  okOr (z.compress payload (max 1 (min level 19))) (.unsupported "zstd compression failed")

/-! ## The frame header -/

/-- The window size of a window byte. -/
def windowBytes (window : UInt8) : UInt64 :=
  let exponent : UInt8 := window >>> 3
  let shift : UInt8 := exponent + 10
  let base := (1 : UInt64) <<< shift.toUInt64
  base + (base >>> 3) * (window &&& 7).toUInt64

/-- The length of the dictionary ID. -/
def dictionaryLen (descriptor : UInt8) : ℕ :=
  if descriptor &&& 3 = 0 then 0
  else if descriptor &&& 3 = 1 then 1
  else if descriptor &&& 3 = 2 then 2
  else 4

/-- The length of the content size. -/
def contentSizeLen (descriptor : UInt8) (singleSegment : Bool) : ℕ :=
  if descriptor >>> 6 = 0 then if singleSegment then 1 else 0
  else if descriptor >>> 6 = 1 then 2
  else if descriptor >>> 6 = 2 then 4
  else 8

/-- The content size, little-endian, as it stands. -/
def contentSize (bytes : Bytes) : UInt64 :=
  bytes.zipIdx.foldl (fun size (byte, i) ↦ size ||| (byte.toUInt64 <<< UInt64.ofNat (8 * i))) 0

/-- `validate_frame_header` -/
def validateFrameHeader (wire : Bytes) (rawLen : ℕ) : CodecResult Unit := do
  let descriptor ← okOr wire[4]? (.truncated "zstd header")
  reject (descriptor &&& 0x08 ≠ 0) (.badConstant "zstd reserved header bit")
  let singleSegment : Bool := descriptor &&& 0x20 ≠ 0
  let offset ←
    if singleSegment then pure 5
    else do
      let window ← okOr wire[5]? (.truncated "zstd window")
      reject (windowBytes window > (1 : UInt64) <<< UInt64.ofNat maxWindowLog)
        (.badLength "zstd window exceeds 8MiB")
      pure 6
  let dictionary ← okOr (slice? wire offset (dictionaryLen descriptor))
    (.truncated "zstd dictionary ID")
  reject (dictionary.any (· ≠ 0)) (.unsupported "external zstd dictionary")
  let offset := offset + dictionaryLen descriptor
  let len := contentSizeLen descriptor singleSegment
  if len ≠ 0 then
    let bytes ← okOr (slice? wire offset len) (.truncated "zstd content size")
    let size := if len = 2 then contentSize bytes + 256 else contentSize bytes
    reject (singleSegment ∧ size > (1 : UInt64) <<< UInt64.ofNat maxWindowLog)
      (.badLength "zstd window exceeds 8MiB")
    reject (size ≠ UInt64.ofNat rawLen) (.badLength "zstd content size differs from raw_len")

/-! ## Decompression -/

/-- The loop of `decompress_strict`: the decoder is called until it signals the end of the frame,
and every call before that moves the input or the output. -/
def ZstdLib.decompressLoop (z : ZstdLib) (rawLen : ℕ) (ctx : z.DCtx) (rest out : Bytes) :
    CodecResult (Bytes × Bytes) :=
  match z.decompressStream ctx rest (rawLen - out.length) with
  | none => .error (.digestMismatch "zstd decompression failed")
  | some step =>
    if step.hint = 0 then .ok (rest.drop step.consumed, out ++ step.produced)
    else if _h : step.consumed = 0 ∧ step.produced = [] then .error (.truncated "zstd frame")
    else if (out ++ step.produced).length = rawLen then
      .error (.badLength "zstd output exceeds header raw_len")
    else z.decompressLoop rawLen step.state (rest.drop step.consumed) (out ++ step.produced)
termination_by rest.length + (rawLen - out.length)
decreasing_by
  have hin := step.consumed_le
  have hout := step.length_produced_le
  rw [← List.length_eq_zero_iff] at _h
  rw [List.length_drop, List.length_append]
  omega

/-- `decompress_strict` -/
def ZstdLib.decompressStrict (z : ZstdLib) (wire : Bytes) (rawLen : ℕ) : CodecResult Bytes := do
  reject (rawLen > maxRawPayload) (.badLength "zstd raw_len exceeds the spec 14 payload limit")
  reject (wire.length < 4 ∨ wire.take 4 ≠ zstdMagic)
    (.badConstant "zstd payload is not one standard frame")
  validateFrameHeader wire rawLen
  let ctx ← okOr (z.setWindowLogMax z.create maxWindowLog)
    (.unsupported "zstd window larger than 8MiB")
  let (rest, out) ← z.decompressLoop rawLen ctx wire []
  reject (out.length ≠ rawLen) (.badLength "zstd output shorter than header raw_len")
  reject (rest ≠ []) (.badOrdering "trailing bytes/second frame after the single zstd frame")
  pure out

end Mst2
