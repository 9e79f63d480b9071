import Mst2Codec.MetaPage
import Mst2Codec.TreeFrame.ErrorJson
import Mst2Codec.Zstd1

/-!
# Frames and streams

The model of `src/treeframe.rs`.  A frame is a 64-byte header and a payload; the payload of a META
frame is a list of pages, of an OBJECT frame a table and a data area, of a CHUNK frame one chunk, of
an END frame a summary, and of an ERROR frame a JSON text.  A stream is a sequence of frames that
ends with END or ERROR.

`parseStream` walks the buffer by offset; `streamLoop` carries the bytes from that offset on.  Its
sequence counter is a natural number: a frame has at least 64 bytes, so the `u64` of the source
cannot overflow within a slice.
-/

set_option autoImplicit false

namespace Mst2

open Bytes Except

namespace TreeFrame

/-- `VERSION` -/
def version : UInt16 := 2

/-- `HEADER_LEN` -/
def headerLen : ℕ := 64

/-- The magic of a frame. -/
def magic : Bytes := "MST2".asBytes

/-- `KIND_META` -/
def kindMeta : UInt8 := 1

/-- `KIND_OBJECT` -/
def kindObject : UInt8 := 2

/-- `KIND_CHUNK` -/
def kindChunk : UInt8 := 3

/-- `KIND_END` -/
def kindEnd : UInt8 := 254

/-- `KIND_ERROR` -/
def kindError : UInt8 := 255

/-- `FLAG_ZSTD` -/
def flagZstd : UInt8 := 0b00000001

/-- `META_MAX_PAGES` -/
def metaMaxPages : ℕ := 64

/-- `META_MAX_RAW` -/
def metaMaxRaw : ℕ := 1048576

/-- `OBJECT_MAX_COUNT` -/
def objectMaxCount : ℕ := 128

/-- `OBJECT_MAX_LEN` -/
def objectMaxLen : ℕ := 262144

/-- `OBJECT_MAX_RAW` -/
def objectMaxRaw : ℕ := 1048576

/-- `CHUNK_MAX_LEN` -/
def chunkMaxLen : ℕ := 1048576

/-- `ERROR_MAX_BYTES` -/
def errorMaxBytes : ℕ := 4096

/-- `DATA_MAX_WIRE` -/
def dataMaxWire : ℕ := 2097152

/-- The 32 bytes at `off`, where the source has checked that they are there. -/
def digestAt (buf : Bytes) (off : ℕ) : Digest :=
  ((slice? buf off 32).bind Digest.ofBytes?).getD .zero

theorem digestAt_of_slice? {buf : Bytes} {off : ℕ} {d : Digest}
    (h : slice? buf off 32 = some d.bytes) : digestAt buf off = d := by
  rw [digestAt, h, Option.bind_some, Digest.ofBytes?_bytes, Option.getD_some]

theorem slice?_digestAt {buf : Bytes} {off : ℕ} (h : off + 32 ≤ buf.length) :
    slice? buf off 32 = some (digestAt buf off).bytes := by
  have hs : slice? buf off 32 = some ((buf.drop off).take 32) := by rw [slice?, if_pos h]
  have hd : Digest.mk _ (length_of_slice? hs) = digestAt buf off := (digestAt_of_slice? hs).symm
  rw [hs, ← hd]

theorem getElem?_getD_of_lt {buf : Bytes} {i : ℕ} (h : i < buf.length) :
    buf[i]? = some (buf.getD i 0) := by
  rw [List.getD_eq_getElem?_getD, List.getElem?_eq_getElem h, Option.getD_some]

/-- `a.checked_add(b)` on `u32`. -/
def checkedAddU32 (a b : UInt32) (what : String) : CodecResult UInt32 :=
  if a.toNat + b.toNat < 2 ^ 32 then .ok (a + b) else .error (.overflow what)

/-! ## Headers -/

/-- `header` -/
def header (kind flags : UInt8) (wireLen rawLen streamId : UInt32) (sequence : UInt64)
    (payloadSha256 : Digest) : Bytes :=
  magic ++ writeU16 version ++ [kind] ++ [flags] ++ writeU32 (UInt32.ofNat headerLen) ++
    writeU32 wireLen ++ writeU32 rawLen ++ writeU32 streamId ++ writeU64 sequence ++
    payloadSha256.bytes

/-- A parsed frame header. -/
@[ext] structure FrameHeader where
  /-- The kind. -/
  kind : UInt8
  /-- The flags. -/
  flags : UInt8
  /-- The length of the payload on the wire. -/
  wireLen : UInt32
  /-- The length of the raw payload. -/
  rawLen : UInt32
  /-- The stream. -/
  streamId : UInt32
  /-- The position in the stream. -/
  sequence : UInt64
  /-- The digest of the raw payload. -/
  payloadSha256 : Digest

/-- The bytes of a header. -/
def FrameHeader.bytes (h : FrameHeader) : Bytes :=
  header h.kind h.flags h.wireLen h.rawLen h.streamId h.sequence h.payloadSha256

@[simp] theorem FrameHeader.length_bytes (h : FrameHeader) : h.bytes.length = headerLen := by
  simp [bytes, header, headerLen, show magic.length = 4 from rfl]

/-- The fields of a header in their places. -/
theorem slice?_header {buf : Bytes} {h : FrameHeader} :
    slice? buf 0 headerLen = some h.bytes ↔
      slice? buf 0 4 = some magic ∧ readU16 buf 4 = .ok version ∧ buf[6]? = some h.kind ∧
      buf[7]? = some h.flags ∧ readU32 buf 8 = .ok (UInt32.ofNat headerLen) ∧
      readU32 buf 12 = .ok h.wireLen ∧ readU32 buf 16 = .ok h.rawLen ∧
      readU32 buf 20 = .ok h.streamId ∧ readU64 buf 24 = .ok h.sequence ∧
      slice? buf 32 32 = some h.payloadSha256.bytes := by
  rw [FrameHeader.bytes, header, headerLen, slice?_append_eq_some (n := 32) (m := 32) (by rfl),
    slice?_append_eq_some (n := 24) (m := 8) (by rfl),
    slice?_append_eq_some (n := 20) (m := 4) (by rfl),
    slice?_append_eq_some (n := 16) (m := 4) (by rfl),
    slice?_append_eq_some (n := 12) (m := 4) (by rfl),
    slice?_append_eq_some (n := 8) (m := 4) (by rfl),
    slice?_append_eq_some (n := 7) (m := 1) (by rfl),
    slice?_append_eq_some (n := 6) (m := 1) (by rfl),
    slice?_append_eq_some (n := 4) (m := 2) (by rfl), slice?_singleton, slice?_singleton]
  simp only [readU16_eq_ok, readU32_eq_ok, readU64_eq_ok, Nat.zero_add, and_assoc]

/-- A header is determined by its bytes. -/
theorem FrameHeader.bytes_injective : Function.Injective FrameHeader.bytes := by
  intro h h' heq
  have hslice : slice? h.bytes 0 headerLen = some h.bytes :=
    (slice?_length_eq_some h.length_bytes).mpr rfl
  obtain ⟨-, -, hkind, hflags, -, hwire, hraw, hstream, hseq, hsha⟩ := slice?_header.mp hslice
  obtain ⟨-, -, hkind', hflags', -, hwire', hraw', hstream', hseq', hsha'⟩ :=
    slice?_header.mp (hslice.trans (congrArg some heq))
  exact FrameHeader.ext (Option.some.inj (hkind.symm.trans hkind'))
    (Option.some.inj (hflags.symm.trans hflags')) (Except.ok.inj (hwire.symm.trans hwire'))
    (Except.ok.inj (hraw.symm.trans hraw')) (Except.ok.inj (hstream.symm.trans hstream'))
    (Except.ok.inj (hseq.symm.trans hseq'))
    (Digest.ext (Option.some.inj (hsha.symm.trans hsha')))

/-- `frame_bytes` -/
def frameBytes [Sha256] (kind : UInt8) (payload : Bytes) (streamId : UInt32) (sequence : UInt64) :
    Bytes :=
  header kind 0 (UInt32.ofNat payload.length) (UInt32.ofNat payload.length) streamId sequence
    (sha256 payload) ++ payload

end TreeFrame

open TreeFrame

/-! ## Payloads -/

/-- The payload of a META frame. -/
@[ext] structure MetaPayload where
  /-- Page identities with the bytes of the pages. -/
  pages : List (Digest × Bytes)
deriving DecidableEq

namespace MetaPayload

section

variable [Sha256]

/-- The loop of `encode`. -/
def encodePages : List (Digest × Bytes) → CodecResult Bytes
  | [] => pure []
  | (pid, page) :: pages => do
    reject (pageId page ≠ pid) (.digestMismatch "META page_id")
    let rest ← encodePages pages
    pure (pid.bytes ++ writeU32 (UInt32.ofNat page.length) ++ page ++ rest)

/-- `MetaPayload::encode` -/
def encode (p : MetaPayload) (streamId : UInt32) (sequence : UInt64) : CodecResult Bytes := do
  reject (p.pages = [] ∨ p.pages.length > metaMaxPages) (.badLength "META count must be 1..64")
  let pages ← encodePages p.pages
  let payload := writeU16 (UInt16.ofNat p.pages.length) ++ writeU16 0 ++ pages
  reject (payload.length > metaMaxRaw) (.badLength "META raw payload over 1MiB")
  pure (frameBytes kindMeta payload streamId sequence)

/-- The loop of `decode_meta`: the next `n` pages, whose identities are not among `seen`. -/
def decodePages (payload : Bytes) :
    ℕ → ℕ → List Digest → CodecResult (List (Digest × Bytes) × ℕ)
  | 0, off, _ => pure ([], off)
  | n + 1, off, seen => do
    let pid ← readDigestAt "page_id" payload off
    let off := off + 32
    let pageLen ← readU32 payload off
    let off := off + 4
    reject (pageLen.toNat > pageMaxBytes) (.badLength "META page over 16KiB")
    let page ← okOr (slice? payload off pageLen.toNat) (.truncated "META page bytes")
    let off := off + pageLen.toNat
    reject (pageId page ≠ pid) (.digestMismatch "META page_id")
    reject (pid ∈ seen) (.duplicate "META page_id")
    let (pages, off) ← decodePages payload n off (pid :: seen)
    pure ((pid, page) :: pages, off)

/-- `decode_meta` -/
def decode (payload : Bytes) : CodecResult MetaPayload := do
  reject (payload.length > metaMaxRaw) (.badLength "META raw payload over 1MiB")
  reject (payload.length < 4) (.truncated "META header")
  let count ← readU16 payload 0
  reject (¬ (1 ≤ count.toNat ∧ count.toNat ≤ metaMaxPages)) (.badLength "META count must be 1..64")
  let reserved ← readU16 payload 2
  reject (reserved ≠ 0) (.badConstant "META reserved")
  let (pages, off) ← decodePages payload count.toNat 4 []
  reject (off ≠ payload.length) (.badLength "trailing bytes in META payload")
  pure ⟨pages⟩

end

end MetaPayload

/-- The payload of an OBJECT frame. -/
@[ext] structure ObjectPayload where
  /-- Content identities with the bytes of the objects, in table order. -/
  objects : List (Digest × Bytes)
deriving DecidableEq

namespace ObjectPayload

section

variable [Sha256]

/-- The first loop of `encode`: the table. -/
def encodeTable : UInt32 → List (Digest × Bytes) → CodecResult Bytes
  | _, [] => pure []
  | off, (cid, data) :: objects => do
    reject (sha256 data ≠ cid) (.digestMismatch "object content")
    reject (data.length > objectMaxLen) (.badLength "object over 256KiB")
    let next ← checkedAddU32 off (UInt32.ofNat data.length) "offset"
    let rest ← encodeTable next objects
    pure (cid.bytes ++ writeU32 (UInt32.ofNat data.length) ++ writeU32 off ++ rest)

/-- The second loop of `encode`: the data area. -/
def dataArea (objects : List (Digest × Bytes)) : Bytes := objects.flatMap Prod.snd

/-- `ObjectPayload::encode` -/
def encode (p : ObjectPayload) (streamId : UInt32) (sequence : UInt64) : CodecResult Bytes := do
  reject (p.objects = [] ∨ p.objects.length > objectMaxCount)
    (.badLength "OBJECT count must be 1..128")
  let table ← encodeTable 0 p.objects
  let payload := writeU16 (UInt16.ofNat p.objects.length) ++ writeU16 0 ++ table ++
    dataArea p.objects
  reject (payload.length > objectMaxRaw) (.badLength "OBJECT raw payload over 1MiB")
  pure (frameBytes kindObject payload streamId sequence)

/-- The loop of `decode_object`: `n` rows from row `i` on, whose data starts at `expectOff`. -/
def decodeObjects (payload data : Bytes) :
    ℕ → ℕ → UInt32 → List Digest → CodecResult (List (Digest × Bytes) × UInt32)
  | 0, _, expectOff, _ => pure ([], expectOff)
  | n + 1, i, expectOff, seen => do
    let t := (payload.drop (4 + i * 40)).take 40
    let cid := digestAt t 0
    let objectLen ← readU32 t 32
    let dataOffset ← readU32 t 36
    reject (objectLen.toNat > objectMaxLen) (.badLength "object over 256KiB")
    reject (dataOffset ≠ expectOff)
      (.badOrdering "OBJECT offsets must concatenate exactly (no holes or overlaps)")
    let expectOff ← checkedAddU32 expectOff objectLen "data end"
    reject (cid ∈ seen) (.duplicate "content_id")
    let bytes ← okOr (slice? data dataOffset.toNat objectLen.toNat) (.truncated "object data")
    reject (sha256 bytes ≠ cid) (.digestMismatch "object content")
    let (objects, expectOff) ← decodeObjects payload data n (i + 1) expectOff (cid :: seen)
    pure ((cid, bytes) :: objects, expectOff)

/-- `decode_object` -/
def decode (payload : Bytes) : CodecResult ObjectPayload := do
  reject (payload.length > objectMaxRaw) (.badLength "OBJECT raw payload over 1MiB")
  reject (payload.length < 4) (.truncated "OBJECT header")
  let count ← readU16 payload 0
  reject (¬ (1 ≤ count.toNat ∧ count.toNat ≤ objectMaxCount))
    (.badLength "OBJECT count must be 1..128")
  let reserved ← readU16 payload 2
  reject (reserved ≠ 0) (.badConstant "OBJECT reserved")
  let tableLen := count.toNat * 40
  reject (payload.length < 4 + tableLen) (.truncated "OBJECT data area")
  let data := payload.drop (4 + tableLen)
  let (objects, expectOff) ← decodeObjects payload data count.toNat 0 0 []
  reject (data.length ≠ expectOff.toNat) (.badLength "OBJECT data area length mismatch")
  pure ⟨objects⟩

end

end ObjectPayload

/-- The payload of a CHUNK frame. -/
@[ext] structure ChunkPayload where
  /-- The chunk map. -/
  mapId : Digest
  /-- The file. -/
  fileContentId : Digest
  /-- The position of the chunk. -/
  chunkIndex : UInt64
  /-- The bytes of the chunk. -/
  chunkBytes : Bytes
deriving DecidableEq

namespace ChunkPayload

/-- The payload that `encode` writes. -/
def rawPayload (p : ChunkPayload) : Bytes :=
  p.mapId.bytes ++ p.fileContentId.bytes ++ writeU64 p.chunkIndex ++
    writeU32 (UInt32.ofNat p.chunkBytes.length) ++ p.chunkBytes

/-- `ChunkPayload::encode` -/
def encode [Sha256] (p : ChunkPayload) (streamId : UInt32) (sequence : UInt64) :
    CodecResult Bytes := do
  reject (p.chunkBytes.length > chunkMaxLen) (.badLength "chunk over 1MiB")
  pure (frameBytes kindChunk p.rawPayload streamId sequence)

/-- `decode_chunk` -/
def decode (payload : Bytes) (rawLen : UInt32) : CodecResult ChunkPayload := do
  reject (payload.length < 76) (.truncated "CHUNK header")
  reject (rawLen.toNat ≠ payload.length) (.badLength "CHUNK raw_len mismatch")
  let chunkLen ← readU32 payload 72
  reject (chunkLen.toNat ≠ payload.length - 76) (.badLength "CHUNK chunk_len mismatch")
  reject (chunkLen.toNat > chunkMaxLen) (.badLength "chunk over 1MiB")
  let chunkIndex ← readU64 payload 64
  pure ⟨digestAt payload 0, digestAt payload 32, chunkIndex, payload.drop 76⟩

end ChunkPayload

/-- The payload of an END frame. -/
@[ext] structure EndPayload where
  /-- The number of items of the request. -/
  requestItemCount : UInt32
  /-- The number of different units that were sent. -/
  uniqueUnitCount : UInt32
  /-- The number of bytes that were asked for. -/
  logicalBytes : UInt64
  /-- The digest of the request. -/
  requestBodySha256 : Digest
deriving DecidableEq

namespace EndPayload

/-- The payload that `encode` writes. -/
def rawPayload (p : EndPayload) : Bytes :=
  writeU32 p.requestItemCount ++ writeU32 p.uniqueUnitCount ++ writeU64 p.logicalBytes ++
    p.requestBodySha256.bytes

/-- `EndPayload::encode` -/
def encode [Sha256] (p : EndPayload) (streamId : UInt32) (sequence : UInt64) : Bytes :=
  frameBytes kindEnd p.rawPayload streamId sequence

/-- `decode_end` -/
def decode (payload : Bytes) : CodecResult EndPayload := do
  reject (payload.length ≠ 48) (.badLength "END payload must be exactly 48 bytes")
  let requestItemCount ← readU32 payload 0
  let uniqueUnitCount ← readU32 payload 4
  let logicalBytes ← readU64 payload 8
  pure ⟨requestItemCount, uniqueUnitCount, logicalBytes, digestAt payload 16⟩

end EndPayload

namespace ErrorPayload

/-- `ErrorPayload::encode` -/
def encode [Sha256] (p : ErrorPayload) (streamId : UInt32) (sequence : UInt64) :
    CodecResult Bytes := do
  reject (p.json.asBytes.length > errorMaxBytes) (.badLength "ERROR payload over 4096 bytes")
  pure (frameBytes kindError p.json.asBytes streamId sequence)

/-- `decode_error` -/
def decode (payload : Bytes) : CodecResult ErrorPayload := do
  reject (payload.length > errorMaxBytes) (.badLength "ERROR payload over 4096 bytes")
  let s ← okOr (String.ofUtf8 payload) (.badConstant "ERROR not UTF-8")
  parseErrorJson s

end ErrorPayload

/-! ## Frames -/

/-- A fully validated frame. -/
inductive Frame where
  /-- Pages. -/
  | ofMeta (p : MetaPayload)
  /-- Objects. -/
  | ofObject (p : ObjectPayload)
  /-- A chunk. -/
  | ofChunk (p : ChunkPayload)
  /-- The end of a stream. -/
  | ofEnd (p : EndPayload)
  /-- An error, which ends a stream too. -/
  | ofError (p : ErrorPayload)
deriving DecidableEq

/-- `matches!(frame, Frame::End(_) | Frame::Error(_))` -/
def Frame.isTerminator : Frame → Bool
  | .ofEnd _ | .ofError _ => true
  | _ => false

namespace TreeFrame

/-- `raw_limit` -/
def rawLimit (kind : UInt8) : CodecResult ℕ :=
  if kind = kindMeta then .ok metaMaxRaw
  else if kind = kindObject then .ok objectMaxRaw
  else if kind = kindChunk then .ok (76 + chunkMaxLen)
  else if kind = kindEnd then .ok 48
  else if kind = kindError then .ok errorMaxBytes
  else .error (.badConstant "frame kind")

section

variable [Sha256]

/-- The payload decoder of a kind. -/
def decodePayload (kind : UInt8) (payload : Bytes) (rawLen : UInt32) : CodecResult Frame :=
  if kind = kindMeta then .ofMeta <$> MetaPayload.decode payload
  else if kind = kindObject then .ofObject <$> ObjectPayload.decode payload
  else if kind = kindChunk then .ofChunk <$> ChunkPayload.decode payload rawLen
  else if kind = kindEnd then .ofEnd <$> EndPayload.decode payload
  else if kind = kindError then .ofError <$> ErrorPayload.decode payload
  else .error (.badConstant "frame kind")

variable [Features]

/-- The canonical raw payload of the bytes on the wire. -/
def rawPayload (flags : UInt8) (wirePayload : Bytes) (rawLen : UInt32) : CodecResult Bytes :=
  if flags &&& flagZstd = 0 then .ok wirePayload
  else match Features.zstd with
    | some z => z.decompressStrict wirePayload rawLen.toNat
    | none => .error (.unsupported "zstd frame received by identity-only codec build")

/-- `parse_frame` -/
def parseFrame (buf : Bytes) : CodecResult (Frame × ℕ) := do
  reject (buf.length < headerLen) (.truncated "frame header")
  reject (buf.take 4 ≠ magic) (.badConstant "MST2 magic")
  let v ← readU16 buf 4
  reject (v ≠ version) (.badConstant "frame version")
  let kind := buf.getD 6 0
  let flags := buf.getD 7 0
  let len ← readU32 buf 8
  reject (len.toNat ≠ headerLen) (.badConstant "header_len must be 64")
  reject (flags &&& ~~~flagZstd ≠ 0) (.badConstant "unknown frame flags")
  let wireLen ← readU32 buf 12
  let rawLen ← readU32 buf 16
  let streamId ← readU32 buf 20
  reject (streamId = 0) (.badConstant "stream_id must be non-zero")
  let _sequence ← readU64 buf 24
  let payloadSha256 := digestAt buf 32
  reject ((kind = kindEnd ∨ kind = kindError) ∧ flags &&& flagZstd ≠ 0)
    (.badConstant "END/ERROR must not be compressed")
  reject (flags &&& flagZstd = 0 ∧ wireLen ≠ rawLen)
    (.badLength "identity encoding requires wire_len == raw_len")
  let limit ← rawLimit kind
  reject (rawLen.toNat > limit ∨ wireLen.toNat > dataMaxWire)
    (.badLength "frame payload exceeds kind limit")
  let total := headerLen + wireLen.toNat
  reject (buf.length < total) (.truncated "frame payload")
  let wirePayload := (buf.take total).drop headerLen
  let payload ← rawPayload flags wirePayload rawLen
  reject (sha256 payload ≠ payloadSha256) (.digestMismatch "frame raw payload")
  let frame ← decodePayload kind payload rawLen
  pure (frame, total)

/-! ### What `parse_frame` accepts -/

/-- What `parse_frame` checks of a header and of the bytes behind it. -/
structure FrameHeader.Accepts (h : FrameHeader) (wire : Bytes) (frame : Frame) : Prop where
  /-- Only the zstd flag is known. -/
  flags_known : h.flags &&& ~~~flagZstd = 0
  /-- The stream is not 0. -/
  streamId_ne : h.streamId ≠ 0
  /-- END and ERROR are not compressed. -/
  identity_of_end : h.kind = kindEnd ∨ h.kind = kindError → h.flags &&& flagZstd = 0
  /-- Without compression the two lengths agree. -/
  wireLen_eq_rawLen : h.flags &&& flagZstd = 0 → h.wireLen = h.rawLen
  /-- The payload is within the limit of its kind. -/
  rawLen_le : ∃ limit, rawLimit h.kind = .ok limit ∧ h.rawLen.toNat ≤ limit
  /-- The bytes on the wire are within their limit. -/
  wireLen_le : h.wireLen.toNat ≤ dataMaxWire
  /-- The header has their length. -/
  wireLen_eq : h.wireLen.toNat = wire.length
  /-- The payload has the digest of the header, and its decoder accepts it. -/
  payload : ∃ payload, rawPayload h.flags wire h.rawLen = .ok payload ∧
    sha256 payload = h.payloadSha256 ∧ decodePayload h.kind payload h.rawLen = .ok frame

/-- The run of `parse_frame` on a header whose lengths are within their limits, and the bytes it
announces. -/
theorem parseFrame_bytes_append {hdr : FrameHeader} {wire rest : Bytes} {limit : ℕ}
    (hflags : hdr.flags &&& ~~~flagZstd = 0)
    (hend : hdr.kind = kindEnd ∨ hdr.kind = kindError → hdr.flags &&& flagZstd = 0)
    (hidentity : hdr.flags &&& flagZstd = 0 → hdr.wireLen = hdr.rawLen)
    (hlimit : rawLimit hdr.kind = .ok limit) (hraw : hdr.rawLen.toNat ≤ limit)
    (hwireLe : hdr.wireLen.toNat ≤ dataMaxWire) (hwireLen : hdr.wireLen.toNat = wire.length) :
    parseFrame (hdr.bytes ++ wire ++ rest) = (do
      reject (hdr.streamId = 0) (.badConstant "stream_id must be non-zero")
      let payload ← rawPayload hdr.flags wire hdr.rawLen
      reject (sha256 payload ≠ hdr.payloadSha256) (.digestMismatch "frame raw payload")
      let frame ← decodePayload hdr.kind payload hdr.rawLen
      pure (frame, headerLen + wire.length)) := by
  have hlen : (hdr.bytes ++ wire ++ rest).length = headerLen + wire.length + rest.length := by
    rw [List.length_append, List.length_append, FrameHeader.length_bytes]
  have hslice : slice? (hdr.bytes ++ wire ++ rest) 0 headerLen = some hdr.bytes :=
    slice?_of_drop (Nat.zero_le _) (by rw [List.drop_zero, List.append_assoc])
      (FrameHeader.length_bytes hdr)
  obtain ⟨hmagic, hv, hkind, hflags', hlen64, hwire, hrawLen, hstream, hseq, hsha⟩ :=
    slice?_header.mp hslice
  have htake : ((hdr.bytes ++ wire ++ rest).take (headerLen + wire.length)).drop headerLen =
      wire := by
    rw [List.take_left' (by simp), List.drop_left' (by simp)]
  have hmagic' : (hdr.bytes ++ wire ++ rest).take 4 = magic := by
    rw [slice?_eq_some, List.drop_zero] at hmagic
    rw [hmagic.2.2, List.take_left' hmagic.2.1]
  have hkind' : (hdr.bytes ++ wire ++ rest).getD 6 0 = hdr.kind := by
    rw [List.getD_eq_getElem?_getD, hkind, Option.getD_some]
  have hflags'' : (hdr.bytes ++ wire ++ rest).getD 7 0 = hdr.flags := by
    rw [List.getD_eq_getElem?_getD, hflags', Option.getD_some]
  rw [parseFrame, reject_of_not (by omega), ok_bind, reject_of_not (not_not.mpr hmagic'), ok_bind,
    hv, ok_bind, reject_of_not (not_not.mpr rfl), ok_bind, hlen64, ok_bind, hkind', hflags'',
    reject_of_not (not_not.mpr (by decide)), ok_bind, reject_of_not (not_not.mpr hflags), ok_bind,
    hwire, ok_bind, hrawLen, ok_bind, hstream, ok_bind]
  by_cases hne : hdr.streamId = 0
  · rw [reject, if_pos hne]
    rfl
  · rw [reject_of_not hne, ok_bind, hseq, ok_bind, reject_of_not (fun h ↦ h.2 (hend h.1)), ok_bind,
      reject_of_not (fun h ↦ h.2 (hidentity h.1)), ok_bind, hlimit, ok_bind, hwireLen,
      reject_of_not (not_or.mpr ⟨not_lt.mpr hraw, not_lt.mpr (hwireLen ▸ hwireLe)⟩), ok_bind]
    dsimp only
    rw [reject_of_not (by omega), ok_bind, htake, digestAt_of_slice? hsha]
    rfl

/-- **What `parse_frame` accepts**: a header, the bytes it announces, and anything behind them. -/
theorem parseFrame_eq_ok {buf : Bytes} {frame : Frame} {used : ℕ} :
    parseFrame buf = .ok (frame, used) ↔ ∃ (h : FrameHeader) (wire rest : Bytes),
      buf = h.bytes ++ wire ++ rest ∧ used = headerLen + wire.length ∧ h.Accepts wire frame := by
  constructor
  · intro h
    rw [parseFrame, reject_bind_eq_ok, reject_bind_eq_ok, not_not, bind_eq_ok] at h
    obtain ⟨hlen, hmagic, v, hv, h⟩ := h
    rw [reject_bind_eq_ok, not_not, bind_eq_ok] at h
    obtain ⟨rfl, len, hlen', h⟩ := h
    rw [reject_bind_eq_ok, not_not, reject_bind_eq_ok, not_not, bind_eq_ok] at h
    obtain ⟨hlen64, hflags, wireLen, hwire, h⟩ := h
    rw [bind_eq_ok] at h
    obtain ⟨rawLen, hraw, h⟩ := h
    rw [bind_eq_ok] at h
    obtain ⟨streamId, hstream, h⟩ := h
    rw [reject_bind_eq_ok, bind_eq_ok] at h
    obtain ⟨hne, sequence, hseq, h⟩ := h
    rw [reject_bind_eq_ok, reject_bind_eq_ok, bind_eq_ok] at h
    obtain ⟨hend, hidentity, limit, hlimit, h⟩ := h
    rw [reject_bind_eq_ok, reject_bind_eq_ok, bind_eq_ok] at h
    obtain ⟨hle, htotal, payload, hpayload, h⟩ := h
    rw [reject_bind_eq_ok, not_not, bind_eq_ok] at h
    obtain ⟨hdigest, frame', hframe, h⟩ := h
    obtain ⟨rfl, rfl⟩ := Prod.mk.inj (Except.ok.inj h)
    rw [not_lt] at hlen htotal
    rw [not_or, not_lt, not_lt] at hle
    let hdr : FrameHeader := ⟨buf.getD 6 0, buf.getD 7 0, wireLen, rawLen, streamId, sequence,
      digestAt buf 32⟩
    have hhdr : slice? buf 0 headerLen = some hdr.bytes := by
      rw [headerLen] at hlen
      refine slice?_header.mpr ⟨?_, hv, getElem?_getD_of_lt (by omega),
        getElem?_getD_of_lt (by omega), ?_, hwire, hraw, hstream, hseq, slice?_digestAt hlen⟩
      · rw [slice?, if_pos (by omega), List.drop_zero, hmagic]
      · rw [hlen', ← hlen64, UInt32.ofNat_toNat]
    have hbuf := (slice?_eq_some.mp hhdr).2.2
    rw [List.drop_zero, Nat.zero_add] at hbuf
    refine ⟨hdr, (buf.take (headerLen + wireLen.toNat)).drop headerLen,
      buf.drop (headerLen + wireLen.toNat), ?_, ?_, ?_⟩
    · rw [List.append_assoc]
      nth_rewrite 1 [hbuf]
      rw [List.drop_take, Nat.add_sub_cancel_left, ← List.drop_drop, List.take_append_drop]
    · rw [List.length_drop, List.length_take]
      omega
    · refine ⟨hflags, hne, fun hk ↦ by_contra fun hz ↦ hend ⟨hk, hz⟩,
        fun hz ↦ by_contra fun hw ↦ hidentity ⟨hz, hw⟩, ⟨limit, hlimit, hle.1⟩, hle.2, ?_,
        payload, hpayload, hdigest, hframe⟩
      rw [List.length_drop, List.length_take]
      show wireLen.toNat = _
      omega
  · rintro ⟨hdr, wire, rest, rfl, rfl, hacc⟩
    obtain ⟨limit, hlimit, hraw⟩ := hacc.rawLen_le
    obtain ⟨payload, hpayload, hdigest, hframe⟩ := hacc.payload
    rw [parseFrame_bytes_append hacc.flags_known hacc.identity_of_end hacc.wireLen_eq_rawLen
      hlimit hraw hacc.wireLen_le hacc.wireLen_eq, reject_of_not hacc.streamId_ne, ok_bind,
      hpayload, ok_bind, reject_of_not (not_not.mpr hdigest), ok_bind, hframe]
    rfl

/-- A frame takes at least its header. -/
theorem headerLen_le_of_parseFrame {buf : Bytes} {frame : Frame} {used : ℕ}
    (h : parseFrame buf = .ok (frame, used)) : headerLen ≤ used ∧ used ≤ buf.length := by
  obtain ⟨hdr, wire, rest, rfl, rfl, -⟩ := parseFrame_eq_ok.mp h
  rw [List.length_append, List.length_append, FrameHeader.length_bytes]
  omega

/-- The loop of `parse_stream`, with the bytes from `off` on. -/
def streamLoop (rest : Bytes) (streamId : Option UInt32) (expectSeq : ℕ) (terminated : Bool) :
    CodecResult (List Frame × Bool) :=
  if rest = [] then .ok ([], terminated)
  else if terminated then .error (.badOrdering "bytes after END/ERROR frame")
  else match _h : parseFrame rest with
    | .error e => .error e
    | .ok (frame, used) => do
      let sid ← readU32 rest 20
      let seq ← readU64 rest 24
      reject (streamId.any fun s ↦ s ≠ sid) (.badOrdering "stream_id changed mid-stream")
      reject (seq.toNat ≠ expectSeq) (.badOrdering "sequence must increase consecutively from 0")
      let (frames, terminated) ←
        streamLoop (rest.drop used) (some sid) (expectSeq + 1) frame.isTerminator
      pure (frame :: frames, terminated)
termination_by rest.length
decreasing_by
  have hle := headerLen_le_of_parseFrame _h
  rw [headerLen] at hle
  rw [List.length_drop]
  omega

/-- `parse_stream` -/
def parseStream (buf : Bytes) : CodecResult (List Frame) := do
  let (frames, terminated) ← streamLoop buf none 0 false
  reject (¬ terminated) (.badOrdering "stream missing END/ERROR frame")
  pure frames

end

end TreeFrame

end Mst2
