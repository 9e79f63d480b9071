import Mst2Codec.Library.PrefixFree
import Mst2Codec.TreeFrame.Compressed
import Mst2Codec.TreeFrame.ErrorRoundTrip
import Mst2Codec.TreeFrame.Stream

/-!
# Streams that are written and read

A server writes a stream frame by frame, each with the stream and its place in it, and compresses
whichever it likes (`Transcript`).  The client gets these frames and no others, or rejects the
stream (`TreeFrame.parseStream_transcript`): what is compressed and what is not makes no difference.
The other way round, a stream that the client has accepted can be passed on without compression
(`TreeFrame.parseStream_encodeStream`), and where nothing was compressed that gives the same bytes.
-/

set_option autoImplicit false

namespace Mst2

open Bytes Except TreeFrame

/-! ## A payload is determined by its bytes -/

/-- Numbers of two bytes. -/
theorem selfDelimiting_writeU16 :
    SelfDelimiting {n | n < 65536} fun n ↦ writeU16 (UInt16.ofNat n) :=
  .of_length (fun _ _ ↦ length_writeU16 _) fun m hm n hn h ↦ by
    have heq := leBytes_inj (UInt16.ofNat m).toNat_lt (UInt16.ofNat n).toNat_lt h
    rwa [toNat_ofNat_u16 hm, toNat_ofNat_u16 hn] at heq

/-- Numbers of four bytes. -/
theorem selfDelimiting_writeU32 :
    SelfDelimiting {n | n < 4294967296} fun n ↦ writeU32 (UInt32.ofNat n) :=
  .of_length (fun _ _ ↦ length_writeU32 _) fun m hm n hn h ↦ by
    have heq := leBytes_inj (UInt32.ofNat m).toNat_lt (UInt32.ofNat n).toNat_lt h
    rwa [toNat_ofNat_u32 hm, toNat_ofNat_u32 hn] at heq

section payloads

variable [Sha256]

namespace MetaPayload

omit [Sha256] in
theorem selfDelimiting_pageBytes :
    SelfDelimiting {x : Digest × Bytes | x.2.length < 4294967296} pageBytes := by
  intro x hx y hy s t h
  simp only [pageBytes, List.append_assoc] at h
  obtain ⟨hid, h⟩ := List.append_inj h (x.1.length_eq.trans y.1.length_eq.symm)
  obtain ⟨hpage, hst⟩ := selfDelimiting_writeU32.lengthPrefixed hx hy
    ((List.append_assoc _ _ _).trans (h.trans (List.append_assoc _ _ _).symm))
  exact ⟨Prod.ext (Digest.ext hid) hpage, hst⟩

/-- A page is shorter than the payload it is in. -/
theorem Encodable.length_page_lt {p : MetaPayload} (h : p.Encodable) :
    ∀ x ∈ p.pages, x.2.length < 4294967296 := by
  intro x hx
  have hle := h.length_rawPayload_le
  have hpage := (List.sublist_flatten_of_mem (List.mem_map_of_mem (f := pageBytes) hx)).length_le
  rw [← List.flatMap_def, length_pageBytes] at hpage
  rw [rawPayload, List.length_append, metaMaxRaw] at hle
  omega

theorem rawPayload_injOn : Set.InjOn rawPayload {p | p.Encodable} := by
  intro p hp q hq h
  have hlt : ∀ p : MetaPayload, p.Encodable → p.pages.length < 65536 := by
    intro p hp
    have hle := hp.length_le
    rw [metaMaxPages] at hle
    omega
  simp only [rawPayload, List.append_assoc] at h
  obtain ⟨hlen, h⟩ := selfDelimiting_writeU16 (hlt p hp) (hlt q hq) h
  have hpages := List.append_cancel_left h
  rw [← List.append_nil (p.pages.flatMap _), ← List.append_nil (q.pages.flatMap _)] at hpages
  exact MetaPayload.ext (selfDelimiting_pageBytes.flatMap hlen hp.length_page_lt hq.length_page_lt
    hpages).1

end MetaPayload

namespace ObjectPayload

omit [Sha256] in
/-- The table has the identities and the lengths. -/
theorem map_eq_of_tableBytes {off off' : UInt32} {objects objects' : List (Digest × Bytes)}
    (hlen : objects.length = objects'.length) (hlt : ∀ x ∈ objects, x.2.length < 4294967296)
    (hlt' : ∀ x ∈ objects', x.2.length < 4294967296)
    (h : tableBytes off objects = tableBytes off' objects') :
    objects.map Prod.fst = objects'.map Prod.fst ∧
      (objects.map Prod.snd).map List.length = (objects'.map Prod.snd).map List.length := by
  induction objects generalizing off off' objects' with
  | nil =>
    obtain rfl := List.length_eq_zero_iff.mp hlen.symm
    exact ⟨rfl, rfl⟩
  | cons x objects ih =>
    obtain ⟨y, objects', rfl⟩ := List.exists_cons_of_length_eq_add_one hlen.symm
    obtain ⟨hx, hlt⟩ := List.forall_mem_cons.mp hlt
    obtain ⟨hy, hlt'⟩ := List.forall_mem_cons.mp hlt'
    simp only [tableBytes, List.append_assoc] at h
    obtain ⟨hid, h⟩ := List.append_inj h (x.1.length_eq.trans y.1.length_eq.symm)
    obtain ⟨hsize, h⟩ := selfDelimiting_writeU32 hx hy h
    obtain ⟨-, h⟩ := List.append_inj h (by rw [length_writeU32, length_writeU32])
    obtain ⟨hids, hsizes⟩ := ih (by simpa using hlen) hlt hlt' h
    simp only [List.map_cons, List.cons.injEq]
    exact ⟨⟨Digest.ext hid, hids⟩, hsize, hsizes⟩

theorem Encodable.length_object_lt {p : ObjectPayload} (h : p.Encodable) :
    ∀ x ∈ p.objects, x.2.length < 4294967296 := fun x hx ↦
  (h.length_object_le x hx).trans_lt (by decide)

theorem rawPayload_injOn : Set.InjOn rawPayload {p | p.Encodable} := by
  intro p hp q hq h
  have hlt : ∀ p : ObjectPayload, p.Encodable → p.objects.length < 65536 := by
    intro p hp
    have hle := hp.length_le
    rw [objectMaxCount] at hle
    omega
  simp only [rawPayload, List.append_assoc] at h
  obtain ⟨hlen, h⟩ := selfDelimiting_writeU16 (hlt p hp) (hlt q hq) h
  obtain ⟨htable, hdata⟩ := List.append_inj (List.append_cancel_left h)
    (by rw [length_tableBytes, length_tableBytes, hlen])
  obtain ⟨hids, hsizes⟩ :=
    map_eq_of_tableBytes hlen hp.length_object_lt hq.length_object_lt htable
  have hbytes : p.objects.map Prod.snd = q.objects.map Prod.snd :=
    List.eq_iff_flatten_eq.mpr ⟨hdata, hsizes⟩
  refine ObjectPayload.ext ?_
  rw [← List.zip_unzip p.objects, ← List.zip_unzip q.objects]
  simp only [List.unzip_eq_map, hids, hbytes]

end ObjectPayload

namespace Frame

/-- The payload that the encoder of a frame writes. -/
def payload : Frame → Bytes
  | .ofMeta p => p.rawPayload
  | .ofObject p => p.rawPayload
  | .ofChunk p => p.rawPayload
  | .ofEnd p => p.rawPayload
  | .ofError p => p.json.asBytes

/-- The frames that are encoded. -/
def Encodable : Frame → Prop
  | .ofMeta p => p.Encodable
  | .ofObject p => p.Encodable
  | .ofChunk p => p.chunkBytes.length ≤ chunkMaxLen
  | .ofEnd _ => True
  | .ofError p => p.json.asBytes.length ≤ errorMaxBytes

/-- The checks that only the decoders make. -/
def Readable : Frame → Prop
  | .ofMeta p => p.Readable
  | .ofObject p => (p.objects.map Prod.fst).Nodup
  | .ofChunk _ | .ofEnd _ | .ofError _ => True

theorem encode_eq_ok {frame : Frame} {streamId : UInt32} {sequence : UInt64} {b : Bytes} :
    frame.encode streamId sequence = .ok b ↔
      frame.Encodable ∧ b = frameBytes frame.kind frame.payload streamId sequence := by
  cases frame with
  | ofMeta p => exact MetaPayload.encode_eq_ok
  | ofObject p => exact ObjectPayload.encode_eq_ok
  | ofChunk p => exact ChunkPayload.encode_eq_ok
  | ofEnd p => simp [encode, Encodable, EndPayload.encode, kind, payload, eq_comm]
  | ofError p =>
    rw [encode, ErrorPayload.encode, reject_bind_eq_ok, Nat.not_lt]
    simp only [pure, Except.pure, Except.ok.injEq]
    exact and_congr_right fun _ ↦ eq_comm

/-- A payload that is encoded is within the limit of its kind. -/
theorem Encodable.exists_rawLimit {frame : Frame} (h : frame.Encodable) :
    ∃ limit, rawLimit frame.kind = .ok limit ∧ frame.payload.length ≤ limit := by
  cases frame with
  | ofMeta p => exact ⟨_, rfl, MetaPayload.Encodable.length_rawPayload_le h⟩
  | ofObject p => exact ⟨_, rfl, ObjectPayload.Encodable.length_rawPayload_le h⟩
  | ofChunk p =>
    refine ⟨_, rfl, ?_⟩
    rw [payload, ChunkPayload.length_rawPayload]
    exact Nat.add_le_add_left h 76
  | ofEnd p => exact ⟨_, rfl, p.length_rawPayload.le⟩
  | ofError p => exact ⟨_, rfl, h⟩

theorem Encodable.length_payload_lt {frame : Frame} (h : frame.Encodable) :
    frame.payload.length < 4294967296 := by
  obtain ⟨limit, hlimit, hle⟩ := h.exists_rawLimit
  have hmax := rawLimit_le hlimit
  rw [chunkMaxLen] at hmax
  omega

/-- **Whatever the decoder makes of an encoded payload is the frame**, and it makes something of it
if the frame is readable. -/
theorem Encodable.decodes_iff {frame frame' : Frame} (h : frame.Encodable)
    (hkind : frame'.kind = frame.kind) :
    frame'.Decodes frame.payload (UInt32.ofNat frame.payload.length) ↔
      frame' = frame ∧ frame.Readable := by
  have hlt := h.length_payload_lt
  cases frame with
  | ofMeta p =>
    cases frame' with
    | ofMeta q =>
      rw [ofMeta.injEq]
      refine MetaPayload.decode_eq_ok.trans ⟨fun hq ↦ ?_, ?_⟩
      · obtain rfl := MetaPayload.rawPayload_injOn hq.1 h hq.2.2.symm
        exact ⟨rfl, hq.2.1⟩
      · rintro ⟨rfl, hr⟩
        exact ⟨h, hr, rfl⟩
    | ofObject _ | ofChunk _ | ofEnd _ | ofError _ => cases hkind
  | ofObject p =>
    cases frame' with
    | ofObject q =>
      rw [ofObject.injEq]
      refine ObjectPayload.decode_eq_ok.trans ⟨fun hq ↦ ?_, ?_⟩
      · obtain rfl := ObjectPayload.rawPayload_injOn hq.1 h hq.2.2.symm
        exact ⟨rfl, hq.2.1⟩
      · rintro ⟨rfl, hr⟩
        exact ⟨h, hr, rfl⟩
    | ofMeta _ | ofChunk _ | ofEnd _ | ofError _ => cases hkind
  | ofChunk p =>
    cases frame' with
    | ofChunk q =>
      have hp : ChunkPayload.decode p.rawPayload (UInt32.ofNat p.rawPayload.length) = .ok p :=
        ChunkPayload.decode_eq_ok.mpr ⟨toNat_ofNat_u32 hlt, h, rfl⟩
      rw [Decodes, payload, hp, Except.ok.injEq, ofChunk.injEq, Readable, and_true, eq_comm]
    | ofMeta _ | ofObject _ | ofEnd _ | ofError _ => cases hkind
  | ofEnd p =>
    cases frame' with
    | ofEnd q =>
      rw [Decodes, payload, EndPayload.decode_eq_ok.mpr rfl, Except.ok.injEq, ofEnd.injEq, Readable,
        and_true, eq_comm]
    | ofMeta _ | ofObject _ | ofChunk _ | ofError _ => cases hkind
  | ofError p =>
    cases frame' with
    | ofError q =>
      rw [Decodes, payload, ErrorPayload.decode_json h, Except.ok.injEq, ofError.injEq, Readable,
        and_true, eq_comm]
    | ofMeta _ | ofObject _ | ofChunk _ | ofEnd _ => cases hkind

/-- What a decoder accepts is readable, and if it is no error it is encoded as it was. -/
theorem Decodes.encodable {frame : Frame} {payload : Bytes} {rawLen : UInt32}
    (h : frame.Decodes payload rawLen) (hframe : ∀ e, frame ≠ .ofError e) :
    frame.Encodable ∧ frame.Readable ∧ payload = frame.payload := by
  cases frame with
  | ofMeta p => exact MetaPayload.decode_eq_ok.mp h
  | ofObject p => exact ObjectPayload.decode_eq_ok.mp h
  | ofChunk p =>
    obtain ⟨-, hp, rfl⟩ := ChunkPayload.decode_eq_ok.mp h
    exact ⟨hp, trivial, rfl⟩
  | ofEnd p => exact ⟨trivial, trivial, EndPayload.decode_eq_ok.mp h⟩
  | ofError e => exact absurd rfl (hframe e)

/-- A payload has one frame of each kind. -/
theorem Decodes.unique {frame frame' : Frame} {payload : Bytes} {rawLen rawLen' : UInt32}
    (h : frame.Decodes payload rawLen) (h' : frame'.Decodes payload rawLen')
    (hkind : frame.kind = frame'.kind) : frame = frame' := by
  cases frame with
  | ofMeta p =>
    cases frame' with
    | ofMeta q => rw [Except.ok.inj (h.symm.trans h')]
    | ofObject _ | ofChunk _ | ofEnd _ | ofError _ => cases hkind
  | ofObject p =>
    cases frame' with
    | ofObject q => rw [Except.ok.inj (h.symm.trans h')]
    | ofMeta _ | ofChunk _ | ofEnd _ | ofError _ => cases hkind
  | ofChunk p =>
    cases frame' with
    | ofChunk q =>
      -- both lengths are that of the payload
      have hlen := (ChunkPayload.decode_eq_ok.mp h).1
      obtain rfl := UInt32.toNat_inj.mp (hlen.trans (ChunkPayload.decode_eq_ok.mp h').1.symm)
      rw [Except.ok.inj (h.symm.trans h')]
    | ofMeta _ | ofObject _ | ofEnd _ | ofError _ => cases hkind
  | ofEnd p =>
    cases frame' with
    | ofEnd q => rw [Except.ok.inj (h.symm.trans h')]
    | ofMeta _ | ofObject _ | ofChunk _ | ofError _ => cases hkind
  | ofError p =>
    cases frame' with
    | ofError q => rw [Except.ok.inj (h.symm.trans h')]
    | ofMeta _ | ofObject _ | ofChunk _ | ofEnd _ => cases hkind

end Frame

end payloads

/-! ## Frames on the wire -/

section wire

variable [Sha256] [Features]

/-- The bytes of a frame: as its payload is encoded, or compressed in a build with the library. -/
inductive Frame.Written (streamId : UInt32) (sequence : UInt64) : Frame → Bytes → Prop where
  /-- As it is. -/
  | identity {frame : Frame} {b : Bytes} (h : frame.encode streamId sequence = .ok b) :
      Written streamId sequence frame b
  /-- Compressed pages. -/
  | zstdMeta {z : ZstdLib} {p : MetaPayload} {b : Bytes} (hz : Features.zstd = some z)
      (h : p.encodeZstd z streamId sequence = .ok b) : Written streamId sequence (.ofMeta p) b
  /-- Compressed objects. -/
  | zstdObject {z : ZstdLib} {p : ObjectPayload} {b : Bytes} (hz : Features.zstd = some z)
      (h : p.encodeZstd z streamId sequence = .ok b) : Written streamId sequence (.ofObject p) b
  /-- A compressed chunk. -/
  | zstdChunk {z : ZstdLib} {p : ChunkPayload} {b : Bytes} (hz : Features.zstd = some z)
      (h : p.encodeZstd z streamId sequence = .ok b) : Written streamId sequence (.ofChunk p) b

namespace TreeFrame

/-- A header and the bytes behind it carry the payload of a frame. -/
structure Carries (streamId : UInt32) (sequence : UInt64) (frame : Frame) (hdr : FrameHeader)
    (wire : Bytes) : Prop where
  /-- The payload is encoded. -/
  encodable : frame.Encodable
  /-- The kind is that of the frame. -/
  kind_eq : hdr.kind = frame.kind
  /-- The stream. -/
  streamId_eq : hdr.streamId = streamId
  /-- The place. -/
  sequence_eq : hdr.sequence = sequence
  /-- No unknown flags. -/
  flags_known : hdr.flags &&& ~~~flagZstd = 0
  /-- END and ERROR are not compressed. -/
  identity_of_end : frame.isTerminator = true → hdr.flags &&& flagZstd = 0
  /-- Without compression the two lengths agree. -/
  wireLen_eq_rawLen : hdr.flags &&& flagZstd = 0 → hdr.wireLen = hdr.rawLen
  /-- The raw length is that of the payload. -/
  rawLen_eq : hdr.rawLen = UInt32.ofNat frame.payload.length
  /-- The wire length is that of the bytes. -/
  wireLen_eq : hdr.wireLen.toNat = wire.length
  /-- Which are not too many. -/
  wireLen_le : wire.length ≤ dataMaxWire
  /-- The payload is got back from them. -/
  rawPayload_eq : rawPayload hdr.flags wire hdr.rawLen = .ok frame.payload
  /-- The digest is that of the payload. -/
  payloadSha256_eq : hdr.payloadSha256 = sha256 frame.payload

variable {streamId : UInt32} {sequence : UInt64} {frame : Frame} {hdr : FrameHeader} {wire : Bytes}

theorem exists_carries_of_encode {b : Bytes} (h : frame.encode streamId sequence = .ok b) :
    ∃ hdr wire, b = hdr.bytes ++ wire ∧ Carries streamId sequence frame hdr wire := by
  obtain ⟨hframe, rfl⟩ := Frame.encode_eq_ok.mp h
  obtain ⟨limit, hlimit, hle⟩ := hframe.exists_rawLimit
  have hmax := rawLimit_le hlimit
  rw [chunkMaxLen] at hmax
  refine ⟨_, _, frameBytes_eq, hframe, rfl, rfl, rfl, show 0 &&& ~~~flagZstd = 0 by decide,
    fun _ ↦ show 0 &&& flagZstd = 0 by decide, fun _ ↦ rfl, rfl,
    toNat_ofNat_u32 hframe.length_payload_lt, ?_, rawPayload_of_identity, rfl⟩
  rw [dataMaxWire]
  omega

/-- What the library has compressed is got back. -/
theorem exists_carries_of_frameBytesZstd {z : ZstdLib} (hz : Features.zstd = some z)
    (hlib : z.RoundTrips) {frame : Frame} (hframe : frame.Encodable)
    (hdata : frame.isTerminator = false) {b : Bytes}
    (h : frameBytesZstd z frame.kind frame.payload streamId sequence = .ok b) :
    ∃ hdr wire, b = hdr.bytes ++ wire ∧ Carries streamId sequence frame hdr wire := by
  obtain ⟨limit, hlimit, hle⟩ := hframe.exists_rawLimit
  have hraw := toNat_ofNat_u32 hframe.length_payload_lt
  obtain ⟨wire, hcompress, hwire, hback⟩ := hlib frame.payload (hle.trans (rawLimit_le hlimit))
  rw [frameBytesZstd, hcompress, ok_bind] at h
  have hwireLen : (UInt32.ofNat wire.length).toNat = wire.length := by
    rw [dataMaxWire] at hwire
    exact toNat_ofNat_u32 (by omega)
  refine ⟨⟨frame.kind, flagZstd, UInt32.ofNat wire.length, UInt32.ofNat frame.payload.length,
    streamId, sequence, sha256 frame.payload⟩, wire, (Except.ok.inj h).symm, hframe, rfl, rfl, rfl,
    show flagZstd &&& ~~~flagZstd = 0 by decide, fun hend ↦ ?_, fun hzero ↦ ?_, rfl, hwireLen,
    hwire, ?_, rfl⟩
  · rw [hdata] at hend
    cases hend
  · exact absurd hzero (show flagZstd &&& flagZstd ≠ 0 by decide)
  · rw [rawPayload, if_neg (show flagZstd &&& flagZstd ≠ 0 by decide), hz]
    exact hraw.symm ▸ hback

/-- **A frame that is written carries its payload.** -/
theorem exists_carries_of_written {b : Bytes} (h : frame.Written streamId sequence b)
    (hlib : ∀ z, Features.zstd = some z → z.RoundTrips) :
    ∃ hdr wire, b = hdr.bytes ++ wire ∧ Carries streamId sequence frame hdr wire := by
  cases h with
  | identity h => exact exists_carries_of_encode h
  | @zstdMeta z p _ hz h =>
    rw [MetaPayload.encodeZstd, bind_eq_ok] at h
    obtain ⟨b', hb', h⟩ := h
    rw [MetaPayload.rawPayloadZstd_eq, ok_bind] at h
    have hp : (Frame.ofMeta p).Encodable := (MetaPayload.encode_eq_ok.mp hb').1
    exact exists_carries_of_frameBytesZstd hz (hlib z hz) hp rfl h
  | @zstdObject z p _ hz h =>
    rw [ObjectPayload.encodeZstd, bind_eq_ok] at h
    obtain ⟨b', hb', h⟩ := h
    have hp : (Frame.ofObject p).Encodable := (ObjectPayload.encode_eq_ok.mp hb').1
    rw [ObjectPayload.rawPayloadZstd_eq hp, ok_bind] at h
    exact exists_carries_of_frameBytesZstd hz (hlib z hz) hp rfl h
  | @zstdChunk z p _ hz h =>
    rw [ChunkPayload.encodeZstd, reject_bind_eq_ok, not_lt] at h
    have hp : (Frame.ofChunk p).Encodable := h.1
    exact exists_carries_of_frameBytesZstd hz (hlib z hz) hp rfl h.2

/-- **The frame that is carried is parsed if it is readable**, and no other frame ever is. -/
theorem Carries.parse (h : Carries streamId sequence frame hdr wire) (hstream : streamId ≠ 0)
    (rest : Bytes) :
    (frame.Readable → parseFrame (hdr.bytes ++ wire ++ rest) =
      .ok (frame, (hdr.bytes ++ wire).length)) ∧
    (¬ frame.Readable → ∃ e, parseFrame (hdr.bytes ++ wire ++ rest) = .error e) := by
  obtain ⟨limit, hlimit, hle⟩ := h.encodable.exists_rawLimit
  have hraw : hdr.rawLen.toNat ≤ limit := by
    rwa [h.rawLen_eq, toNat_ofNat_u32 h.encodable.length_payload_lt]
  have hend : hdr.kind = kindEnd ∨ hdr.kind = kindError → hdr.flags &&& flagZstd = 0 := by
    rw [h.kind_eq]
    refine fun hk ↦ h.identity_of_end ?_
    cases frame with
    | ofMeta _ | ofObject _ | ofChunk _ => exact absurd hk (by simp only [Frame.kind]; decide)
    | ofEnd _ | ofError _ => rfl
  rw [parseFrame_bytes_append h.flags_known hend h.wireLen_eq_rawLen (h.kind_eq ▸ hlimit) hraw
    (h.wireLen_eq.trans_le h.wireLen_le) h.wireLen_eq, reject_of_not (h.streamId_eq ▸ hstream),
    ok_bind, h.rawPayload_eq, ok_bind, reject_of_not (not_not.mpr h.payloadSha256_eq.symm), ok_bind,
    h.kind_eq, h.rawLen_eq]
  constructor
  · intro hr
    rw [decodePayload_eq_ok.mpr ⟨rfl, (h.encodable.decodes_iff rfl).mpr ⟨rfl, hr⟩⟩, ok_bind,
      List.length_append, FrameHeader.length_bytes]
    rfl
  · intro hr
    rcases hdecode : decodePayload frame.kind frame.payload _ with e | frame'
    · exact ⟨e, rfl⟩
    · obtain ⟨hkind, hdecodes⟩ := decodePayload_eq_ok.mp hdecode
      exact absurd ((h.encodable.decodes_iff hkind.symm).mp hdecodes).2 hr

omit [Sha256] [Features] in
/-- The stream and the place of a frame can be read off its bytes. -/
theorem FrameHeader.read_bytes_append (hdr : FrameHeader) (rest : Bytes) :
    readU32 (hdr.bytes ++ rest) 20 = .ok hdr.streamId ∧
      readU64 (hdr.bytes ++ rest) 24 = .ok hdr.sequence := by
  have hslice : slice? (hdr.bytes ++ rest) 0 headerLen = some hdr.bytes :=
    slice?_of_drop (Nat.zero_le _) (List.drop_zero ..) hdr.length_bytes
  obtain ⟨-, -, -, -, -, -, -, hstream, hseq, -⟩ := slice?_header.mp hslice
  exact ⟨hstream, hseq⟩

theorem Carries.isSegment (h : Carries streamId sequence frame hdr wire) (hstream : streamId ≠ 0)
    (hr : frame.Readable) :
    IsSegment streamId sequence.toNat (hdr.bytes ++ wire) frame := by
  obtain ⟨hid, hseq⟩ := hdr.read_bytes_append wire
  have hparse := (h.parse hstream []).1 hr
  rw [List.append_nil] at hparse
  exact ⟨hparse, h.streamId_eq ▸ hid, sequence, h.sequence_eq ▸ hseq, rfl⟩

/-! ## Streams -/

/-- The frames of a stream from the place `i` on, and the bytes that are written for each. -/
inductive Transcript (streamId : UInt32) : ℕ → List Frame → List Bytes → Prop where
  /-- No more frames. -/
  | nil {i : ℕ} : Transcript streamId i [] []
  /-- One more. -/
  | cons {i : ℕ} {sequence : UInt64} {frame : Frame} {b : Bytes} {frames : List Frame}
      {segs : List Bytes} (hi : sequence.toNat = i) (h : frame.Written streamId sequence b)
      (hrest : Transcript streamId (i + 1) frames segs) :
      Transcript streamId i (frame :: frames) (b :: segs)

omit [Sha256] [Features] in
/-- The last frame and no other is END or ERROR. -/
def Terminated (frames : List Frame) : Prop :=
  ∃ init last, frames = init ++ [last] ∧ last.isTerminator = true ∧
    ∀ frame ∈ init, frame.isTerminator = false

omit [Sha256] [Features] in
theorem not_terminated_nil : ¬ Terminated [] := by
  rintro ⟨init, last, h, -⟩
  exact absurd h (by simp)

omit [Sha256] [Features] in
theorem terminated_cons {frame : Frame} {frames : List Frame} : Terminated (frame :: frames) ↔
    (frames = [] ∧ frame.isTerminator = true) ∨
      frame.isTerminator = false ∧ Terminated frames := by
  constructor
  · rintro ⟨_ | ⟨a, init⟩, last, h, hlast, hinit⟩
    · obtain ⟨rfl, rfl⟩ := List.cons.inj h
      exact .inl ⟨rfl, hlast⟩
    · obtain ⟨rfl, rfl⟩ := List.cons.inj h
      obtain ⟨ha, hinit⟩ := List.forall_mem_cons.mp hinit
      exact .inr ⟨ha, init, last, rfl, hlast, hinit⟩
  · rintro (⟨rfl, h⟩ | ⟨h, init, last, rfl, hlast, hinit⟩)
    · exact ⟨[], frame, rfl, h, by simp⟩
    · exact ⟨frame :: init, last, rfl, hlast, List.forall_mem_cons.mpr ⟨h, hinit⟩⟩

variable {i : ℕ} {frames : List Frame} {segs : List Bytes}

/-- Readable frames are segments. -/
theorem Transcript.segments (h : Transcript streamId i frames segs) (hstream : streamId ≠ 0)
    (hlib : ∀ z, Features.zstd = some z → z.RoundTrips) (hend : Terminated frames)
    (hr : ∀ frame ∈ frames, frame.Readable) : Segments streamId i segs frames := by
  induction h with
  | nil => exact absurd hend not_terminated_nil
  | cons hi h hrest ih =>
    obtain ⟨hdr, wire, rfl, hcarries⟩ := exists_carries_of_written h hlib
    obtain ⟨hr, hrs⟩ := List.forall_mem_cons.mp hr
    have hseg := hi ▸ hcarries.isSegment hstream hr
    rcases terminated_cons.mp hend with ⟨rfl, hlast⟩ | ⟨hmore, hend⟩
    · cases hrest
      exact .last hseg hlast
    · exact .cons hseg hmore (ih hend hrs)

/-- **What is read of a transcript are its frames**, all of them readable. -/
theorem Transcript.of_segments {sid : UInt32} {k : ℕ} {segs' : List Bytes} {frames' : List Frame}
    (h : Transcript streamId i frames segs) (hstream : streamId ≠ 0)
    (hlib : ∀ z, Features.zstd = some z → z.RoundTrips) (h' : Segments sid k segs' frames')
    (heq : segs'.flatten = segs.flatten) :
    frames' = frames ∧ Terminated frames ∧ ∀ frame ∈ frames, frame.Readable := by
  have hpos : ∀ {i s frame}, IsSegment sid i s frame → s ≠ [] := by
    rintro i s frame hs rfl
    have hle := (headerLen_le_of_parseFrame hs.parse).1
    rw [headerLen, List.length_nil] at hle
    omega
  induction h generalizing k segs' frames' with
  | nil =>
    cases h' with
    | last hs _ => exact absurd (List.append_eq_nil_iff.mp heq).1 (hpos hs)
    | cons hs _ _ => exact absurd (List.append_eq_nil_iff.mp heq).1 (hpos hs)
  | @cons i sequence frame b frames segs hi h hrest ih =>
    obtain ⟨hdr, wire, rfl, hcarries⟩ := exists_carries_of_written h hlib
    rw [List.flatten_cons] at heq
    obtain ⟨hok, herror⟩ := hcarries.parse hstream segs.flatten
    -- the first segment is the first frame that was written
    have hfirst : ∀ {s rest frame'}, IsSegment sid k s frame' →
        s ++ rest = hdr.bytes ++ wire ++ segs.flatten →
        frame.Readable ∧ frame' = frame ∧ rest = segs.flatten := by
      intro s rest frame' hs hrest
      have hparse := hs.parse_append rest
      rw [hrest] at hparse
      by_cases hr : frame.Readable
      · rw [hok hr, Except.ok.injEq, Prod.mk.injEq] at hparse
        exact ⟨hr, hparse.1.symm, (List.append_inj hrest hparse.2.symm).2⟩
      · obtain ⟨e, he⟩ := herror hr
        rw [he] at hparse
        cases hparse
    cases h' with
    | last hs hend =>
      obtain ⟨hr, rfl, hnil⟩ := hfirst hs heq
      obtain rfl : frames = [] := by
        cases hrest with
        | nil => rfl
        | cons _ h _ =>
          obtain ⟨hdr', wire', rfl, -⟩ := exists_carries_of_written h hlib
          have hlen := congrArg List.length hnil
          simp [FrameHeader.length_bytes, headerLen] at hlen
          omega
      exact ⟨rfl, terminated_cons.mpr (.inl ⟨rfl, hend⟩), by simpa using hr⟩
    | cons hs hend hsegs =>
      obtain ⟨hr, rfl, hflatten⟩ := hfirst hs heq
      obtain ⟨rfl, hend', hrs⟩ := ih hsegs hflatten
      exact ⟨rfl, terminated_cons.mpr (.inr ⟨hend, hend'⟩), List.forall_mem_cons.mpr ⟨hr, hrs⟩⟩

/-- **The client gets the frames that the server has written, or an error.**  It gets them exactly
if END or ERROR comes last and only there and every META and OBJECT frame passes the checks that the
encoder does not make. -/
theorem parseStream_transcript (hlib : ∀ z, Features.zstd = some z → z.RoundTrips)
    (streamId : UInt32) (hstream : streamId ≠ 0) (frames : List Frame) (segs : List Bytes)
    (h : Transcript streamId 0 frames segs) :
    (Terminated frames ∧ (∀ frame ∈ frames, frame.Readable) →
      parseStream segs.flatten = .ok frames) ∧
    (¬ (Terminated frames ∧ ∀ frame ∈ frames, frame.Readable) →
      ∃ e, parseStream segs.flatten = .error e) := by
  refine ⟨fun hok ↦ ?_, fun hbad ↦ ?_⟩
  · exact parseStream_eq_ok.mpr ⟨streamId, segs, h.segments hstream hlib hok.1 hok.2, rfl⟩
  · rcases hparse : parseStream segs.flatten with e | frames'
    · exact ⟨e, rfl⟩
    · obtain ⟨sid, segs', hsegs, heq⟩ := parseStream_eq_ok.mp hparse
      exact absurd (h.of_segments hstream hlib hsegs heq).2 hbad

/-- SHA-256 on the payloads of a chunk and of a summary. -/
@[reducible] def exchangeSha256 : Sha256 := .ofTable
  [(StoredZstd.chunk.rawPayload,
      .ofNat 0xdadb1b2d469acfbd287b0e2b13ca8c631dda8d0d90632f28a042889f0831fd3a),
    (summary.rawPayload,
      .ofNat 0x19eedaae448750c2c64367200e0262b0cca83b7d2dd3cf1823bb5a70f1df5528)]

omit [Features] in
/-- A chunk that is compressed, and a summary. -/
def chunkSegments : List Bytes :=
  [header kindChunk flagZstd (UInt32.ofNat (StoredZstd.frame StoredZstd.chunk.rawPayload).length)
      (UInt32.ofNat StoredZstd.chunk.rawPayload.length) 42 0 (sha256 StoredZstd.chunk.rawPayload) ++
      StoredZstd.frame StoredZstd.chunk.rawPayload,
    summary.encode 42 1]

omit [Features] in
/-- The same without compression. -/
def identitySegments (streamId : UInt32) : List Bytes :=
  [frameBytes kindChunk StoredZstd.chunk.rawPayload streamId 0, summary.encode streamId 1]

omit [Sha256] [Features] in
theorem forall_roundTrips_storedZstd :
    letI := StoredZstd.features
    ∀ z, Features.zstd = some z → z.RoundTrips := by
  intro z hz
  obtain rfl := Option.some.inj hz
  exact StoredZstd.roundTrips

omit [Sha256] [Features] in
theorem transcript_chunkSegments :
    letI := exchangeSha256
    letI := StoredZstd.features
    Transcript 42 0 [.ofChunk StoredZstd.chunk, .ofEnd summary] chunkSegments := by
  let _ := exchangeSha256
  let _ := StoredZstd.features
  have hchunk : Frame.Written 42 0 (.ofChunk StoredZstd.chunk) (chunkSegments.getD 0 []) :=
    .zstdChunk rfl rfl
  have hend : Frame.Written 42 1 (.ofEnd summary) (summary.encode 42 1) := .identity rfl
  exact .cons rfl hchunk (.cons rfl hend .nil)

theorem transcript_identitySegments (streamId : UInt32) :
    Transcript streamId 0 [.ofChunk StoredZstd.chunk, .ofEnd summary]
      (identitySegments streamId) := by
  have hchunk : Frame.Written streamId 0 (.ofChunk StoredZstd.chunk)
      (frameBytes kindChunk StoredZstd.chunk.rawPayload streamId 0) := .identity rfl
  have hend : Frame.Written streamId 1 (.ofEnd summary) (summary.encode streamId 1) :=
    .identity rfl
  exact .cons rfl hchunk (.cons rfl hend .nil)

omit [Sha256] [Features] in
/-- The client gets the chunk and the summary. -/
theorem parseStream_transcript_chunk :
    letI := exchangeSha256
    letI := StoredZstd.features
    parseStream chunkSegments.flatten = .ok [.ofChunk StoredZstd.chunk, .ofEnd summary] := by
  let _ := exchangeSha256
  let _ := StoredZstd.features
  refine (parseStream_transcript forall_roundTrips_storedZstd 42 (by decide) _ chunkSegments
    transcript_chunkSegments).1 ?_
  exact ⟨⟨[.ofChunk StoredZstd.chunk], .ofEnd summary, rfl, rfl, by simp [Frame.isTerminator]⟩,
      by simp [Frame.Readable]⟩

/-! ## Streams that are passed on -/

omit [Features] in
/-- The encoders of the frames of a stream, from the place `i` on. -/
def encodeStream (streamId : UInt32) : ℕ → List Frame → CodecResult Bytes
  | _, [] => pure []
  | i, frame :: frames => do
    let b ← frame.encode streamId (UInt64.ofNat i)
    let rest ← encodeStream streamId (i + 1) frames
    pure (b ++ rest)

theorem IsSegment.streamId_ne {s : Bytes} (hs : IsSegment streamId i s frame) : streamId ≠ 0 := by
  obtain ⟨hdr, wire, rest, rfl, -, hacc⟩ := parseFrame_eq_ok.mp hs.parse
  have hid := hs.streamId_eq
  rw [List.append_assoc, (hdr.read_bytes_append _).1] at hid
  exact Except.ok.inj hid ▸ hacc.streamId_ne

/-- The frame of a segment is encoded to a segment, and to the same bytes if it was not
compressed. -/
theorem IsSegment.exists_encode {s : Bytes} (hs : IsSegment streamId i s frame)
    (hframe : ∀ e, frame ≠ .ofError e) : ∃ b, frame.encode streamId (UInt64.ofNat i) = .ok b ∧
      IsSegment streamId i b frame ∧ (s[7]? = some 0 → b = s) := by
  obtain ⟨hdr, wire, rest, rfl, -, hacc⟩ := parseFrame_eq_ok.mp hs.parse
  obtain ⟨sequence, hseq, rfl⟩ := hs.sequence_eq
  obtain ⟨payload, -, -, hdecode⟩ := hacc.payload
  obtain ⟨hframe', hr, -⟩ := (decodePayload_eq_ok.mp hdecode).2.encodable hframe
  have hencode : frame.encode streamId sequence = .ok _ := Frame.encode_eq_ok.mpr ⟨hframe', rfl⟩
  obtain ⟨hdr', wire', hb, hcarries⟩ := exists_carries_of_encode hencode
  rw [UInt64.ofNat_toNat]
  refine ⟨_, hencode, hb ▸ hcarries.isSegment hs.streamId_ne hr, fun hflags ↦ ?_⟩
  obtain ⟨sid, seq, hsid, hseq', hback⟩ := Frame.encode_of_parseFrame hs.parse hflags hframe
  obtain rfl := Except.ok.inj (hs.streamId_eq.symm.trans hsid)
  obtain rfl := Except.ok.inj (hseq.symm.trans hseq')
  rw [List.take_length] at hback
  exact Except.ok.inj (hencode.symm.trans hback)

theorem Segments.streamId_ne (h : Segments streamId i segs frames) : streamId ≠ 0 := by
  cases h with
  | last hs _ => exact hs.streamId_ne
  | cons hs _ _ => exact hs.streamId_ne

theorem Segments.streamId_eq (h : Segments streamId i segs frames) :
    ∀ s ∈ segs, readU32 s 20 = .ok streamId := by
  induction h with
  | last hs _ => exact List.forall_mem_singleton.mpr hs.streamId_eq
  | cons hs _ _ ih => exact List.forall_mem_cons.mpr ⟨hs.streamId_eq, ih⟩

theorem Segments.encodeStream_eq_ok (h : Segments streamId i segs frames)
    (hframes : ∀ e, .ofError e ∉ frames) :
    ∃ segs', encodeStream streamId i frames = .ok segs'.flatten ∧
      Segments streamId i segs' frames ∧ ((∀ s ∈ segs, s[7]? = some 0) → segs' = segs) := by
  induction h with
  | @last i s frame hs hend =>
    obtain ⟨b, hb, hseg, hsame⟩ :=
      hs.exists_encode fun e he ↦ hframes e (List.mem_singleton.mpr he.symm)
    refine ⟨[b], ?_, .last hseg hend, fun hflags ↦ ?_⟩
    · rw [encodeStream, hb, ok_bind]
      rfl
    · rw [hsame (hflags s (List.mem_singleton_self s))]
  | @cons i s frame segs frames hs hend _ ih =>
    obtain ⟨b, hb, hseg, hsame⟩ :=
      hs.exists_encode fun e he ↦ hframes e (List.mem_cons.mpr (.inl he.symm))
    obtain ⟨segs', hencode, hsegs, hsame'⟩ :=
      ih fun e he ↦ hframes e (List.mem_cons_of_mem _ he)
    refine ⟨b :: segs', ?_, .cons hseg hend hsegs, fun hflags ↦ ?_⟩
    · rw [encodeStream, hb, ok_bind, hencode, ok_bind]
      rfl
    · obtain ⟨hs', hflags⟩ := List.forall_mem_cons.mp hflags
      rw [hsame hs', hsame' hflags]

/-- **An accepted stream can be passed on without compression**, unless it ends with an error: its
frames are encoded with the stream identity that they have, they are read back from that, and it is
the same stream if no frame was compressed. -/
theorem parseStream_encodeStream (buf : Bytes) (segs : List Bytes) (frames : List Frame)
    (h : IsSegmentation buf segs frames) (hframes : ∀ e, .ofError e ∉ frames) :
    ∃ streamId b, streamId ≠ 0 ∧ (∀ s ∈ segs, readU32 s 20 = .ok streamId) ∧
      encodeStream streamId 0 frames = .ok b ∧ parseStream b = .ok frames ∧
      ((∀ s ∈ segs, s[7]? = some 0) → b = buf) := by
  obtain ⟨sid, hsegs, rfl⟩ := isSegmentation_iff.mp h
  obtain ⟨segs', hencode, hsegs', hsame⟩ := hsegs.encodeStream_eq_ok hframes
  exact ⟨sid, _, hsegs.streamId_ne, hsegs.streamId_eq, hencode,
    parseStream_eq_ok.mpr ⟨sid, segs', hsegs', rfl⟩, fun hflags ↦ by rw [hsame hflags]⟩

omit [Features] in
/-- The pages of an empty directory, and a summary. -/
def sampleSegments (streamId : UInt32) : List Bytes :=
  [frameBytes kindMeta (emptyPages 1).rawPayload streamId 0, summary.encode streamId 1]

omit [Sha256] [Features] in
theorem segments_sample {streamId : UInt32} (hstream : streamId ≠ 0) :
    letI := sampleSha256
    letI := identityOnly
    Segments streamId 0 (sampleSegments streamId) [.ofMeta (emptyPages 1), .ofEnd summary] := by
  let _ := sampleSha256
  let _ := identityOnly
  have hpages : (Frame.ofMeta (emptyPages 1)).encode streamId 0 =
      .ok (frameBytes kindMeta (emptyPages 1).rawPayload streamId 0) := rfl
  have hend : (Frame.ofEnd summary).encode streamId 1 = .ok (summary.encode streamId 1) := rfl
  obtain ⟨hdr, wire, hb, hcarries⟩ := exists_carries_of_encode hpages
  obtain ⟨hdr', wire', hb', hcarries'⟩ := exists_carries_of_encode hend
  refine .cons ?_ rfl (.last ?_ rfl)
  · rw [hb]
    exact hcarries.isSegment hstream ⟨by decide, by decide⟩
  · rw [hb']
    exact hcarries'.isSegment hstream trivial

omit [Sha256] [Features] in
/-- Pages that were not compressed. -/
theorem parseStream_encodeStream_sample :
    letI := sampleSha256
    letI := identityOnly
    encodeStream 42 0 [.ofMeta (emptyPages 1), .ofEnd summary] = .ok sampleStream := by
  let _ := sampleSha256
  let _ := identityOnly
  obtain ⟨streamId, b, -, hid, hencode, -, hsame⟩ := parseStream_encodeStream sampleStream _ _
    (isSegmentation_iff.mpr ⟨42, segments_sample (by decide), by
      simp [sampleStream, sampleSegments]⟩) (by simp)
  obtain rfl : streamId = 42 := by
    have h := hid (frameBytes kindMeta (emptyPages 1).rawPayload 42 0) (by simp [sampleSegments])
    exact Except.ok.inj (h.symm.trans (by decide +kernel))
  rwa [hsame (by decide +kernel)] at hencode

end TreeFrame

end wire

end Mst2
