import Mst2Codec.TreeFrame.Frames

/-!
# Frames with compression

The encoders behind the feature `zstd` write the raw payload a second time and compress it.  The
header digest is that of the raw payload, so a compressed frame and the identity frame of the same
payload carry the same content (`TreeFrame.zstd_interchangeable`): the headers differ in the flags
and the wire length, and `parse_frame` makes the same of both, errors included.

All that is needed of the library is `ZstdLib.RoundTrips`: payloads within the limits are
compressed, their compressed form is within its own limit, and the strict decompressor returns them.
-/

set_option autoImplicit false

namespace Mst2

open Bytes Except TreeFrame

/-! ## The encoders -/

section

variable [Sha256] (z : ZstdLib)

/-- `frame_bytes_zstd` -/
def TreeFrame.frameBytesZstd (kind : UInt8) (rawPayload : Bytes) (streamId : UInt32)
    (sequence : UInt64) : CodecResult Bytes := do
  let wire ← z.compressFrame rawPayload 3
  pure (header kind flagZstd (UInt32.ofNat wire.length) (UInt32.ofNat rawPayload.length) streamId
    sequence (sha256 rawPayload) ++ wire)

namespace MetaPayload

/-- The loop of `raw_payload`. -/
def rawPages : List (Digest × Bytes) → Bytes
  | [] => []
  | (pid, page) :: pages =>
    pid.bytes ++ writeU32 (UInt32.ofNat page.length) ++ page ++ rawPages pages

/-- `MetaPayload::raw_payload` -/
def rawPayloadZstd (p : MetaPayload) : CodecResult Bytes :=
  pure (writeU16 (UInt16.ofNat p.pages.length) ++ writeU16 0 ++ rawPages p.pages)

/-- `MetaPayload::encode_zstd` -/
def encodeZstd (p : MetaPayload) (streamId : UInt32) (sequence : UInt64) : CodecResult Bytes := do
  let _ ← p.encode streamId sequence
  let payload ← p.rawPayloadZstd
  frameBytesZstd z kindMeta payload streamId sequence

end MetaPayload

namespace ObjectPayload

/-- The first loop of `raw_payload`. -/
def rawTable : UInt32 → List (Digest × Bytes) → CodecResult Bytes
  | _, [] => pure []
  | off, (cid, data) :: objects => do
    let next ← checkedAddU32 off (UInt32.ofNat data.length) "offset"
    let rest ← rawTable next objects
    pure (cid.bytes ++ writeU32 (UInt32.ofNat data.length) ++ writeU32 off ++ rest)

/-- `ObjectPayload::raw_payload` -/
def rawPayloadZstd (p : ObjectPayload) : CodecResult Bytes := do
  let table ← rawTable 0 p.objects
  pure (writeU16 (UInt16.ofNat p.objects.length) ++ writeU16 0 ++ table ++ dataArea p.objects)

/-- `ObjectPayload::encode_zstd` -/
def encodeZstd (p : ObjectPayload) (streamId : UInt32) (sequence : UInt64) :
    CodecResult Bytes := do
  let _ ← p.encode streamId sequence
  let payload ← p.rawPayloadZstd
  frameBytesZstd z kindObject payload streamId sequence

end ObjectPayload

namespace ChunkPayload

/-- `ChunkPayload::raw_payload` -/
def rawPayloadZstd (p : ChunkPayload) : Bytes :=
  p.mapId.bytes ++ p.fileContentId.bytes ++ writeU64 p.chunkIndex ++
    writeU32 (UInt32.ofNat p.chunkBytes.length) ++ p.chunkBytes

/-- `ChunkPayload::encode_zstd` -/
def encodeZstd (p : ChunkPayload) (streamId : UInt32) (sequence : UInt64) :
    CodecResult Bytes := do
  reject (p.chunkBytes.length > chunkMaxLen) (.badLength "chunk over 1MiB")
  frameBytesZstd z kindChunk p.rawPayloadZstd streamId sequence

end ChunkPayload

end

/-! ## The payload is written twice -/

theorem MetaPayload.rawPayloadZstd_eq (p : MetaPayload) : p.rawPayloadZstd = .ok p.rawPayload := by
  have hpages : ∀ pages, rawPages pages = pages.flatMap pageBytes := by
    intro pages
    induction pages with
    | nil => rfl
    | cons x pages ih => simp only [rawPages, ih, List.flatMap_cons, pageBytes, List.append_assoc]
  rw [rawPayloadZstd, hpages]
  rfl

/-- The second table agrees with the first wherever the first is written. -/
theorem ObjectPayload.rawTable_of_encodeTable [Sha256] {objects : List (Digest × Bytes)}
    {off : UInt32} {table : Bytes} (h : encodeTable off objects = .ok table) :
    rawTable off objects = .ok table := by
  induction objects generalizing off table with
  | nil => exact h
  | cons x objects ih =>
    obtain ⟨cid, data⟩ := x
    rw [encodeTable, reject_bind_eq_ok, reject_bind_eq_ok, bind_eq_ok] at h
    obtain ⟨-, -, next, hnext, h⟩ := h
    rw [bind_eq_ok] at h
    obtain ⟨rest, hrest, h⟩ := h
    rw [rawTable, hnext, ok_bind, ih hrest, ok_bind]
    exact h

theorem ObjectPayload.rawPayloadZstd_eq [Sha256] {p : ObjectPayload} (h : p.Encodable) :
    p.rawPayloadZstd = .ok p.rawPayload := by
  have hlength := length_rawPayload p
  have hle := h.length_rawPayload_le
  rw [objectMaxRaw] at hle
  have htable : encodeTable 0 p.objects = .ok (tableBytes 0 p.objects) :=
    encodeTable_eq_ok.mpr ⟨h.sha256_eq, h.length_object_le, by simp; omega, rfl⟩
  rw [rawPayloadZstd, rawTable_of_encodeTable htable]
  rfl

/-! ## Compressed frames -/

/-- The library compresses every payload within the limits to at most `dataMaxWire` bytes, which
the strict decompressor takes back. -/
def ZstdLib.RoundTrips (z : ZstdLib) : Prop :=
  ∀ x : Bytes, x.length ≤ 76 + chunkMaxLen → ∃ wire, z.compressFrame x 3 = .ok wire ∧
    wire.length ≤ dataMaxWire ∧ z.decompressStrict wire x.length = .ok x

/-- An identity encoder and a compressing encoder of one payload succeed together.  The two headers
agree but for the flags and the wire length, and the frames are parsed alike. -/
structure Interchangeable [Sha256] [Features] (identity compressed : CodecResult Bytes) : Prop where
  /-- Both succeed or neither. -/
  ok_iff : (∃ bytes, compressed = .ok bytes) ↔ ∃ bytes, identity = .ok bytes
  /-- The headers. -/
  headers : ∀ b c, identity = .ok b → compressed = .ok c → ∃ (h : FrameHeader) (wireLen : UInt32),
    h.flags = 0 ∧ b.take TreeFrame.headerLen = h.bytes ∧
      c.take TreeFrame.headerLen = { h with flags := flagZstd, wireLen := wireLen }.bytes
  /-- The frames, or the errors. -/
  frames : ∀ b c, identity = .ok b → compressed = .ok c →
    Prod.fst <$> parseFrame b = Prod.fst <$> parseFrame c

section

variable [Sha256] [Features] {z : ZstdLib}

/-- The frame that is parsed depends on the raw payload, not on its form on the wire. -/
theorem frame_of_rawPayload {hdr : FrameHeader} {wire payload : Bytes} {limit : ℕ}
    (hflags : hdr.flags &&& ~~~flagZstd = 0) (hkind : ¬ (hdr.kind = kindEnd ∨ hdr.kind = kindError))
    (hidentity : hdr.flags &&& flagZstd = 0 → hdr.wireLen = hdr.rawLen)
    (hlimit : rawLimit hdr.kind = .ok limit) (hraw : hdr.rawLen.toNat ≤ limit)
    (hwireLe : wire.length ≤ dataMaxWire) (hwireLen : hdr.wireLen.toNat = wire.length)
    (hpayload : rawPayload hdr.flags wire hdr.rawLen = .ok payload)
    (hdigest : sha256 payload = hdr.payloadSha256) :
    Prod.fst <$> parseFrame (hdr.bytes ++ wire) =
      if hdr.streamId = 0 then .error (.badConstant "stream_id must be non-zero")
      else decodePayload hdr.kind payload hdr.rawLen := by
  rw [← List.append_nil (hdr.bytes ++ wire), parseFrame_bytes_append hflags
    (fun hk ↦ absurd hk hkind) hidentity hlimit hraw (hwireLen.trans_le hwireLe) hwireLen, hpayload]
  split
  · rename_i hstream
    rw [reject, if_pos hstream]
    rfl
  · rename_i hstream
    rw [reject_of_not hstream, ok_bind, ok_bind, reject_of_not (not_not.mpr hdigest), ok_bind]
    cases decodePayload hdr.kind payload hdr.rawLen with
    | error e => rfl
    | ok frame => rfl

/-- The two frames of one payload. -/
theorem interchangeable_frameBytes (hz : Features.zstd = some z) (hlib : z.RoundTrips)
    {kind : UInt8} (hdata : kind = kindMeta ∨ kind = kindObject ∨ kind = kindChunk) {limit : ℕ}
    (hlimit : rawLimit kind = .ok limit) {payload : Bytes} (hle : payload.length ≤ limit)
    (streamId : UInt32) (sequence : UInt64) :
    Interchangeable (.ok (frameBytes kind payload streamId sequence))
      (frameBytesZstd z kind payload streamId sequence) := by
  have hmax := hle.trans (rawLimit_le hlimit)
  obtain ⟨wire, hcompress, hwire, hback⟩ := hlib payload hmax
  let ident := identityHeader kind payload streamId sequence
  let comp := { ident with flags := flagZstd, wireLen := UInt32.ofNat wire.length }
  have hframe : frameBytesZstd z kind payload streamId sequence = .ok (comp.bytes ++ wire) := by
    rw [frameBytesZstd, hcompress]
    rfl
  rw [chunkMaxLen] at hmax
  have hraw : (UInt32.ofNat payload.length).toNat = payload.length := toNat_ofNat_u32 (by omega)
  have hwireLen : (UInt32.ofNat wire.length).toNat = wire.length :=
    toNat_ofNat_u32 (by rw [dataMaxWire] at hwire; omega)
  have hkind : ¬ (kind = kindEnd ∨ kind = kindError) := by
    rcases hdata with rfl | rfl | rfl <;> decide
  have hpayload : rawPayload flagZstd wire (UInt32.ofNat payload.length) = .ok payload := by
    rw [rawPayload, if_neg (by decide), hz]
    exact hraw.symm ▸ hback
  have hident : Prod.fst <$> parseFrame (ident.bytes ++ payload) = _ :=
    frame_of_rawPayload (show 0 &&& ~~~flagZstd = 0 by decide) hkind (fun _ ↦ rfl) hlimit
      (hraw.trans_le hle) (by rw [dataMaxWire]; omega) hraw rawPayload_of_identity rfl
  have hcomp : Prod.fst <$> parseFrame (comp.bytes ++ wire) = _ :=
    frame_of_rawPayload (show flagZstd &&& ~~~flagZstd = 0 by decide) hkind
      (fun h ↦ absurd h (show flagZstd &&& flagZstd ≠ 0 by decide)) hlimit (hraw.trans_le hle)
      hwire hwireLen hpayload rfl
  rw [hframe]
  refine ⟨⟨fun _ ↦ ⟨_, rfl⟩, fun _ ↦ ⟨_, rfl⟩⟩, ?_, ?_⟩
  · rintro _ _ ⟨⟩ ⟨⟩
    exact ⟨ident, UInt32.ofNat wire.length, rfl, List.take_left' ident.length_bytes,
      List.take_left' comp.length_bytes⟩
  · rintro _ _ ⟨⟩ ⟨⟩
    exact hident.trans hcomp.symm

/-- An encoder that fails, and one that fails before it compresses. -/
theorem Interchangeable.of_error {e e' : CodecError} :
    Interchangeable (.error e) (.error e') :=
  ⟨⟨nofun, nofun⟩, nofun, nofun⟩

theorem MetaPayload.interchangeable (hz : Features.zstd = some z) (hlib : z.RoundTrips)
    (p : MetaPayload) (streamId : UInt32) (sequence : UInt64) :
    Interchangeable (p.encode streamId sequence) (p.encodeZstd z streamId sequence) := by
  rw [encodeZstd]
  cases h : p.encode streamId sequence with
  | error e => exact .of_error
  | ok bytes =>
    obtain ⟨hp, rfl⟩ := encode_eq_ok.mp h
    rw [ok_bind, rawPayloadZstd_eq, ok_bind]
    exact interchangeable_frameBytes hz hlib (.inl rfl) rfl hp.length_rawPayload_le _ _

theorem ObjectPayload.interchangeable (hz : Features.zstd = some z) (hlib : z.RoundTrips)
    (p : ObjectPayload) (streamId : UInt32) (sequence : UInt64) :
    Interchangeable (p.encode streamId sequence) (p.encodeZstd z streamId sequence) := by
  rw [encodeZstd]
  cases h : p.encode streamId sequence with
  | error e => exact .of_error
  | ok bytes =>
    obtain ⟨hp, rfl⟩ := encode_eq_ok.mp h
    rw [ok_bind, rawPayloadZstd_eq hp, ok_bind]
    exact interchangeable_frameBytes hz hlib (.inr (.inl rfl)) rfl hp.length_rawPayload_le _ _

theorem ChunkPayload.interchangeable (hz : Features.zstd = some z) (hlib : z.RoundTrips)
    (p : ChunkPayload) (streamId : UInt32) (sequence : UInt64) :
    Interchangeable (p.encode streamId sequence) (p.encodeZstd z streamId sequence) := by
  rw [encode, encodeZstd]
  by_cases hp : p.chunkBytes.length > chunkMaxLen
  · rw [reject, if_pos hp]
    exact .of_error
  · have hlen := length_rawPayload p
    rw [reject_of_not hp, ok_bind, ok_bind, show p.rawPayloadZstd = p.rawPayload from rfl]
    exact interchangeable_frameBytes hz hlib (.inr (.inr rfl)) rfl (by omega) _ _

/-- **Compressed and identity frames are interchangeable**, with a library that takes back what it
has compressed. -/
theorem TreeFrame.zstd_interchangeable (z : ZstdLib) (hz : Features.zstd = some z)
    (hlib : z.RoundTrips) (streamId : UInt32) (sequence : UInt64) :
    (∀ p : MetaPayload,
      Interchangeable (p.encode streamId sequence) (p.encodeZstd z streamId sequence)) ∧
    (∀ p : ObjectPayload,
      Interchangeable (p.encode streamId sequence) (p.encodeZstd z streamId sequence)) ∧
    ∀ p : ChunkPayload,
      Interchangeable (p.encode streamId sequence) (p.encodeZstd z streamId sequence) :=
  ⟨fun p ↦ p.interchangeable hz hlib streamId sequence,
    fun p ↦ p.interchangeable hz hlib streamId sequence,
    fun p ↦ p.interchangeable hz hlib streamId sequence⟩

end

/-! ### A library that stores -/

namespace StoredZstd

/-- A frame with one raw block.  It announces its content size if that is a single byte, and a
window of 2 MiB otherwise. -/
def frame (x : Bytes) : Bytes :=
  zstdMagic ++ (if x.length < 256 then [0x20, UInt8.ofNat x.length] else [0, 0x58]) ++
    leBytes 3 (8 * x.length + 1) ++ x

/-- Decode a frame with one raw block. -/
def decompressStream (rest : Bytes) (room : ℕ) : Option (DecoderStep Unit rest room) :=
  let block := ofLe ((rest.drop 6).take 3)
  if h : 9 + block / 8 ≤ rest.length ∧ block / 8 ≤ room ∧ block % 8 = 1 then
    some ⟨0, (), 9 + block / 8, (rest.drop 9).take (block / 8), h.1,
      (List.length_take_le _ _).trans h.2.1⟩
  else none

/-- A library that compresses nothing. -/
def lib : ZstdLib where
  compress x _ := some (frame x)
  DCtx := Unit
  create := ()
  setWindowLogMax ctx _ := some ctx
  decompressStream _ rest room := decompressStream rest room

theorem length_frame (x : Bytes) : (frame x).length = 9 + x.length := by
  rw [frame]
  split <;> simp [zstdMagic] <;> omega

theorem contentSize_singleton {n : ℕ} (h : n < 256) :
    contentSize [UInt8.ofNat n] = UInt64.ofNat n := by
  apply UInt64.toNat_inj.mp
  simp [contentSize]
  omega

/-- A header of a single segment, with its size in one byte. -/
theorem validateFrameHeader_segment {wire : Bytes} {n : ℕ} (h : n < 256)
    (hdesc : wire[4]? = some 0x20) (hsize : wire[5]? = some (UInt8.ofNat n)) :
    validateFrameHeader wire n = .ok () := by
  have hlt : 5 < wire.length := (List.getElem?_eq_some_iff.mp hsize).1
  have hdict : slice? wire 5 (dictionaryLen 0x20) = some [] :=
    slice?_of_drop hlt.le (List.nil_append _).symm rfl
  have hsize' : slice? wire (5 + dictionaryLen 0x20) 1 = some [UInt8.ofNat n] :=
    slice?_singleton.mpr hsize
  have hsingle : decide ((0x20 : UInt8) &&& 0x20 ≠ 0) = true := by decide
  have hlen : contentSizeLen 0x20 true = 1 := by decide
  have hle : ¬ UInt64.ofNat n > (1 : UInt64) <<< UInt64.ofNat maxWindowLog := by
    rw [gt_iff_lt, UInt64.lt_iff_toNat_lt, toNat_ofNat_u64 (by omega)]
    simp [maxWindowLog]
    omega
  rw [validateFrameHeader, hdesc, okOr_some, ok_bind, reject_of_not (by decide), ok_bind,
    if_pos hsingle, show (pure 5 : CodecResult ℕ) = .ok 5 from rfl, ok_bind]
  dsimp only
  rw [hdict, okOr_some, ok_bind, reject_of_not (by simp), ok_bind, hsingle, hlen,
    if_pos (by decide), hsize', okOr_some, ok_bind, if_neg (by decide), contentSize_singleton h,
    reject_of_not (fun hc ↦ hle hc.2), ok_bind, reject_of_not (not_not.mpr rfl)]

/-- A header with a window of 2 MiB and no size. -/
theorem validateFrameHeader_window {wire : Bytes} {n : ℕ} (hdesc : wire[4]? = some 0)
    (hwindow : wire[5]? = some 0x58) : validateFrameHeader wire n = .ok () := by
  have hlt : 5 < wire.length := (List.getElem?_eq_some_iff.mp hwindow).1
  have hdict : slice? wire 6 (dictionaryLen 0) = some [] :=
    slice?_of_drop hlt (List.nil_append _).symm rfl
  rw [validateFrameHeader, hdesc, okOr_some, ok_bind, reject_of_not (by decide), ok_bind,
    if_neg (by decide), hwindow, okOr_some, ok_bind, reject_of_not (by decide), ok_bind,
    show (pure 6 : CodecResult ℕ) = .ok 6 from rfl, ok_bind]
  dsimp only
  rw [hdict, okOr_some, ok_bind]
  rfl

theorem validateFrameHeader_frame (x : Bytes) :
    validateFrameHeader (frame x) x.length = .ok () := by
  rw [frame]
  split
  · rename_i hlt
    exact validateFrameHeader_segment hlt rfl rfl
  · exact validateFrameHeader_window rfl rfl

theorem decompressStream_frame {x : Bytes} (hx : x.length < 2 ^ 21) :
    ∃ step, decompressStream (frame x) x.length = some step ∧ step.hint = 0 ∧
      step.consumed = (frame x).length ∧ step.produced = x := by
  have hhead : ((zstdMagic ++ if x.length < 256 then [0x20, UInt8.ofNat x.length]
      else [0, 0x58]) : Bytes).length = 6 := by
    split <;> rfl
  have hlen := length_frame x
  have hblock : ofLe (((frame x).drop 6).take 3) = 8 * x.length + 1 := by
    rw [frame, List.append_assoc, List.drop_left' hhead, List.take_left' (length_leBytes 3 _),
      ofLe_leBytes (by omega)]
  have hdrop : (frame x).drop 9 = x := by
    rw [frame, List.drop_left' (by rw [List.length_append, hhead, length_leBytes])]
  have hdiv : ofLe (((frame x).drop 6).take 3) / 8 = x.length := by omega
  have hmod : ofLe (((frame x).drop 6).take 3) % 8 = 1 := by omega
  have hprod : ((frame x).drop 9).take (ofLe (((frame x).drop 6).take 3) / 8) = x := by
    rw [hdiv, hdrop, List.take_length]
  have hend : 9 + ofLe (((frame x).drop 6).take 3) / 8 = (frame x).length := by omega
  exact ⟨_, dif_pos ⟨by omega, by omega, hmod⟩, rfl, hend, hprod⟩

/-- The last call of the decoder. -/
theorem decompressLoop_of_hint {z : ZstdLib} {rawLen : ℕ} {ctx : z.DCtx} {rest out : Bytes}
    {step : DecoderStep z.DCtx rest (rawLen - out.length)}
    (h : z.decompressStream ctx rest (rawLen - out.length) = some step) (hhint : step.hint = 0) :
    z.decompressLoop rawLen ctx rest out =
      .ok (rest.drop step.consumed, out ++ step.produced) := by
  unfold ZstdLib.decompressLoop
  simp only [h, hhint, if_true]

/-- A decoder that takes the whole wire payload and returns as much as announced. -/
theorem decompressStrict_of_loop {z : ZstdLib} {wire out : Bytes} {ctx : z.DCtx}
    (hmax : ¬ out.length > maxRawPayload) (hmagic : ¬ (wire.length < 4 ∨ wire.take 4 ≠ zstdMagic))
    (hheader : validateFrameHeader wire out.length = .ok ())
    (hwindow : z.setWindowLogMax z.create maxWindowLog = some ctx)
    (hloop : z.decompressLoop out.length ctx wire [] = .ok ([], out)) :
    z.decompressStrict wire out.length = .ok out := by
  rw [ZstdLib.decompressStrict, reject_of_not hmax, ok_bind, reject_of_not hmagic, ok_bind,
    hheader, ok_bind, hwindow, okOr_some, ok_bind, hloop, ok_bind]
  dsimp only
  rw [reject_of_not (not_not.mpr rfl), ok_bind, reject_of_not (not_not.mpr rfl)]
  rfl

/-- Storing loses nothing. -/
theorem roundTrips : lib.RoundTrips := by
  intro x hx
  have hlen := length_frame x
  have hmax : ¬ x.length > maxRawPayload := by
    rw [maxRawPayload]
    rw [chunkMaxLen] at hx
    omega
  rw [chunkMaxLen] at hx
  obtain ⟨step, hstep, hhint, hconsumed, hproduced⟩ :=
    decompressStream_frame (x := x) (by omega)
  have hloop : lib.decompressLoop x.length () (frame x) [] = .ok ([], x) := by
    have h : lib.decompressLoop x.length () (frame x) [] =
        .ok ((frame x).drop step.consumed, [] ++ step.produced) :=
      decompressLoop_of_hint hstep hhint
    rw [h, hconsumed, hproduced, List.drop_length, List.nil_append]
  refine ⟨frame x, rfl, by rw [hlen, dataMaxWire]; omega,
    decompressStrict_of_loop (z := lib) hmax ?_ (validateFrameHeader_frame x) rfl hloop⟩
  rw [not_or, not_not]
  exact ⟨by omega, by rw [frame, List.append_assoc, List.append_assoc]; exact List.take_left' rfl⟩

/-- A chunk of four bytes. -/
def chunk : ChunkPayload where
  mapId := emptyPageId
  fileContentId := .ofNat 0xe80751730dcee5053e62dc633c2d063a79d9fce3f0e602d733230ef40c08d75b
  chunkIndex := 0x8a3f19c6d527e04b
  chunkBytes := "mst2".asBytes

/-- SHA-256 on its payload. -/
@[reducible] def chunkSha256 : Sha256 := .ofTable [(chunk.rawPayload,
  .ofNat 0xdadb1b2d469acfbd287b0e2b13ca8c631dda8d0d90632f28a042889f0831fd3a)]

/-- A build with this library. -/
@[reducible] def features : Features := ⟨some lib⟩

end StoredZstd

/-- The two frames of a chunk that does not compress. -/
theorem TreeFrame.zstd_interchangeable_chunk :
    letI := StoredZstd.chunkSha256
    letI := StoredZstd.features
    ∃ b c, StoredZstd.chunk.encode 42 7 = .ok b ∧
      StoredZstd.chunk.encodeZstd StoredZstd.lib 42 7 = .ok c ∧ b ≠ c ∧
      Prod.fst <$> parseFrame b = .ok (.ofChunk StoredZstd.chunk) ∧
      Prod.fst <$> parseFrame c = .ok (.ofChunk StoredZstd.chunk) := by
  let _ := StoredZstd.chunkSha256
  let _ := StoredZstd.features
  have h := (TreeFrame.zstd_interchangeable StoredZstd.lib rfl StoredZstd.roundTrips 42 7).2.2
    StoredZstd.chunk
  have hb : StoredZstd.chunk.encode 42 7 =
      .ok (frameBytes kindChunk StoredZstd.chunk.rawPayload 42 7) := by decide +kernel
  obtain ⟨c, hc⟩ := h.ok_iff.mpr ⟨_, hb⟩
  have hparse := ChunkPayload.parseFrame_encode (by decide) hb
  refine ⟨_, c, hb, hc, ?_, by rw [hparse]; rfl, by rw [← h.frames _ _ hb hc, hparse]; rfl⟩
  obtain ⟨hdr, wireLen, hflags, hb', hc'⟩ := h.headers _ _ hb hc
  intro heq
  rw [← heq, hb'] at hc'
  have := congrArg FrameHeader.flags (FrameHeader.bytes_injective hc')
  exact absurd (hflags.symm.trans this) (show (0 : UInt8) ≠ flagZstd by decide)

end Mst2
