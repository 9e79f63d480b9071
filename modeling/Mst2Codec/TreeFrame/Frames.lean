import Mst2Codec.TreeFrame.Payloads

/-!
# Frames without compression

`parseFrame_frameBytes` reduces the parsing of a frame that was written without compression to the
decoding of its payload, and `take_eq_frameBytes` says that every accepted frame without the zstd
flag is one that `frameBytes` writes.  Hence such frames are canonical bytes
(`TreeFrame.identity_canonical`).

The encoders of META and OBJECT frames do not make all checks of their decoders.
`MetaPayload.parseFrame_meta_iff` and `ObjectPayload.parseFrame_object_iff` say which of the frames
they write are accepted.
-/

set_option autoImplicit false

namespace Mst2

open Bytes Except TreeFrame

variable [Sha256]

namespace Frame

/-- The kind of a frame. -/
def kind : Frame → UInt8
  | .ofMeta _ => kindMeta
  | .ofObject _ => kindObject
  | .ofChunk _ => kindChunk
  | .ofEnd _ => kindEnd
  | .ofError _ => kindError

/-- The encoder of a frame's payload. -/
def encode (frame : Frame) (streamId : UInt32) (sequence : UInt64) : CodecResult Bytes :=
  match frame with
  | .ofMeta p => p.encode streamId sequence
  | .ofObject p => p.encode streamId sequence
  | .ofChunk p => p.encode streamId sequence
  | .ofEnd p => .ok (p.encode streamId sequence)
  | .ofError p => p.encode streamId sequence

/-- The decoder of a frame's payload returns the frame. -/
def Decodes (frame : Frame) (payload : Bytes) (rawLen : UInt32) : Prop :=
  match frame with
  | .ofMeta p => MetaPayload.decode payload = .ok p
  | .ofObject p => ObjectPayload.decode payload = .ok p
  | .ofChunk p => ChunkPayload.decode payload rawLen = .ok p
  | .ofEnd p => EndPayload.decode payload = .ok p
  | .ofError p => ErrorPayload.decode payload = .ok p

end Frame

namespace TreeFrame

omit [Sha256] in
theorem map_eq_ok {α β : Type} {f : α → β} {x : CodecResult α} {b : β} :
    f <$> x = .ok b ↔ ∃ a, x = .ok a ∧ f a = b := by
  cases x <;> simp [Functor.map, Except.map]

theorem decodePayload_eq_ok {kind : UInt8} {payload : Bytes} {rawLen : UInt32} {frame : Frame} :
    decodePayload kind payload rawLen = .ok frame ↔
      kind = frame.kind ∧ frame.Decodes payload rawLen := by
  rw [decodePayload]
  constructor
  · intro h
    split at h
    · rename_i hk
      obtain ⟨p, hp, rfl⟩ := map_eq_ok.mp h
      exact ⟨hk, hp⟩
    split at h
    · rename_i hk
      obtain ⟨p, hp, rfl⟩ := map_eq_ok.mp h
      exact ⟨hk, hp⟩
    split at h
    · rename_i hk
      obtain ⟨p, hp, rfl⟩ := map_eq_ok.mp h
      exact ⟨hk, hp⟩
    split at h
    · rename_i hk
      obtain ⟨p, hp, rfl⟩ := map_eq_ok.mp h
      exact ⟨hk, hp⟩
    split at h
    · rename_i hk
      obtain ⟨p, hp, rfl⟩ := map_eq_ok.mp h
      exact ⟨hk, hp⟩
    cases h
  · rintro ⟨rfl, h⟩
    cases frame with
    | ofMeta p => exact map_eq_ok.mpr ⟨p, h, rfl⟩
    | ofObject p => exact map_eq_ok.mpr ⟨p, h, rfl⟩
    | ofChunk p => exact map_eq_ok.mpr ⟨p, h, rfl⟩
    | ofEnd p => exact map_eq_ok.mpr ⟨p, h, rfl⟩
    | ofError p => exact map_eq_ok.mpr ⟨p, h, rfl⟩

omit [Sha256] in
theorem rawLimit_le {kind : UInt8} {limit : ℕ} (h : rawLimit kind = .ok limit) :
    limit ≤ 76 + chunkMaxLen := by
  rw [rawLimit] at h
  simp only [chunkMaxLen, metaMaxRaw, objectMaxRaw, errorMaxBytes] at h ⊢
  split_ifs at h
  all_goals
    obtain rfl := Except.ok.inj h
    decide

/-- The header of a frame without compression. -/
def identityHeader (kind : UInt8) (payload : Bytes) (streamId : UInt32) (sequence : UInt64) :
    FrameHeader :=
  ⟨kind, 0, UInt32.ofNat payload.length, UInt32.ofNat payload.length, streamId, sequence,
    sha256 payload⟩

theorem frameBytes_eq {kind : UInt8} {payload : Bytes} {streamId : UInt32} {sequence : UInt64} :
    frameBytes kind payload streamId sequence =
      (identityHeader kind payload streamId sequence).bytes ++ payload := rfl

variable [Features]

omit [Sha256] in
theorem rawPayload_of_identity {wire : Bytes} {rawLen : UInt32} :
    rawPayload 0 wire rawLen = .ok wire := by
  rw [rawPayload, if_pos (by decide)]

/-- A frame of a payload within its limit is accepted if the payload is. -/
theorem parseFrame_frameBytes (frame : Frame) {payload : Bytes} {streamId : UInt32}
    {sequence : UInt64} (hstream : streamId ≠ 0) {limit : ℕ}
    (hlimit : rawLimit frame.kind = .ok limit) (hle : payload.length ≤ limit) :
    parseFrame (frameBytes frame.kind payload streamId sequence) =
        .ok (frame, (frameBytes frame.kind payload streamId sequence).length) ↔
      frame.Decodes payload (UInt32.ofNat payload.length) := by
  have hmax := rawLimit_le hlimit
  rw [chunkMaxLen] at hmax
  have hnat : (UInt32.ofNat payload.length).toNat = payload.length := toNat_ofNat_u32 (by omega)
  rw [frameBytes_eq, parseFrame_eq_ok]
  constructor
  · rintro ⟨h, wire, rest, hbuf, hused, hacc⟩
    rw [List.length_append, FrameHeader.length_bytes, Nat.add_left_cancel_iff] at hused
    rw [List.append_assoc] at hbuf
    obtain ⟨hh, hwire⟩ := List.append_inj hbuf (by simp)
    obtain rfl := FrameHeader.bytes_injective hh
    rw [← List.append_nil payload] at hwire
    obtain ⟨rfl, -⟩ := List.append_inj hwire hused
    obtain ⟨payload', hpayload, -, hdecode⟩ := hacc.payload
    obtain rfl := Except.ok.inj (rawPayload_of_identity.symm.trans hpayload)
    exact (decodePayload_eq_ok.mp hdecode).2
  · intro hdecodes
    have hflags : (0 : UInt8) &&& ~~~flagZstd = 0 := by decide
    have hzero : (0 : UInt8) &&& flagZstd = 0 := by decide
    refine ⟨_, payload, [], (List.append_nil _).symm, by simp, ⟨hflags, hstream, fun _ ↦ hzero,
      fun _ ↦ rfl, ⟨limit, hlimit, ?_⟩, ?_, hnat, payload, rawPayload_of_identity, rfl,
      decodePayload_eq_ok.mpr ⟨rfl, hdecodes⟩⟩⟩
    · exact hnat.trans_le hle
    · refine hnat.trans_le ?_
      rw [dataMaxWire]
      omega

/-- What was parsed without compression is the frame of its payload. -/
theorem take_eq_frameBytes {buf : Bytes} {frame : Frame} {used : ℕ}
    (h : parseFrame buf = .ok (frame, used)) (hflags : buf[7]? = some 0) :
    ∃ payload streamId sequence, readU32 buf 20 = .ok streamId ∧ readU64 buf 24 = .ok sequence ∧
      streamId ≠ 0 ∧ buf.take used = frameBytes frame.kind payload streamId sequence ∧
      frame.Decodes payload (UInt32.ofNat payload.length) := by
  obtain ⟨hdr, wire, rest, rfl, rfl, hacc⟩ := parseFrame_eq_ok.mp h
  have hslice : slice? (hdr.bytes ++ wire ++ rest) 0 headerLen = some hdr.bytes :=
    slice?_of_drop (Nat.zero_le _) (by rw [List.drop_zero, List.append_assoc]) hdr.length_bytes
  obtain ⟨-, -, -, hflags', -, -, -, hstream, hseq, -⟩ := slice?_header.mp hslice
  have hzero : hdr.flags = 0 := Option.some.inj (hflags'.symm.trans hflags)
  obtain ⟨payload, hpayload, hdigest, hdecode⟩ := hacc.payload
  rw [hzero] at hpayload
  obtain rfl := Except.ok.inj (rawPayload_of_identity.symm.trans hpayload)
  have hwire : UInt32.ofNat wire.length = hdr.wireLen := by
    rw [← hacc.wireLen_eq, UInt32.ofNat_toNat]
  have hraw : hdr.wireLen = hdr.rawLen := hacc.wireLen_eq_rawLen (by rw [hzero]; decide)
  obtain ⟨hkind, hdecodes⟩ := decodePayload_eq_ok.mp hdecode
  refine ⟨wire, hdr.streamId, hdr.sequence, hstream, hseq, hacc.streamId_ne, ?_, ?_⟩
  · rw [List.take_left' (by simp), frameBytes_eq]
    refine congrArg (FrameHeader.bytes · ++ wire) ?_
    exact FrameHeader.ext hkind hzero hwire.symm (hraw.symm.trans hwire.symm) rfl rfl hdigest.symm
  · rwa [hwire, hraw]

end TreeFrame

/-! ### Samples -/

namespace TreeFrame

/-- The page of an empty directory. -/
def emptyPage : Bytes := pageMagic ++ List.replicate 16 0

/-- Its identity. -/
def emptyPageId : Digest :=
  .ofNat 0x02e708fb22f963940f0f49d2d2388a59468204bf6e66c6e19cee25a978a675dc

/-- A META payload with the page of an empty directory `n` times. -/
def emptyPages (n : ℕ) : MetaPayload := ⟨List.replicate n (emptyPageId, emptyPage)⟩

/-- The identity of the empty object. -/
def emptyObjectId : Digest :=
  .ofNat 0xe3b0c44298fc1c149afbf4c8996fb92427ae41e4649b934ca495991b7852b855

/-- An OBJECT payload with the empty object `n` times. -/
def emptyObjects (n : ℕ) : ObjectPayload := ⟨List.replicate n (emptyObjectId, [])⟩

/-- The identities of two objects. -/
def pairIds : Digest × Digest :=
  (.ofNat 0xba7816bf8f01cfea414140de5dae2223b00361a396177a9cb410ff61f20015ad,
    .ofNat 0x959a45d44e6fcf58361ed004681556fe50129f2109e817dec098c00c9e5d2578)

/-- An OBJECT payload with them, the second behind the three bytes of the first. -/
def pairObjects : ObjectPayload := ⟨[(pairIds.1, "abc".asBytes), (pairIds.2, "de".asBytes)]⟩

/-- The page of a directory with a file `a`, which is the first of them. -/
def filePage : Bytes :=
  Page.frame 0 1 1
    (EntryKind.regular.toU8 :: writeU16 1 ++ "a".asBytes ++ writeU64 3 ++ pairIds.1.bytes)

/-- Its identity. -/
def filePageId : Digest :=
  .ofNat 0x036ca81cbf1dc9dbcfeacb5e30a9598168c1cd977bce5bbc74e4cf6702c216df

/-- A META payload with two pages. -/
def pairPages : MetaPayload := ⟨[(emptyPageId, emptyPage), (filePageId, filePage)]⟩

/-- SHA-256 on the strings that are hashed for these two payloads. -/
@[reducible] def pairSha256 : Sha256 := .ofTable
  [(pageInput emptyPage, emptyPageId), (pageInput filePage, filePageId),
    (pairPages.rawPayload,
      .ofNat 0x3ce27c08fa20ac06c8de30407a9c273639b351d66eb6a77da80cd4f22475a0ac),
    ("abc".asBytes, pairIds.1), ("de".asBytes, pairIds.2),
    (pairObjects.rawPayload,
      .ofNat 0x980982a53b6061c2aaf061486164ff0fbcdc611bc59ca605743dd60d1b42b339)]

/-- A summary. -/
def summary : EndPayload := ⟨2, 2, 1024, .fill 5⟩

/-- SHA-256 on the strings that are hashed for the other payloads. -/
@[reducible] def sampleSha256 : Sha256 := .ofTable
  [(pageInput emptyPage, emptyPageId),
    ((emptyPages 1).rawPayload,
      .ofNat 0x29e2ea65536625c542637348f25630955c24cd81947c576e2e72184c3d76a4f0),
    ((emptyPages 2).rawPayload,
      .ofNat 0x6f7f5e22e2b18f78a4cd2ea4833ad368182abf8ec3ccab0e3e54aa250053afec),
    ([], emptyObjectId),
    ((emptyObjects 2).rawPayload,
      .ofNat 0x5971f4bc68ba1b3002da06dc6e59f5a705b19d3c6173c49dc631a903d6c84b07),
    (summary.rawPayload,
      .ofNat 0x19eedaae448750c2c64367200e0262b0cca83b7d2dd3cf1823bb5a70f1df5528)]

/-- A build without zstd. -/
@[reducible] def identityOnly : Features := ⟨none⟩

end TreeFrame

variable [Features]

/-! ### Which META and OBJECT frames are accepted -/

/-- **A META frame that the encoder writes is accepted exactly if no page occurs twice and none has
more than 16 KiB.** -/
theorem MetaPayload.parseFrame_meta_iff (p : MetaPayload) (streamId : UInt32)
    (sequence : UInt64) (hstream : streamId ≠ 0) (bytes : Bytes)
    (h : p.encode streamId sequence = .ok bytes) :
    parseFrame bytes = .ok (.ofMeta p, bytes.length) ↔
      (p.pages.map Prod.fst).Nodup ∧ ∀ x ∈ p.pages, x.2.length ≤ pageMaxBytes := by
  obtain ⟨hp, rfl⟩ := encode_eq_ok.mp h
  rw [show kindMeta = (Frame.ofMeta p).kind from rfl,
    parseFrame_frameBytes _ hstream (show rawLimit (Frame.ofMeta p).kind = .ok metaMaxRaw from rfl)
      hp.length_rawPayload_le]
  refine decode_eq_ok.trans ⟨fun h ↦ ⟨h.2.1.nodup, h.2.1.length_page_le⟩, fun hr ↦ ?_⟩
  exact ⟨hp, ⟨hr.1, hr.2⟩, rfl⟩

omit [Sha256] [Features] in
/-- Two pages. -/
theorem MetaPayload.parseFrame_meta_iff_pair :
    letI := pairSha256
    letI := identityOnly
    ∃ bytes, pairPages.encode 42 0 = .ok bytes ∧
      parseFrame bytes = .ok (.ofMeta pairPages, bytes.length) := by
  let _ := pairSha256
  let _ := identityOnly
  have h : pairPages.encode 42 0 = .ok (frameBytes kindMeta pairPages.rawPayload 42 0) := by
    decide +kernel
  exact ⟨_, h, (parseFrame_meta_iff pairPages 42 0 (by decide) _ h).mpr (by decide +kernel)⟩

omit [Sha256] [Features] in
/-- A page that occurs twice. -/
theorem MetaPayload.parseFrame_meta_twice :
    letI := sampleSha256
    letI := identityOnly
    ¬ ∀ (p : MetaPayload) (streamId : UInt32) (sequence : UInt64) (bytes : Bytes), streamId ≠ 0 →
      p.encode streamId sequence = .ok bytes →
      parseFrame bytes = .ok (.ofMeta p, bytes.length) := by
  let _ := sampleSha256
  let _ := identityOnly
  intro hclaim
  have h := hclaim (emptyPages 2) 42 0 (frameBytes kindMeta (emptyPages 2).rawPayload 42 0)
    (by decide) (by decide +kernel)
  have hdup : parseFrame (frameBytes kindMeta (emptyPages 2).rawPayload 42 0) =
      .error (.duplicate "META page_id") := by decide +kernel
  rw [hdup] at h
  cases h

/-- **An OBJECT frame that the encoder writes is accepted exactly if no object occurs twice.** -/
theorem ObjectPayload.parseFrame_object_iff (p : ObjectPayload) (streamId : UInt32)
    (sequence : UInt64) (hstream : streamId ≠ 0) (bytes : Bytes)
    (h : p.encode streamId sequence = .ok bytes) :
    parseFrame bytes = .ok (.ofObject p, bytes.length) ↔ (p.objects.map Prod.fst).Nodup := by
  obtain ⟨hp, rfl⟩ := encode_eq_ok.mp h
  rw [show kindObject = (Frame.ofObject p).kind from rfl,
    parseFrame_frameBytes _ hstream
      (show rawLimit (Frame.ofObject p).kind = .ok objectMaxRaw from rfl) hp.length_rawPayload_le]
  exact decode_eq_ok.trans ⟨fun h ↦ h.2.1, fun hr ↦ ⟨hp, hr, rfl⟩⟩

omit [Sha256] [Features] in
/-- Two objects. -/
theorem ObjectPayload.parseFrame_object_iff_pair :
    letI := pairSha256
    letI := identityOnly
    ∃ bytes, pairObjects.encode 42 0 = .ok bytes ∧
      parseFrame bytes = .ok (.ofObject pairObjects, bytes.length) := by
  let _ := pairSha256
  let _ := identityOnly
  have h : pairObjects.encode 42 0 = .ok (frameBytes kindObject pairObjects.rawPayload 42 0) := by
    decide +kernel
  exact ⟨_, h, (parseFrame_object_iff pairObjects 42 0 (by decide) _ h).mpr (by decide +kernel)⟩

omit [Sha256] [Features] in
/-- An object that occurs twice. -/
theorem ObjectPayload.parseFrame_object_twice :
    letI := sampleSha256
    letI := identityOnly
    ¬ ∀ (p : ObjectPayload) (streamId : UInt32) (sequence : UInt64) (bytes : Bytes),
      streamId ≠ 0 → p.encode streamId sequence = .ok bytes →
      parseFrame bytes = .ok (.ofObject p, bytes.length) := by
  let _ := sampleSha256
  let _ := identityOnly
  intro hclaim
  have h := hclaim (emptyObjects 2) 42 0 (frameBytes kindObject (emptyObjects 2).rawPayload 42 0)
    (by decide) (by decide +kernel)
  have hdup : parseFrame (frameBytes kindObject (emptyObjects 2).rawPayload 42 0) =
      .error (.duplicate "content_id") := by decide +kernel
  rw [hdup] at h
  cases h

/-! ### Frames without compression are canonical -/

/-- A frame without compression is what its payload encodes to. -/
theorem Frame.encode_of_parseFrame {buf : Bytes} {frame : Frame} {used : ℕ}
    (h : parseFrame buf = .ok (frame, used)) (hflags : buf[7]? = some 0)
    (hframe : ∀ e, frame ≠ .ofError e) :
    ∃ streamId sequence, readU32 buf 20 = .ok streamId ∧ readU64 buf 24 = .ok sequence ∧
      frame.encode streamId sequence = .ok (buf.take used) := by
  obtain ⟨payload, streamId, sequence, hstream, hseq, -, htake, hdecodes⟩ :=
    take_eq_frameBytes h hflags
  refine ⟨streamId, sequence, hstream, hseq, ?_⟩
  cases frame with
  | ofMeta p =>
    obtain ⟨hp, -, rfl⟩ := MetaPayload.decode_eq_ok.mp hdecodes
    exact MetaPayload.encode_eq_ok.mpr ⟨hp, htake⟩
  | ofObject p =>
    obtain ⟨hp, -, rfl⟩ := ObjectPayload.decode_eq_ok.mp hdecodes
    exact ObjectPayload.encode_eq_ok.mpr ⟨hp, htake⟩
  | ofChunk p =>
    obtain ⟨-, hp, rfl⟩ := ChunkPayload.decode_eq_ok.mp hdecodes
    exact ChunkPayload.encode_eq_ok.mpr ⟨hp, htake⟩
  | ofEnd p =>
    obtain rfl := EndPayload.decode_eq_ok.mp hdecodes
    exact congrArg Except.ok htake.symm
  | ofError e => exact absurd rfl (hframe e)

/-- A chunk that is encoded is accepted. -/
theorem ChunkPayload.parseFrame_encode {p : ChunkPayload} {streamId : UInt32} {sequence : UInt64}
    (hstream : streamId ≠ 0) {bytes : Bytes} (h : p.encode streamId sequence = .ok bytes) :
    parseFrame bytes = .ok (.ofChunk p, bytes.length) := by
  obtain ⟨hp, rfl⟩ := encode_eq_ok.mp h
  have hlen := length_rawPayload p
  refine (parseFrame_frameBytes (.ofChunk p) hstream rfl (by omega)).mpr
    (decode_eq_ok.mpr ⟨toNat_ofNat_u32 ?_, hp, rfl⟩)
  rw [chunkMaxLen] at hp
  omega

/-- An END frame is accepted. -/
theorem EndPayload.parseFrame_encode {p : EndPayload} {streamId : UInt32} {sequence : UInt64}
    (hstream : streamId ≠ 0) :
    parseFrame (p.encode streamId sequence) = .ok (.ofEnd p, (p.encode streamId sequence).length) :=
  (parseFrame_frameBytes (.ofEnd p) hstream rfl p.length_rawPayload.le).mpr
    (decode_eq_ok.mpr rfl)

/-- **Frames without compression are canonical bytes**: what is parsed is what its payload encodes
to, and chunks and summaries parse as what was encoded. -/
theorem TreeFrame.identity_canonical :
    (∀ (buf : Bytes) (frame : Frame) (used : ℕ), parseFrame buf = .ok (frame, used) →
      buf[7]? = some 0 → (∀ e, frame ≠ .ofError e) →
      ∃ streamId sequence, readU32 buf 20 = .ok streamId ∧ readU64 buf 24 = .ok sequence ∧
        frame.encode streamId sequence = .ok (buf.take used)) ∧
    (∀ (p : ChunkPayload) (streamId : UInt32) (sequence : UInt64) (bytes : Bytes), streamId ≠ 0 →
      p.encode streamId sequence = .ok bytes →
      parseFrame bytes = .ok (.ofChunk p, bytes.length)) ∧
    ∀ (p : EndPayload) (streamId : UInt32) (sequence : UInt64), streamId ≠ 0 →
      parseFrame (p.encode streamId sequence) =
        .ok (.ofEnd p, (p.encode streamId sequence).length) :=
  ⟨fun _ _ _ h hflags hframe ↦ Frame.encode_of_parseFrame h hflags hframe,
    fun _ _ _ _ hstream h ↦ ChunkPayload.parseFrame_encode hstream h,
    fun _ _ _ hstream ↦ EndPayload.parseFrame_encode hstream⟩

omit [Sha256] [Features] in
/-- A summary. -/
theorem TreeFrame.identity_canonical_summary :
    letI := sampleSha256
    letI := identityOnly
    parseFrame (summary.encode 42 1) = .ok (.ofEnd summary, 112) ∧
      ∃ streamId sequence,
        (Frame.ofEnd summary).encode streamId sequence = .ok ((summary.encode 42 1).take 112) := by
  let _ := sampleSha256
  let _ := identityOnly
  obtain ⟨hparsed, -, hend⟩ := TreeFrame.identity_canonical
  have h : parseFrame (summary.encode 42 1) = .ok (.ofEnd summary, 112) :=
    hend summary 42 1 (by decide)
  obtain ⟨streamId, sequence, -, -, hencode⟩ := hparsed _ _ _ h (by decide +kernel) (by nofun)
  exact ⟨h, streamId, sequence, hencode⟩

end Mst2
