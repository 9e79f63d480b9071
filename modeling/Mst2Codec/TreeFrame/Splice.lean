import Mst2Codec.Library.Words
import Mst2Codec.TreeFrame.Exchange

/-!
# Streams that are cut or spliced

What a client sees of a stream that does not arrive as it was sent.  A stream that breaks off is
rejected, and the error says where: between two frames, in a header or in a payload
(`TreeFrame.parseStream_take`).  From the frames of accepted streams no other accepted stream can be
put together, whichever frames are left out, repeated, exchanged or mixed
(`TreeFrame.eq_of_parseStream_flatten`).  And streams with the same kinds and digests have the same
frames, however they were compressed (`TreeFrame.frames_eq_of_fingerprints_eq`).
-/

set_option autoImplicit false

namespace Mst2

open Bytes Except

namespace TreeFrame

variable [Sha256] [Features]

variable {streamId : UInt32} {i : ℕ} {segs : List Bytes} {frames : List Frame} {frame : Frame}
  {s : Bytes}

/-! ## Streams that break off -/

/-- A frame whose payload is not all there. -/
theorem parseFrame_of_short {hdr : FrameHeader} {wire tail : Bytes} (h : hdr.Accepts wire frame)
    (hlt : tail.length < wire.length) :
    parseFrame (hdr.bytes ++ tail) = .error (.truncated "frame payload") := by
  obtain ⟨limit, hlimit, hraw⟩ := h.rawLen_le
  have hslice : slice? (hdr.bytes ++ tail) 0 headerLen = some hdr.bytes :=
    slice?_of_drop (Nat.zero_le _) (List.drop_zero ..) hdr.length_bytes
  obtain ⟨hmagic, hv, hkind, hflags, hlen64, hwire, hrawLen, hstream, hseq, hsha⟩ :=
    slice?_header.mp hslice
  have hmagic' : (hdr.bytes ++ tail).take 4 = magic := by
    rw [slice?_eq_some, List.drop_zero] at hmagic
    rw [hmagic.2.2, List.take_left' hmagic.2.1]
  have hkind' : (hdr.bytes ++ tail).getD 6 0 = hdr.kind := by
    rw [List.getD_eq_getElem?_getD, hkind, Option.getD_some]
  have hflags' : (hdr.bytes ++ tail).getD 7 0 = hdr.flags := by
    rw [List.getD_eq_getElem?_getD, hflags, Option.getD_some]
  have hlen : (hdr.bytes ++ tail).length = headerLen + tail.length := by
    rw [List.length_append, hdr.length_bytes]
  have hwireLen := h.wireLen_eq
  rw [parseFrame, reject_of_not (by omega), ok_bind, reject_of_not (not_not.mpr hmagic'), ok_bind,
    hv, ok_bind, reject_of_not (not_not.mpr rfl), ok_bind, hlen64, ok_bind, hkind', hflags',
    reject_of_not (not_not.mpr (by decide)), ok_bind, reject_of_not (not_not.mpr h.flags_known),
    ok_bind, hwire, ok_bind, hrawLen, ok_bind, hstream, ok_bind, reject_of_not h.streamId_ne,
    ok_bind, hseq, ok_bind, reject_of_not (fun hk ↦ hk.2 (h.identity_of_end hk.1)), ok_bind,
    reject_of_not (fun hz ↦ hz.2 (h.wireLen_eq_rawLen hz.1)), ok_bind, hlimit, ok_bind,
    reject_of_not (not_or.mpr ⟨not_lt.mpr hraw, not_lt.mpr h.wireLen_le⟩), ok_bind]
  dsimp only
  rw [reject, if_pos (by omega)]
  rfl

/-- What the client sees of a stream that breaks off `m` bytes into a frame. -/
def cutError (m : ℕ) : CodecError :=
  if m = 0 then .badOrdering "stream missing END/ERROR frame"
  else if m < headerLen then .truncated "frame header"
  else .truncated "frame payload"

/-- A frame that breaks off. -/
theorem parseFrame_take {used m : ℕ} (h : parseFrame s = .ok (frame, used)) (hm : 0 < m)
    (hlt : m < used) : parseFrame (s.take m) = .error (cutError m) := by
  obtain ⟨hdr, wire, rest, rfl, rfl, hacc⟩ := parseFrame_eq_ok.mp h
  rw [cutError, if_neg hm.ne']
  split
  · rename_i hhead
    rw [parseFrame, reject, if_pos ((List.length_take_le _ _).trans_lt hhead)]
    rfl
  · rename_i hhead
    have htake : (hdr.bytes ++ wire ++ rest).take m = hdr.bytes ++ wire.take (m - headerLen) := by
      rw [List.append_assoc, List.take_append, hdr.length_bytes,
        List.take_of_length_le (by rw [hdr.length_bytes]; omega),
        List.take_append_of_le_length (by omega)]
    rw [htake]
    exact parseFrame_of_short hacc (by rw [List.length_take]; omega)

/-- The loop over a frame that does not end the stream. -/
theorem streamLoop_append {streamId? : Option UInt32} (hs : IsSegment streamId i s frame)
    (hend : frame.isTerminator = false) (hpinned : ∀ x ∈ streamId?, x = streamId) (rest : Bytes) :
    streamLoop (s ++ rest) streamId? i false =
      (fun r ↦ (frame :: r.1, r.2)) <$> streamLoop rest (some streamId) (i + 1) false := by
  obtain ⟨sequence, hseq, hi⟩ := hs.sequence_eq
  have hle := (headerLen_le_of_parseFrame hs.parse).1
  rw [headerLen] at hle
  have hne : s ++ rest ≠ [] := fun h ↦ by
    rw [(List.append_eq_nil_iff.mp h).1, List.length_nil] at hle
    omega
  have hany : ¬ (streamId?.any fun x ↦ x ≠ streamId) = true := by
    rcases streamId? with _ | x
    · simp
    · simpa using hpinned x rfl
  have hparse := hs.parse_append rest
  rw [streamLoop, if_neg hne, if_neg (by decide)]
  split
  · rename_i e he
    rw [hparse] at he
    cases he
  · rename_i frame' used h
    obtain ⟨rfl, rfl⟩ := Prod.mk.inj (Except.ok.inj (hparse.symm.trans h))
    rw [readU32_append (by omega), hs.streamId_eq, ok_bind, readU64_append (by omega), hseq,
      ok_bind, reject_of_not hany, ok_bind, reject_of_not (not_not.mpr hi), ok_bind,
      List.drop_left, hend]
    rcases streamLoop rest (some streamId) (i + 1) false with e | r
    · rfl
    · rfl

/-- The loop over the frames in front of a place where the stream breaks off. -/
theorem Segments.streamLoop_take {streamId? : Option UInt32} (h : Segments streamId i segs frames)
    (hpinned : ∀ x ∈ streamId?, x = streamId) {j : ℕ} (hj : j < segs.length) {tail : Bytes}
    {x : CodecResult (List Frame × Bool)} (hx : ∀ p k, streamLoop tail p k false = x) :
    streamLoop ((segs.take j).flatten ++ tail) streamId? i false =
      (fun r ↦ (frames.take j ++ r.1, r.2)) <$> x := by
  have hid : (fun r : List Frame × Bool ↦ ([] ++ r.1, r.2)) <$> x = x := id_map x
  induction h generalizing streamId? j with
  | last hs hend =>
    obtain rfl : j = 0 := by simpa using hj
    rw [List.take_zero, List.take_zero, hid]
    exact hx _ _
  | cons hs hend hsegs ih =>
    cases j with
    | zero =>
      rw [List.take_zero, List.take_zero, hid]
      exact hx _ _
    | succ j =>
      rw [List.take_succ_cons, List.flatten_cons, List.append_assoc,
        streamLoop_append hs hend hpinned, ih (by simp) (Nat.lt_of_succ_lt_succ hj)]
      rcases x with e | r
      · rfl
      · rfl

/-- The loop stops with the error of a frame. -/
theorem streamLoop_of_error {rest : Bytes} {e : CodecError} (hne : rest ≠ [])
    (h : parseFrame rest = .error e) (streamId? : Option UInt32) (k : ℕ) :
    streamLoop rest streamId? k false = .error e := by
  rw [streamLoop, if_neg hne, if_neg (by decide)]
  split
  · rename_i e' he'
    rw [Except.error.inj (he'.symm.trans h)]
  · rename_i frame used h'
    rw [h] at h'
    cases h'

/-- A stream that breaks off `m` bytes into a frame. -/
theorem Segments.parseStream_cut (h : Segments streamId 0 segs frames) {j m : ℕ}
    (hs : segs[j]? = some s) (hm : m < s.length) :
    parseStream ((segs.take j).flatten ++ s.take m) = .error (cutError m) := by
  obtain ⟨hj, hsj⟩ := List.getElem?_eq_some_iff.mp hs
  obtain ⟨hne, hlength, hall⟩ := segments_iff.mp h
  obtain ⟨hseg, -⟩ := hall j s _ hs (List.getElem?_eq_getElem (hlength.trans_gt hj))
  rw [parseStream]
  rcases Nat.eq_zero_or_pos m with rfl | hpos
  · have hnil : ∀ p k, streamLoop (s.take 0) p k false = .ok ([], false) := by
      intro p k
      rw [List.take_zero, streamLoop, if_pos rfl]
    rw [h.streamLoop_take (by simp) hj hnil]
    rfl
  · have htail : s.take m ≠ [] := by
      rw [← List.length_pos_iff, List.length_take]
      omega
    rw [h.streamLoop_take (by simp) hj
      (streamLoop_of_error htail (parseFrame_take hseg.parse hpos hm))]
    rfl

/-- **A stream that breaks off is rejected**, and the error says where it breaks off: after whole
frames, in a header, or in a payload. -/
theorem parseStream_take (buf : Bytes) (segs : List Bytes) (frames : List Frame)
    (h : IsSegmentation buf segs frames) (n : ℕ) (hn : n < buf.length) :
    ∃ (j : ℕ) (s : Bytes) (m : ℕ), segs[j]? = some s ∧ m < s.length ∧
      n = (segs.take j).flatten.length + m ∧ parseStream (buf.take n) = .error (cutError m) := by
  obtain ⟨sid, hsegs, rfl⟩ := isSegmentation_iff.mp h
  obtain ⟨j, s, m, hs, hm, heq, htake⟩ := exists_take_flatten hn
  refine ⟨j, s, m, hs, hm, heq, ?_⟩
  rw [htake]
  exact hsegs.parseStream_cut hs hm

omit [Sha256] [Features] in
/-- A stream that breaks off in the payload of its END frame. -/
theorem parseStream_take_sample :
    letI := sampleSha256
    letI := identityOnly
    ∃ m, parseStream ((sampleSegments 42).flatten.take 200) = .error (cutError m) := by
  let _ := sampleSha256
  let _ := identityOnly
  obtain ⟨j, s, m, -, -, -, hcut⟩ := parseStream_take _ _ _
    (isSegmentation_iff.mpr ⟨42, segments_sample (by decide), rfl⟩) 200 (by decide +kernel)
  exact ⟨m, hcut⟩

/-! ## Streams that are spliced -/

/-- Segments make up a buffer in one way only. -/
theorem Segments.eq_of_flatten_eq (h : Segments streamId i segs frames) {ts : List Bytes}
    (hts : ∀ t ∈ ts, ∃ frame, parseFrame t = .ok (frame, t.length))
    (heq : segs.flatten = ts.flatten) : segs = ts := by
  have hne : ∀ {t frame}, parseFrame t = .ok (frame, t.length) → t ≠ [] := by
    rintro t frame ht rfl
    have hle := (headerLen_le_of_parseFrame ht).1
    rw [headerLen, List.length_nil] at hle
    omega
  -- the first segments are the same
  have hfirst : ∀ {sid k s frame t frame' rest rest'}, IsSegment sid k s frame →
      parseFrame t = .ok (frame', t.length) → s ++ rest = t ++ rest' → s = t ∧ rest = rest' := by
    intro sid k s frame t frame' rest rest' hs ht hrest
    have hparse := hs.parse_append rest
    have hparse' := (parseFrame_append ht rest').2
    rw [List.take_length, ← hrest, hparse, Except.ok.injEq, Prod.mk.injEq] at hparse'
    exact List.append_inj hrest hparse'.2
  induction h generalizing ts with
  | @last k s frame hs hend =>
    rw [List.flatten_singleton] at heq
    rcases ts with _ | ⟨t, ts⟩
    · exact absurd heq (hne hs.parse)
    · obtain ⟨⟨frame', ht⟩, htail⟩ := List.forall_mem_cons.mp hts
      obtain ⟨rfl, hnil⟩ := hfirst hs ht ((List.append_nil s).trans heq)
      rcases ts with _ | ⟨t', ts⟩
      · rfl
      · obtain ⟨⟨frame', ht'⟩, -⟩ := List.forall_mem_cons.mp htail
        exact absurd (List.append_eq_nil_iff.mp hnil.symm).1 (hne ht')
  | @cons k s frame segs frames hs hend hsegs ih =>
    rcases ts with _ | ⟨t, ts⟩
    · exact absurd (List.append_eq_nil_iff.mp heq).1 (hne hs.parse)
    · obtain ⟨⟨frame', ht⟩, htail⟩ := List.forall_mem_cons.mp hts
      obtain ⟨rfl, hrest⟩ := hfirst hs ht heq
      rw [ih htail hrest]

/-- **No stream can be spliced.**  Let each of any number of accepted streams have its own stream
identity.  Frames of these streams, in whatever order, some of them left out and some repeated,
are an accepted stream only if they are one of these streams as it was. -/
theorem eq_of_parseStream_flatten {ι : Type} (bufs : ι → Bytes) (segs : ι → List Bytes)
    (frames : ι → List Frame) (h : ∀ k, IsSegmentation (bufs k) (segs k) (frames k))
    (hid : ∀ k l, ∀ s ∈ segs k, ∀ t ∈ segs l, readU32 s 20 = readU32 t 20 → k = l)
    (ts : List Bytes) (hts : ∀ t ∈ ts, ∃ k, t ∈ segs k) (fs : List Frame)
    (hparse : parseStream ts.flatten = .ok fs) :
    ∃ k, ts = segs k ∧ fs = frames k := by
  have hsegs : ∀ k, ∃ sid, Segments sid 0 (segs k) (frames k) := fun k ↦ by
    obtain ⟨sid, hsid, -⟩ := isSegmentation_iff.mp (h k)
    exact ⟨sid, hsid⟩
  -- every frame has its place in the stream that it is from
  have hplace : ∀ k, ∀ t ∈ segs k, ∃ sid j frame, (segs k)[j]? = some t ∧ IsSegment sid j t frame ∧
      (frame.isTerminator = true ↔ j + 1 = (segs k).length) := by
    intro k t ht
    obtain ⟨sid, hsid⟩ := hsegs k
    obtain ⟨j, hj, rfl⟩ := List.mem_iff_getElem.mp ht
    obtain ⟨-, hlength, hall⟩ := segments_iff.mp hsid
    have hframe := List.getElem?_eq_getElem (hlength.trans_gt hj)
    obtain ⟨hseg, hlast⟩ := hall j _ _ (List.getElem?_eq_getElem hj) hframe
    rw [Nat.zero_add] at hseg
    exact ⟨sid, j, _, List.getElem?_eq_getElem hj, hseg, hlast⟩
  obtain ⟨sid, segs', hsegs', hflatten⟩ := parseStream_eq_ok.mp hparse
  obtain rfl : segs' = ts := hsegs'.eq_of_flatten_eq (fun t ht ↦ by
    obtain ⟨k, hk⟩ := hts t ht
    obtain ⟨sid', j, frame, -, hseg, -⟩ := hplace k t hk
    exact ⟨frame, hseg.parse⟩) hflatten
  obtain ⟨hne, hlength, hall⟩ := segments_iff.mp hsegs'
  simp only [Nat.zero_add] at hall
  -- the stream of the first frame is that of all others, and each stands at its old place
  have hframe : ∀ {i : ℕ} (hi : i < segs'.length), ∃ frame, fs[i]? = some frame :=
    fun hi ↦ ⟨_, List.getElem?_eq_getElem (hlength.trans_gt hi)⟩
  have hzero : 0 < segs'.length := List.length_pos_iff.mpr hne
  obtain ⟨k, hk⟩ := hts _ (List.getElem_mem hzero)
  have hat : ∀ (i : ℕ) t frame, segs'[i]? = some t → fs[i]? = some frame →
      (segs k)[i]? = some t ∧ (frame.isTerminator = true ↔ i + 1 = (segs k).length) := by
    intro i t frame ht hfr
    obtain ⟨hseg, -⟩ := hall i t frame ht hfr
    obtain ⟨frame₀, hfr₀⟩ := hframe hzero
    obtain ⟨hseg₀, -⟩ := hall 0 _ frame₀ (List.getElem?_eq_getElem hzero) hfr₀
    obtain ⟨l, hl⟩ := hts t (List.mem_of_getElem? ht)
    obtain rfl := hid k l _ hk t hl (hseg₀.streamId_eq.trans hseg.streamId_eq.symm)
    obtain ⟨sid', j, frame', hj, hseg', hlast⟩ := hplace k t hl
    obtain ⟨sequence, hsequence, rfl⟩ := hseg.sequence_eq
    obtain ⟨sequence', hsequence', rfl⟩ := hseg'.sequence_eq
    obtain rfl := Except.ok.inj (hsequence.symm.trans hsequence')
    have hsame := Except.ok.inj (hseg.parse.symm.trans hseg'.parse)
    rw [(Prod.mk.inj hsame).1]
    exact ⟨hj, hlast⟩
  -- the last frame is the last of its stream
  have hlen : segs'.length = (segs k).length := by
    have hpred : segs'.length - 1 < segs'.length := by omega
    obtain ⟨frame, hfr⟩ := hframe hpred
    have ht := List.getElem?_eq_getElem hpred
    have hend := (hall _ _ frame ht hfr).2.mpr (by omega)
    have hend' := (hat _ _ frame ht hfr).2.mp hend
    omega
  obtain rfl : segs' = segs k := by
    refine List.ext_getElem hlen fun i hi hi' ↦ ?_
    obtain ⟨frame, hfr⟩ := hframe hi
    have hsame := (hat i _ frame (List.getElem?_eq_getElem hi) hfr).1
    rw [List.getElem?_eq_getElem hi', Option.some.injEq] at hsame
    exact hsame.symm
  obtain ⟨sid', hsid'⟩ := hsegs k
  exact ⟨k, rfl, (hsegs'.unique hsid' (List.append_nil _).symm).2.1⟩

omit [Sha256] [Features] in
/-- The same frames, once for each stream identity. -/
theorem eq_of_parseStream_flatten_sample :
    letI := sampleSha256
    letI := identityOnly
    ∃ k : {streamId : UInt32 // streamId ≠ 0}, sampleSegments 43 = sampleSegments k.1 := by
  let _ := sampleSha256
  let _ := identityOnly
  have hsegs := fun k : {streamId : UInt32 // streamId ≠ 0} ↦ segments_sample k.2
  have hid : ∀ k : {streamId : UInt32 // streamId ≠ 0}, ∀ s ∈ sampleSegments k.1,
      readU32 s 20 = .ok k.1 := by
    intro k s hs
    obtain ⟨j, hj, rfl⟩ := List.mem_iff_getElem.mp hs
    obtain ⟨-, hlength, hall⟩ := segments_iff.mp (hsegs k)
    exact (hall j _ _ (List.getElem?_eq_getElem hj)
      (List.getElem?_eq_getElem (hlength.trans_gt hj))).1.streamId_eq
  obtain ⟨k, hk, -⟩ := eq_of_parseStream_flatten _ _ _
    (fun k ↦ isSegmentation_iff.mpr ⟨_, hsegs k, rfl⟩) (fun k l s hs t ht hst ↦ by
      rw [hid k s hs, hid l t ht] at hst
      exact Subtype.ext (Except.ok.inj hst)) (sampleSegments 43)
    (fun t ht ↦ ⟨⟨43, by decide⟩, ht⟩) _
    (parseStream_eq_ok.mpr ⟨43, _, hsegs ⟨43, by decide⟩, rfl⟩)
  exact ⟨k, hk⟩

/-! ## Streams with the same digests -/

/-- What the header of a segment says of its payload: the kind and the digest. -/
def fingerprint (s : Bytes) : UInt8 × Digest := (s.getD 6 0, digestAt s 32)

/-- The payload of a segment, which is decompressed if the header says so. -/
def IsPayload (s payload : Bytes) : Prop :=
  ∃ hdr wire, s = FrameHeader.bytes hdr ++ wire ∧ rawPayload hdr.flags wire hdr.rawLen = .ok payload

omit [Sha256] [Features] in
theorem fingerprint_bytes_append (hdr : FrameHeader) (wire : Bytes) :
    fingerprint (hdr.bytes ++ wire) = (hdr.kind, hdr.payloadSha256) := by
  have hslice : slice? (hdr.bytes ++ wire) 0 headerLen = some hdr.bytes :=
    slice?_of_drop (Nat.zero_le _) (List.drop_zero ..) hdr.length_bytes
  obtain ⟨-, -, hkind, -, -, -, -, -, -, hsha⟩ := slice?_header.mp hslice
  rw [fingerprint, List.getD_eq_getElem?_getD, hkind, Option.getD_some, digestAt_of_slice? hsha]

/-- A frame that is written has its payload and no other. -/
theorem Carries.eq_payload {sequence : UInt64} {hdr : FrameHeader} {wire payload : Bytes}
    (h : Carries streamId sequence frame hdr wire) (hp : IsPayload (hdr.bytes ++ wire) payload) :
    payload = frame.payload := by
  obtain ⟨hdr', wire', heq, hpayload⟩ := hp
  obtain ⟨hbytes, rfl⟩ := List.append_inj heq (by simp)
  obtain rfl := FrameHeader.bytes_injective hbytes
  exact Except.ok.inj (hpayload.symm.trans h.rawPayload_eq)

theorem Transcript.mem_payload (h : Transcript streamId i frames segs)
    (hlib : ∀ z, Features.zstd = some z → z.RoundTrips) (hs : s ∈ segs) {payload : Bytes}
    (hp : IsPayload s payload) : payload ∈ frames.map Frame.payload := by
  induction h with
  | nil => cases hs
  | cons hi hw hrest ih =>
    rcases List.mem_cons.mp hs with rfl | hs
    · obtain ⟨hdr, wire, rfl, hcarries⟩ := exists_carries_of_written hw hlib
      exact List.mem_cons.mpr (.inl (hcarries.eq_payload hp))
    · exact List.mem_cons_of_mem _ (ih hs)

/-- What the payload of a segment is and how its fingerprint comes from it. -/
theorem IsSegment.exists_payload (hs : IsSegment streamId i s frame) :
    ∃ payload rawLen, IsPayload s payload ∧ fingerprint s = (frame.kind, sha256 payload) ∧
      frame.Decodes payload rawLen := by
  obtain ⟨hdr, wire, rest, rfl, hused, hacc⟩ := parseFrame_eq_ok.mp hs.parse
  obtain ⟨payload, hpayload, hdigest, hdecode⟩ := hacc.payload
  obtain ⟨hkind, hdecodes⟩ := decodePayload_eq_ok.mp hdecode
  obtain rfl : rest = [] := by
    simp only [List.length_append, FrameHeader.length_bytes] at hused
    exact List.length_eq_zero_iff.mp (by omega)
  rw [List.append_nil]
  refine ⟨payload, hdr.rawLen, ⟨hdr, wire, rfl, hpayload⟩, ?_, hdecodes⟩
  rw [fingerprint_bytes_append, hdigest, hkind]

/-- A frame that is no error has one fingerprint. -/
theorem IsSegment.fingerprint_eq (hs : IsSegment streamId i s frame)
    (hframe : ∀ e, frame ≠ .ofError e) : fingerprint s = (frame.kind, sha256 frame.payload) := by
  obtain ⟨payload, rawLen, -, hfp, hdecodes⟩ := hs.exists_payload
  rw [hfp, (hdecodes.encodable hframe).2.2]

/-- Segments with the same fingerprint have the same frame. -/
theorem IsSegment.frame_eq {streamId' : UInt32} {i' : ℕ} {s' : Bytes} {frame' : Frame}
    {S : Set Bytes} (hS : CollisionFree S) (hs : IsSegment streamId i s frame)
    (hs' : IsSegment streamId' i' s' frame') (hmem : ∀ payload, IsPayload s payload → payload ∈ S)
    (hmem' : ∀ payload, IsPayload s' payload → payload ∈ S) (h : fingerprint s = fingerprint s') :
    frame = frame' := by
  obtain ⟨payload, rawLen, hpayload, hfp, hdecodes⟩ := hs.exists_payload
  obtain ⟨payload', rawLen', hpayload', hfp', hdecodes'⟩ := hs'.exists_payload
  obtain ⟨hkind, hdigest⟩ := Prod.mk.inj (hfp.symm.trans (h.trans hfp'))
  obtain rfl := hS (hmem payload hpayload) (hmem' payload' hpayload') hdigest
  exact hdecodes.unique hdecodes' hkind

theorem IsSegmentation.isSegment {buf : Bytes} (h : IsSegmentation buf segs frames)
    (hs : segs[i]? = some s) (hframe : frames[i]? = some frame) :
    ∃ sid, IsSegment sid i s frame := by
  obtain ⟨sid, hsegs, -⟩ := isSegmentation_iff.mp h
  obtain ⟨-, -, hall⟩ := segments_iff.mp hsegs
  obtain ⟨hseg, -⟩ := hall i s frame hs hframe
  rw [Nat.zero_add] at hseg
  exact ⟨sid, hseg⟩

/-- **The kinds and digests of a stream determine its frames**, in whatever stream they are sent and
whichever of them are compressed, and unless there is an error they are determined by them. -/
theorem frames_eq_of_fingerprints_eq (buf buf' : Bytes) (segs segs' : List Bytes)
    (frames frames' : List Frame) (h : IsSegmentation buf segs frames)
    (h' : IsSegmentation buf' segs' frames')
    (hsha : CollisionFree {payload | ∃ s ∈ segs ++ segs', IsPayload s payload}) :
    (segs.map fingerprint = segs'.map fingerprint → frames = frames') ∧
      ((∀ e, .ofError e ∉ frames) → frames = frames' →
        segs.map fingerprint = segs'.map fingerprint) := by
  constructor
  · intro hfp
    have hlen : segs.length = segs'.length := by simpa using congrArg List.length hfp
    refine List.ext_getElem (by rw [h.length_eq, h'.length_eq, hlen]) fun i hi hi' ↦ ?_
    have hs := List.getElem?_eq_getElem (h.length_eq ▸ hi)
    have hs' := List.getElem?_eq_getElem (h'.length_eq ▸ hi')
    obtain ⟨sid, hseg⟩ := h.isSegment hs (List.getElem?_eq_getElem hi)
    obtain ⟨sid', hseg'⟩ := h'.isSegment hs' (List.getElem?_eq_getElem hi')
    refine hseg.frame_eq hsha hseg' (fun payload hp ↦ ⟨_, ?_, hp⟩) (fun payload hp ↦ ⟨_, ?_, hp⟩) ?_
    · exact List.mem_append_left _ (List.mem_of_getElem? hs)
    · exact List.mem_append_right _ (List.mem_of_getElem? hs')
    · have hat := congrArg (·[i]?) hfp
      simpa only [List.getElem?_map, hs, hs', Option.map_some, Option.some.injEq] using hat
  · rintro hframes rfl
    have hlen : segs.length = segs'.length := h.length_eq.symm.trans h'.length_eq
    refine List.ext_getElem (by simpa using hlen) fun i hi hi' ↦ ?_
    rw [List.length_map] at hi hi'
    have hlt : i < frames.length := h.length_eq.trans_gt hi
    obtain ⟨sid, hseg⟩ := h.isSegment (List.getElem?_eq_getElem hi) (List.getElem?_eq_getElem hlt)
    obtain ⟨sid', hseg'⟩ := h'.isSegment (List.getElem?_eq_getElem hi')
      (List.getElem?_eq_getElem hlt)
    have hne : ∀ e, frames[i] ≠ .ofError e := fun e he ↦ hframes e (he ▸ List.getElem_mem _)
    rw [List.getElem_map, List.getElem_map, hseg.fingerprint_eq hne, hseg'.fingerprint_eq hne]

omit [Sha256] [Features] in
/-- A chunk that is compressed in one stream and not in the other. -/
theorem frames_eq_of_fingerprints_eq_chunk :
    letI := exchangeSha256
    letI := StoredZstd.features
    chunkSegments.map fingerprint = (identitySegments 7).map fingerprint := by
  let _ := exchangeSha256
  let _ := StoredZstd.features
  have h := transcript_chunkSegments
  have h' := transcript_identitySegments 7
  have hlib := forall_roundTrips_storedZstd
  have hend : Terminated [.ofChunk StoredZstd.chunk, .ofEnd summary] :=
    ⟨[.ofChunk StoredZstd.chunk], .ofEnd summary, rfl, rfl, by simp [Frame.isTerminator]⟩
  have hr : ∀ frame ∈ [Frame.ofChunk StoredZstd.chunk, .ofEnd summary], frame.Readable := by
    simp [Frame.Readable]
  have hfree : CollisionFree {payload | payload ∈
      [Frame.ofChunk StoredZstd.chunk, .ofEnd summary].map Frame.payload} := by
    intro a ha b hb hab
    simp only [List.map_cons, List.map_nil, List.mem_cons, List.not_mem_nil, or_false] at ha hb
    rcases ha with rfl | rfl <;> rcases hb with rfl | rfl
    · rfl
    · exact absurd hab (by decide +kernel)
    · exact absurd hab (by decide +kernel)
    · rfl
  refine (frames_eq_of_fingerprints_eq _ _ chunkSegments (identitySegments 7) _ _
    (isSegmentation_iff.mpr ⟨42, h.segments (by decide) hlib hend hr, rfl⟩)
    (isSegmentation_iff.mpr ⟨7, h'.segments (by decide) hlib hend hr, rfl⟩)
    (hfree.mono ?_)).2 (by simp) rfl
  rintro payload ⟨s, hs, hp⟩
  rcases List.mem_append.mp hs with hs | hs
  · exact h.mem_payload hlib hs hp
  · exact h'.mem_payload hlib hs hp

end TreeFrame

end Mst2
