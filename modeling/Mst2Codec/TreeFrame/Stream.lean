import Mst2Codec.TreeFrame.Frames

/-!
# The grammar of streams

`parseStream` accepts a buffer exactly if it is a concatenation of frames that share their stream,
are numbered from 0 on, and of which the last and no other is END or ERROR
(`IsSegmentation`, `TreeFrame.stream_grammar`).

The proof goes through `Segments`, the same grammar from a given sequence number on, which follows
the loop: `streamLoop_eq_ok` is an induction on the buffer.  That the result of `parseFrame` depends
on no byte behind the frame (`parseFrame_append`) makes the grammar unambiguous and prefix-free
(`Segments.unique`).
-/

set_option autoImplicit false

namespace Mst2

open Bytes Except TreeFrame

variable [Sha256] [Features]

namespace TreeFrame

/-! ## Locality -/

omit [Sha256] [Features] in
/-- What stands within a string is not changed by what stands behind it. -/
theorem slice?_append_left {a b : Bytes} {off n : ℕ} (h : off + n ≤ a.length) :
    slice? (a ++ b) off n = slice? a off n := by
  rw [slice?, slice?, if_pos (by simp; omega), if_pos h, List.drop_append_of_le_length (by omega),
    List.take_append_of_le_length (by simp; omega)]

omit [Sha256] [Features] in
theorem readU32_append {a b : Bytes} {off : ℕ} (h : off + 4 ≤ a.length) :
    readU32 (a ++ b) off = readU32 a off := by rw [readU32, slice?_append_left h, readU32]

omit [Sha256] [Features] in
theorem readU64_append {a b : Bytes} {off : ℕ} (h : off + 8 ≤ a.length) :
    readU64 (a ++ b) off = readU64 a off := by rw [readU64, slice?_append_left h, readU64]

/-- The result of `parse_frame` depends on no byte behind the frame. -/
theorem parseFrame_append {buf : Bytes} {frame : Frame} {used : ℕ}
    (h : parseFrame buf = .ok (frame, used)) (rest : Bytes) :
    used ≤ buf.length ∧ parseFrame (buf.take used ++ rest) = .ok (frame, used) := by
  refine ⟨(headerLen_le_of_parseFrame h).2, ?_⟩
  obtain ⟨hdr, wire, rest', rfl, rfl, hacc⟩ := parseFrame_eq_ok.mp h
  rw [List.take_left' (by simp)]
  exact parseFrame_eq_ok.mpr ⟨hdr, wire, rest, rfl, rfl, hacc⟩

/-! ## Segments -/

/-- A segment of a stream: one frame with its stream and its place in the stream. -/
structure IsSegment (streamId : UInt32) (i : ℕ) (s : Bytes) (frame : Frame) : Prop where
  /-- The segment is the frame. -/
  parse : parseFrame s = .ok (frame, s.length)
  /-- The header has the stream. -/
  streamId_eq : readU32 s 20 = .ok streamId
  /-- The header has the place. -/
  sequence_eq : ∃ sequence, readU64 s 24 = .ok sequence ∧ sequence.toNat = i

/-- The segments of a stream from the place `i` on. -/
inductive Segments (streamId : UInt32) : ℕ → List Bytes → List Frame → Prop
  /-- The last frame is END or ERROR. -/
  | last {i : ℕ} {s : Bytes} {frame : Frame} (hs : IsSegment streamId i s frame)
    (hend : frame.isTerminator = true) : Segments streamId i [s] [frame]
  /-- No frame before it is. -/
  | cons {i : ℕ} {s : Bytes} {frame : Frame} {segs : List Bytes} {frames : List Frame}
    (hs : IsSegment streamId i s frame) (hend : frame.isTerminator = false)
    (hsegs : Segments streamId (i + 1) segs frames) :
    Segments streamId i (s :: segs) (frame :: frames)

theorem IsSegment.parse_append {streamId : UInt32} {i : ℕ} {s : Bytes} {frame : Frame}
    (h : IsSegment streamId i s frame) (rest : Bytes) :
    parseFrame (s ++ rest) = .ok (frame, s.length) := by
  simpa using (parseFrame_append h.parse rest).2

/-- Segments at the front of the same bytes are the same. -/
theorem IsSegment.unique {streamId streamId' : UInt32} {i i' : ℕ} {s s' t t' : Bytes}
    {frame frame' : Frame} (h : IsSegment streamId i s frame)
    (h' : IsSegment streamId' i' s' frame') (heq : s ++ t = s' ++ t') :
    s = s' ∧ t = t' ∧ frame = frame' := by
  have hparse := h.parse_append t
  rw [heq, h'.parse_append t', Except.ok.injEq, Prod.mk.injEq] at hparse
  obtain ⟨hs, ht⟩ := List.append_inj heq hparse.2.symm
  exact ⟨hs, ht, hparse.1.symm⟩

/-- **The grammar is unambiguous and prefix-free.** -/
theorem Segments.unique {streamId streamId' : UInt32} {i i' : ℕ} {segs segs' : List Bytes}
    {frames frames' : List Frame} {ext : Bytes} (h : Segments streamId i segs frames)
    (h' : Segments streamId' i' segs' frames') (heq : segs.flatten = segs'.flatten ++ ext) :
    segs = segs' ∧ frames = frames' ∧ ext = [] := by
  induction h generalizing i' segs' frames' with
  | last hs hend =>
    cases h' with
    | last hs' hend' =>
      simp only [List.flatten_cons, List.flatten_nil, List.append_assoc, List.nil_append] at heq
      obtain ⟨rfl, ht, rfl⟩ := hs.unique hs' heq
      exact ⟨rfl, rfl, ht.symm⟩
    | cons hs' hend' hsegs' =>
      simp only [List.flatten_cons, List.append_assoc] at heq
      obtain ⟨-, -, rfl⟩ := hs.unique hs' heq
      rw [hend] at hend'
      cases hend'
  | cons hs hend hsegs ih =>
    cases h' with
    | last hs' hend' =>
      simp only [List.flatten_cons, List.append_assoc] at heq
      obtain ⟨-, -, rfl⟩ := hs.unique hs' heq
      rw [hend] at hend'
      cases hend'
    | cons hs' hend' hsegs' =>
      simp only [List.flatten_cons, List.append_assoc] at heq
      obtain ⟨rfl, ht, rfl⟩ := hs.unique hs' heq
      obtain ⟨rfl, rfl, hext⟩ := ih hsegs' ht
      exact ⟨rfl, rfl, hext⟩

/-! ## The loop -/

/-- After END or ERROR nothing may follow. -/
theorem streamLoop_terminated {rest : Bytes} {streamId : Option UInt32} {i : ℕ}
    {r : List Frame × Bool} :
    streamLoop rest streamId i true = .ok r ↔ rest = [] ∧ r = ([], true) := by
  rw [streamLoop]
  split
  · rename_i h
    simp [h, eq_comm]
  · rename_i h
    simp [h]

/-- One round of the loop. -/
theorem streamLoop_of_parse {rest : Bytes} {streamId : Option UInt32} {i : ℕ} {frame : Frame}
    {used : ℕ} (h : parseFrame rest = .ok (frame, used)) {frames : List Frame} {t : Bool} :
    streamLoop rest streamId i false = .ok (frames, t) ↔
      ∃ sid sequence frames', readU32 rest 20 = .ok sid ∧ readU64 rest 24 = .ok sequence ∧
        (∀ s ∈ streamId, s = sid) ∧ sequence.toNat = i ∧
        streamLoop (rest.drop used) (some sid) (i + 1) frame.isTerminator = .ok (frames', t) ∧
        frames = frame :: frames' := by
  have hne : rest ≠ [] := by
    rintro rfl
    obtain ⟨h₁, h₂⟩ := headerLen_le_of_parseFrame h
    rw [List.length_nil, headerLen] at *
    omega
  rw [streamLoop, if_neg hne, if_neg (by decide)]
  split
  · rename_i e he
    rw [h] at he
    cases he
  · rename_i frame' used' h'
    obtain ⟨rfl, rfl⟩ := Prod.mk.inj (Except.ok.inj (h.symm.trans h'))
    have hany : ∀ sid, ¬ (streamId.any fun s ↦ s ≠ sid) = true ↔ ∀ s ∈ streamId, s = sid := by
      intro sid
      cases streamId <;> simp
    rw [bind_eq_ok]
    constructor
    · rintro ⟨sid, hsid, h⟩
      rw [bind_eq_ok] at h
      obtain ⟨sequence, hseq, h⟩ := h
      rw [reject_bind_eq_ok, hany, reject_bind_eq_ok, not_not, bind_eq_ok] at h
      obtain ⟨hpinned, hi, ⟨frames', t'⟩, hloop, h⟩ := h
      obtain ⟨rfl, rfl⟩ := Prod.mk.inj (Except.ok.inj h)
      exact ⟨sid, sequence, frames', hsid, hseq, hpinned, hi, hloop, rfl⟩
    · rintro ⟨sid, sequence, frames', hsid, hseq, hpinned, hi, hloop, rfl⟩
      refine ⟨sid, hsid, ?_⟩
      rw [hseq, ok_bind, reject_of_not ((hany sid).mpr hpinned), ok_bind,
        reject_of_not (not_not.mpr hi), ok_bind, hloop]
      rfl

/-- The segment that is parsed at the front of a buffer. -/
theorem isSegment_take {buf : Bytes} {frame : Frame} {used : ℕ} {sid : UInt32} {sequence : UInt64}
    (h : parseFrame buf = .ok (frame, used)) (hsid : readU32 buf 20 = .ok sid)
    (hseq : readU64 buf 24 = .ok sequence) :
    IsSegment sid sequence.toNat (buf.take used) frame := by
  obtain ⟨hle, hused⟩ := headerLen_le_of_parseFrame h
  have hlen : (buf.take used).length = used := by rw [List.length_take, Nat.min_eq_left hused]
  rw [headerLen] at hle
  have hparse := (parseFrame_append h []).2
  rw [List.append_nil] at hparse
  rw [← List.take_append_drop used buf] at hsid hseq
  rw [readU32_append (by omega)] at hsid
  rw [readU64_append (by omega)] at hseq
  exact ⟨by rw [hlen, hparse], hsid, sequence, hseq, rfl⟩

/-- **The loop accepts what the grammar generates.** -/
theorem streamLoop_eq_ok {rest : Bytes} {streamId : Option UInt32} {i : ℕ} {frames : List Frame} :
    streamLoop rest streamId i false = .ok (frames, true) ↔
      ∃ sid segs, (∀ s ∈ streamId, s = sid) ∧ Segments sid i segs frames ∧ segs.flatten = rest := by
  induction hn : rest.length using Nat.strong_induction_on generalizing rest streamId i frames with
  | _ n ih =>
    subst hn
    constructor
    · intro h
      have hparse : ∃ frame used, parseFrame rest = .ok (frame, used) := by
        rw [streamLoop] at h
        split at h
        · cases h
        rw [if_neg (by decide)] at h
        split at h
        · cases h
        · exact ⟨_, _, by assumption⟩
      obtain ⟨frame, used, hparse⟩ := hparse
      obtain ⟨hle, hused⟩ := headerLen_le_of_parseFrame hparse
      rw [headerLen] at hle
      obtain ⟨sid, sequence, frames', hsid, hseq, hpinned, rfl, hloop, rfl⟩ :=
        (streamLoop_of_parse hparse).mp h
      have hseg := isSegment_take hparse hsid hseq
      cases hend : frame.isTerminator with
      | true =>
        rw [hend] at hloop
        obtain ⟨hdrop, hframes⟩ := streamLoop_terminated.mp hloop
        obtain ⟨rfl, -⟩ := Prod.mk.inj hframes
        refine ⟨sid, [rest.take used], hpinned, .last hseg hend, ?_⟩
        rw [List.flatten_singleton, ← List.append_nil (rest.take used), ← hdrop,
          List.take_append_drop]
      | false =>
        rw [hend] at hloop
        obtain ⟨sid', segs, hsid', hsegs, hflatten⟩ :=
          (ih _ (by rw [List.length_drop]; omega) rfl).mp hloop
        obtain rfl := hsid' sid rfl
        refine ⟨sid, rest.take used :: segs, hpinned, .cons hseg hend hsegs, ?_⟩
        rw [List.flatten_cons, hflatten, List.take_append_drop]
    · rintro ⟨sid, segs, hpinned, hsegs, rfl⟩
      cases hsegs with
      | last hs hend =>
        rename_i s frame
        obtain ⟨sequence, hseq, rfl⟩ := hs.sequence_eq
        rw [List.flatten_singleton]
        refine (streamLoop_of_parse hs.parse).mpr
          ⟨sid, sequence, [], hs.streamId_eq, hseq, hpinned, rfl, ?_, rfl⟩
        rw [hend, List.drop_length]
        exact streamLoop_terminated.mpr ⟨rfl, rfl⟩
      | cons hs hend hsegs =>
        rename_i s frame segs frames
        obtain ⟨sequence, hseq, rfl⟩ := hs.sequence_eq
        obtain ⟨hle, -⟩ := headerLen_le_of_parseFrame hs.parse
        rw [headerLen] at hle
        rw [List.flatten_cons]
        refine (streamLoop_of_parse (hs.parse_append segs.flatten)).mpr
          ⟨sid, sequence, frames, ?_, ?_, hpinned, rfl, ?_, rfl⟩
        · rw [readU32_append (by omega), hs.streamId_eq]
        · rw [readU64_append (by omega), hseq]
        · rw [hend, List.drop_left]
          refine (ih _ ?_ rfl).mpr ⟨sid, segs, by simp, hsegs, rfl⟩
          rw [List.flatten_cons, List.length_append]
          omega

theorem parseStream_eq_ok {buf : Bytes} {frames : List Frame} :
    parseStream buf = .ok frames ↔
      ∃ sid segs, Segments sid 0 segs frames ∧ segs.flatten = buf := by
  rw [parseStream, bind_eq_ok]
  constructor
  · rintro ⟨⟨frames', t⟩, hloop, h⟩
    dsimp only at h
    rw [reject_bind_eq_ok, not_not] at h
    obtain ⟨rfl, h⟩ := h
    obtain rfl := Except.ok.inj h
    obtain ⟨sid, segs, -, hsegs, hflatten⟩ := streamLoop_eq_ok.mp hloop
    exact ⟨sid, segs, hsegs, hflatten⟩
  · rintro ⟨sid, segs, hsegs, hflatten⟩
    exact ⟨_, streamLoop_eq_ok.mpr ⟨sid, segs, by simp, hsegs, hflatten⟩, rfl⟩

/-! ## The grammar -/

/-- The segments of a stream and the frames in them, by their places. -/
structure IsSegmentation (buf : Bytes) (segs : List Bytes) (frames : List Frame) : Prop where
  /-- The segments make up the buffer. -/
  flatten_eq : segs.flatten = buf
  /-- There is a segment. -/
  ne_nil : segs ≠ []
  /-- There are as many frames as segments. -/
  length_eq : frames.length = segs.length
  /-- Every segment is its frame. -/
  parse : ∀ (i : ℕ) s frame, segs[i]? = some s → frames[i]? = some frame →
    parseFrame s = .ok (frame, s.length)
  /-- The headers are numbered from 0 on. -/
  sequence_eq : ∀ (i : ℕ) s, segs[i]? = some s →
    ∃ sequence, readU64 s 24 = .ok sequence ∧ sequence.toNat = i
  /-- The headers share their stream. -/
  streamId_eq : ∃ streamId, ∀ (i : ℕ) s, segs[i]? = some s → readU32 s 20 = .ok streamId
  /-- The last frame and no other is END or ERROR. -/
  terminator : ∀ (i : ℕ) frame, frames[i]? = some frame →
    (frame.isTerminator = true ↔ i + 1 = segs.length)

/-- The segments by their places. -/
theorem segments_iff {sid : UInt32} {k : ℕ} {segs : List Bytes} {frames : List Frame} :
    Segments sid k segs frames ↔ segs ≠ [] ∧ frames.length = segs.length ∧
      ∀ (i : ℕ) s frame, segs[i]? = some s → frames[i]? = some frame →
        IsSegment sid (k + i) s frame ∧ (frame.isTerminator = true ↔ i + 1 = segs.length) := by
  induction segs generalizing k frames with
  | nil =>
    refine ⟨fun h ↦ ?_, fun h ↦ absurd rfl h.1⟩
    cases h
  | cons s segs ih =>
    constructor
    · intro h
      refine ⟨List.cons_ne_nil _ _, ?_⟩
      cases h with
      | last hs hend =>
        refine ⟨rfl, fun i s' frame' hs' hframe' ↦ ?_⟩
        obtain rfl : i = 0 := by
          have := (List.getElem?_eq_some_iff.mp hs').1
          rw [List.length_singleton] at this
          omega
        obtain rfl := Option.some.inj hs'
        obtain rfl := Option.some.inj hframe'
        exact ⟨hs, by simpa using hend⟩
      | cons hs hend hsegs =>
        obtain ⟨hne, hlength, hall⟩ := ih.mp hsegs
        refine ⟨congrArg (· + 1) hlength, fun i s' frame' hs' hframe' ↦ ?_⟩
        cases i with
        | zero =>
          obtain rfl := Option.some.inj hs'
          obtain rfl := Option.some.inj hframe'
          refine ⟨hs, ?_⟩
          rw [hend, List.length_cons]
          have := List.length_pos_iff.mpr hne
          simp only [Bool.false_eq_true, false_iff]
          omega
        | succ i =>
          rw [List.getElem?_cons_succ] at hs' hframe'
          obtain ⟨hseg, hend'⟩ := hall i s' frame' hs' hframe'
          rw [Nat.add_right_comm, Nat.add_assoc] at hseg
          refine ⟨hseg, hend'.trans ?_⟩
          rw [List.length_cons, Nat.add_right_cancel_iff]
    · rintro ⟨-, hlength, hall⟩
      obtain ⟨frame, frames, rfl⟩ := List.exists_cons_of_length_eq_add_one hlength
      rw [List.length_cons, List.length_cons, Nat.add_right_cancel_iff] at hlength
      obtain ⟨hs, hend⟩ := hall 0 s frame rfl rfl
      by_cases hne : segs = []
      · subst hne
        obtain rfl := List.length_eq_zero_iff.mp hlength
        exact .last hs (hend.mpr rfl)
      · refine .cons hs ?_ (ih.mpr ⟨hne, hlength, fun i s' frame' hs' hframe' ↦ ?_⟩)
        · have := List.length_pos_iff.mpr hne
          rw [← Bool.not_eq_true, hend, List.length_cons]
          omega
        · obtain ⟨hseg, hend'⟩ :=
            hall (i + 1) s' frame' (by simpa using hs') (by simpa using hframe')
          rw [Nat.add_right_comm, Nat.add_assoc]
          refine ⟨hseg, hend'.trans ?_⟩
          rw [List.length_cons, Nat.add_right_cancel_iff]

theorem isSegmentation_iff {buf : Bytes} {segs : List Bytes} {frames : List Frame} :
    IsSegmentation buf segs frames ↔ ∃ sid, Segments sid 0 segs frames ∧ segs.flatten = buf := by
  constructor
  · intro h
    obtain ⟨sid, hsid⟩ := h.streamId_eq
    refine ⟨sid, segments_iff.mpr ⟨h.ne_nil, h.length_eq, fun i s frame hs hframe ↦ ?_⟩,
      h.flatten_eq⟩
    rw [Nat.zero_add]
    exact ⟨⟨h.parse i s frame hs hframe, hsid i s hs, h.sequence_eq i s hs⟩,
      h.terminator i frame hframe⟩
  · rintro ⟨sid, hsegs, hflatten⟩
    obtain ⟨hne, hlength, hall⟩ := segments_iff.mp hsegs
    simp only [Nat.zero_add] at hall
    -- every place that has a segment has a frame, and the other way round
    have hframe : ∀ (i : ℕ) s, segs[i]? = some s → ∃ frame, frames[i]? = some frame := by
      intro i s hs
      have hi := (List.getElem?_eq_some_iff.mp hs).1
      exact ⟨_, List.getElem?_eq_getElem (by omega)⟩
    have hseg : ∀ (i : ℕ) frame, frames[i]? = some frame → ∃ s, segs[i]? = some s := by
      intro i frame hframe
      have hi := (List.getElem?_eq_some_iff.mp hframe).1
      exact ⟨_, List.getElem?_eq_getElem (by omega)⟩
    refine ⟨hflatten, hne, hlength, fun i s frame hs hf ↦ (hall i s frame hs hf).1.parse,
      fun i s hs ↦ ?_, ⟨sid, fun i s hs ↦ ?_⟩, fun i frame hf ↦ ?_⟩
    · obtain ⟨frame, hf⟩ := hframe i s hs
      exact (hall i s frame hs hf).1.sequence_eq
    · obtain ⟨frame, hf⟩ := hframe i s hs
      exact (hall i s frame hs hf).1.streamId_eq
    · obtain ⟨s, hs⟩ := hseg i frame hf
      exact (hall i s frame hs hf).2

/-- **The grammar of streams is exact**: a buffer is accepted with the frames of its segmentation,
there is at most one, what is parsed does not depend on what follows, and an accepted stream has no
accepted proper extension, hence no accepted proper prefix. -/
theorem stream_grammar :
    (∀ buf frames, parseStream buf = .ok frames ↔ ∃ segs, IsSegmentation buf segs frames) ∧
    (∀ buf segs segs' frames frames', IsSegmentation buf segs frames →
      IsSegmentation buf segs' frames' → segs = segs' ∧ frames = frames') ∧
    (∀ buf frame used, parseFrame buf = .ok (frame, used) → used ≤ buf.length ∧
      ∀ rest, parseFrame (buf.take used ++ rest) = .ok (frame, used)) ∧
    ∀ buf ext frames, parseStream buf = .ok frames → ext ≠ [] →
      ∀ frames', parseStream (buf ++ ext) ≠ .ok frames' := by
  refine ⟨fun buf frames ↦ ?_, fun buf segs segs' frames frames' h h' ↦ ?_,
    fun buf frame used h ↦ ⟨(headerLen_le_of_parseFrame h).2,
      fun rest ↦ (parseFrame_append h rest).2⟩, fun buf ext frames h hext frames' h' ↦ ?_⟩
  · rw [parseStream_eq_ok, exists_comm]
    exact exists_congr fun segs ↦ isSegmentation_iff.symm
  · obtain ⟨sid, hsegs, hflatten⟩ := isSegmentation_iff.mp h
    obtain ⟨sid', hsegs', hflatten'⟩ := isSegmentation_iff.mp h'
    rw [← List.append_nil buf, ← hflatten'] at hflatten
    obtain ⟨heq, hframes, -⟩ := hsegs.unique hsegs' hflatten
    exact ⟨heq, hframes⟩
  · obtain ⟨sid, segs, hsegs, rfl⟩ := parseStream_eq_ok.mp h
    obtain ⟨sid', segs', hsegs', hflatten⟩ := parseStream_eq_ok.mp h'
    exact hext (hsegs'.unique hsegs hflatten).2.2

/-- A stream of a META frame and an END frame. -/
def sampleStream : Bytes :=
  frameBytes kindMeta (emptyPages 1).rawPayload 42 0 ++ summary.encode 42 1

omit [Sha256] [Features] in
/-- The two frames of a stream. -/
theorem stream_grammar_sample :
    letI := sampleSha256
    letI := identityOnly
    ∃ segs, IsSegmentation sampleStream segs [.ofMeta (emptyPages 1), .ofEnd summary] ∧
      (∀ segs' frames', IsSegmentation sampleStream segs' frames' → segs' = segs) ∧
      parseFrame (sampleStream.take 124) = .ok (.ofMeta (emptyPages 1), 124) ∧
      ∀ frames', parseStream (sampleStream ++ [0]) ≠ .ok frames' := by
  let _ := sampleSha256
  let _ := identityOnly
  obtain ⟨hiff, hunique, hlocal, hfree⟩ := stream_grammar
  have h : parseStream sampleStream = .ok [.ofMeta (emptyPages 1), .ofEnd summary] := by
    decide +kernel
  have hframe : parseFrame sampleStream = .ok (.ofMeta (emptyPages 1), 124) := by decide +kernel
  obtain ⟨segs, hsegs⟩ := (hiff _ _).mp h
  refine ⟨segs, hsegs, fun segs' frames' h' ↦ (hunique _ _ _ _ _ h' hsegs).1, ?_,
    hfree _ _ _ h (by decide)⟩
  simpa using (hlocal _ _ _ hframe).2 []

end TreeFrame

end Mst2
