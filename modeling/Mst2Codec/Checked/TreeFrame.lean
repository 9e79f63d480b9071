import Mst2Codec.Checked.ErrorJson
import Mst2Codec.Checked.Zstd1
import Mst2Codec.TreeFrame

/-!
# Checked parsing of frames and streams

`parse_frame`, `parse_stream` and the payload decoders of `src/treeframe.rs`, operation by
operation.  The offset of `parse_stream` is kept, and its loop has fuel: running out of it counts as
a panic.
-/

set_option autoImplicit false

namespace Mst2

namespace Checked

open Bytes Machine
open TreeFrame (metaMaxRaw metaMaxPages objectMaxRaw objectMaxCount objectMaxLen
  chunkMaxLen errorMaxBytes kindMeta kindObject kindChunk kindEnd kindError flagZstd dataMaxWire)

/-! ## Payloads -/

section

variable [Sha256]

/-- The loop of `decode_meta`. -/
def MetaPayload.decodePages (payload : Bytes) :
    ℕ → ℕ → List Digest → Run (List (Digest × Bytes) × ℕ)
  | 0, off, _ => pure ([], off)
  | n + 1, off, seen => do
    let pid ← readDigestAt "page_id" payload off
    let off ← add 64 off 32
    let pageLen ← readU32 payload off
    let off ← add 64 off 4
    reject (pageLen.toNat > pageMaxBytes) (.badLength "META page over 16KiB")
    let hi ← add 64 off pageLen.toNat
    let page ← okOr (getRange payload off hi) (.truncated "META page bytes")
    let off ← add 64 off pageLen.toNat
    reject (pageId page ≠ pid) (.digestMismatch "META page_id")
    reject (pid ∈ seen) (.duplicate "META page_id")
    let (pages, off) ← MetaPayload.decodePages payload n off (pid :: seen)
    pure ((pid, page) :: pages, off)

/-- `decode_meta` -/
def MetaPayload.decode (payload : Bytes) : Run MetaPayload := do
  reject (payload.length > metaMaxRaw) (.badLength "META raw payload over 1MiB")
  reject (payload.length < 4) (.truncated "META header")
  let count ← readU16 payload 0
  reject (¬ (1 ≤ count.toNat ∧ count.toNat ≤ metaMaxPages)) (.badLength "META count must be 1..64")
  let reserved ← readU16 payload 2
  reject (reserved ≠ 0) (.badConstant "META reserved")
  let (pages, off) ← MetaPayload.decodePages payload count.toNat 4 []
  reject (off ≠ payload.length) (.badLength "trailing bytes in META payload")
  pure ⟨pages⟩

/-- The loop of `decode_object`. -/
def ObjectPayload.decodeObjects (payload data : Bytes) :
    ℕ → ℕ → UInt32 → List Digest → Run (List (Digest × Bytes) × UInt32)
  | 0, _, expectOff, _ => pure ([], expectOff)
  | n + 1, i, expectOff, seen => do
    let lo ← mul 64 i 40
    let lo ← add 64 4 lo
    let next ← add 64 i 1
    let hi ← mul 64 next 40
    let hi ← add 64 4 hi
    let t ← range payload lo hi
    let cid ← copyRange t 0 32
    let objectLen ← readU32 t 32
    let dataOffset ← readU32 t 36
    reject (objectLen.toNat > objectMaxLen) (.badLength "object over 256KiB")
    reject (dataOffset ≠ expectOff)
      (.badOrdering "OBJECT offsets must concatenate exactly (no holes or overlaps)")
    let expectOff ← lift (TreeFrame.checkedAddU32 expectOff objectLen "data end")
    reject (cid ∈ seen) (.duplicate "content_id")
    let last ← add 64 dataOffset.toNat objectLen.toNat
    let bytes ← okOr (getRange data dataOffset.toNat last) (.truncated "object data")
    reject (sha256 bytes ≠ cid) (.digestMismatch "object content")
    let (objects, expectOff) ←
      ObjectPayload.decodeObjects payload data n (i + 1) expectOff (cid :: seen)
    pure ((cid, bytes) :: objects, expectOff)

/-- `decode_object` -/
def ObjectPayload.decode (payload : Bytes) : Run ObjectPayload := do
  reject (payload.length > objectMaxRaw) (.badLength "OBJECT raw payload over 1MiB")
  reject (payload.length < 4) (.truncated "OBJECT header")
  let count ← readU16 payload 0
  reject (¬ (1 ≤ count.toNat ∧ count.toNat ≤ objectMaxCount))
    (.badLength "OBJECT count must be 1..128")
  let reserved ← readU16 payload 2
  reject (reserved ≠ 0) (.badConstant "OBJECT reserved")
  let tableLen ← mul 64 count.toNat 40
  let lo ← add 64 4 tableLen
  let data ← okOr (getRange payload lo payload.length) (.truncated "OBJECT data area")
  let (objects, expectOff) ← ObjectPayload.decodeObjects payload data count.toNat 0 0 []
  reject (data.length ≠ expectOff.toNat) (.badLength "OBJECT data area length mismatch")
  pure ⟨objects⟩

end

/-- `decode_chunk` -/
def ChunkPayload.decode (payload : Bytes) (rawLen : UInt32) : Run ChunkPayload := do
  reject (payload.length < 76) (.truncated "CHUNK header")
  reject (rawLen.toNat ≠ payload.length) (.badLength "CHUNK raw_len mismatch")
  let chunkLen ← readU32 payload 72
  let len ← sub payload.length 76
  reject (chunkLen.toNat ≠ len) (.badLength "CHUNK chunk_len mismatch")
  reject (chunkLen.toNat > chunkMaxLen) (.badLength "chunk over 1MiB")
  let mapId ← copyRange payload 0 32
  let fileContentId ← copyRange payload 32 64
  let chunkIndex ← readU64 payload 64
  let chunkBytes ← rangeFrom payload 76
  pure ⟨mapId, fileContentId, chunkIndex, chunkBytes⟩

/-- `decode_end` -/
def EndPayload.decode (payload : Bytes) : Run EndPayload := do
  reject (payload.length ≠ 48) (.badLength "END payload must be exactly 48 bytes")
  let h ← copyRange payload 16 48
  let requestItemCount ← readU32 payload 0
  let uniqueUnitCount ← readU32 payload 4
  let logicalBytes ← readU64 payload 8
  pure ⟨requestItemCount, uniqueUnitCount, logicalBytes, h⟩

/-- `decode_error` -/
def ErrorPayload.decode (payload : Bytes) : Run ErrorPayload := do
  reject (payload.length > errorMaxBytes) (.badLength "ERROR payload over 4096 bytes")
  let s ← okOr (String.ofUtf8 payload) (.badConstant "ERROR not UTF-8")
  parseErrorJson s

/-! ## Frames -/

section

variable [Sha256]

/-- The payload decoder of a kind. -/
def decodePayload (kind : UInt8) (payload : Bytes) (rawLen : UInt32) : Run Frame :=
  if kind = kindMeta then .ofMeta <$> MetaPayload.decode payload
  else if kind = kindObject then .ofObject <$> ObjectPayload.decode payload
  else if kind = kindChunk then .ofChunk <$> ChunkPayload.decode payload rawLen
  else if kind = kindEnd then .ofEnd <$> EndPayload.decode payload
  else if kind = kindError then .ofError <$> ErrorPayload.decode payload
  else lift (.error (.badConstant "frame kind"))

variable [Features]

omit [Sha256] in
/-- The canonical raw payload of the bytes on the wire. -/
def rawPayload (flags : UInt8) (wirePayload : Bytes) (rawLen : UInt32) : Run Bytes :=
  if flags &&& flagZstd = 0 then .ok wirePayload
  else match Features.zstd with
    | some z => decompressStrict z wirePayload rawLen.toNat
    | none => lift (.error (.unsupported "zstd frame received by identity-only codec build"))

/-- `parse_frame` -/
def parseFrame (buf : Bytes) : Run (Frame × ℕ) := do
  reject (buf.length < TreeFrame.headerLen) (.truncated "frame header")
  let magic ← range buf 0 4
  reject (magic ≠ TreeFrame.magic) (.badConstant "MST2 magic")
  let v ← readU16 buf 4
  reject (v ≠ TreeFrame.version) (.badConstant "frame version")
  let kind ← index buf 6
  let flags ← index buf 7
  let len ← readU32 buf 8
  reject (len.toNat ≠ TreeFrame.headerLen) (.badConstant "header_len must be 64")
  reject (flags &&& ~~~flagZstd ≠ 0) (.badConstant "unknown frame flags")
  let wireLen ← readU32 buf 12
  let rawLen ← readU32 buf 16
  let streamId ← readU32 buf 20
  reject (streamId = 0) (.badConstant "stream_id must be non-zero")
  let _sequence ← readU64 buf 24
  let payloadSha256 ← copyRange buf 32 64
  reject ((kind = kindEnd ∨ kind = kindError) ∧ flags &&& flagZstd ≠ 0)
    (.badConstant "END/ERROR must not be compressed")
  reject (flags &&& flagZstd = 0 ∧ wireLen ≠ rawLen)
    (.badLength "identity encoding requires wire_len == raw_len")
  let limit ← lift (TreeFrame.rawLimit kind)
  reject (rawLen.toNat > limit ∨ wireLen.toNat > dataMaxWire)
    (.badLength "frame payload exceeds kind limit")
  reject (¬ TreeFrame.headerLen + wireLen.toNat < 2 ^ 64) (.badLength "frame length overflow")
  let total := TreeFrame.headerLen + wireLen.toNat
  reject (buf.length < total) (.truncated "frame payload")
  let wirePayload ← range buf TreeFrame.headerLen total
  let payload ← rawPayload flags wirePayload rawLen
  reject (sha256 payload ≠ payloadSha256) (.digestMismatch "frame raw payload")
  let frame ← decodePayload kind payload rawLen
  pure (frame, total)

/-- The loop of `parse_stream`. -/
def streamLoop (buf : Bytes) :
    ℕ → ℕ → Option UInt32 → ℕ → Bool → Run (List Frame × Bool)
  | 0, _, _, _, _ => .error .panic
  | fuel + 1, off, streamId, expectSeq, terminated =>
    if off < buf.length then do
      reject (terminated = true) (.badOrdering "bytes after END/ERROR frame")
      let rest ← rangeFrom buf off
      let (frame, used) ← parseFrame rest
      let off ← add 64 off used
      let start ← sub off used
      let rest ← rangeFrom buf start
      let sid ← readU32 rest 20
      let start ← sub off used
      let rest ← rangeFrom buf start
      let seq ← readU64 rest 24
      reject (streamId.any fun s ↦ s ≠ sid) (.badOrdering "stream_id changed mid-stream")
      reject (seq.toNat ≠ expectSeq) (.badOrdering "sequence must increase consecutively from 0")
      let expectSeq ← add 64 expectSeq 1
      let (frames, terminated) ←
        streamLoop buf fuel off (some sid) expectSeq frame.isTerminator
      pure (frame :: frames, terminated)
    else pure ([], terminated)

/-- `parse_stream` -/
def parseStream (buf : Bytes) : Run (List Frame) := do
  let (frames, terminated) ← streamLoop buf (buf.length + 1) 0 none 0 false
  reject (¬ terminated) (.badOrdering "stream missing END/ERROR frame")
  pure frames

end

/-! ## They do not panic -/

section

variable {γ δ : Type} {S : γ → δ → Prop}

/-- A digest that is there to be copied. -/
theorem sim_digestAt {buf : Bytes} {lo hi : ℕ} {F : Digest → Run γ} {y : CodecResult δ}
    (hlo : hi = lo + 32) (h : hi ≤ buf.length) (hF : Sim S (F (TreeFrame.digestAt buf lo)) y) :
    Sim S (copyRange buf lo hi >>= F) y := by
  subst hlo
  have hd : Mst2.readDigestAt "" buf lo = .ok (TreeFrame.digestAt buf lo) :=
    readDigestAt_eq_ok.mpr (TreeFrame.slice?_digestAt h)
  rw [copyRange_eq rfl h, hd]
  exact hF

/-- The bytes from an offset on, or an error if the buffer ends before it. -/
theorem sim_getFrom {b : Bytes} {lo : ℕ} {e : CodecError} {F : Bytes → Run γ}
    {f : Unit → CodecResult δ}
    (hF : lo ≤ b.length → Sim S (F (b.drop lo)) (f ())) :
    Sim S (okOr (getRange b lo b.length) e >>= F) (Except.reject (b.length < lo) e >>= f) := by
  rw [Except.reject]
  split
  · rename_i hlo
    rw [getRange, if_neg (by omega)]
    exact .error e
  · rename_i hlo
    rw [getRange_eq_some (by omega) le_rfl, okOr_some,
      List.take_of_length_le (by rw [List.length_drop])]
    exact hF (by omega)

end

section

variable [Sha256]

theorem MetaPayload.decodePages_eq {payload : Bytes} (hlen : payload.length ≤ metaMaxRaw)
    (n off : ℕ) (seen : List Digest) (hoff : off ≤ payload.length) :
    MetaPayload.decodePages payload n off seen =
      lift (Mst2.MetaPayload.decodePages payload n off seen) := by
  rw [metaMaxRaw] at hlen
  rw [← sim_eq_iff]
  induction n generalizing off seen with
  | zero => exact .ok rfl
  | succ n ih =>
    rw [decodePages, Mst2.MetaPayload.decodePages]
    refine sim_readDigestAt (by omega) fun pid ↦ .add (by omega) ?_
    refine sim_readU32 (by omega) fun pageLen ↦ .add (by omega) (.reject fun hmax ↦ ?_)
    rw [pageMaxBytes, Nat.not_lt] at hmax
    refine .add (by omega) ?_
    rw [getRange_eq_slice?]
    exact .okOr fun page hpage ↦ .add (by omega) (.reject fun _ ↦ .reject fun _ ↦
      (ih _ _ (le_of_slice? hpage)).andThenPair fun pages off ↦ .ok rfl)

theorem MetaPayload.decode_eq (payload : Bytes) :
    MetaPayload.decode payload = lift (Mst2.MetaPayload.decode payload) := by
  rw [← sim_eq_iff, decode, Mst2.MetaPayload.decode]
  refine .reject fun hmax ↦ .reject fun hmin ↦ ?_
  rw [Nat.not_lt] at hmax
  refine sim_readU16 (by omega) fun count ↦ .reject fun _ ↦ ?_
  refine sim_readU16 (by omega) fun reserved ↦ .reject fun _ ↦ ?_
  rw [decodePages_eq hmax _ _ _ (by omega)]
  exact .liftPair fun pages off _ ↦ .reject fun _ ↦ .ok rfl

theorem ObjectPayload.decodeObjects_eq {payload data : Bytes} (n i : ℕ) (expectOff : UInt32)
    (seen : List Digest) (hlen : payload.length ≤ objectMaxRaw)
    (hi : 4 + (i + n) * 40 ≤ payload.length) :
    ObjectPayload.decodeObjects payload data n i expectOff seen =
      lift (Mst2.ObjectPayload.decodeObjects payload data n i expectOff seen) := by
  rw [objectMaxRaw] at hlen
  rw [← sim_eq_iff]
  induction n generalizing i expectOff seen with
  | zero => exact .ok rfl
  | succ n ih =>
    rw [decodeObjects, Mst2.ObjectPayload.decodeObjects]
    refine .mul (by omega) (.add (by omega) (.add (by omega) (.mul (by omega) (.add (by omega)
      (.range (by omega) (by omega) ?_)))))
    rw [show 4 + (i + 1) * 40 - (4 + i * 40) = 40 by omega]
    have ht : ((payload.drop (4 + i * 40)).take 40).length = 40 := by
      rw [List.length_take, List.length_drop]
      omega
    generalize (payload.drop (4 + i * 40)).take 40 = t at ht ⊢
    dsimp only
    refine sim_digestAt rfl (by omega) (sim_readU32 (by omega) fun objectLen ↦ ?_)
    have hobject := objectLen.toNat_lt
    refine sim_readU32 (by omega) fun dataOffset ↦ .reject fun _ ↦ .reject fun _ ↦
      .lift fun expectOff _ ↦ .reject fun _ ↦ ?_
    have hdata := dataOffset.toNat_lt
    refine .add (by omega) ?_
    rw [getRange_eq_slice?]
    exact .okOr fun bytes _ ↦ .reject fun _ ↦
      (ih _ _ _ (by omega)).andThenPair fun objects expectOff ↦ .ok rfl

theorem ObjectPayload.decode_eq (payload : Bytes) :
    ObjectPayload.decode payload = lift (Mst2.ObjectPayload.decode payload) := by
  rw [← sim_eq_iff, decode, Mst2.ObjectPayload.decode]
  refine .reject fun hmax ↦ .reject fun hmin ↦ ?_
  rw [Nat.not_lt] at hmax
  refine sim_readU16 (by omega) fun count ↦ .reject fun _ ↦ ?_
  have hcount := count.toNat_lt
  refine sim_readU16 (by omega) fun reserved ↦ .reject fun _ ↦ .mul (by omega) (.add (by omega)
    (sim_getFrom fun htable ↦ ?_))
  rw [decodeObjects_eq _ _ _ _ hmax (by omega)]
  exact .liftPair fun objects expectOff _ ↦ .reject fun _ ↦ .ok rfl

end

theorem ChunkPayload.decode_eq (payload : Bytes) (rawLen : UInt32) :
    ChunkPayload.decode payload rawLen = lift (Mst2.ChunkPayload.decode payload rawLen) := by
  rw [← sim_eq_iff, decode, Mst2.ChunkPayload.decode]
  refine .reject fun hmin ↦ .reject fun _ ↦ ?_
  refine sim_readU32 (by omega) fun chunkLen ↦ .sub (by omega) (.reject fun _ ↦ .reject fun _ ↦ ?_)
  refine sim_digestAt rfl (by omega) (sim_digestAt rfl (by omega) ?_)
  exact sim_readU64 (by omega) fun chunkIndex ↦ .rangeFrom (by omega) (.ok rfl)

theorem EndPayload.decode_eq (payload : Bytes) :
    EndPayload.decode payload = lift (Mst2.EndPayload.decode payload) := by
  rw [← sim_eq_iff, decode, Mst2.EndPayload.decode]
  refine .reject fun hlen ↦ sim_digestAt rfl (by omega) ?_
  refine sim_readU32 (by omega) fun requestItemCount ↦ ?_
  refine sim_readU32 (by omega) fun uniqueUnitCount ↦ ?_
  exact sim_readU64 (by omega) fun logicalBytes ↦ .ok rfl

theorem ErrorPayload.decode_eq (payload : Bytes) :
    ErrorPayload.decode payload = lift (Mst2.ErrorPayload.decode payload) := by
  rw [← sim_eq_iff, decode, Mst2.ErrorPayload.decode]
  refine .reject fun hmax ↦ .okOr fun s hs ↦ ?_
  rw [errorMaxBytes, Nat.not_lt] at hmax
  rw [← String.ofUtf8_eq_some.mp hs] at hmax
  exact sim_eq_iff.mpr (parseErrorJson_eq (by omega))

section

variable [Sha256]

theorem decodePayload_eq (kind : UInt8) (payload : Bytes) (rawLen : UInt32) :
    decodePayload kind payload rawLen = lift (TreeFrame.decodePayload kind payload rawLen) := by
  rw [decodePayload, TreeFrame.decodePayload, MetaPayload.decode_eq, ObjectPayload.decode_eq,
    ChunkPayload.decode_eq, EndPayload.decode_eq, ErrorPayload.decode_eq]
  split_ifs
  · exact (lift_map _ _).symm
  · exact (lift_map _ _).symm
  · exact (lift_map _ _).symm
  · exact (lift_map _ _).symm
  · exact (lift_map _ _).symm
  · rfl

variable [Features]

omit [Sha256] in
theorem rawPayload_eq (flags : UInt8) (wirePayload : Bytes) (rawLen : UInt32) :
    rawPayload flags wirePayload rawLen =
      lift (TreeFrame.rawPayload flags wirePayload rawLen) := by
  rw [rawPayload, TreeFrame.rawPayload]
  split
  · rfl
  · cases (Features.zstd : Option ZstdLib) with
    | some z => exact decompressStrict_eq z wirePayload rawLen.toNat
    | none => rfl

theorem parseFrame_eq (buf : Bytes) : parseFrame buf = lift (TreeFrame.parseFrame buf) := by
  rw [← sim_eq_iff, parseFrame, TreeFrame.parseFrame]
  refine .reject fun hmin ↦ ?_
  have hlen : 64 ≤ buf.length := Nat.not_lt.mp hmin
  refine .range (by omega) (by omega) (.reject fun _ ↦ ?_)
  refine sim_readU16 (by omega) fun v ↦ .reject fun _ ↦ ?_
  refine .indexD 0 (by omega) (.indexD 0 (by omega) ?_)
  refine sim_readU32 (by omega) fun len ↦ .reject fun _ ↦ .reject fun _ ↦ ?_
  refine sim_readU32 (by omega) fun wireLen ↦ ?_
  refine sim_readU32 (by omega) fun rawLen ↦ ?_
  refine sim_readU32 (by omega) fun streamId ↦ .reject fun _ ↦ ?_
  refine sim_readU64 (by omega) fun _ ↦ sim_digestAt rfl hlen ?_
  have hwire := wireLen.toNat_lt
  refine .reject fun _ ↦ .reject fun _ ↦ .lift fun limit _ ↦ .reject fun _ ↦ ?_
  refine .pass (by rw [TreeFrame.headerLen]; omega) (.reject fun htotal ↦ ?_)
  refine .range (by omega) (by omega) ?_
  dsimp only
  rw [← List.drop_take, rawPayload_eq]
  refine .lift fun payload _ ↦ .reject fun _ ↦ ?_
  rw [decodePayload_eq]
  exact .lift fun frame _ ↦ .ok rfl

/-- The sequence counter stays behind the offset, as a frame has at least one byte. -/
theorem streamLoop_eq {buf : Bytes} (hbuf : buf.length < 2 ^ 63) (fuel off expectSeq : ℕ)
    (streamId : Option UInt32) (terminated : Bool) (hfuel : buf.length < off + fuel)
    (hoff : off ≤ buf.length) (hseq : expectSeq ≤ off) :
    streamLoop buf fuel off streamId expectSeq terminated =
      lift (TreeFrame.streamLoop (buf.drop off) streamId expectSeq terminated) := by
  rw [← sim_eq_iff]
  induction fuel generalizing off expectSeq streamId terminated with
  | zero => omega
  | succ fuel ih =>
    rw [streamLoop, TreeFrame.streamLoop]
    by_cases hend : off < buf.length
    · have hlen : (buf.drop off).length = buf.length - off := List.length_drop
      rw [if_pos hend, if_neg (List.ne_nil_of_length_pos (by omega))]
      split
      · rename_i hterminated
        subst hterminated
        exact .error _
      rename_i hterminated
      refine .pass hterminated (.rangeFrom hoff ?_)
      rw [parseFrame_eq]
      split
      · rename_i e he
        rw [he]
        exact .error e
      · rename_i frame used hframe
        have hused := TreeFrame.headerLen_le_of_parseFrame hframe
        rw [TreeFrame.headerLen] at hused
        rw [hframe]
        refine .ok_bind (.add (by omega) (.sub (by omega) ?_))
        rw [Nat.add_sub_cancel]
        refine .rangeFrom hoff ?_
        refine sim_readU32 (by omega) fun sid ↦ .sub (by omega) ?_
        rw [Nat.add_sub_cancel]
        refine .rangeFrom hoff ?_
        refine sim_readU64 (by omega) fun seq ↦ .reject fun _ ↦ .reject fun _ ↦ .add (by omega) ?_
        rw [List.drop_drop]
        exact (ih _ _ _ _ (by omega) (by omega) (by omega)).andThenPair
          fun frames terminated ↦ .ok rfl
    · rw [if_neg hend, if_pos (List.drop_eq_nil_of_le (Nat.le_of_not_lt hend))]
      exact .ok rfl

theorem parseStream_eq {buf : Bytes} (hbuf : buf.length < 2 ^ 63) :
    parseStream buf = lift (TreeFrame.parseStream buf) := by
  rw [← sim_eq_iff, parseStream, TreeFrame.parseStream,
    streamLoop_eq hbuf _ _ _ _ _ (by omega) (Nat.zero_le _) le_rfl, List.drop_zero]
  exact .liftPair fun frames terminated _ ↦ .reject fun _ ↦ .ok rfl

end

end Checked

end Mst2
