import Mst2Codec.Zstd1

/-!
# The calls of the decoder

`decompress_strict` of `src/zstd1.rs` once more, with what `ZstdLib.decompressStrict` leaves out:
the output is a buffer of `raw_len` zeros that the decoder writes into, the positions of input and
output move forward, and every call of the decoder is recorded.  `driveStrict_snd` says that nothing
else is different.

Each call but the last moves a position, and both stay in their slices, so there are at most as many
calls as there are places to move to (`length_driveStream_le`).  A run that returns has seen the end
of the frame at the last call, not before, and the buffer holds up to its position what the calls
have produced (`driveStream_eq_ok`).
-/

set_option autoImplicit false

namespace Mst2

open Bytes Except

/-- What one call of the decoder has done. -/
structure StreamCall where
  /-- The hint, unless the call has failed. -/
  hint : Option ℕ
  /-- How far the input has moved. -/
  consumed : ℕ
  /-- The bytes that were written. -/
  produced : Bytes
deriving DecidableEq

/-- A call that has failed. -/
def StreamCall.failed : StreamCall := ⟨none, 0, []⟩

/-- A call that has returned. -/
def DecoderStep.call {State : Type} {rest : Bytes} {room : ℕ} (step : DecoderStep State rest room) :
    StreamCall := ⟨some step.hint, step.consumed, step.produced⟩

/-- Bytes written into a buffer at a position. -/
def writeAt (out : Bytes) (pos : ℕ) (bytes : Bytes) : Bytes :=
  out.take pos ++ bytes ++ out.drop (pos + bytes.length)

theorem length_writeAt {out bytes : Bytes} {pos : ℕ} (h : pos + bytes.length ≤ out.length) :
    (writeAt out pos bytes).length = out.length := by
  rw [writeAt, List.length_append, List.length_append, List.length_take, List.length_drop]
  omega

theorem take_writeAt {out bytes : Bytes} {pos : ℕ} (h : pos ≤ out.length) :
    (writeAt out pos bytes).take (pos + bytes.length) = out.take pos ++ bytes :=
  List.take_left' (by rw [List.length_append, List.length_take, min_eq_left h])

namespace ZstdLib

variable (z : ZstdLib)

/-- The loop of `decompress_strict`, with the calls it makes: the positions of the input and of the
output, and the buffer. -/
def driveStream (wire : Bytes) (rawLen : ℕ) (dctx : z.DCtx) (inPos : ℕ) (out : Bytes)
    (outPos : ℕ) : List StreamCall × CodecResult (ℕ × Bytes × ℕ) :=
  match z.decompressStream dctx (wire.drop inPos) (rawLen - outPos) with
  | none => ([.failed], .error (.digestMismatch "zstd decompression failed"))
  | some step =>
    let inPos' := inPos + step.consumed
    let outPos' := outPos + step.produced.length
    let out := writeAt out outPos step.produced
    if step.hint = 0 then ([step.call], .ok (inPos', out, outPos'))
    else if _h : inPos = inPos' ∧ outPos = outPos' then
      ([step.call], .error (.truncated "zstd frame"))
    else if outPos' = rawLen then
      ([step.call], .error (.badLength "zstd output exceeds header raw_len"))
    else
      let next := driveStream wire rawLen step.state inPos' out outPos'
      (step.call :: next.1, next.2)
termination_by wire.length - inPos + (rawLen - outPos)
decreasing_by
  have hin := step.consumed_le
  have hout := step.length_produced_le
  rw [List.length_drop] at hin
  omega

/-- What `decompress_strict` does before it calls the decoder. -/
def prepare (wire : Bytes) (rawLen : ℕ) : CodecResult z.DCtx := do
  reject (rawLen > maxRawPayload) (.badLength "zstd raw_len exceeds the spec 14 payload limit")
  reject (wire.length < 4 ∨ wire.take 4 ≠ zstdMagic)
    (.badConstant "zstd payload is not one standard frame")
  validateFrameHeader wire rawLen
  okOr (z.setWindowLogMax z.create maxWindowLog) (.unsupported "zstd window larger than 8MiB")

/-- What `decompress_strict` checks behind the loop. -/
def finish (wire : Bytes) (rawLen : ℕ) (inPos : ℕ) (out : Bytes) (outPos : ℕ) :
    CodecResult Bytes := do
  reject (outPos ≠ rawLen) (.badLength "zstd output shorter than header raw_len")
  reject (inPos ≠ wire.length)
    (.badOrdering "trailing bytes/second frame after the single zstd frame")
  pure out

/-- `decompress_strict`, with the calls of the decoder. -/
def driveStrict (wire : Bytes) (rawLen : ℕ) : List StreamCall × CodecResult Bytes :=
  match z.prepare wire rawLen with
  | .error e => ([], .error e)
  | .ok dctx =>
    let run := z.driveStream wire rawLen dctx 0 (List.replicate rawLen 0) 0
    (run.1, run.2 >>= fun (inPos, out, outPos) ↦ finish wire rawLen inPos out outPos)

variable {z} {wire out : Bytes} {rawLen inPos outPos : ℕ} {dctx : z.DCtx}

/-! ## The number of calls -/

/-- Each call but the last moves a position. -/
theorem length_driveStream_le : (z.driveStream wire rawLen dctx inPos out outPos).1.length ≤
    wire.length - inPos + (rawLen - outPos) + 1 := by
  fun_induction driveStream z wire rawLen dctx inPos out outPos with
  | case1 => simp
  | case2 => simp
  | case3 => simp
  | case4 => simp
  | case5 dctx inPos out outPos step hstep inPos' outPos' out' hhint hmoved hroom next ih =>
    have hin := step.consumed_le
    have hout := step.length_produced_le
    rw [List.length_drop] at hin
    have hlength : next.1.length ≤ wire.length - (inPos + step.consumed) +
      (rawLen - (outPos + step.produced.length)) + 1 := ih
    have hmoved : ¬ (inPos = inPos + step.consumed ∧ outPos = outPos + step.produced.length) :=
      hmoved
    rw [List.length_cons]
    omega

/-! ## What the calls have done -/

/-- The calls of a run that has reached the end of the frame: the last one has signalled it, and no
other. -/
def EndsFrame (calls : List StreamCall) : Prop :=
  ∃ init last, calls = init ++ [last] ∧ last.hint = some 0 ∧ ∀ c ∈ init, c.hint ≠ some 0

theorem EndsFrame.cons {c : StreamCall} {calls : List StreamCall} (hc : c.hint ≠ some 0)
    (h : EndsFrame calls) : EndsFrame (c :: calls) := by
  obtain ⟨init, last, rfl, hlast, hinit⟩ := h
  exact ⟨c :: init, last, rfl, hlast, List.forall_mem_cons.mpr ⟨hc, hinit⟩⟩

/-- **A run that returns**: the positions have moved as far as its calls have moved them, and the
buffer holds what they have produced. -/
theorem driveStream_eq_ok (hin : inPos ≤ wire.length) (hout : out.length = rawLen)
    (hpos : outPos ≤ rawLen) {inEnd outEnd : ℕ} {buffer : Bytes}
    (h : (z.driveStream wire rawLen dctx inPos out outPos).2 = .ok (inEnd, buffer, outEnd)) :
    let calls := (z.driveStream wire rawLen dctx inPos out outPos).1
    EndsFrame calls ∧ inEnd = inPos + (calls.map StreamCall.consumed).sum ∧ inEnd ≤ wire.length ∧
      outEnd ≤ rawLen ∧ buffer.length = rawLen ∧
      buffer.take outEnd = out.take outPos ++ calls.flatMap StreamCall.produced := by
  fun_induction driveStream z wire rawLen dctx inPos out outPos with
  | case1 => exact absurd h nofun
  | case2 dctx inPos out outPos step hstep inPos' outPos' out' hhint =>
    have hconsumed := step.consumed_le
    have hproduced := step.length_produced_le
    rw [List.length_drop] at hconsumed
    have hends := Except.ok.inj h
    rw [Prod.mk.injEq, Prod.mk.injEq] at hends
    obtain ⟨hinEnd, hbuffer, houtEnd⟩ := hends
    have htake : out'.take outPos' = out.take outPos ++ step.produced := take_writeAt (by omega)
    rw [← hinEnd, ← hbuffer, ← houtEnd]
    refine ⟨⟨[], step.call, rfl, congrArg some hhint, List.forall_mem_nil _⟩, ?_, ?_, ?_,
      (length_writeAt (by omega)).trans hout, ?_⟩
    · rw [List.map_singleton, List.sum_singleton]
      rfl
    · show inPos + step.consumed ≤ _
      omega
    · show outPos + step.produced.length ≤ _
      omega
    · rw [htake, List.flatMap_singleton]
      rfl
  | case3 => exact absurd h nofun
  | case4 => exact absurd h nofun
  | case5 dctx inPos out outPos step hstep inPos' outPos' out' hhint hmoved hroom next ih =>
    have hconsumed := step.consumed_le
    have hproduced := step.length_produced_le
    rw [List.length_drop] at hconsumed
    have hin' : inPos' ≤ wire.length := by
      show inPos + step.consumed ≤ _
      omega
    have hpos' : outPos' ≤ rawLen := by
      show outPos + step.produced.length ≤ _
      omega
    have hout' : out'.length = rawLen := (length_writeAt (by omega)).trans hout
    obtain ⟨hframe, hinEnd, hinLe, houtLe, hlen, hbuffer⟩ := ih hin' hout' hpos' h
    refine ⟨hframe.cons (by simpa [DecoderStep.call] using hhint), ?_, hinLe, houtLe, hlen, ?_⟩
    · rw [hinEnd, List.map_cons, List.sum_cons]
      exact Nat.add_assoc _ _ _
    · have htake : out'.take outPos' = out.take outPos ++ step.produced :=
        take_writeAt (by omega)
      rw [hbuffer, htake, List.flatMap_cons, List.append_assoc]
      rfl

/-! ## The same without the calls -/

theorem decompressLoop_eq {rest out : Bytes} {room : ℕ} (hroom : rawLen - out.length = room) :
    z.decompressLoop rawLen dctx rest out =
      match z.decompressStream dctx rest room with
      | none => .error (.digestMismatch "zstd decompression failed")
      | some step =>
        if step.hint = 0 then .ok (rest.drop step.consumed, out ++ step.produced)
        else if step.consumed = 0 ∧ step.produced = [] then .error (.truncated "zstd frame")
        else if (out ++ step.produced).length = rawLen then
          .error (.badLength "zstd output exceeds header raw_len")
        else
          z.decompressLoop rawLen step.state (rest.drop step.consumed) (out ++ step.produced) := by
  subst hroom
  rw [decompressLoop]
  rcases z.decompressStream dctx rest (rawLen - out.length) with _ | step
  · rfl
  · simp only [dite_eq_ite]

/-- What is left of the input, and the output up to its position. -/
def remains (wire : Bytes) : ℕ × Bytes × ℕ → Bytes × Bytes
  | (inPos, out, outPos) => (wire.drop inPos, out.take outPos)

/-- What `decompress_strict` checks of them. -/
def checkEnd (rawLen : ℕ) : Bytes × Bytes → CodecResult Bytes
  | (rest, out) => do
    reject (out.length ≠ rawLen) (.badLength "zstd output shorter than header raw_len")
    reject (rest ≠ []) (.badOrdering "trailing bytes/second frame after the single zstd frame")
    pure out

theorem decompressStrict_eq (z : ZstdLib) (wire : Bytes) (rawLen : ℕ) :
    z.decompressStrict wire rawLen = z.prepare wire rawLen >>= fun dctx ↦
      z.decompressLoop rawLen dctx wire [] >>= checkEnd rawLen := by
  simp only [decompressStrict, prepare, bind_assoc]
  rfl

/-- The checks of the two loops are the same. -/
theorem checkEnd_remains (hin : inPos ≤ wire.length) (hpos : outPos ≤ rawLen)
    (hout : out.length = rawLen) :
    checkEnd rawLen (remains wire (inPos, out, outPos)) = finish wire rawLen inPos out outPos := by
  have hend : wire.drop inPos ≠ [] ↔ inPos ≠ wire.length := by
    rw [ne_eq, List.drop_eq_nil_iff, ne_eq]
    omega
  rw [remains, checkEnd]
  simp only [finish, List.length_take_of_le (hpos.trans hout.ge), hend]
  -- a buffer that is full is the output
  by_cases hfull : outPos = rawLen
  · rw [hfull, List.take_of_length_le hout.le]
  · rw [reject, if_pos hfull]
    rfl

theorem moved_of_not {bytes : Bytes} {consumed : ℕ}
    (h : ¬ (inPos = inPos + consumed ∧ outPos = outPos + bytes.length)) :
    ¬ (consumed = 0 ∧ bytes = []) := by
  rintro ⟨rfl, rfl⟩
  exact h ⟨rfl, rfl⟩

theorem remains_driveStream (hin : inPos ≤ wire.length) (hout : out.length = rawLen)
    (hpos : outPos ≤ rawLen) :
    z.decompressLoop rawLen dctx (wire.drop inPos) (out.take outPos) =
      (z.driveStream wire rawLen dctx inPos out outPos).2.map (remains wire) := by
  fun_induction driveStream z wire rawLen dctx inPos out outPos with
  | case1 dctx inPos out outPos hstep =>
    have hlen : (out.take outPos).length = outPos := List.length_take_of_le (by omega)
    rw [decompressLoop_eq (by rw [hlen]), hstep]
    rfl
  | case2 dctx inPos out outPos step hstep inPos' outPos' out' hhint =>
    have hlen : (out.take outPos).length = outPos := List.length_take_of_le (by omega)
    rw [decompressLoop_eq (by rw [hlen]), hstep]
    dsimp only
    rw [if_pos hhint, List.drop_drop, ← take_writeAt (by omega)]
    rfl
  | case3 dctx inPos out outPos step hstep inPos' outPos' hhint hmoved =>
    have hlen : (out.take outPos).length = outPos := List.length_take_of_le (by omega)
    have hstop : step.consumed = 0 ∧ step.produced = [] :=
      ⟨Nat.left_eq_add.mp hmoved.1, List.length_eq_zero_iff.mp (Nat.left_eq_add.mp hmoved.2)⟩
    rw [decompressLoop_eq (by rw [hlen]), hstep]
    dsimp only
    rw [if_neg hhint, if_pos hstop]
    rfl
  | case4 dctx inPos out outPos step hstep inPos' outPos' hhint hmoved hroom =>
    have hlen : (out.take outPos).length = outPos := List.length_take_of_le (by omega)
    rw [decompressLoop_eq (by rw [hlen]), hstep]
    dsimp only
    rw [if_neg hhint, if_neg (moved_of_not hmoved),
      if_pos (by rw [List.length_append, hlen]; exact hroom)]
    rfl
  | case5 dctx inPos out outPos step hstep inPos' outPos' out' hhint hmoved hroom next ih =>
    have hlen : (out.take outPos).length = outPos := List.length_take_of_le (by omega)
    have hconsumed := step.consumed_le
    have hproduced := step.length_produced_le
    rw [List.length_drop] at hconsumed
    have hin' : inPos' ≤ wire.length := by
      show inPos + step.consumed ≤ _
      omega
    have hpos' : outPos' ≤ rawLen := by
      show outPos + step.produced.length ≤ _
      omega
    have hout' : out'.length = rawLen := (length_writeAt (by omega)).trans hout
    rw [decompressLoop_eq (by rw [hlen]), hstep]
    dsimp only
    rw [if_neg hhint, if_neg (moved_of_not hmoved),
      if_neg (by rw [List.length_append, hlen]; exact hroom), List.drop_drop,
      ← take_writeAt (by omega)]
    exact ih hin' hout' hpos'

/-- **The calls change nothing.** -/
theorem driveStrict_snd (z : ZstdLib) (wire : Bytes) (rawLen : ℕ) :
    (z.driveStrict wire rawLen).2 = z.decompressStrict wire rawLen := by
  rw [decompressStrict_eq, driveStrict]
  rcases z.prepare wire rawLen with e | dctx
  · rfl
  rw [ok_bind]
  dsimp only
  have hzeros : (List.replicate rawLen (0 : UInt8)).length = rawLen := List.length_replicate
  have hloop : z.decompressLoop rawLen dctx (wire.drop 0) ((List.replicate rawLen 0).take 0) = _ :=
    remains_driveStream (Nat.zero_le wire.length) hzeros (Nat.zero_le rawLen)
  rw [List.drop_zero, List.take_zero] at hloop
  rw [hloop]
  rcases h : (z.driveStream wire rawLen dctx 0 (List.replicate rawLen 0) 0).2 with
    e | ⟨inPos, out, outPos⟩
  · rfl
  obtain ⟨-, -, hin, hpos, hout, -⟩ :=
    driveStream_eq_ok (Nat.zero_le wire.length) hzeros (Nat.zero_le rawLen) h
  exact (checkEnd_remains hin hpos hout).symm

theorem driveStrict_eq_ok (h : (z.driveStrict wire rawLen).2 = .ok out) :
    ∃ dctx, z.prepare wire rawLen = .ok dctx ∧
      (z.driveStrict wire rawLen).1 =
        (z.driveStream wire rawLen dctx 0 (List.replicate rawLen 0) 0).1 ∧
      (z.driveStream wire rawLen dctx 0 (List.replicate rawLen 0) 0).2 =
        .ok (wire.length, out, rawLen) := by
  rw [driveStrict] at h ⊢
  rcases hprepare : z.prepare wire rawLen with e | dctx
  · rw [hprepare] at h
    exact absurd h nofun
  rw [hprepare] at h
  obtain ⟨⟨inPos, buffer, outPos⟩, hrun, h⟩ := bind_eq_ok.mp h
  refine ⟨dctx, rfl, rfl, ?_⟩
  dsimp only at h
  rw [finish, reject_bind_eq_ok, not_not, reject_bind_eq_ok, not_not] at h
  obtain ⟨rfl, rfl, h⟩ := h
  rw [hrun, Except.ok.inj h]

/-- **Strict decompression**: whatever the decoder does, it is called at most once more than there
are bytes of input and output.  An accepted output has the announced length within the limit and
consists of what the calls have produced; the calls have consumed the whole input, and the last one
alone has signalled the end of the frame. -/
theorem decompressStrict_calls (z : ZstdLib) (wire : Bytes) (rawLen : ℕ) :
    (z.driveStrict wire rawLen).2 = z.decompressStrict wire rawLen ∧
    (z.driveStrict wire rawLen).1.length ≤ wire.length + rawLen + 1 ∧
    ∀ out, z.decompressStrict wire rawLen = .ok out →
      out.length = rawLen ∧ rawLen ≤ maxRawPayload ∧
      out = (z.driveStrict wire rawLen).1.flatMap StreamCall.produced ∧
      ((z.driveStrict wire rawLen).1.map StreamCall.consumed).sum = wire.length ∧
      EndsFrame (z.driveStrict wire rawLen).1 := by
  refine ⟨driveStrict_snd z wire rawLen, ?_, fun out h ↦ ?_⟩
  · rw [driveStrict]
    rcases z.prepare wire rawLen with e | dctx
    · exact Nat.zero_le _
    · exact length_driveStream_le
  · rw [← driveStrict_snd] at h
    obtain ⟨dctx, hprepare, hcalls, hrun⟩ := driveStrict_eq_ok h
    obtain ⟨hends, hin, -, -, hout, hbuffer⟩ := driveStream_eq_ok (Nat.zero_le wire.length)
      List.length_replicate (Nat.zero_le rawLen) hrun
    rw [prepare, reject_bind_eq_ok, not_lt] at hprepare
    rw [List.take_zero, List.nil_append, List.take_of_length_le hout.le] at hbuffer
    rw [hcalls]
    exact ⟨hout, hprepare.1, hbuffer, by omega, hends⟩

/-! ## A decoder that takes two calls -/

/-- The header of the frame and of its block first, then the bytes of the block. -/
def twoCalls : ZstdLib where
  compress x _ := some x
  DCtx := Bool
  create := false
  setWindowLogMax ctx _ := some ctx
  decompressStream ctx rest room :=
    if h : ctx = false ∧ 9 ≤ rest.length then some ⟨1, true, 9, [], h.2, Nat.zero_le _⟩
    else if h : ctx = true ∧ rest.length ≤ room then some ⟨0, false, rest.length, rest, le_rfl, h.2⟩
    else none

/-- A frame with one raw block of two bytes. -/
def rawBlock : Bytes := zstdMagic ++ [0x00, 0x00, 0x11, 0x00, 0x00, 0x42, 0x43]

theorem decompressStrict_calls_rawBlock :
    twoCalls.decompressStrict rawBlock 2 = .ok [0x42, 0x43] ∧
      (twoCalls.driveStrict rawBlock 2).1 = [⟨some 1, 9, []⟩, ⟨some 0, 2, [0x42, 0x43]⟩] ∧
      EndsFrame (twoCalls.driveStrict rawBlock 2).1 := by
  have h : twoCalls.decompressStrict rawBlock 2 = .ok [0x42, 0x43] := by decide +kernel
  obtain ⟨-, -, hcalls⟩ := decompressStrict_calls twoCalls rawBlock 2
  exact ⟨h, by decide +kernel, (hcalls _ h).2.2.2.2⟩

end ZstdLib

end Mst2
