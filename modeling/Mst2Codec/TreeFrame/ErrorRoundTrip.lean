import Mst2Codec.TreeFrame.ErrorGrammar
import Mst2Codec.TreeFrame.Frames

/-!
# ERROR frames come back

What `json_string` writes is a literal of JSON whose pieces denote the characters of the string,
none of them a surrogate pair (`exists_literal`).  So the text of a payload is an object with its
members, the parser reads them back (`ErrorPayload.parseErrorJson_json`), and the frame is accepted.
-/

set_option autoImplicit false

namespace Mst2

open Bytes Except Json TreeFrame

/-! ## The writer writes literals -/

/-- The escape of a control character. -/
theorem hex04_control : ∀ n < 0x20, ∃ d₂ d₃, hex04 n = ['0', '0', d₂, d₃] ∧
    Json.hexNumber ['0', '0', d₂, d₃] = some n := by
  have h : ∀ n < 0x20, hex04 n = ['0', '0', (n / 16).digitChar, (n % 16).digitChar] ∧
      Json.hexNumber ['0', '0', (n / 16).digitChar, (n % 16).digitChar] = some n := by decide
  exact fun n hn ↦ ⟨_, _, h n hn⟩

theorem scalar_toNat (c : Char) : scalar c.toNat = some c := dif_pos c.valid

/-- What is written for a character is a piece that denotes it. -/
theorem exists_piece (c : Char) : ∃ p : Piece, p.text = jsonChar c ∧ p.value = some c ∧
    ¬ p.IsPair := by
  by_cases hquote : c = '"'
  · subst hquote
    exact ⟨.short '"', rfl, rfl, id⟩
  by_cases hback : c = '\\'
  · subst hback
    exact ⟨.short '\\', rfl, rfl, id⟩
  by_cases hn : c = '\n'
  · subst hn
    exact ⟨.short 'n', rfl, rfl, id⟩
  by_cases hr : c = '\r'
  · subst hr
    exact ⟨.short 'r', rfl, rfl, id⟩
  by_cases ht : c = '\t'
  · subst ht
    exact ⟨.short 't', rfl, rfl, id⟩
  by_cases hcontrol : c.toNat < 0x20
  · obtain ⟨d₂, d₃, htext, hvalue⟩ := hex04_control c.toNat hcontrol
    refine ⟨.unit '0' '0' d₂ d₃, ?_, ?_, id⟩
    · simp only [jsonChar, hquote, hback, hn, hr, ht, hcontrol, if_true, if_false, htext,
        Piece.text]
    · rw [Piece.value, hvalue, Option.bind_some, scalar_toNat]
  · refine ⟨.raw c, ?_, ?_, id⟩
    · simp only [jsonChar, hquote, hback, hn, hr, ht, hcontrol, if_false, Piece.text]
    · rw [Piece.value, if_neg (by simp [hquote, hback, hcontrol])]

theorem exists_pieces (cs : List Char) : ∃ ps : List Piece,
    ps.flatMap Piece.text = cs.flatMap jsonChar ∧ Denotes ps cs ∧ ∀ p ∈ ps, ¬ p.IsPair := by
  induction cs with
  | nil => exact ⟨[], rfl, rfl, by simp⟩
  | cons c cs ih =>
    obtain ⟨p, htext, hvalue, hpair⟩ := exists_piece c
    obtain ⟨ps, htexts, hvalues, hpairs⟩ := ih
    exact ⟨p :: ps, by rw [List.flatMap_cons, List.flatMap_cons, htext, htexts],
      denotes_cons.mpr ⟨c, cs, rfl, hvalue, hvalues⟩, List.forall_mem_cons.mpr ⟨hpair, hpairs⟩⟩

/-- **`json_string` writes a literal of the string.** -/
theorem exists_literal (v : String) : ∃ ps : List Piece, literal ps = (jsonString v).toList ∧
    Denotes ps v.toList ∧ ∀ p ∈ ps, ¬ p.IsPair := by
  obtain ⟨ps, htext, hvalue, hpair⟩ := exists_pieces v.toList
  refine ⟨ps, ?_, hvalue, hpair⟩
  rw [literal, htext, jsonString, String.toList_ofList, List.cons_append]

/-! ## The round trip -/

namespace ErrorPayload

/-- The text of a payload consists of these tokens. -/
theorem toList_json {e : ErrorPayload} {ps qs : List Piece}
    (hcode : literal ps = (jsonString e.code).toList)
    (hid : literal qs = (jsonString e.requestId).toList) :
    (compactTokens ps e.retryable qs).text = e.json.toList := by
  have hbool : boolText e.retryable = (if e.retryable then "true" else "false").toList := by
    cases e.retryable <;> rfl
  simp only [json, String.toList_append, ← hcode, ← hid, ← hbool]
  simp [compactTokens, Object.text, Object.members, membersText_cons_cons, Member.text, Value.text,
    literal, Piece.text]

/-- **The parser reads what the writer writes.** -/
theorem parseErrorJson_json (e : ErrorPayload) : parseErrorJson e.json = .ok e := by
  obtain ⟨ps, htext, hcode, hps⟩ := exists_literal e.code
  obtain ⟨qs, htext', hid, hqs⟩ := exists_literal e.requestId
  refine parseErrorJson_eq_ok.mpr ⟨_, _, toList_json htext htext', compactTokens_denotes hcode hid,
    ?_, .refl _⟩
  rintro ⟨p, hp, hpair⟩
  rcases mem_pieces_compactTokens hp with hp | hp | ⟨c, rfl⟩
  · exact hps p hp hpair
  · exact hqs p hp hpair
  · exact hpair

theorem decode_json {e : ErrorPayload} (h : e.json.asBytes.length ≤ errorMaxBytes) :
    decode e.json.asBytes = .ok e := by
  rw [decode, reject_of_not (Nat.not_lt.mpr h), ok_bind, String.ofUtf8_eq_some.mpr rfl, okOr_some,
    ok_bind, parseErrorJson_json]

variable [Sha256] [Features]

/-- **An ERROR frame that the encoder writes is accepted.** -/
theorem parseFrame_error (e : ErrorPayload) (streamId : UInt32) (sequence : UInt64)
    (hstream : streamId ≠ 0) (bytes : Bytes) (h : e.encode streamId sequence = .ok bytes) :
    parseFrame bytes = .ok (.ofError e, bytes.length) := by
  rw [encode, reject_bind_eq_ok, Nat.not_lt] at h
  obtain ⟨hlen, h⟩ := h
  obtain rfl := Except.ok.inj h
  have hlimit : rawLimit (Frame.ofError e).kind = .ok errorMaxBytes := rfl
  exact (parseFrame_frameBytes _ hstream hlimit hlen).mpr (decode_json hlen)

/-- A payload with a quote, two control characters and characters that are not ASCII. -/
def sample : ErrorPayload := ⟨"no \"page\"\n\x01", true, "é😀"⟩

/-- SHA-256 on its text. -/
@[reducible] def sampleTextSha256 : Sha256 := .ofTable [(sample.json.asBytes,
  .ofNat 0x0673000b84af5669892186e7293d7995d0101691f100bbcda7bcc4232b3755fb)]

omit [Sha256] [Features] in
/-- Its frame. -/
theorem parseFrame_error_sample :
    letI := sampleTextSha256
    letI := identityOnly
    ∃ bytes, sample.encode 42 7 = .ok bytes ∧
      parseFrame bytes = .ok (.ofError sample, bytes.length) := by
  let _ := sampleTextSha256
  let _ := identityOnly
  have h : sample.encode 42 7 = .ok (frameBytes kindError sample.json.asBytes 42 7) := by
    decide +kernel
  exact ⟨_, h, parseFrame_error sample 42 7 (by decide) _ h⟩

end ErrorPayload

end Mst2
