import Mst2Codec.TreeFrame.ErrorRoundTrip

/-!
# ERROR frames that are sent again

A reader of an ERROR frame that sends it on writes a text of its own, and the limit of 4096 bytes
holds for that text too.  `size_object_add` compares the two.  The writer drops the white space and
writes no piece of a literal with more bytes than it was read with, but for two: `\b` and `\f` are
read as two bytes and written as the six of `\u0008` and `\u000c`.  `saved` is the table of what the
other escapes leave.  So the frames that can be sent again are those in which these two cost no more
than the rest leaves (`ErrorPayload.resend_iff`), and those without them always can
(`ErrorPayload.resendable_of_forall`).
-/

set_option autoImplicit false

namespace Mst2

open Bytes Except Json TreeFrame

/-- The bytes determine the characters. -/
theorem JsonScan.encode_injective : Function.Injective JsonScan.encode := by
  intro cs ds h
  have hstring : (String.ofList cs).asBytes = (String.ofList ds).asBytes := by
    rw [String.asBytes_ofList, String.asBytes_ofList]
    exact h
  exact String.ofList_injective (String.asBytes_injective hstring)

/-! ## Sizes -/

/-- The number of bytes of a text. -/
def size (cs : List Char) : ℕ := (JsonScan.encode cs).length

theorem size_nil : size [] = 0 := rfl

theorem size_cons (c : Char) (cs : List Char) : size (c :: cs) = c.utf8Size + size cs := by
  rw [size, JsonScan.encode_cons, List.length_append, String.length_utf8EncodeChar, size]

theorem size_append (cs ds : List Char) : size (cs ++ ds) = size cs + size ds := by
  rw [size, JsonScan.encode_append, List.length_append, size, size]

/-- The size of a character, from its number. -/
theorem utf8Size_eq (c : Char) : c.utf8Size =
    if c.toNat < 0x80 then 1 else if c.toNat < 0x800 then 2 else if c.toNat < 0x10000 then 3
    else 4 := by
  split_ifs with hone htwo hthree
  · exact Char.utf8Size_eq_one_iff.mpr (UInt32.le_iff_toNat_le.mpr (Nat.le_of_lt_succ hone))
  · exact Char.utf8Size_eq_two_iff.mpr ⟨UInt32.lt_iff_toNat_lt.mpr (not_lt.mp hone),
      UInt32.le_iff_toNat_le.mpr (Nat.le_of_lt_succ htwo)⟩
  · exact Char.utf8Size_eq_three_iff.mpr ⟨UInt32.lt_iff_toNat_lt.mpr (not_lt.mp htwo),
      UInt32.le_iff_toNat_le.mpr (Nat.le_of_lt_succ hthree)⟩
  · exact Char.utf8Size_eq_four_iff.mpr (UInt32.lt_iff_toNat_lt.mpr (not_lt.mp hthree))

theorem size_of_ascii {cs : List Char} (h : ∀ c ∈ cs, c.toNat < 128) : size cs = cs.length := by
  induction cs with
  | nil => rfl
  | cons c cs ih =>
    obtain ⟨hc, hcs⟩ := List.forall_mem_cons.mp h
    rw [size_cons, ih hcs, utf8Size_eq, if_pos hc, List.length_cons, Nat.add_comm]

/-- White space is one byte each. -/
theorem size_of_ws {cs : List Char} (h : ∀ c ∈ cs, IsWs c) : size cs = cs.length :=
  size_of_ascii fun c hc ↦ by rcases h c hc with rfl | rfl | rfl | rfl <;> decide

/-! ## Pieces -/

/-- A short escape that is read and never written: `\b` or `\f`. -/
def isReadOnly : Piece → Bool
  | .short e => e = 'b' ∨ e = 'f'
  | _ => false

/-- The number of bytes that are saved on a `\u` escape with the number `n`. -/
def unitSaved (n : ℕ) : ℕ :=
  -- a quote, a backslash, a line feed, a carriage return and a tab have short escapes
  if n = 0x22 ∨ n = 0x5C ∨ n = 0x0A ∨ n = 0x0D ∨ n = 0x09 then 4
  -- the other control characters keep theirs
  else if n < 0x20 then 0
  -- the rest is written as it is, with one, two or three bytes
  else if n < 0x80 then 5
  else if n < 0x800 then 4
  else 3

/-- The number of bytes that are saved on a piece.  Pairs are not accepted. -/
def saved : Piece → ℕ
  | .raw _ => 0
  | .short e => if e = '/' then 1 else 0
  | .unit d₀ d₁ d₂ d₃ => ((Json.hexNumber [d₀, d₁, d₂, d₃]).map unitSaved).getD 0
  | .pair .. => 8
  | .signed d₁ d₂ d₃ => ((Json.hexNumber [d₁, d₂, d₃]).map unitSaved).getD 0

theorem size_hex04 {n : ℕ} (h : n < 0x20) : size (hex04 n) = 4 := by
  have hall : ∀ n < 0x20, size (hex04 n) = 4 := by decide
  exact hall n h

/-- A character without a short escape. -/
theorem jsonChar_of_ne {c : Char} (h : ¬ (c.toNat = 0x22 ∨ c.toNat = 0x5C ∨ c.toNat = 0x0A ∨
    c.toNat = 0x0D ∨ c.toNat = 0x09)) :
    jsonChar c = if c.toNat < 0x20 then '\\' :: 'u' :: hex04 c.toNat else [c] := by
  have hne (d : Char) (hd : c.toNat ≠ d.toNat) : c ≠ d := fun hcd ↦ hd (congrArg Char.toNat hcd)
  simp only [not_or] at h
  obtain ⟨hquote, hback, hn, hr, ht⟩ := h
  simp only [jsonChar, hne '"' hquote, hne '\\' hback, hne '\n' hn, hne '\r' hr, hne '\t' ht,
    if_false]

/-- The table agrees with the writer: its text for a character and what it saves are the six bytes
of a `\u` escape. -/
theorem size_jsonChar_add {c : Char} (hlt : c.toNat < 0x10000) :
    size (jsonChar c) + unitSaved c.toNat = 6 := by
  by_cases hspecial : c.toNat = 0x22 ∨ c.toNat = 0x5C ∨ c.toNat = 0x0A ∨ c.toNat = 0x0D ∨
      c.toNat = 0x09
  · have heq (d : Char) (h : c.toNat = d.toNat) : c = d := Char.toNat_inj.mp h
    rcases hspecial with h | h | h | h | h
    · rw [heq '"' h]; rfl
    · rw [heq '\\' h]; rfl
    · rw [heq '\n' h]; rfl
    · rw [heq '\r' h]; rfl
    · rw [heq '\t' h]; rfl
  · rw [jsonChar_of_ne hspecial, unitSaved, if_neg hspecial]
    by_cases hcontrol : c.toNat < 0x20
    · rw [if_pos hcontrol, if_pos hcontrol, size_cons, size_cons, size_hex04 hcontrol]
      rfl
    · rw [if_neg hcontrol, if_neg hcontrol, size_cons, size_nil, utf8Size_eq]
      split_ifs <;> omega

theorem jsonChar_of_raw {c v : Char} (h : (Piece.raw c).value = some v) : jsonChar v = [c] := by
  obtain ⟨hquote, hback, rfl⟩ := Piece.raw_value h
  have hcontrol : ¬ c.toNat < 0x20 := by
    rw [Piece.value] at h
    split at h
    · cases h
    · rename_i hc
      exact fun hlt ↦ hc (.inr (.inr hlt))
  rw [jsonChar_of_ne, if_neg hcontrol]
  rintro (h | h | h)
  · exact hquote (Char.toNat_inj.mp h)
  · exact hback (Char.toNat_inj.mp h)
  · omega

/-- An escape with up to four digits. -/
theorem size_escape_add (cs ds : List Char) {c : Char} (hlength : ds.length ≤ 4)
    (h : (Json.hexNumber ds).bind scalar = some c) (hcs : ∀ d ∈ cs, d.toNat < 128)
    (hsix : cs.length + ds.length = 6) :
    size (cs ++ ds) = size (jsonChar c) + ((Json.hexNumber ds).map unitSaved).getD 0 := by
  obtain ⟨n, hn, hc⟩ := Option.bind_eq_some_iff.mp h
  obtain rfl := toNat_of_scalar hc
  have hlt : c.toNat < 0x10000 :=
    (hexNumber_lt hn).trans_le (Nat.pow_le_pow_right (by decide) hlength)
  rw [size_append, size_of_ascii hcs, size_of_ascii (JsonScan.ascii_of_json_hexNumber hn), hsix, hn,
    Option.map_some, Option.getD_some, size_jsonChar_add hlt]

/-- **A piece grows by four bytes or not at all**, and what it loses is in the table. -/
theorem size_piece_add {p : Piece} {c : Char} (h : p.value = some c) :
    size p.text + 4 * (if isReadOnly p then 1 else 0) = size (jsonChar c) + saved p := by
  cases p with
  | raw d =>
    rw [jsonChar_of_raw h]
    rfl
  | short e =>
    rw [Piece.value, shortValue] at h
    split_ifs at h <;> subst_vars <;> obtain rfl := Option.some.inj h <;> decide
  | unit d₀ d₁ d₂ d₃ =>
    show size (['\\', 'u'] ++ [d₀, d₁, d₂, d₃]) + 0 = _
    exact size_escape_add _ _ (Nat.le_refl 4) h (by simp) rfl
  | pair h₀ h₁ h₂ h₃ l₀ l₁ l₂ l₃ =>
    have hnat := Piece.toNat_of_pair h
    obtain ⟨n, hn, h⟩ := Option.bind_eq_some_iff.mp h
    obtain ⟨m, hm, -⟩ := Option.bind_eq_some_iff.mp h
    have htext : size (Piece.pair h₀ h₁ h₂ h₃ l₀ l₁ l₂ l₃).text = 12 := by
      rw [show (Piece.pair h₀ h₁ h₂ h₃ l₀ l₁ l₂ l₃).text =
        ['\\', 'u'] ++ ([h₀, h₁, h₂, h₃] ++ (['\\', 'u'] ++ [l₀, l₁, l₂, l₃])) from rfl,
        size_append, size_append, size_append, size_of_ascii (JsonScan.ascii_of_json_hexNumber hn),
        size_of_ascii (JsonScan.ascii_of_json_hexNumber hm)]
      rfl
    have hsize : c.utf8Size = 4 := by
      rw [utf8Size_eq, if_neg (by omega), if_neg (by omega), if_neg (by omega)]
    have hchar : jsonChar c = [c] := by rw [jsonChar_of_ne (by omega), if_neg (by omega)]
    rw [htext, hchar, size_cons, size_nil, hsize]
    rfl
  | signed d₁ d₂ d₃ =>
    show size (['\\', 'u', '+'] ++ [d₁, d₂, d₃]) + 0 = _
    exact size_escape_add _ _ (Nat.le_succ 3) h (by simp) rfl

theorem size_pieces_add {ps : List Piece} {v : List Char} (h : Denotes ps v) :
    size (ps.flatMap Piece.text) + 4 * ps.countP isReadOnly =
      size (v.flatMap jsonChar) + (ps.map saved).sum := by
  induction ps generalizing v with
  | nil =>
    rw [denotes_nil.mp h]
    rfl
  | cons p ps ih =>
    obtain ⟨c, v, rfl, hc, hv⟩ := denotes_cons.mp h
    have hp := size_piece_add hc
    have hps := ih hv
    rw [List.flatMap_cons, size_append, List.countP_cons, List.flatMap_cons, size_append,
      List.map_cons, List.sum_cons]
    omega

theorem size_literal_add {ps : List Piece} {s : String} (h : Denotes ps s.toList) :
    size (literal ps) + 4 * ps.countP isReadOnly =
      size (jsonString s).toList + (ps.map saved).sum := by
  have hps := size_pieces_add h
  rw [literal, jsonString, String.toList_ofList, List.cons_append, size_cons, size_cons,
    size_append, size_append]
  omega

/-! ## Texts -/

/-- What the writer writes for a value. -/
def datumText : Datum → List Char
  | .str s => (jsonString s).toList
  | .bool b => boolText b

/-- What the writer writes for a member. -/
def memberText (x : String × Datum) : List Char := (jsonString x.1).toList ++ ':' :: datumText x.2

/-- The size of the text that the writer writes for some members. -/
def compactSize (xs : List (String × Datum)) : ℕ :=
  1 + (xs.map fun x ↦ size (memberText x) + 1).sum

theorem compactSize_cons (x : String × Datum) (xs : List (String × Datum)) :
    compactSize (x :: xs) = size (memberText x) + 1 + compactSize xs := by
  rw [compactSize, compactSize, List.map_cons, List.sum_cons]
  omega

/-- The number of white space characters of a member. -/
def memberBlanks (m : Member) : ℕ :=
  m.before.length + m.afterKey.length + m.beforeValue.length + m.after.length

/-- The number of white space characters between the tokens. -/
def blanks (o : Object) : ℕ :=
  o.before.length + (o.members.map memberBlanks).sum + o.after.length

theorem size_value_add {v : Value} {d : Datum} (h : v.Denotes d) :
    size v.text + 4 * v.pieces.countP isReadOnly =
      size (datumText d) + (v.pieces.map saved).sum := by
  cases v with
  | str ps =>
    cases d with
    | bool => exact h.elim
    | str s => exact size_literal_add h
  | bool b =>
    cases d with
    | str => exact h.elim
    | bool b' =>
      obtain rfl : b = b' := h
      rfl

theorem size_member_add {m : Member} {x : String × Datum} (h : m.Denotes x) :
    size m.text + 4 * m.pieces.countP isReadOnly =
      size (memberText x) + (memberBlanks m + (m.pieces.map saved).sum) := by
  have hkey := size_literal_add h.key
  have hvalue := size_value_add h.value
  simp only [Member.text, memberText, Member.pieces, memberBlanks, size_append, size_cons,
    size_of_ws h.before, size_of_ws h.afterKey, size_of_ws h.beforeValue, size_of_ws h.after,
    List.countP_append, List.map_append, List.sum_append]
  omega

theorem size_members_add {m : Member} {ms : List Member} {xs : List (String × Datum)}
    (h : List.Forall₂ Member.Denotes (m :: ms) xs) :
    1 + size (membersText (m :: ms)) + 1 + 4 * ((m :: ms).flatMap Member.pieces).countP isReadOnly =
      compactSize xs + (((m :: ms).map memberBlanks).sum +
        (((m :: ms).flatMap Member.pieces).map saved).sum) := by
  induction ms generalizing m xs with
  | nil =>
    cases h with | cons hm hms =>
    cases hms
    have := size_member_add hm
    simp only [membersText_singleton, compactSize, List.map_cons, List.map_nil, List.sum_cons,
      List.sum_nil, List.flatMap_cons, List.flatMap_nil, List.append_nil]
    omega
  | cons m' ms ih =>
    cases h with | @cons _ x _ xs hm hms =>
    have hm := size_member_add hm
    have hcomma : size (',' :: membersText (m' :: ms)) = 1 + size (membersText (m' :: ms)) :=
      size_cons _ _
    have ih := ih hms
    rw [membersText_cons_cons, size_append, hcomma, List.flatMap_cons, List.countP_append,
      List.map_append, List.sum_append, compactSize_cons, List.map_cons, List.sum_cons]
    omega

/-- **The text that was read and the text that is written.** -/
theorem size_object_add {o : Object} {xs : List (String × Datum)} (h : o.Denotes xs) :
    size o.text + 4 * o.pieces.countP isReadOnly =
      compactSize xs + (blanks o + (o.pieces.map saved).sum) := by
  have hmembers := size_members_add h.members
  have htext : size o.text =
      o.before.length + (1 + size (membersText o.members) + 1) + o.after.length := by
    rw [Object.text, size_append, size_cons, size_append, size_cons, size_of_ws h.before,
      size_of_ws h.after, show '{'.utf8Size = 1 from rfl, show '}'.utf8Size = 1 from rfl]
    omega
  rw [htext, blanks, Object.pieces]
  rw [Object.members] at *
  omega

namespace ErrorPayload

/-- The text of a payload consists of its members, written one after the other. -/
theorem size_json (e : ErrorPayload) : size e.json.toList = compactSize e.members := by
  have hbool : (if e.retryable then "true" else "false").toList = boolText e.retryable := by
    cases e.retryable <;> rfl
  have hcode : size "\x7b\"code\":".toList = 1 + size ((jsonString "code").toList ++ [':']) := by
    decide
  have hretryable : size ",\"retryable\":".toList =
      1 + size ((jsonString "retryable").toList ++ [':']) := by decide
  have hid : size ",\"request_id\":".toList =
      1 + size ((jsonString "request_id").toList ++ [':']) := by decide
  have hbrace : size "\x7d".toList = 1 := by decide
  simp only [json, String.toList_append, size_append, hcode, hretryable, hid, hbrace, hbool,
    compactSize, members, memberText, datumText, List.map_cons, List.map_nil, List.sum_cons,
    List.sum_nil, size_cons, size_nil]
  omega

theorem compactSize_eq_of_perm {xs ys : List (String × Datum)} (h : xs.Perm ys) :
    compactSize xs = compactSize ys := by
  rw [compactSize, compactSize, (h.map _).sum_eq]

end ErrorPayload

/-- The payload of an ERROR frame can be sent again: four bytes more for each `\b` and `\f` are
within the limit, if the white space and what is saved on the other pieces is taken off. -/
def Resendable (payload : Bytes) : Prop :=
  ∃ (o : Object) (xs : List (String × Datum)), JsonScan.encode o.text = payload ∧ o.Denotes xs ∧
    payload.length + 4 * o.pieces.countP isReadOnly ≤
      errorMaxBytes + (blanks o + (o.pieces.map saved).sum)

namespace ErrorPayload

theorem exists_object_of_decode {payload : Bytes} {e : ErrorPayload}
    (h : decode payload = .ok e) : ∃ (o : Object) (xs : List (String × Datum)),
      JsonScan.encode o.text = payload ∧ o.Denotes xs ∧ payload.length ≤ errorMaxBytes ∧
      payload.length + 4 * o.pieces.countP isReadOnly =
        e.json.asBytes.length + (blanks o + (o.pieces.map saved).sum) := by
  rw [decode, reject_bind_eq_ok, Nat.not_lt, okOr_bind_eq_ok] at h
  obtain ⟨hlen, s, hs, h⟩ := h
  obtain rfl := String.ofUtf8_eq_some.mp hs
  obtain ⟨o, xs, htext, ho, -, hperm⟩ := parseErrorJson_eq_ok.mp h
  have hsize := size_object_add ho
  rw [htext, compactSize_eq_of_perm hperm, ← size_json] at hsize
  refine ⟨o, xs, ?_, ho, hlen, ?_⟩
  · rw [htext, JsonScan.asBytes_eq_encode]
  · rwa [JsonScan.asBytes_eq_encode, JsonScan.asBytes_eq_encode]

/-- The text that the encoder writes is within the limit. -/
theorem resendable_iff {payload : Bytes} {e : ErrorPayload} (h : decode payload = .ok e) :
    Resendable payload ↔ e.json.asBytes.length ≤ errorMaxBytes := by
  obtain ⟨o, xs, htext, ho, -, hsize⟩ := exists_object_of_decode h
  constructor
  · rintro ⟨o', xs', htext', ho', hle⟩
    obtain rfl := Object.text_inj ho' ho (JsonScan.encode_injective (htext'.trans htext.symm))
    omega
  · intro hle
    exact ⟨o, xs, htext, ho, by omega⟩

/-- Without `\b` and `\f` everything that is accepted can be sent again. -/
theorem resendable_of_forall {payload : Bytes} {e : ErrorPayload} (h : decode payload = .ok e)
    (hno : ∀ o xs, Object.Denotes o xs → JsonScan.encode o.text = payload →
      ∀ p ∈ o.pieces, isReadOnly p = false) : Resendable payload := by
  obtain ⟨o, xs, htext, ho, hle, -⟩ := exists_object_of_decode h
  refine ⟨o, xs, htext, ho, ?_⟩
  rw [List.countP_eq_zero.mpr fun p hp ↦ by simp [hno o xs ho htext p hp]]
  omega

variable [Sha256] [Features]

/-- The payload of a frame that was accepted as an ERROR frame. -/
theorem decode_of_parseFrame {buf : Bytes} {e : ErrorPayload} {used : ℕ}
    (h : parseFrame buf = .ok (.ofError e, used)) :
    decode ((buf.take used).drop TreeFrame.headerLen) = .ok e := by
  obtain ⟨hdr, wire, rest, rfl, rfl, hacc⟩ := parseFrame_eq_ok.mp h
  obtain ⟨payload, hpayload, -, hdecode⟩ := hacc.payload
  obtain ⟨hkind, hdecode⟩ := decodePayload_eq_ok.mp hdecode
  rw [rawPayload, if_pos (hacc.identity_of_end (.inr hkind))] at hpayload
  obtain rfl := Except.ok.inj hpayload
  rw [List.take_left' (by simp), List.drop_left' (by simp)]
  exact hdecode

/-- **An ERROR frame that was accepted can be sent again exactly if its payload is
`Resendable`.** -/
theorem resend_iff {buf : Bytes} {e : ErrorPayload} {used : ℕ}
    (h : parseFrame buf = .ok (.ofError e, used)) (streamId : UInt32) (sequence : UInt64)
    (hstream : streamId ≠ 0) :
    (∃ bytes, e.encode streamId sequence = .ok bytes ∧
      parseFrame bytes = .ok (.ofError e, bytes.length)) ↔
      Resendable ((buf.take used).drop TreeFrame.headerLen) := by
  rw [resendable_iff (decode_of_parseFrame h)]
  constructor
  · rintro ⟨bytes, hencode, -⟩
    rw [encode, reject_bind_eq_ok, Nat.not_lt] at hencode
    exact hencode.1
  · intro hle
    have hencode : e.encode streamId sequence =
        .ok (frameBytes kindError e.json.asBytes streamId sequence) := by
      rw [encode, reject_of_not (Nat.not_lt.mpr hle)]
      rfl
    exact ⟨_, hencode, parseFrame_error e streamId sequence hstream _ hencode⟩

/-! ### Backspaces -/

/-- The tokens of an ERROR text with backspaces for its code. -/
def backspaceTokens (n : ℕ) : Object := compactTokens (List.replicate n (.short 'b')) true []

/-- The text. -/
def backspaceText (n : ℕ) : Bytes := JsonScan.encode (backspaceTokens n).text

/-- The payload. -/
def backspaces (n : ℕ) : ErrorPayload := ⟨String.ofList (List.replicate n '\x08'), true, ""⟩

omit [Sha256] [Features] in
theorem size_flatMap_replicate {α : Type} (n : ℕ) (a : α) (f : α → List Char) :
    size ((List.replicate n a).flatMap f) = n * size (f a) := by
  induction n with
  | zero => rw [Nat.zero_mul]; rfl
  | succ n ih =>
    rw [List.replicate_succ, List.flatMap_cons, size_append, ih]
    ring

omit [Sha256] [Features] in
theorem length_backspaceText (n : ℕ) : (backspaceText n).length = 44 + 2 * n := by
  have hpieces : size ((List.replicate n (Piece.short 'b')).flatMap Piece.text) = n * 2 :=
    size_flatMap_replicate n _ _
  have hfront : size "\x7b\"code\":\"".toList = 9 := by decide
  have hback : size "\",\"retryable\":true,\"request_id\":\"\"\x7d".toList = 35 := by decide
  have htext : (backspaceTokens n).text = "\x7b\"code\":\"".toList ++
      ((List.replicate n (Piece.short 'b')).flatMap Piece.text ++
        "\",\"retryable\":true,\"request_id\":\"\"\x7d".toList) := by
    simp [backspaceTokens, compactTokens, Object.text, Object.members, membersText_cons_cons,
      Member.text, Value.text, boolText, literal, Piece.text]
  rw [backspaceText, htext, ← size, size_append, size_append, hpieces, hfront, hback]
  omega

omit [Sha256] [Features] in
theorem length_json_backspaces (n : ℕ) : (backspaces n).json.asBytes.length = 44 + 6 * n := by
  have hchars : size ((List.replicate n '\x08').flatMap jsonChar) = n * 6 :=
    size_flatMap_replicate n _ _
  have hcode : size (jsonString (backspaces n).code).toList = 2 + n * 6 := by
    rw [backspaces, jsonString, String.toList_ofList, String.toList_ofList, List.cons_append,
      size_cons, size_append, hchars, show size ['"'] = 1 from rfl,
      show '"'.utf8Size = 1 from rfl]
    omega
  have hfront : size ((jsonString "code").toList ++ [':']) = 7 := by decide
  have hback : compactSize [("retryable", .bool true), ("request_id", .str "")] = 34 := by decide
  have hmember : size (memberText ("code", .str (backspaces n).code)) =
      size ((jsonString "code").toList ++ [':']) +
        size (jsonString (backspaces n).code).toList := by
    rw [← size_append, List.append_assoc]
    rfl
  rw [JsonScan.asBytes_eq_encode, ← size, size_json]
  refine (compactSize_cons _ _).trans ?_
  rw [hmember, hcode, hfront]
  refine (congrArg _ hback).trans ?_
  omega

omit [Sha256] [Features] in
theorem decode_backspaceText {n : ℕ} (h : (backspaceText n).length ≤ errorMaxBytes) :
    decode (backspaceText n) = .ok (backspaces n) := by
  have hcode : Denotes (List.replicate n (.short 'b')) (backspaces n).code.toList := by
    rw [backspaces, String.toList_ofList, Denotes, List.map_replicate, List.map_replicate]
    rfl
  have hid : Denotes [] (backspaces n).requestId.toList := denotes_nil.mpr rfl
  have htext : backspaceText n = (String.ofList (backspaceTokens n).text).asBytes :=
    (String.asBytes_ofList _).symm
  rw [decode, reject_of_not (Nat.not_lt.mpr h), ok_bind, String.ofUtf8_eq_some.mpr htext.symm,
    okOr_some, ok_bind]
  refine parseErrorJson_eq_ok.mpr ⟨backspaceTokens n, _, (String.toList_ofList).symm,
    compactTokens_denotes hcode hid, ?_, .refl _⟩
  rintro ⟨p, hp, hpair⟩
  rcases mem_pieces_compactTokens hp with hp | hp | ⟨c, rfl⟩
  · obtain rfl := List.eq_of_mem_replicate hp
    exact hpair
  · cases hp
  · exact hpair

/-- SHA-256 on some of these texts. -/
@[reducible] def backspaceSha256 : Sha256 := .ofTable [
  (backspaceText 1,
    .ofNat 0x6df824254f85c8a99d9d499ef40090e316954a110f4571e8e7dece68e0498348),
  ((backspaces 1).json.asBytes,
    .ofNat 0x3408438901b61c0e6e10d060bfb7ddb97b08c1c5d019795486deb3c1020a4698),
  (backspaceText 676,
    .ofNat 0x8c9b3a186cb65ace40043abed7e20622e702d709f80724579cdc917323a50ac8)]

theorem parseFrame_backspaceText {n : ℕ} (h : (backspaceText n).length ≤ errorMaxBytes) :
    parseFrame (frameBytes kindError (backspaceText n) 42 0) =
      .ok (.ofError (backspaces n), (frameBytes kindError (backspaceText n) 42 0).length) :=
  (parseFrame_frameBytes (.ofError (backspaces n)) (by decide) rfl h).mpr (decode_backspaceText h)

omit [Sha256] [Features] in
/-- One backspace. -/
theorem resend_iff_backspace :
    letI := backspaceSha256
    letI := identityOnly
    ∃ bytes, (backspaces 1).encode 42 7 = .ok bytes ∧
      parseFrame bytes = .ok (.ofError (backspaces 1), bytes.length) := by
  let _ := backspaceSha256
  let _ := identityOnly
  have hle : (backspaceText 1).length ≤ errorMaxBytes := by
    rw [length_backspaceText]
    decide
  have hframe := parseFrame_backspaceText hle
  refine (resend_iff hframe 42 7 (by decide)).mpr ?_
  rw [resendable_iff (decode_of_parseFrame hframe), length_json_backspaces]
  decide

omit [Sha256] [Features] in
/-- 676 backspaces: they take 1396 bytes and would be written with 4100. -/
theorem not_resend_backspaces :
    letI := backspaceSha256
    letI := identityOnly
    parseFrame (frameBytes kindError (backspaceText 676) 42 0) =
        .ok (.ofError (backspaces 676), (frameBytes kindError (backspaceText 676) 42 0).length) ∧
      (backspaces 676).encode 42 0 = .error (.badLength "ERROR payload over 4096 bytes") := by
  let _ := backspaceSha256
  let _ := identityOnly
  refine ⟨parseFrame_backspaceText ?_, ?_⟩
  · rw [length_backspaceText]
    decide
  · rw [encode, reject, length_json_backspaces, if_pos (by decide)]
    rfl

end ErrorPayload

end Mst2
