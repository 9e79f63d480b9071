import Mst2Codec.Library.JsonObject
import Mst2Codec.TreeFrame.ErrorJson

/-!
# The scanner reads the characters of the text

The scanner of `ErrorJson` works on bytes.  On the UTF-8 bytes of a text it reads whole characters:
`encode cs` are the bytes of the characters `cs`, and every lemma here says what one scanner accepts
of `encode cs` in terms of `cs`.

For strings that is `stringLoop_eq_ok`: what is read are the pieces of a literal of `Library.Json`,
with the exception of surrogate pairs (`IsRead`).  The escapes with a plus sign are among them,
because `u32::from_str_radix` reads one.
-/

set_option autoImplicit false

namespace Mst2

open Bytes Except Json

namespace JsonScan

/-! ## Characters and bytes -/

/-- The UTF-8 bytes of some characters. -/
def encode (cs : List Char) : Bytes := cs.flatMap String.utf8EncodeChar

/-- The byte of an ASCII character. -/
def byte (c : Char) : UInt8 := UInt8.ofNat c.toNat

@[simp] theorem encode_nil : encode [] = [] := rfl

theorem encode_cons (c : Char) (cs : List Char) :
    encode (c :: cs) = String.utf8EncodeChar c ++ encode cs := List.flatMap_cons

theorem encode_append (cs ds : List Char) : encode (cs ++ ds) = encode cs ++ encode ds :=
  List.flatMap_append

theorem asBytes_eq_encode (s : String) : s.asBytes = encode s.toList :=
  String.asBytes_eq_flatMap s

theorem encode_cons_ascii {c : Char} (hc : c.toNat < 128) (cs : List Char) :
    encode (c :: cs) = byte c :: encode cs := by
  rw [encode_cons, String.utf8EncodeChar_of_ascii hc]
  rfl

theorem toNat_byte {c : Char} (hc : c.toNat < 128) : (byte c).toNat = c.toNat := by
  rw [byte, UInt8.toNat_ofNat']
  omega

theorem byte_eq_iff {c d : Char} (hc : c.toNat < 128) (hd : d.toNat < 128) :
    byte c = byte d ↔ c = d := by
  rw [← UInt8.toNat_inj, toNat_byte hc, toNat_byte hd, Char.toNat_inj]

/-- The first byte of a character that is not ASCII is not ASCII either. -/
theorem exists_utf8EncodeChar {c : Char} (hc : 128 ≤ c.toNat) :
    ∃ b bs, String.utf8EncodeChar c = b :: bs ∧ 128 ≤ b.toNat := by
  obtain ⟨b, bs, h⟩ := List.exists_cons_of_ne_nil (String.utf8EncodeChar_ne_nil (c := c))
  exact ⟨b, bs, h, String.le_of_mem_utf8EncodeChar hc (h ▸ List.mem_cons_self)⟩

/-- A text whose first byte is ASCII starts with that character. -/
theorem encode_eq_cons {cs : List Char} {b : UInt8} {it : Bytes} (hb : b.toNat < 128)
    (h : encode cs = b :: it) :
    ∃ c cs', cs = c :: cs' ∧ c.toNat < 128 ∧ b = byte c ∧ it = encode cs' := by
  cases cs with
  | nil => cases h
  | cons c cs =>
    rcases Nat.lt_or_ge c.toNat 128 with hc | hc
    · rw [encode_cons_ascii hc] at h
      obtain ⟨rfl, rfl⟩ := List.cons.inj h
      exact ⟨c, cs, rfl, hc, rfl, rfl⟩
    · obtain ⟨b', bs, hbs, hb'⟩ := exists_utf8EncodeChar hc
      rw [encode_cons, hbs] at h
      obtain ⟨rfl, -⟩ := List.cons.inj h
      omega

/-- A text whose first byte is that of the character `c`. -/
theorem encode_eq_byte_cons {c : Char} (hc : c.toNat < 128) {cs : List Char} {it : Bytes} :
    encode cs = byte c :: it ↔ ∃ cs', cs = c :: cs' ∧ it = encode cs' := by
  constructor
  · intro h
    obtain ⟨d, cs', rfl, hd, hcd, rfl⟩ := encode_eq_cons (by rwa [toNat_byte hc]) h
    obtain rfl := (byte_eq_iff hc hd).mp hcd
    exact ⟨cs', rfl, rfl⟩
  · rintro ⟨cs', rfl, rfl⟩
    exact encode_cons_ascii hc cs'

/-! ## White space and single bytes -/

theorem take_eq_some_iff {c : Char} (hc : c.toNat < 128) {cs : List Char} {it : Bytes} :
    take (encode cs) (byte c) = some it ↔ ∃ cs', cs = c :: cs' ∧ it = encode cs' :=
  take_eq_some.trans (encode_eq_byte_cons hc)

theorem isWs_byte {c : Char} (hc : c.toNat < 128) : isWs (byte c) = true ↔ IsWs c := by
  have h : ∀ d : Char, d.toNat < 128 → (byte c = byte d ↔ c = d) := fun d ↦ byte_eq_iff hc
  simp only [isWs, decide_eq_true_eq, IsWs, ← h ' ' (by decide), ← h '\t' (by decide),
    ← h '\n' (by decide), ← h '\r' (by decide)]
  rfl

theorem toNat_lt_of_isWs {b : UInt8} (h : isWs b = true) : b.toNat < 128 := by
  rw [isWs, decide_eq_true_eq] at h
  rcases h with rfl | rfl | rfl | rfl <;> decide

theorem ascii_of_isWs {c : Char} (h : IsWs c) : c.toNat < 128 := by
  rcases h with rfl | rfl | rfl | rfl <;> decide

/-- White space is skipped up to the first other character. -/
theorem skipWs_encode_append {w cs : List Char} (hw : ∀ c ∈ w, IsWs c)
    (hcs : ∀ c r, cs = c :: r → ¬ IsWs c) : skipWs (encode (w ++ cs)) = encode cs := by
  induction w with
  | nil =>
    rw [List.nil_append]
    cases h : encode cs with
    | nil => rfl
    | cons b it =>
      rw [skipWs, List.dropWhile_cons_of_neg]
      intro hb
      obtain ⟨c, r, rfl, hc, rfl, -⟩ := encode_eq_cons (toNat_lt_of_isWs hb) h
      exact hcs c r rfl ((isWs_byte hc).mp hb)
  | cons c w ih =>
    obtain ⟨hc, hw⟩ := List.forall_mem_cons.mp hw
    rw [List.cons_append, encode_cons_ascii (ascii_of_isWs hc), skipWs,
      List.dropWhile_cons_of_pos ((isWs_byte (ascii_of_isWs hc)).mpr hc)]
    exact ih hw

/-- What `skip_ws` skips. -/
theorem exists_skipWs_encode (cs : List Char) : ∃ w cs', cs = w ++ cs' ∧ (∀ c ∈ w, IsWs c) ∧
    (∀ c r, cs' = c :: r → ¬ IsWs c) ∧ skipWs (encode cs) = encode cs' := by
  obtain ⟨w, cs', rfl, hw, hend⟩ := exists_ws_append cs
  exact ⟨w, cs', rfl, hw, hend, skipWs_encode_append hw hend⟩

/-- A scanner that starts behind white space: `R` says what it accepts of a text that does not start
with white space. -/
theorem skipWs_iff {R : List Char → Prop} {Q : Bytes → Prop}
    (hQ : ∀ cs, Q (encode cs) ↔ R cs) (hR : ∀ c r, R (c :: r) → ¬ IsWs c) {cs : List Char} :
    Q (skipWs (encode cs)) ↔ ∃ w cs', cs = w ++ cs' ∧ (∀ c ∈ w, IsWs c) ∧ R cs' := by
  constructor
  · intro h
    obtain ⟨w, cs', rfl, hw, -, hskip⟩ := exists_skipWs_encode cs
    rw [hskip] at h
    exact ⟨w, cs', rfl, hw, (hQ cs').mp h⟩
  · rintro ⟨w, cs', rfl, hw, h⟩
    rw [skipWs_encode_append hw (by rintro c r rfl; exact hR c r h)]
    exact (hQ cs').mpr h

/-- A character behind white space. -/
theorem take_skipWs_eq_some {c : Char} (hc : c.toNat < 128) (hws : ¬ IsWs c) {cs : List Char}
    {it : Bytes} : take (skipWs (encode cs)) (byte c) = some it ↔
      ∃ w cs', cs = w ++ c :: cs' ∧ (∀ x ∈ w, IsWs x) ∧ it = encode cs' := by
  refine (skipWs_iff (Q := fun it' ↦ take it' (byte c) = some it)
    (fun cs ↦ take_eq_some_iff hc) ?_).trans ?_
  · rintro d r ⟨cs', h, -⟩
    obtain ⟨rfl, -⟩ := List.cons.inj h
    exact hws
  · constructor
    · rintro ⟨w, -, rfl, hw, cs', rfl, rfl⟩
      exact ⟨w, cs', rfl, hw, rfl⟩
    · rintro ⟨w, cs', rfl, hw, rfl⟩
      exact ⟨w, _, rfl, hw, cs', rfl, rfl⟩

/-! ## Escapes -/

/-- The letters of short escapes. -/
def letters : List Char := ['"', '\\', '/', 'b', 'f', 'n', 'r', 't']

theorem mem_letters {c : Char} : c ∈ letters ↔ c = '"' ∨ c = '\\' ∨ c = '/' ∨ c = 'b' ∨ c = 'f' ∨
    c = 'n' ∨ c = 'r' ∨ c = 't' := by
  simp only [letters, List.mem_cons, List.not_mem_nil, or_false]

theorem ascii_of_mem_letters {d : Char} (h : d ∈ letters) : d.toNat < 128 := by
  rcases mem_letters.mp h with rfl | rfl | rfl | rfl | rfl | rfl | rfl | rfl <;> decide

theorem shortValue_eq_none {c : Char} (h : c ∉ letters) : shortValue c = none := by
  rw [mem_letters] at h
  push Not at h
  obtain ⟨h₁, h₂, h₃, h₄, h₅, h₆, h₇, h₈⟩ := h
  rw [shortValue, if_neg h₁, if_neg h₂, if_neg h₃, if_neg h₄, if_neg h₅, if_neg h₆, if_neg h₇,
    if_neg h₈]

theorem shortEscape_eq_none {e : UInt8} (h : ∀ d ∈ letters, e ≠ byte d) : shortEscape e = none := by
  have h₁ : e ≠ 0x22 := h '"' (mem_letters.mpr (by decide))
  have h₂ : e ≠ 0x5C := h '\\' (mem_letters.mpr (by decide))
  have h₃ : e ≠ 0x2F := h '/' (mem_letters.mpr (by decide))
  have h₄ : e ≠ 0x62 := h 'b' (mem_letters.mpr (by decide))
  have h₅ : e ≠ 0x66 := h 'f' (mem_letters.mpr (by decide))
  have h₆ : e ≠ 0x6E := h 'n' (mem_letters.mpr (by decide))
  have h₇ : e ≠ 0x72 := h 'r' (mem_letters.mpr (by decide))
  have h₈ : e ≠ 0x74 := h 't' (mem_letters.mpr (by decide))
  rw [shortEscape, if_neg h₁, if_neg h₂, if_neg h₃, if_neg h₄, if_neg h₅, if_neg h₆, if_neg h₇,
    if_neg h₈]

theorem shortEscape_byte {c : Char} (hc : c.toNat < 128) :
    shortEscape (byte c) = (shortValue c).map byte := by
  by_cases h : c ∈ letters
  · rcases mem_letters.mp h with rfl | rfl | rfl | rfl | rfl | rfl | rfl | rfl <;> decide
  · rw [shortValue_eq_none h, Option.map_none]
    refine shortEscape_eq_none fun d hd hcd ↦ h ?_
    rwa [(byte_eq_iff hc (ascii_of_mem_letters hd)).mp hcd]

theorem toNat_lt_of_shortEscape {e b : UInt8} (h : shortEscape e = some b) : e.toNat < 128 := by
  by_contra he
  rw [shortEscape_eq_none] at h
  · cases h
  · rintro d hd rfl
    have hlt := ascii_of_mem_letters hd
    exact he (by rwa [toNat_byte hlt])

theorem hexDigit_byte {c : Char} (hc : c.toNat < 128) : hexDigit (byte c) = hexValue c := by
  have hle : ∀ x : Char, x.toNat < 128 → (byte x ≤ byte c ↔ x ≤ c) := by
    intro x hx
    rw [UInt8.le_iff_toNat_le, toNat_byte hx, toNat_byte hc, Char.le_def, UInt32.le_iff_toNat_le]
    rfl
  have hge : ∀ x : Char, x.toNat < 128 → (byte c ≤ byte x ↔ c ≤ x) := by
    intro x hx
    rw [UInt8.le_iff_toNat_le, toNat_byte hx, toNat_byte hc, Char.le_def, UInt32.le_iff_toNat_le]
    rfl
  simp only [hexValue, ← hle '0' (by decide), ← hge '9' (by decide), ← hle 'A' (by decide),
    ← hge 'F' (by decide), ← hle 'a' (by decide), ← hge 'f' (by decide)]
  rw [hexDigit, toNat_byte hc]
  refine ite_congr rfl (fun _ ↦ rfl) fun _ ↦ ite_congr rfl (fun h ↦ ?_) fun _ ↦
    ite_congr rfl (fun h ↦ ?_) fun _ ↦ rfl
  all_goals
    have h₁ := UInt8.le_iff_toNat_le.mp h.1
    rw [toNat_byte hc, toNat_byte (by decide)] at h₁
    have h₂ : ('A').toNat = 65 := rfl
    have h₃ : ('a').toNat = 97 := rfl
    rw [Option.some.injEq]
    omega

theorem toNat_lt_of_hexDigit {b : UInt8} {n : ℕ} (h : hexDigit b = some n) : b.toNat < 128 := by
  rw [hexDigit] at h
  simp only [UInt8.le_iff_toNat_le] at h
  repeat' split at h
  all_goals first
    | cases h; done
    | rename_i hb
      have := hb.2
      simp at this
      omega

/-- The bytes of ASCII characters. -/
theorem encode_ascii {ds : List Char} (h : ∀ d ∈ ds, d.toNat < 128) : encode ds = ds.map byte := by
  induction ds with
  | nil => rfl
  | cons d ds ih =>
    obtain ⟨hd, hds⟩ := List.forall_mem_cons.mp h
    rw [encode_cons_ascii hd, ih hds, List.map_cons]

/-- ASCII bytes are the bytes of ASCII characters. -/
theorem exists_map_byte {bs : Bytes} (h : ∀ b ∈ bs, b.toNat < 128) :
    ∃ ds : List Char, (∀ d ∈ ds, d.toNat < 128) ∧ bs = ds.map byte := by
  induction bs with
  | nil => exact ⟨[], by simp, rfl⟩
  | cons b bs ih =>
    obtain ⟨hb, hbs⟩ := List.forall_mem_cons.mp h
    obtain ⟨ds, hds, rfl⟩ := ih hbs
    have hd : (Char.ofNat b.toNat).toNat = b.toNat := by
      rw [Char.toNat_ofNat, if_pos (.inl (by omega))]
    refine ⟨Char.ofNat b.toNat :: ds, List.forall_mem_cons.mpr ⟨hd.trans_lt hb, hds⟩, ?_⟩
    rw [List.map_cons, byte, hd, UInt8.ofNat_toNat]

theorem hexNumber_map_byte {ds : List Char} (h : ∀ d ∈ ds, d.toNat < 128) :
    Mst2.hexNumber (ds.map byte) = Json.hexNumber ds := by
  have hmap : (ds.map byte).mapM hexDigit = ds.mapM hexValue := by
    induction ds with
    | nil => rfl
    | cons d ds ih =>
      obtain ⟨hd, hds⟩ := List.forall_mem_cons.mp h
      rw [List.map_cons, List.mapM_cons, List.mapM_cons, hexDigit_byte hd, ih hds]
  rw [Mst2.hexNumber, Json.hexNumber, hmap]

theorem ascii_of_hexNumber {bs : Bytes} {n : ℕ} (h : Mst2.hexNumber bs = some n) :
    ∀ b ∈ bs, b.toNat < 128 := by
  obtain ⟨ns, hns, -⟩ := Option.map_eq_some_iff.mp h
  clear h
  induction bs generalizing ns with
  | nil => simp
  | cons b bs ih =>
    rw [List.mapM_cons] at hns
    obtain ⟨m, hm, hns⟩ := Option.bind_eq_some_iff.mp hns
    obtain ⟨ms, hms, -⟩ := Option.bind_eq_some_iff.mp hns
    exact List.forall_mem_cons.mpr ⟨toNat_lt_of_hexDigit hm, ih ms hms⟩

theorem charFromU32_ofNat {n : ℕ} (h : n < 2 ^ 32) : charFromU32 (UInt32.ofNat n) = scalar n := by
  have hn : (UInt32.ofNat n).toNat = n := toNat_ofNat_u32 (by omega)
  have hvalid : (UInt32.ofNat n).isValidChar ↔ n.isValidChar := by
    rw [UInt32.isValidChar, hn]
  rw [charFromU32, scalar]
  by_cases hc : n.isValidChar
  · rw [dif_pos (hvalid.mpr hc), dif_pos hc, Option.some.injEq]
    exact Char.toNat_inj.mp hn
  · rw [dif_neg fun h ↦ hc (hvalid.mp h), dif_neg hc]

theorem lt_of_scalar {n : ℕ} {c : Char} (h : scalar n = some c) : n < 2 ^ 32 := by
  rw [scalar] at h
  split at h
  · rename_i hn
    rw [Nat.isValidChar] at hn
    omega
  · cases h

/-- What follows the sign of a number. -/
def digitsOf (bytes : Bytes) : Bytes := if bytes.head? = some 0x2B then bytes.tail else bytes

/-- The characters that a `\u` escape denotes: a number parser reads its four bytes. -/
theorem unicodeEscape_eq_ok {bytes : Bytes} {ch : Char} : unicodeEscape bytes = .ok ch ↔
    (∃ s, String.ofUtf8 bytes = some s) ∧ digitsOf bytes ≠ [] ∧
      ∃ n, Mst2.hexNumber (digitsOf bytes) = some n ∧ scalar n = some ch := by
  rw [unicodeEscape, okOr_bind_eq_ok]
  constructor
  · rintro ⟨s, hs, h⟩
    rw [okOr_bind_eq_ok] at h
    obtain ⟨cp, hcp, h⟩ := h
    rw [okOr_eq_ok] at h
    rw [String.ofUtf8_eq_some.mp hs, fromStrRadix16, ← digitsOf] at hcp
    split at hcp
    · cases hcp
    · rename_i hne
      obtain ⟨n, hn, hcp⟩ := Option.bind_eq_some_iff.mp hcp
      split at hcp
      · rename_i hlt
        obtain rfl := Option.some.inj hcp
        rw [charFromU32_ofNat hlt] at h
        exact ⟨⟨s, hs⟩, hne, n, hn, h⟩
      · cases hcp
  · rintro ⟨⟨s, hs⟩, hne, n, hn, hch⟩
    have hlt := lt_of_scalar hch
    refine ⟨s, hs, ?_⟩
    rw [String.ofUtf8_eq_some.mp hs, fromStrRadix16, ← digitsOf]
    rw [if_neg hne, hn, Option.bind_some, if_pos hlt, okOr_some, ok_bind, charFromU32_ofNat hlt,
      hch, okOr_some]

theorem ofUtf8_map_byte {ds : List Char} (h : ∀ d ∈ ds, d.toNat < 128) :
    String.ofUtf8 (ds.map byte) = some (String.ofList ds) := by
  rw [String.ofUtf8_eq_some, asBytes_eq_encode, String.toList_ofList, encode_ascii h]

/-- The pieces that the scanner reads: all but surrogate pairs. -/
def IsRead (p : Piece) : Prop := ¬ p.IsPair

/-- The four bytes of a `\u` escape are ASCII characters that make up a piece. -/
theorem exists_piece_of_unicodeEscape {h₀ h₁ h₂ h₃ : UInt8} {ch : Char}
    (h : unicodeEscape [h₀, h₁, h₂, h₃] = .ok ch) : ∃ ds : List Char, (∀ d ∈ ds, d.toNat < 128) ∧
      ds.map byte = [h₀, h₁, h₂, h₃] ∧ ∃ p : Piece, p.text = '\\' :: 'u' :: ds ∧
        p.value = some ch ∧ IsRead p := by
  obtain ⟨-, -, n, hn, hch⟩ := unicodeEscape_eq_ok.mp h
  by_cases hplus : h₀ = 0x2B
  · rw [digitsOf, List.head?_cons, if_pos (congrArg some hplus), List.tail_cons] at hn
    obtain ⟨ds, hds, hbs⟩ := exists_map_byte (ascii_of_hexNumber hn)
    rw [hbs, hexNumber_map_byte hds] at hn
    obtain ⟨d₁, d₂, d₃, rfl⟩ := List.length_eq_three.mp
      (show ds.length = 3 by simpa using (congrArg List.length hbs).symm)
    refine ⟨['+', d₁, d₂, d₃], List.forall_mem_cons.mpr ⟨by decide, hds⟩, ?_,
      .signed d₁ d₂ d₃, rfl, ?_, by simp [IsRead, Piece.IsPair]⟩
    · rw [List.map_cons, ← hbs, hplus]
      rfl
    · rw [Piece.value, hn, Option.bind_some, hch]
  · rw [digitsOf, List.head?_cons, if_neg (by simpa using hplus)] at hn
    obtain ⟨ds, hds, hbs⟩ := exists_map_byte (ascii_of_hexNumber hn)
    rw [hbs, hexNumber_map_byte hds] at hn
    obtain ⟨d₀, d₁, d₂, d₃, rfl⟩ := List.length_eq_four.mp
      (show ds.length = 4 by simpa using (congrArg List.length hbs).symm)
    exact ⟨_, hds, hbs.symm, .unit d₀ d₁ d₂ d₃, rfl, by rw [Piece.value, hn, Option.bind_some, hch],
      by simp [IsRead, Piece.IsPair]⟩

theorem ascii_of_json_hexNumber {ds : List Char} {n : ℕ} (h : Json.hexNumber ds = some n) :
    ∀ d ∈ ds, d.toNat < 128 := by
  obtain ⟨ns, hns, -⟩ := Option.map_eq_some_iff.mp h
  clear h
  induction ds generalizing ns with
  | nil => simp
  | cons d ds ih =>
    rw [List.mapM_cons] at hns
    obtain ⟨m, hm, hns⟩ := Option.bind_eq_some_iff.mp hns
    obtain ⟨ms, hms, -⟩ := Option.bind_eq_some_iff.mp hns
    refine List.forall_mem_cons.mpr ⟨?_, ih ms hms⟩
    have hle : ∀ x : Char, x.toNat < 128 → d ≤ x → d.toNat < 128 := by
      intro x hx hd
      rw [Char.le_def, UInt32.le_iff_toNat_le] at hd
      exact lt_of_le_of_lt hd hx
    rw [hexValue] at hm
    split at hm
    · rename_i hd
      exact hle '9' (by decide) hd.2
    split at hm
    · rename_i hd
      exact hle 'F' (by decide) hd.2
    split at hm
    · rename_i hd
      exact hle 'f' (by decide) hd.2
    cases hm

/-- The escape of a piece with four characters behind `\u`. -/
theorem unicodeEscape_of_piece {ds : List Char} {n : ℕ} {ch : Char} (hds : ∀ d ∈ ds, d.toNat < 128)
    (hn : Json.hexNumber (if ds.head? = some '+' then ds.tail else ds) = some n)
    (hne : (if ds.head? = some '+' then ds.tail else ds) ≠ []) (hch : scalar n = some ch) :
    unicodeEscape (ds.map byte) = .ok ch := by
  have hdigits : digitsOf (ds.map byte) =
      (if ds.head? = some '+' then ds.tail else ds).map byte := by
    cases ds with
    | nil => rfl
    | cons d ds =>
      have hplus : byte d = 0x2B ↔ d = '+' :=
        byte_eq_iff (hds d List.mem_cons_self) (show ('+').toNat < 128 by decide)
      simp only [digitsOf, List.map_cons, List.head?_cons, Option.some.injEq]
      by_cases hd : d = '+'
      · rw [if_pos (hplus.mpr hd), if_pos hd, List.tail_cons, List.tail_cons]
      · rw [if_neg (mt hplus.mp hd), if_neg hd, List.map_cons]
  refine unicodeEscape_eq_ok.mpr ⟨⟨_, ofUtf8_map_byte hds⟩, ?_, n, ?_, hch⟩
  · rw [hdigits]
    exact fun h ↦ hne (List.map_eq_nil_iff.mp h)
  · rw [hdigits, hexNumber_map_byte (ascii_of_json_hexNumber hn), hn]

/-! ## Strings -/

/-- A byte that stands for itself. -/
theorem stringLoop_raw {bs it out : Bytes} (h : ∀ b ∈ bs, b ≠ 0x22 ∧ b ≠ 0x5C ∧ ¬ b ≤ 0x1F) :
    stringLoop (bs ++ it) out = stringLoop it (out ++ bs) := by
  induction bs generalizing out with
  | nil => rw [List.nil_append, List.append_nil]
  | cons b bs ih =>
    obtain ⟨⟨h₁, h₂, h₃⟩, hbs⟩ := List.forall_mem_cons.mp h
    rw [List.cons_append, stringLoop.eq_def]
    dsimp only
    rw [if_neg h₁, if_neg h₂, if_neg h₃, ih hbs, List.append_assoc]
    rfl

theorem stringLoop_short {e b : UInt8} {it out : Bytes} (h : shortEscape e = some b) :
    stringLoop (0x5C :: e :: it) out = stringLoop it (out ++ [b]) := by
  rw [stringLoop.eq_def]
  simp only [h, if_true, show ¬ (0x5C : UInt8) = 0x22 by decide, if_false]

theorem stringLoop_unicode {h₀ h₁ h₂ h₃ : UInt8} {ch : Char} {it out : Bytes}
    (h : unicodeEscape [h₀, h₁, h₂, h₃] = .ok ch) :
    stringLoop (0x5C :: 0x75 :: h₀ :: h₁ :: h₂ :: h₃ :: it) out =
      stringLoop it (out ++ String.utf8EncodeChar ch) := by
  rw [stringLoop.eq_def]
  simp only [show shortEscape 0x75 = none from rfl, if_true, h,
    show ¬ (0x5C : UInt8) = 0x22 by decide, if_false]

/-- What the loop reads behind a backslash. -/
theorem stringLoop_backslash {it out : Bytes} {r : Bytes × Bytes}
    (h : stringLoop (0x5C :: it) out = .ok r) :
    (∃ e b it', it = e :: it' ∧ shortEscape e = some b ∧ stringLoop it' (out ++ [b]) = .ok r) ∨
    ∃ h₀ h₁ h₂ h₃ ch it', it = 0x75 :: h₀ :: h₁ :: h₂ :: h₃ :: it' ∧
      unicodeEscape [h₀, h₁, h₂, h₃] = .ok ch ∧
      stringLoop it' (out ++ String.utf8EncodeChar ch) = .ok r := by
  rw [stringLoop.eq_def] at h
  simp only [if_true, show ¬ (0x5C : UInt8) = 0x22 by decide, if_false] at h
  split at h
  · cases h
  · rename_i e it
    split at h
    · rename_i b hb
      exact .inl ⟨e, b, it, rfl, hb, h⟩
    · split at h
      · rename_i he
        obtain rfl := he
        split at h
        · rename_i h₀ h₁ h₂ h₃ it
          split at h
          · rename_i ch hch
            exact .inr ⟨h₀, h₁, h₂, h₃, ch, it, rfl, hch, h⟩
          · cases h
        · cases h
      · cases h

/-- A character that stands for itself is none of the bytes that do not. -/
theorem raw_bytes {c : Char} (hc : (Piece.raw c).value = some c) :
    ∀ b ∈ String.utf8EncodeChar c, b ≠ 0x22 ∧ b ≠ 0x5C ∧ ¬ b ≤ 0x1F := by
  have hc' : ¬ (c = '"' ∨ c = '\\' ∨ c.toNat < 0x20) := by
    rw [Piece.value] at hc
    split at hc
    · cases hc
    · assumption
  rw [not_or, not_or, not_lt] at hc'
  obtain ⟨hquote, hback, hcontrol⟩ := hc'
  intro b hb
  rcases Nat.lt_or_ge c.toNat 128 with hascii | hascii
  · rw [String.utf8EncodeChar_of_ascii hascii, List.mem_singleton] at hb
    obtain rfl : b = byte c := hb
    refine ⟨fun h ↦ hquote ?_, fun h ↦ hback ?_, fun h ↦ ?_⟩
    · exact (byte_eq_iff hascii (show ('"').toNat < 128 by decide)).mp h
    · exact (byte_eq_iff hascii (show ('\\').toNat < 128 by decide)).mp h
    · rw [UInt8.le_iff_toNat_le, toNat_byte hascii] at h
      have : (0x1F : UInt8).toNat = 31 := rfl
      omega
  · have hb' := String.le_of_mem_utf8EncodeChar hascii hb
    refine ⟨?_, ?_, ?_⟩
    · rintro rfl
      exact absurd hb' (by decide)
    · rintro rfl
      exact absurd hb' (by decide)
    · rw [UInt8.le_iff_toNat_le]
      have : (0x1F : UInt8).toNat = 31 := rfl
      omega

theorem ascii_of_shortValue {e c : Char} (h : shortValue e = some c) :
    e.toNat < 128 ∧ c.toNat < 128 := by
  have he : e ∈ letters := by
    by_contra hne
    rw [shortValue_eq_none hne] at h
    cases h
  refine ⟨ascii_of_mem_letters he, ?_⟩
  rcases mem_letters.mp he with rfl | rfl | rfl | rfl | rfl | rfl | rfl | rfl <;>
    obtain rfl := Option.some.inj h <;> decide

/-- The loop reads a piece. -/
theorem stringLoop_piece {p : Piece} {c : Char} {cs : List Char} {out : Bytes} (hp : IsRead p)
    (hc : p.value = some c) : stringLoop (encode (p.text ++ cs)) out =
      stringLoop (encode cs) (out ++ String.utf8EncodeChar c) := by
  have hback : ('\\').toNat < 128 := by decide
  have hu : ('u').toNat < 128 := by decide
  cases p with
  | raw d =>
    obtain ⟨-, -, rfl⟩ := Piece.raw_value hc
    rw [Piece.text, List.singleton_append, encode_cons, stringLoop_raw (raw_bytes hc)]
  | short e =>
    obtain ⟨he, hascii⟩ := ascii_of_shortValue hc
    have hescape : shortEscape (byte e) = some (byte c) := by
      rw [shortEscape_byte he, show shortValue e = some c from hc, Option.map_some]
    rw [Piece.text, List.cons_append, List.singleton_append, encode_cons_ascii hback,
      encode_cons_ascii he, String.utf8EncodeChar_of_ascii hascii]
    exact stringLoop_short hescape
  | unit d₀ d₁ d₂ d₃ =>
    obtain ⟨hplus, n, hn, hch⟩ := Piece.unit_value hc
    have hds := ascii_of_json_hexNumber hn
    have hif : (if [d₀, d₁, d₂, d₃].head? = some '+' then [d₀, d₁, d₂, d₃].tail
        else [d₀, d₁, d₂, d₃]) = [d₀, d₁, d₂, d₃] := if_neg (by simpa using hplus)
    have hescape := unicodeEscape_of_piece hds (by rw [hif, hn]) (by rw [hif]; simp) hch
    rw [show (Piece.unit d₀ d₁ d₂ d₃).text ++ cs = '\\' :: 'u' :: ([d₀, d₁, d₂, d₃] ++ cs) from rfl,
      encode_cons_ascii hback, encode_cons_ascii hu, encode_append, encode_ascii hds]
    exact stringLoop_unicode hescape
  | pair => exact absurd trivial hp
  | signed d₁ d₂ d₃ =>
    obtain ⟨n, hn, hch⟩ := Option.bind_eq_some_iff.mp hc
    have hds : ∀ d ∈ ['+', d₁, d₂, d₃], d.toNat < 128 :=
      List.forall_mem_cons.mpr ⟨by decide, ascii_of_json_hexNumber hn⟩
    have hescape := unicodeEscape_of_piece hds hn (by simp) hch
    rw [show (Piece.signed d₁ d₂ d₃).text ++ cs = '\\' :: 'u' :: (['+', d₁, d₂, d₃] ++ cs) from rfl,
      encode_cons_ascii hback, encode_cons_ascii hu, encode_append, encode_ascii hds]
    exact stringLoop_unicode hescape

/-- Text behind ASCII characters. -/
theorem encode_eq_map_byte_append {ds cs : List Char} {it : Bytes} (hds : ∀ d ∈ ds, d.toNat < 128)
    (h : encode cs = ds.map byte ++ it) : ∃ cs', cs = ds ++ cs' ∧ it = encode cs' := by
  induction ds generalizing cs with
  | nil => exact ⟨cs, rfl, h.symm⟩
  | cons d ds ih =>
    obtain ⟨hd, hds⟩ := List.forall_mem_cons.mp hds
    obtain ⟨cs', rfl, h'⟩ := (encode_eq_byte_cons hd).mp h
    obtain ⟨cs'', rfl, rfl⟩ := ih hds h'.symm
    exact ⟨cs'', rfl, rfl⟩

/-- One round of the loop reads the closing quote or a piece. -/
theorem exists_piece_of_stringLoop {cs : List Char} {out : Bytes} {r : Bytes × Bytes}
    (h : stringLoop (encode cs) out = .ok r) : (∃ cs', cs = '"' :: cs' ∧ r = (out, encode cs')) ∨
      ∃ p c cs', cs = p.text ++ cs' ∧ p.value = some c ∧ IsRead p := by
  cases cs with
  | nil => cases h
  | cons c cs =>
    by_cases hquote : c = '"'
    · subst hquote
      rw [encode_cons_ascii (by decide), stringLoop.eq_def] at h
      exact .inl ⟨cs, rfl, (Except.ok.inj h).symm⟩
    by_cases hback : c = '\\'
    · subst hback
      rw [encode_cons_ascii (by decide)] at h
      rcases stringLoop_backslash h with
        ⟨e, b, it, hit, hb, -⟩ | ⟨h₀, h₁, h₂, h₃, ch, it, hit, hch, -⟩
      · -- a short escape
        obtain ⟨e, cs', rfl, he, rfl, -⟩ := encode_eq_cons (toNat_lt_of_shortEscape hb) hit
        rw [shortEscape_byte he, Option.map_eq_some_iff] at hb
        obtain ⟨v, hv, -⟩ := hb
        exact .inr ⟨.short e, v, cs', rfl, hv, by simp [IsRead, Piece.IsPair]⟩
      · -- four bytes behind `\u`
        obtain ⟨cs, rfl, htail⟩ := (encode_eq_byte_cons (c := 'u') (by decide)).mp hit
        obtain ⟨ds, hds, hbytes, p, hp, hvalue, hread⟩ := exists_piece_of_unicodeEscape hch
        have htext : encode cs = ds.map byte ++ it := by
          rw [hbytes]
          exact htail.symm
        obtain ⟨cs', rfl, -⟩ := encode_eq_map_byte_append hds htext
        exact .inr ⟨p, ch, cs', by rw [hp]; rfl, hvalue, hread⟩
    · by_cases hcontrol : c.toNat < 0x20
      · have hc : c.toNat < 128 := by omega
        have hbyte : byte c ≤ 0x1F := by
          rw [UInt8.le_iff_toNat_le, toNat_byte hc]
          exact Nat.le_of_lt_succ hcontrol
        have h₁ : ¬ byte c = 0x22 := fun h ↦
          hquote ((byte_eq_iff hc (show ('"').toNat < 128 by decide)).mp h)
        have h₂ : ¬ byte c = 0x5C := fun h ↦
          hback ((byte_eq_iff hc (show ('\\').toNat < 128 by decide)).mp h)
        rw [encode_cons_ascii hc, stringLoop.eq_def] at h
        simp only [h₁, h₂, hbyte, if_true, if_false] at h
        cases h
      · refine .inr ⟨.raw c, c, cs, rfl, ?_, by simp [IsRead, Piece.IsPair]⟩
        rw [Piece.value, if_neg (by simp [hquote, hback, hcontrol])]

/-- **What the loop of `string` reads**: pieces up to the closing quote. -/
theorem stringLoop_eq_ok {cs : List Char} {out : Bytes} {r : Bytes × Bytes} :
    stringLoop (encode cs) out = .ok r ↔ ∃ ps v cs', cs = ps.flatMap Piece.text ++ '"' :: cs' ∧
      Denotes ps v ∧ (∀ p ∈ ps, IsRead p) ∧ r = (out ++ encode v, encode cs') := by
  constructor
  · intro h
    induction hn : cs.length using Nat.strong_induction_on generalizing cs out with
    | _ n ih =>
      subst hn
      rcases exists_piece_of_stringLoop h with ⟨cs', rfl, rfl⟩ | ⟨p, c, cs', rfl, hc, hp⟩
      · exact ⟨[], [], cs', rfl, rfl, by simp, by simp⟩
      · rw [stringLoop_piece hp hc] at h
        have hlen : cs'.length < (p.text ++ cs').length := by
          rw [List.length_append]
          have : p.text.length ≠ 0 := by cases p <;> simp [Piece.text]
          omega
        obtain ⟨ps, v, cs'', rfl, hv, hps, rfl⟩ := ih _ hlen h rfl
        refine ⟨p :: ps, c :: v, cs'', by simp, denotes_cons.mpr ⟨c, v, rfl, hc, hv⟩,
          List.forall_mem_cons.mpr ⟨hp, hps⟩, ?_⟩
        rw [encode_cons, List.append_assoc]
  · rintro ⟨ps, v, cs', rfl, hv, hps, rfl⟩
    induction ps generalizing v out with
    | nil =>
      obtain rfl := denotes_nil.mp hv
      rw [List.flatMap_nil, List.nil_append, encode_cons_ascii (by decide), stringLoop.eq_def,
        encode_nil, List.append_nil]
      rfl
    | cons p ps ih =>
      obtain ⟨c, v, rfl, hc, hv⟩ := denotes_cons.mp hv
      obtain ⟨hp, hps⟩ := List.forall_mem_cons.mp hps
      rw [List.flatMap_cons, List.append_assoc, stringLoop_piece hp hc, ih v hv hps, encode_cons,
        List.append_assoc]

theorem ofUtf8_encode (cs : List Char) : String.ofUtf8 (encode cs) = some (String.ofList cs) := by
  rw [String.ofUtf8_eq_some, asBytes_eq_encode, String.toList_ofList]

/-- **What `string` reads**: a literal. -/
theorem string_eq_ok {cs : List Char} {s : String} {it : Bytes} :
    string (encode cs) = .ok (s, it) ↔ ∃ ps cs', cs = literal ps ++ cs' ∧ Denotes ps s.toList ∧
      (∀ p ∈ ps, IsRead p) ∧ it = encode cs' := by
  rw [string, okOr_bind_eq_ok]
  constructor
  · rintro ⟨it', htake, h⟩
    obtain ⟨cs, rfl, rfl⟩ := (take_eq_some_iff (c := '"') (by decide)).mp htake
    rw [bind_eq_ok] at h
    obtain ⟨⟨out, it'⟩, hloop, h⟩ := h
    dsimp only at h
    rw [okOr_bind_eq_ok] at h
    obtain ⟨s', hs', h⟩ := h
    obtain ⟨rfl, rfl⟩ := Prod.mk.inj (Except.ok.inj h)
    obtain ⟨ps, v, cs', rfl, hv, hps, hr⟩ := stringLoop_eq_ok.mp hloop
    obtain ⟨rfl, rfl⟩ := Prod.mk.inj hr
    rw [List.nil_append, ofUtf8_encode] at hs'
    obtain rfl := Option.some.inj hs'
    refine ⟨ps, cs', by simp [literal], ?_, hps, rfl⟩
    rwa [String.toList_ofList]
  · rintro ⟨ps, cs', rfl, hv, hps, rfl⟩
    refine ⟨encode (ps.flatMap Piece.text ++ '"' :: cs'), (take_eq_some_iff (c := '"')
      (by decide)).mpr ⟨_, by simp [literal], rfl⟩, ?_⟩
    rw [stringLoop_eq_ok.mpr ⟨ps, s.toList, cs', rfl, hv, hps, rfl⟩, ok_bind]
    dsimp only
    rw [List.nil_append, ofUtf8_encode, okOr_some, ok_bind, String.ofList_toList]
    rfl

theorem ascii_of_mem_boolText {b : Bool} : ∀ c ∈ boolText b, c.toNat < 128 := by
  cases b <;> simp [boolText]

/-- A text starts with some ASCII characters if its bytes do. -/
theorem isPrefixOf_encode {ds : List Char} (cs : List Char) (hds : ∀ d ∈ ds, d.toNat < 128) :
    (encode ds).isPrefixOf (encode cs) = true ↔ ∃ cs', cs = ds ++ cs' := by
  rw [List.isPrefixOf_iff_prefix]
  constructor
  · rintro ⟨it, h⟩
    rw [encode_ascii hds] at h
    obtain ⟨cs', hcs, -⟩ := encode_eq_map_byte_append hds h.symm
    exact ⟨cs', hcs⟩
  · rintro ⟨cs', rfl⟩
    exact ⟨encode cs', (encode_append ds cs').symm⟩

theorem drop_encode_boolText (b : Bool) (cs : List Char) :
    (encode (boolText b ++ cs)).drop (if b then 4 else 5) = encode cs := by
  rw [encode_append, encode_ascii ascii_of_mem_boolText]
  refine List.drop_left' ?_
  rw [List.length_map]
  cases b <;> decide

/-- What `boolean` reads. -/
theorem boolean_eq_ok {cs : List Char} {b : Bool} {it : Bytes} :
    boolean (encode cs) = .ok (b, it) ↔ ∃ cs', cs = boolText b ++ cs' ∧ it = encode cs' := by
  have htext : ((String.ofUtf8 (encode cs)).getD "").asBytes = encode cs := by
    rw [ofUtf8_encode, Option.getD_some, asBytes_eq_encode, String.toList_ofList]
  have hstarts (b : Bool) := isPrefixOf_encode cs (ascii_of_mem_boolText (b := b))
  have htrue : "true".asBytes = encode (boolText true) := asBytes_eq_encode _
  have hfalse : "false".asBytes = encode (boolText false) := asBytes_eq_encode _
  rw [boolean]
  simp only [htext, htrue, hfalse]
  constructor
  · intro h
    split at h
    · rename_i h'
      obtain ⟨cs', rfl⟩ := (hstarts true).mp h'
      obtain ⟨rfl, rfl⟩ := Prod.mk.inj (Except.ok.inj h)
      exact ⟨cs', rfl, drop_encode_boolText true cs'⟩
    · split at h
      · rename_i h'
        obtain ⟨cs', rfl⟩ := (hstarts false).mp h'
        obtain ⟨rfl, rfl⟩ := Prod.mk.inj (Except.ok.inj h)
        exact ⟨cs', rfl, drop_encode_boolText false cs'⟩
      · cases h
  · rintro ⟨cs', rfl, rfl⟩
    cases b with
    | true =>
      rw [if_pos ((hstarts true).mpr ⟨cs', rfl⟩)]
      exact congrArg (fun it ↦ Except.ok (true, it)) (drop_encode_boolText true cs')
    | false =>
      -- the texts differ in their first characters
      have hne : ¬ (encode (boolText true)).isPrefixOf (encode (boolText false ++ cs')) = true := by
        intro h
        obtain ⟨cs'', h⟩ := (hstarts true).mp h
        exact absurd (List.cons.inj h).1 (by decide)
      rw [if_neg hne, if_pos ((hstarts false).mpr ⟨cs', rfl⟩)]
      exact congrArg (fun it ↦ Except.ok (false, it)) (drop_encode_boolText false cs')

end JsonScan

end Mst2
