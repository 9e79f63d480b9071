import Mathlib

/-!
# String literals of JSON

The string literals of RFC 8259, over the characters of a text.  A literal is a sequence of pieces,
each of which denotes one character: a character that stands for itself, a short escape, a `\u`
escape, or two `\u` escapes that make up a surrogate pair.  An escape of a surrogate that is not
part of a pair denotes nothing, so a literal with one has no value.

One more kind of piece, `signed`, is not JSON.  It is what a reader accepts that hands the four
characters behind `\u` to a number parser which allows a plus sign.

A text is cut into pieces in one way only (`flatMap_text_inj`), and so into a literal and the rest
(`literal_inj`).
-/

set_option autoImplicit false

namespace Json

/-! ## White space -/

/-- The characters of `ws`. -/
def IsWs (c : Char) : Prop := c = ' ' ∨ c = '\t' ∨ c = '\n' ∨ c = '\r'

instance : DecidablePred IsWs := fun _ ↦ inferInstanceAs (Decidable (_ ∨ _ ∨ _ ∨ _))

/-- Every text starts with white space, possibly none. -/
theorem exists_ws_append (cs : List Char) : ∃ w cs', cs = w ++ cs' ∧ (∀ c ∈ w, IsWs c) ∧
    ∀ c r, cs' = c :: r → ¬ IsWs c := by
  induction cs with
  | nil => exact ⟨[], [], rfl, by simp, by simp⟩
  | cons c cs ih =>
    by_cases hc : IsWs c
    · obtain ⟨w, cs', rfl, hw, hcs'⟩ := ih
      exact ⟨c :: w, cs', rfl, List.forall_mem_cons.mpr ⟨hc, hw⟩, hcs'⟩
    · refine ⟨[], c :: cs, rfl, by simp, fun d r h ↦ ?_⟩
      obtain ⟨rfl, -⟩ := List.cons.inj h
      exact hc

/-- White space ends in one place only. -/
theorem ws_append_inj {w w' r r' : List Char} {x x' : Char} (hw : ∀ c ∈ w, IsWs c)
    (hw' : ∀ c ∈ w', IsWs c) (hx : ¬ IsWs x) (hx' : ¬ IsWs x')
    (h : w ++ x :: r = w' ++ x' :: r') : w = w' ∧ x = x' ∧ r = r' := by
  induction w generalizing w' with
  | nil =>
    cases w' with
    | nil => exact ⟨rfl, List.cons.inj h⟩
    | cons c w' =>
      obtain ⟨rfl, -⟩ := List.cons.inj h
      exact absurd (hw' x List.mem_cons_self) hx
  | cons c w ih =>
    cases w' with
    | nil =>
      obtain ⟨rfl, -⟩ := List.cons.inj h
      exact absurd (hw c List.mem_cons_self) hx'
    | cons c' w' =>
      obtain ⟨rfl, htail⟩ := List.cons.inj h
      obtain ⟨rfl, hxr⟩ := ih (fun c hc ↦ hw c (List.mem_cons_of_mem _ hc))
        (fun c hc ↦ hw' c (List.mem_cons_of_mem _ hc)) htail
      exact ⟨rfl, hxr⟩

/-! ## Escapes -/

/-- The value of a hexadecimal digit. -/
def hexValue (c : Char) : Option ℕ :=
  if '0' ≤ c ∧ c ≤ '9' then some (c.toNat - 48)
  else if 'A' ≤ c ∧ c ≤ 'F' then some (c.toNat - 55)
  else if 'a' ≤ c ∧ c ≤ 'f' then some (c.toNat - 87)
  else none

/-- The number with the given hexadecimal digits. -/
def hexNumber (ds : List Char) : Option ℕ :=
  (ds.mapM hexValue).map fun ns ↦ ns.foldl (fun n d ↦ 16 * n + d) 0

/-- The character with a number, unless it is a surrogate or too large. -/
def scalar (n : ℕ) : Option Char := if h : n.isValidChar then some (Char.ofNatAux n h) else none

/-- The character of a short escape. -/
def shortValue (e : Char) : Option Char :=
  if e = '"' then some '"'
  else if e = '\\' then some '\\'
  else if e = '/' then some '/'
  else if e = 'b' then some '\x08'
  else if e = 'f' then some '\x0C'
  else if e = 'n' then some '\n'
  else if e = 'r' then some '\r'
  else if e = 't' then some '\t'
  else none

/-- A piece of a string literal. -/
inductive Piece where
  /-- A character that stands for itself. -/
  | raw (c : Char)
  /-- A backslash and a letter. -/
  | short (e : Char)
  /-- `\u` and four hexadecimal digits. -/
  | unit (d₀ d₁ d₂ d₃ : Char)
  /-- Two `\u` escapes, a high surrogate and a low one. -/
  | pair (h₀ h₁ h₂ h₃ l₀ l₁ l₂ l₃ : Char)
  /-- `\u+` and three hexadecimal digits. -/
  | signed (d₁ d₂ d₃ : Char)

namespace Piece

/-- The text of a piece. -/
def text : Piece → List Char
  | raw c => [c]
  | short e => ['\\', e]
  | unit d₀ d₁ d₂ d₃ => ['\\', 'u', d₀, d₁, d₂, d₃]
  | pair h₀ h₁ h₂ h₃ l₀ l₁ l₂ l₃ => ['\\', 'u', h₀, h₁, h₂, h₃, '\\', 'u', l₀, l₁, l₂, l₃]
  | signed d₁ d₂ d₃ => ['\\', 'u', '+', d₁, d₂, d₃]

/-- The character of a surrogate pair. -/
def pairValue (high low : ℕ) : Option Char :=
  if (0xD800 ≤ high ∧ high < 0xDC00) ∧ 0xDC00 ≤ low ∧ low < 0xE000 then
    scalar (0x10000 + (high - 0xD800) * 0x400 + (low - 0xDC00))
  else none

/-- The character that a piece denotes. -/
def value : Piece → Option Char
  | raw c => if c = '"' ∨ c = '\\' ∨ c.toNat < 0x20 then none else some c
  | short e => shortValue e
  | unit d₀ d₁ d₂ d₃ => (hexNumber [d₀, d₁, d₂, d₃]).bind scalar
  | pair h₀ h₁ h₂ h₃ l₀ l₁ l₂ l₃ =>
    (hexNumber [h₀, h₁, h₂, h₃]).bind fun high ↦
      (hexNumber [l₀, l₁, l₂, l₃]).bind fun low ↦ pairValue high low
  | signed d₁ d₂ d₃ => (hexNumber [d₁, d₂, d₃]).bind scalar

/-- A surrogate pair. -/
def IsPair : Piece → Prop
  | pair .. => True
  | _ => False

/-- An escape with a plus sign. -/
def IsSigned : Piece → Prop
  | signed .. => True
  | _ => False

instance : DecidablePred IsPair := fun p ↦ by cases p <;> unfold IsPair <;> infer_instance

instance : DecidablePred IsSigned := fun p ↦ by cases p <;> unfold IsSigned <;> infer_instance

end Piece

/-- The pieces denote the characters of `v`, one by one. -/
def Denotes (ps : List Piece) (v : List Char) : Prop := ps.map Piece.value = v.map some

instance (ps : List Piece) (v : List Char) : Decidable (Denotes ps v) :=
  inferInstanceAs (Decidable (_ = _))

/-- A string literal. -/
def literal (ps : List Piece) : List Char := '"' :: (ps.flatMap Piece.text ++ ['"'])

/-! ### One way to read a literal -/

theorem scalar_surrogate {n : ℕ} (h : 0xD800 ≤ n ∧ n < 0xDC00) : scalar n = none := by
  refine dif_neg fun hn ↦ ?_
  rw [Nat.isValidChar] at hn
  omega

theorem toNat_of_scalar {n : ℕ} {c : Char} (h : scalar n = some c) : c.toNat = n := by
  rw [scalar] at h
  split at h
  · obtain rfl := Option.some.inj h
    rfl
  · cases h

theorem hexValue_lt {c : Char} {d : ℕ} (h : hexValue c = some d) : d < 16 := by
  have hle {x y : Char} (h : x ≤ y) : x.toNat ≤ y.toNat :=
    UInt32.le_iff_toNat_le.mp (Char.le_def.mp h)
  rw [hexValue] at h
  split_ifs at h with h₀ hA ha <;> obtain rfl := Option.some.inj h
  · have := hle h₀.2
    rw [show '9'.toNat = 57 from rfl] at this
    omega
  · have := hle hA.2
    rw [show 'F'.toNat = 70 from rfl] at this
    omega
  · have := hle ha.2
    rw [show 'f'.toNat = 102 from rfl] at this
    omega

/-- Digits that are put behind a number. -/
theorem foldl_hexValue_lt {ds : List Char} {ns : List ℕ} (a : ℕ) (h : ds.mapM hexValue = some ns) :
    ns.foldl (fun n d ↦ 16 * n + d) a < (a + 1) * 16 ^ ds.length := by
  induction ds generalizing ns a with
  | nil =>
    obtain rfl := Option.some.inj h
    simp
  | cons d ds ih =>
    rw [List.mapM_cons] at h
    obtain ⟨m, hm, h⟩ := Option.bind_eq_some_iff.mp h
    obtain ⟨ms, hms, h⟩ := Option.bind_eq_some_iff.mp h
    obtain rfl := Option.some.inj h
    have hdigit := hexValue_lt hm
    calc (m :: ms).foldl (fun n d ↦ 16 * n + d) a
        < (16 * a + m + 1) * 16 ^ ds.length := ih _ hms
      _ ≤ (a + 1) * 16 * 16 ^ ds.length := Nat.mul_le_mul_right _ (by omega)
      _ = (a + 1) * 16 ^ (d :: ds).length := by rw [List.length_cons, pow_succ]; ring

theorem hexNumber_lt {ds : List Char} {n : ℕ} (h : hexNumber ds = some n) :
    n < 16 ^ ds.length := by
  obtain ⟨ns, hns, rfl⟩ := Option.map_eq_some_iff.mp h
  simpa using foldl_hexValue_lt 0 hns

theorem ne_plus_of_hexNumber {d : Char} {ds : List Char} {n : ℕ}
    (h : hexNumber (d :: ds) = some n) : d ≠ '+' := by
  rintro rfl
  rw [hexNumber, List.mapM_cons] at h
  cases h

namespace Piece

theorem raw_value {c v : Char} (h : (raw c).value = some v) : c ≠ '"' ∧ c ≠ '\\' ∧ c = v := by
  rw [value] at h
  split at h
  · cases h
  · rename_i hc
    rw [not_or, not_or] at hc
    exact ⟨hc.1, hc.2.1, Option.some.inj h⟩

theorem short_value {e v : Char} (h : (short e).value = some v) : e ≠ 'u' := by
  rintro rfl
  cases h

theorem unit_value {d₀ d₁ d₂ d₃ v : Char} (h : (unit d₀ d₁ d₂ d₃).value = some v) :
    d₀ ≠ '+' ∧ ∃ n, hexNumber [d₀, d₁, d₂, d₃] = some n ∧ scalar n = some v := by
  obtain ⟨n, hn, hv⟩ := Option.bind_eq_some_iff.mp h
  exact ⟨ne_plus_of_hexNumber hn, n, hn, hv⟩

theorem pair_value {h₀ h₁ h₂ h₃ l₀ l₁ l₂ l₃ v : Char}
    (h : (pair h₀ h₁ h₂ h₃ l₀ l₁ l₂ l₃).value = some v) :
    h₀ ≠ '+' ∧ ∃ n, hexNumber [h₀, h₁, h₂, h₃] = some n ∧ scalar n = none := by
  obtain ⟨n, hn, h⟩ := Option.bind_eq_some_iff.mp h
  obtain ⟨m, -, h⟩ := Option.bind_eq_some_iff.mp h
  rw [pairValue] at h
  split at h
  · rename_i hrange
    exact ⟨ne_plus_of_hexNumber hn, n, hn, scalar_surrogate hrange.1⟩
  · cases h

/-- A pair denotes a supplementary character. -/
theorem toNat_of_pair {h₀ h₁ h₂ h₃ l₀ l₁ l₂ l₃ v : Char}
    (h : (pair h₀ h₁ h₂ h₃ l₀ l₁ l₂ l₃).value = some v) : 0x10000 ≤ v.toNat := by
  obtain ⟨n, -, h⟩ := Option.bind_eq_some_iff.mp h
  obtain ⟨m, -, h⟩ := Option.bind_eq_some_iff.mp h
  rw [pairValue] at h
  split at h
  · rw [toNat_of_scalar h]
    omega
  · cases h

/-- A unit is no half of a pair. -/
theorem unit_ne_pair {d₀ d₁ d₂ d₃ l₀ l₁ l₂ l₃ v w : Char} (h : (unit d₀ d₁ d₂ d₃).value = some v) :
    (pair d₀ d₁ d₂ d₃ l₀ l₁ l₂ l₃).value ≠ some w := by
  intro h'
  obtain ⟨-, n, hn, hv⟩ := unit_value h
  obtain ⟨-, m, hm, hnone⟩ := pair_value h'
  obtain rfl := Option.some.inj (hn.symm.trans hm)
  rw [hv] at hnone
  cases hnone

/-- The first piece of a text is determined. -/
theorem text_inj {p q : Piece} {c d : Char} {r s : List Char} (hp : p.value = some c)
    (hq : q.value = some d) (h : p.text ++ r = q.text ++ s) : p = q ∧ r = s := by
  have hraw := @raw_value
  have hshort := @short_value
  have hunit := @unit_value
  have hpair := @pair_value
  have hmixed := @unit_ne_pair
  cases p <;> cases q <;>
    simp only [text, List.cons_append, List.nil_append, List.cons.injEq] at h <;> grind

/-- No piece starts with a quote. -/
theorem text_ne_quote {p : Piece} {c : Char} {r s : List Char} (hp : p.value = some c) :
    p.text ++ r ≠ '"' :: s := by
  intro h
  cases p with
  | raw d => exact (raw_value hp).1 (List.cons.inj h).1
  | short e => cases (List.cons.inj h).1
  | unit d₀ d₁ d₂ d₃ => cases (List.cons.inj h).1
  | pair h₀ h₁ h₂ h₃ l₀ l₁ l₂ l₃ => cases (List.cons.inj h).1
  | signed d₁ d₂ d₃ => cases (List.cons.inj h).1

end Piece

theorem denotes_nil {v : List Char} : Denotes [] v ↔ v = [] := by
  rw [Denotes, List.map_nil, eq_comm, List.map_eq_nil_iff]

theorem denotes_cons {p : Piece} {ps : List Piece} {v : List Char} :
    Denotes (p :: ps) v ↔ ∃ c v', v = c :: v' ∧ p.value = some c ∧ Denotes ps v' := by
  rw [Denotes, List.map_cons, eq_comm, List.map_eq_cons_iff]
  constructor
  · rintro ⟨c, v', rfl, hc, hv⟩
    exact ⟨c, v', rfl, hc.symm, hv.symm⟩
  · rintro ⟨c, v', rfl, hc, hv⟩
    exact ⟨c, v', rfl, hc.symm, hv.symm⟩

theorem flatMap_text_inj {ps qs : List Piece} {v w r s : List Char} (hp : Denotes ps v)
    (hq : Denotes qs w)
    (h : ps.flatMap Piece.text ++ '"' :: r = qs.flatMap Piece.text ++ '"' :: s) :
    ps = qs ∧ r = s := by
  induction ps generalizing qs v w with
  | nil =>
    cases qs with
    | nil => exact ⟨rfl, (List.cons.inj h).2⟩
    | cons q qs =>
      obtain ⟨c, -, -, hc, -⟩ := denotes_cons.mp hq
      rw [List.flatMap_cons, List.append_assoc] at h
      exact absurd h.symm (Piece.text_ne_quote hc)
  | cons p ps ih =>
    obtain ⟨c, v, rfl, hc, hv⟩ := denotes_cons.mp hp
    rw [List.flatMap_cons, List.append_assoc] at h
    cases qs with
    | nil => exact absurd h (Piece.text_ne_quote hc)
    | cons q qs =>
      obtain ⟨d, w, rfl, hd, hw⟩ := denotes_cons.mp hq
      rw [List.flatMap_cons, List.append_assoc] at h
      obtain ⟨rfl, htail⟩ := Piece.text_inj hc hd h
      obtain ⟨rfl, hrs⟩ := ih hv hw htail
      exact ⟨rfl, hrs⟩

/-- **A literal at the front of a text is determined.** -/
theorem literal_inj {ps qs : List Piece} {v w r s : List Char} (hp : Denotes ps v)
    (hq : Denotes qs w) (h : literal ps ++ r = literal qs ++ s) : ps = qs ∧ r = s := by
  simp only [literal, List.cons_append, List.append_assoc, List.nil_append, List.cons.injEq,
    true_and] at h
  exact flatMap_text_inj hp hq h

end Json
