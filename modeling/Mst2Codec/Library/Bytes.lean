import Mathlib

/-!
# Byte strings, fixed-width integers and slices

A byte string is a `List UInt8`.  This file is the little arithmetic every binary format rests on:

* `leBytes w n` and `ofLe b` write and read an unsigned integer in `w` little-endian bytes, and
  `beBytes`, `ofBe` do the same in big-endian order.  Writing truncates to `w` bytes, as a
  narrowing cast does, so `ofLe_leBytes` asks for `n < 256 ^ w`; reading and writing back needs no
  such condition (`leBytes_ofLe`).
* `slice? b off n` is the checked slice `b[off..off + n]`.  Everything known about it is said
  through `b.drop off`, which is how the decoders' proofs carry "what is still unread".
-/

set_option autoImplicit false

/-- A string of bytes. -/
abbrev Bytes := List UInt8

/-- Bytes are ordered as numbers. -/
instance linearOrderUInt8 : LinearOrder UInt8 where
  le_refl := UInt8.le_refl
  le_trans _ _ _ := UInt8.le_trans
  lt_iff_le_not_ge a b := by rw [UInt8.not_le]; exact (and_iff_right_of_imp UInt8.le_of_lt).symm
  le_antisymm _ _ := UInt8.le_antisymm
  le_total := UInt8.le_total
  toDecidableLE := inferInstance

namespace Bytes

/-! ## Little-endian integers -/

/-- The `w` low bytes of `n`, least significant first. -/
def leBytes : ℕ → ℕ → Bytes
  | 0, _ => []
  | w + 1, n => UInt8.ofNat n :: leBytes w (n / 256)

/-- The integer whose little-endian bytes are given. -/
def ofLe : Bytes → ℕ
  | [] => 0
  | b :: rest => b.toNat + 256 * ofLe rest

@[simp] theorem length_leBytes (w n : ℕ) : (leBytes w n).length = w := by
  induction w generalizing n with
  | zero => rfl
  | succ w ih => simp [leBytes, ih]

theorem ofLe_lt (b : Bytes) : ofLe b < 256 ^ b.length := by
  induction b with
  | nil => simp [ofLe]
  | cons a rest ih =>
    have ha := a.toNat_lt
    rw [ofLe, List.length_cons, pow_succ]
    omega

/-- Writing keeps the value modulo the width. -/
theorem ofLe_leBytes_mod (w n : ℕ) : ofLe (leBytes w n) = n % 256 ^ w := by
  induction w generalizing n with
  | zero => simp [leBytes, ofLe, Nat.mod_one]
  | succ w ih =>
    rw [leBytes, ofLe, ih, UInt8.toNat_ofNat', pow_succ (256 : ℕ) w, mul_comm (256 ^ w),
      Nat.mod_mul]

theorem ofLe_leBytes {w n : ℕ} (h : n < 256 ^ w) : ofLe (leBytes w n) = n := by
  rw [ofLe_leBytes_mod, Nat.mod_eq_of_lt h]

@[simp] theorem leBytes_ofLe (b : Bytes) : leBytes b.length (ofLe b) = b := by
  induction b with
  | nil => rfl
  | cons a rest ih =>
    have ha := a.toNat_lt
    have hlow : UInt8.ofNat (a.toNat + 256 * ofLe rest) = a := by
      apply UInt8.toNat_inj.mp
      rw [UInt8.toNat_ofNat']
      omega
    have hhigh : (a.toNat + 256 * ofLe rest) / 256 = ofLe rest := by omega
    rw [ofLe, List.length_cons, leBytes, hlow, hhigh, ih]

theorem leBytes_inj {w m n : ℕ} (hm : m < 256 ^ w) (hn : n < 256 ^ w)
    (h : leBytes w m = leBytes w n) : m = n := by
  rw [← ofLe_leBytes hm, h, ofLe_leBytes hn]

/-! ## Big-endian integers -/

/-- The `w` low bytes of `n`, most significant first. -/
def beBytes (w n : ℕ) : Bytes := (leBytes w n).reverse

/-- The integer whose big-endian bytes are given. -/
def ofBe (b : Bytes) : ℕ := ofLe b.reverse

@[simp] theorem length_beBytes (w n : ℕ) : (beBytes w n).length = w := by
  simp [beBytes]

theorem ofBe_lt (b : Bytes) : ofBe b < 256 ^ b.length := by
  simpa [ofBe] using ofLe_lt b.reverse

theorem ofBe_beBytes {w n : ℕ} (h : n < 256 ^ w) : ofBe (beBytes w n) = n := by
  rw [ofBe, beBytes, List.reverse_reverse, ofLe_leBytes h]

@[simp] theorem beBytes_ofBe (b : Bytes) : beBytes b.length (ofBe b) = b := by
  have h := leBytes_ofLe b.reverse
  rw [List.length_reverse] at h
  rw [beBytes, ofBe, h, List.reverse_reverse]

/-! ## Checked slices -/

/-- The slice `b[off..off + n]`, when it lies inside `b`. -/
def slice? (b : Bytes) (off n : ℕ) : Option Bytes :=
  if off + n ≤ b.length then some ((b.drop off).take n) else none

theorem slice?_eq_some {b x : Bytes} {off n : ℕ} :
    slice? b off n = some x ↔
      off ≤ b.length ∧ x.length = n ∧ b.drop off = x ++ b.drop (off + n) := by
  rw [slice?]
  constructor
  · intro h
    split at h
    · rename_i hle
      cases h
      refine ⟨by omega, by simp; omega, ?_⟩
      rw [← List.drop_drop, List.take_append_drop]
    · cases h
  · rintro ⟨hoff, hx, hd⟩
    have hlen := congrArg List.length hd
    simp only [List.length_append, List.length_drop] at hlen
    rw [if_pos (by omega), hd, List.take_left' hx]

/-- Reading back what was written at the cursor. -/
theorem slice?_of_drop {b x rest : Bytes} {off n : ℕ} (hoff : off ≤ b.length)
    (h : b.drop off = x ++ rest) (hx : x.length = n) : slice? b off n = some x := by
  refine slice?_eq_some.mpr ⟨hoff, hx, ?_⟩
  rw [← List.drop_drop, h, List.drop_left' hx]

theorem length_of_slice? {b x : Bytes} {off n : ℕ} (h : slice? b off n = some x) :
    x.length = n := (slice?_eq_some.mp h).2.1

theorem le_of_slice? {b x : Bytes} {off n : ℕ} (h : slice? b off n = some x) :
    off + n ≤ b.length := by
  rw [slice?] at h
  split at h
  · assumption
  · cases h

/-- A slice of two adjacent fields. -/
theorem slice?_append_eq_some {b x y : Bytes} {off n m : ℕ} (hx : x.length = n) :
    slice? b off (n + m) = some (x ++ y) ↔
      slice? b off n = some x ∧ slice? b (off + n) m = some y := by
  subst hx
  simp only [slice?_eq_some, List.length_append, Nat.add_left_cancel_iff, true_and]
  constructor
  · rintro ⟨hoff, hy, hd⟩
    have hlen := congrArg List.length hd
    simp only [List.length_append, List.length_drop] at hlen
    have hx : b.drop (off + x.length) = y ++ b.drop (off + (x.length + m)) := by
      rw [← List.drop_drop, hd, List.append_assoc, List.drop_left]
    exact ⟨⟨hoff, by rw [hd, hx, List.append_assoc]⟩, by omega, hy, by rw [hx, Nat.add_assoc]⟩
  · rintro ⟨⟨hoff, hd⟩, -, hy, hd'⟩
    exact ⟨hoff, hy, by rw [hd, hd', List.append_assoc, Nat.add_assoc]⟩

/-- A slice of one byte. -/
theorem slice?_singleton {b : Bytes} {off : ℕ} {v : UInt8} :
    slice? b off 1 = some [v] ↔ b[off]? = some v := by
  rw [slice?]
  by_cases h : off < b.length
  · rw [if_pos (by omega), List.getElem?_eq_getElem h, List.drop_eq_getElem_cons h]
    simp only [List.take_succ_cons, List.take_zero, Option.some.injEq, List.cons.injEq, and_true]
  · rw [if_neg (by omega), List.getElem?_eq_none (by omega)]
    simp

/-- The whole string. -/
theorem slice?_length_eq_some {b x : Bytes} {n : ℕ} (h : b.length = n) :
    slice? b 0 n = some x ↔ b = x := by
  subst h
  simp [slice?]

end Bytes
