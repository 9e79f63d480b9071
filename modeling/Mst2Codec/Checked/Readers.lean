import Mst2Codec.Basic
import Mst2Codec.Library.Machine

/-!
# Checked readers

The functions of the source once more, with every index, range and sum as an operation that panics
when it is out of bounds.  A function `Checked.f` follows the source statement by statement where
`f`, its model elsewhere, says what it computes; `f_sim` or `f_eq` says that the two do the same on
the buffers the source can be given, and so that no operation is out of bounds.

This file has the readers of `src/lib.rs`.  A `usize` has 64 bits, and a buffer has fewer than
`2 ^ 63` bytes.
-/

set_option autoImplicit false

namespace Mst2

namespace Checked

open Bytes Machine

/-- A computation of the codec. -/
abbrev Run (α : Type) := Machine.Run CodecError α

/-- `[b[0], b[1], …]`, `w` bytes. -/
def firstBytes (w : ℕ) (b : Bytes) : Run Bytes := (List.range w).mapM (index b)

/-- `read_u16`, `read_u32` and `read_u64`, of `w` bytes. -/
def readLe (w : ℕ) (what : String) (buf : Bytes) (off : ℕ) : Run ℕ := do
  let hi ← add 64 off w
  let b ← okOr (getRange buf off hi) (.truncated what)
  let b ← firstBytes w b
  pure (ofLe b)

/-- `read_u16` -/
def readU16 (buf : Bytes) (off : ℕ) : Run UInt16 := do
  let n ← readLe 2 "u16" buf off
  pure (UInt16.ofNat n)

/-- `read_u32` -/
def readU32 (buf : Bytes) (off : ℕ) : Run UInt32 := do
  let n ← readLe 4 "u32" buf off
  pure (UInt32.ofNat n)

/-- `read_u64` -/
def readU64 (buf : Bytes) (off : ℕ) : Run UInt64 := do
  let n ← readLe 8 "u64" buf off
  pure (UInt64.ofNat n)

/-- `copy_from_slice` into 32 bytes. -/
def copyDigest (b : Bytes) : Run Digest := unwrap (Digest.ofBytes? b)

/-- A digest copied from `buf.get(off..off + 32)`. -/
def readDigestAt (what : String) (buf : Bytes) (off : ℕ) : Run Digest := do
  let hi ← add 64 off 32
  let b ← okOr (getRange buf off hi) (.truncated what)
  copyDigest b

/-- `d.copy_from_slice(&buf[lo..hi])` -/
def copyRange (buf : Bytes) (lo hi : ℕ) : Run Digest := do
  let b ← range buf lo hi
  copyDigest b

/-! ## They do not panic -/

theorem getRange_eq_slice? (buf : Bytes) (off n : ℕ) :
    getRange buf off (off + n) = slice? buf off n := by
  rw [getRange, slice?, Nat.add_sub_cancel_left]
  simp

theorem firstBytes_eq {w : ℕ} {b : Bytes} (h : b.length = w) : firstBytes w b = .ok b := by
  subst h
  rw [firstBytes, Except.mapM_eq_ok (g := fun i ↦ b.getD i 0)]
  · congr 1
    refine List.ext_getElem (by simp) fun i h₁ h₂ ↦ ?_
    rw [List.getElem_map, List.getElem_range, List.getD_eq_getElem _ _ h₂]
  · intro i hi
    rw [index, List.getElem?_eq_getElem (List.mem_range.mp hi),
      List.getD_eq_getElem _ _ (List.mem_range.mp hi)]
    rfl

theorem readLe_eq {w : ℕ} {what : String} {buf : Bytes} {off : ℕ} (h : off + w < 2 ^ 64) :
    readLe w what buf off =
      lift ((Except.okOr (slice? buf off w) (.truncated what)).map ofLe) := by
  rw [← sim_eq_iff, readLe]
  refine .add h ?_
  rw [getRange_eq_slice?]
  cases hb : slice? buf off w with
  | none => exact .error _
  | some b =>
    show Sim Eq (firstBytes w b >>= _) _
    rw [firstBytes_eq (length_of_slice? hb)]
    exact .ok rfl

theorem readU16_eq {buf : Bytes} {off : ℕ} (h : off + 2 < 2 ^ 64) :
    readU16 buf off = lift (Mst2.readU16 buf off) := by
  rw [readU16, readLe_eq h, Mst2.readU16]
  cases slice? buf off 2 <;> rfl

theorem readU32_eq {buf : Bytes} {off : ℕ} (h : off + 4 < 2 ^ 64) :
    readU32 buf off = lift (Mst2.readU32 buf off) := by
  rw [readU32, readLe_eq h, Mst2.readU32]
  cases slice? buf off 4 <;> rfl

theorem readU64_eq {buf : Bytes} {off : ℕ} (h : off + 8 < 2 ^ 64) :
    readU64 buf off = lift (Mst2.readU64 buf off) := by
  rw [readU64, readLe_eq h, Mst2.readU64]
  cases slice? buf off 8 <;> rfl

theorem copyDigest_eq {b : Bytes} (h : b.length = 32) : copyDigest b = .ok ⟨b, h⟩ := by
  rw [copyDigest, Digest.ofBytes?, dif_pos h]
  rfl

theorem readDigestAt_eq {what : String} {buf : Bytes} {off : ℕ} (h : off + 32 < 2 ^ 64) :
    readDigestAt what buf off = lift (Mst2.readDigestAt what buf off) := by
  rw [← sim_eq_iff, readDigestAt]
  refine .add h ?_
  rw [getRange_eq_slice?, Mst2.readDigestAt]
  cases hb : slice? buf off 32 with
  | none => exact .error _
  | some b =>
    show Sim Eq (copyDigest b) _
    have hlen := length_of_slice? hb
    rw [copyDigest_eq hlen, Option.bind_some, Digest.ofBytes?, dif_pos hlen]
    exact .ok rfl

/-- Where 32 bytes are there to be copied, the reader of digests does not fail. -/
theorem copyRange_eq {what : String} {buf : Bytes} {lo hi : ℕ} (hlo : hi = lo + 32)
    (h : hi ≤ buf.length) : copyRange buf lo hi = lift (Mst2.readDigestAt what buf lo) := by
  subst hlo
  have hs : slice? buf lo 32 = some ((buf.drop lo).take 32) := if_pos h
  have hlen := length_of_slice? hs
  rw [copyRange, range, getRange_eq_slice?, Mst2.readDigestAt, hs, Option.bind_some,
    Digest.ofBytes?, dif_pos hlen]
  exact copyDigest_eq hlen

/-! ## Rules -/

section

variable {γ δ : Type} {S : γ → δ → Prop} {buf : Bytes} {off : ℕ}

theorem sim_readU16 {F : UInt16 → Run γ} {f : UInt16 → CodecResult δ} (h : off + 2 < 2 ^ 64)
    (hF : ∀ v, Sim S (F v) (f v)) :
    Sim S (readU16 buf off >>= F) (Mst2.readU16 buf off >>= f) := by
  rw [readU16_eq h]
  exact .lift fun v _ ↦ hF v

theorem sim_readU32 {F : UInt32 → Run γ} {f : UInt32 → CodecResult δ} (h : off + 4 < 2 ^ 64)
    (hF : ∀ v, Sim S (F v) (f v)) :
    Sim S (readU32 buf off >>= F) (Mst2.readU32 buf off >>= f) := by
  rw [readU32_eq h]
  exact .lift fun v _ ↦ hF v

theorem sim_readU64 {F : UInt64 → Run γ} {f : UInt64 → CodecResult δ} (h : off + 8 < 2 ^ 64)
    (hF : ∀ v, Sim S (F v) (f v)) :
    Sim S (readU64 buf off >>= F) (Mst2.readU64 buf off >>= f) := by
  rw [readU64_eq h]
  exact .lift fun v _ ↦ hF v

theorem sim_readDigestAt {what : String} {F : Digest → Run γ} {f : Digest → CodecResult δ}
    (h : off + 32 < 2 ^ 64) (hF : ∀ d, Sim S (F d) (f d)) :
    Sim S (readDigestAt what buf off >>= F) (Mst2.readDigestAt what buf off >>= f) := by
  rw [readDigestAt_eq h]
  exact .lift fun d _ ↦ hF d

theorem sim_copyRange {what : String} {lo hi : ℕ} {F : Digest → Run γ} {f : Digest → CodecResult δ}
    (hlo : hi = lo + 32) (h : hi ≤ buf.length) (hF : ∀ d, Sim S (F d) (f d)) :
    Sim S (copyRange buf lo hi >>= F) (Mst2.readDigestAt what buf lo >>= f) := by
  rw [copyRange_eq hlo h]
  exact .lift fun d _ ↦ hF d

end

end Checked

end Mst2
