import Mst2Codec.Library.Bytes
import Mst2Codec.Library.Except
import Mst2Codec.Library.Utf8

/-!
# Errors, digests and the readers shared by all codecs

The model of `src/lib.rs`.  `CodecError` is the one error type of the crate, a `Digest` is
`[u8; 32]`, and `readU16`, `readU32`, `readU64` are the bounds-checked little-endian readers.

SHA-256 comes from another crate, so it is a parameter: the class `Sha256` holds the function.
Nothing is assumed of it.  Where a result needs that two byte strings do not collide, it says which
strings: `CollisionFree S` is injectivity on the set `S`, and `S` is always the set of strings that
the run in question hashes.  Injectivity on *all* strings would be false of every hash function.
-/

set_option autoImplicit false

namespace Mst2

open Bytes Except

/-! ## Errors -/

/-- Codec error.  Every rejection maps to one of these, with the text of what was being read. -/
inductive CodecError where
  /-- Input ended before a complete structure could be read. -/
  | truncated (what : String)
  /-- A fixed magic, version, kind or reserved field did not match. -/
  | badConstant (what : String)
  /-- A length was out of the range the spec allows. -/
  | badLength (what : String)
  /-- Checked arithmetic overflowed. -/
  | overflow (what : String)
  /-- A name or path violated canonical UTF-8 or component rules. -/
  | badName (what : String)
  /-- An ordering, partition or structural invariant was violated. -/
  | badOrdering (what : String)
  /-- A digest did not match the expected value. -/
  | digestMismatch (what : String)
  /-- A value that must be unique appeared twice. -/
  | duplicate (what : String)
  /-- Valid per spec but not implemented by this codec profile. -/
  | unsupported (what : String)
deriving DecidableEq, Repr

/-- The result of a codec operation. -/
abbrev CodecResult := Except CodecError

/-! ## Digests -/

/-- `[u8; 32]`. -/
@[ext] structure Digest where
  /-- The bytes. -/
  bytes : Bytes
  /-- There are 32 of them. -/
  length_eq : bytes.length = 32
deriving DecidableEq

attribute [simp] Digest.length_eq

namespace Digest

/-- `[0u8; 32]`. -/
def zero : Digest := ⟨List.replicate 32 0, rfl⟩

/-- `[v; 32]`. -/
def fill (v : UInt8) : Digest := ⟨List.replicate 32 v, List.length_replicate⟩

/-- A digest, written as a big-endian number. -/
def ofNat (n : ℕ) : Digest := ⟨beBytes 32 n, length_beBytes 32 n⟩

/-- The digest with the given bytes, if there are 32 of them. -/
def ofBytes? (b : Bytes) : Option Digest := if h : b.length = 32 then some ⟨b, h⟩ else none

@[simp] theorem ofBytes?_bytes (d : Digest) : ofBytes? d.bytes = some d := by
  simp [ofBytes?]

theorem ofBytes?_eq_some {b : Bytes} {d : Digest} : ofBytes? b = some d ↔ d.bytes = b := by
  constructor
  · intro h
    rw [ofBytes?] at h
    split at h
    · cases h; rfl
    · cases h
  · rintro rfl
    exact ofBytes?_bytes d

end Digest

/-- Digests that stand one after the other are determined by the bytes. -/
theorem Digest.flatMap_bytes_injective :
    Function.Injective fun ds : List Digest ↦ ds.flatMap Digest.bytes := by
  intro ds es h
  induction ds generalizing es with
  | nil =>
    cases es with
    | nil => rfl
    | cons e es =>
      have := congrArg List.length h
      simp only [List.flatMap_nil, List.flatMap_cons, List.length_append, length_eq,
        List.length_nil] at this
      omega
  | cons d ds ih =>
    cases es with
    | nil =>
      have := congrArg List.length h
      simp only [List.flatMap_nil, List.flatMap_cons, List.length_append, length_eq,
        List.length_nil] at this
      omega
    | cons e es =>
      simp only [List.flatMap_cons] at h
      obtain ⟨hd, hds⟩ := List.append_inj h (by simp)
      rw [Digest.ext hd, ih hds]

/-- The SHA-256 function. -/
class Sha256 where
  /-- The digest of a byte string. -/
  sha256 : Bytes → Digest

export Sha256 (sha256)

/-- SHA-256 on the strings of a table that has their digests. -/
@[reducible] def Sha256.ofTable (table : List (Bytes × Digest)) : Sha256 :=
  ⟨fun b ↦ (table.lookup b).getD .zero⟩

/-- No two different byte strings of `S` have the same digest. -/
def CollisionFree [Sha256] (S : Set Bytes) : Prop := Set.InjOn sha256 S

theorem CollisionFree.mono [Sha256] {S T : Set Bytes} (h : CollisionFree T) (hST : S ⊆ T) :
    CollisionFree S := Set.InjOn.mono hST h

/-! ## Bounds-checked readers and writers

A reader succeeds exactly where the writer's bytes stand, which is the form in which the decoders'
proofs use it in both directions. -/

/-- `read_u16` -/
def readU16 (buf : Bytes) (off : ℕ) : CodecResult UInt16 :=
  (okOr (slice? buf off 2) (.truncated "u16")).map fun b ↦ UInt16.ofNat (ofLe b)

/-- `read_u32` -/
def readU32 (buf : Bytes) (off : ℕ) : CodecResult UInt32 :=
  (okOr (slice? buf off 4) (.truncated "u32")).map fun b ↦ UInt32.ofNat (ofLe b)

/-- `read_u64` -/
def readU64 (buf : Bytes) (off : ℕ) : CodecResult UInt64 :=
  (okOr (slice? buf off 8) (.truncated "u64")).map fun b ↦ UInt64.ofNat (ofLe b)

/-- The bytes `write_u16` appends. -/
def writeU16 (v : UInt16) : Bytes := leBytes 2 v.toNat

/-- The bytes `write_u32` appends. -/
def writeU32 (v : UInt32) : Bytes := leBytes 4 v.toNat

/-- The bytes `write_u64` appends. -/
def writeU64 (v : UInt64) : Bytes := leBytes 8 v.toNat

@[simp] theorem length_writeU16 (v : UInt16) : (writeU16 v).length = 2 := length_leBytes _ _

@[simp] theorem length_writeU32 (v : UInt32) : (writeU32 v).length = 4 := length_leBytes _ _

@[simp] theorem length_writeU64 (v : UInt64) : (writeU64 v).length = 8 := length_leBytes _ _

/-- A length that fits is written as it is. -/
theorem toNat_ofNat_u16 {n : ℕ} (h : n < 65536) : (UInt16.ofNat n).toNat = n := by
  rw [UInt16.toNat_ofNat']
  omega

theorem toNat_ofNat_u32 {n : ℕ} (h : n < 4294967296) : (UInt32.ofNat n).toNat = n := by
  rw [UInt32.toNat_ofNat']
  omega

theorem toNat_ofNat_u64 {n : ℕ} (h : n < 18446744073709551616) : (UInt64.ofNat n).toNat = n := by
  rw [UInt64.toNat_ofNat']
  omega

theorem writeU64_injective : Function.Injective writeU64 := fun a b h ↦
  UInt64.toNat_inj.mp (leBytes_inj a.toNat_lt b.toNat_lt h)

theorem readU16_eq_ok {buf : Bytes} {off : ℕ} {v : UInt16} :
    readU16 buf off = .ok v ↔ slice? buf off 2 = some (writeU16 v) := by
  rw [readU16]
  cases h : slice? buf off 2 with
  | none => simp [Except.map]
  | some x =>
    have hx := length_of_slice? h
    simp only [okOr_some, Except.map, Except.ok.injEq, Option.some.injEq, writeU16]
    constructor
    · rintro rfl
      have hlt := ofLe_lt x
      rw [hx] at hlt
      rw [toNat_ofNat_u16 (by omega), ← hx, leBytes_ofLe]
    · rintro rfl
      rw [ofLe_leBytes (by have := v.toNat_lt; omega), UInt16.ofNat_toNat]

theorem readU32_eq_ok {buf : Bytes} {off : ℕ} {v : UInt32} :
    readU32 buf off = .ok v ↔ slice? buf off 4 = some (writeU32 v) := by
  rw [readU32]
  cases h : slice? buf off 4 with
  | none => simp [Except.map]
  | some x =>
    have hx := length_of_slice? h
    simp only [okOr_some, Except.map, Except.ok.injEq, Option.some.injEq, writeU32]
    constructor
    · rintro rfl
      have hlt := ofLe_lt x
      rw [hx] at hlt
      rw [toNat_ofNat_u32 (by omega), ← hx, leBytes_ofLe]
    · rintro rfl
      rw [ofLe_leBytes (by have := v.toNat_lt; omega), UInt32.ofNat_toNat]

theorem readU64_eq_ok {buf : Bytes} {off : ℕ} {v : UInt64} :
    readU64 buf off = .ok v ↔ slice? buf off 8 = some (writeU64 v) := by
  rw [readU64]
  cases h : slice? buf off 8 with
  | none => simp [Except.map]
  | some x =>
    have hx := length_of_slice? h
    simp only [okOr_some, Except.map, Except.ok.injEq, Option.some.injEq, writeU64]
    constructor
    · rintro rfl
      have hlt := ofLe_lt x
      rw [hx] at hlt
      rw [toNat_ofNat_u64 (by omega), ← hx, leBytes_ofLe]
    · rintro rfl
      rw [ofLe_leBytes (by have := v.toNat_lt; omega), UInt64.ofNat_toNat]

/-- Read a digest: `copy_from_slice` from `buf.get(off..off + 32)`. -/
def readDigestAt (what : String) (buf : Bytes) (off : ℕ) : CodecResult Digest :=
  okOr ((slice? buf off 32).bind Digest.ofBytes?) (.truncated what)

theorem readDigestAt_eq_ok {what : String} {buf : Bytes} {off : ℕ} {d : Digest} :
    readDigestAt what buf off = .ok d ↔ slice? buf off 32 = some d.bytes := by
  rw [readDigestAt, okOr_eq_ok, Option.bind_eq_some_iff]
  constructor
  · rintro ⟨x, hx, hd⟩
    rw [hx, Digest.ofBytes?_eq_some.mp hd]
  · intro h
    exact ⟨_, h, Digest.ofBytes?_bytes d⟩

/-! ## Slices -/

/-- `&[T]`.  A slice is at most `isize::MAX` bytes long, so it has fewer than `2 ^ 63` elements. -/
structure Slice (α : Type) where
  /-- The elements. -/
  toList : List α
  /-- There are fewer than `2 ^ 63` of them. -/
  length_lt : toList.length < 2 ^ 63

/-! ## Names -/

/-- Validate a canonical name: 1 to 255 bytes of UTF-8, no NUL, no `/`, not `.` or `..`, no case
folding or normalization. -/
def validateName (name : Bytes) : CodecResult Unit := do
  reject (name = []) (.badName "empty name")
  reject (name.length > 255) (.badName "name longer than 255 bytes")
  let s ← okOr (String.ofUtf8 name) (.badName "not UTF-8")
  reject ('\x00' ∈ s.toList) (.badName "NUL in name")
  reject ('/' ∈ s.toList) (.badName "slash in name")
  reject (s = "." ∨ s = "..") (.badName "dot component")

/-- What `validateName` accepts. -/
theorem validateName_eq_ok {name : Bytes} :
    validateName name = .ok () ↔ name ≠ [] ∧ name.length ≤ 255 ∧
      ∃ s, String.ofUtf8 name = some s ∧ '\x00' ∉ s.toList ∧ '/' ∉ s.toList ∧
        s ≠ "." ∧ s ≠ ".." := by
  simp [validateName, reject_bind_eq_ok, okOr_bind_eq_ok]

end Mst2
