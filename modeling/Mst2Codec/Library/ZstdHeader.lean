import Mst2Codec.Library.Bytes

/-!
# The header of a zstd frame

What stands behind the magic of a frame: a descriptor, the window descriptor, the dictionary ID and
the content size.  The descriptor says which of them are there and how long they are; a `Header`
carries the proof that its fields have these lengths, so `bytes` is a header as it is written, and a
byte string starts with a header when `bytes` of one is a prefix of it.

Sizes are natural numbers.  A frame of a single segment has no window descriptor, and its content
size is its window.
-/

set_option autoImplicit false

namespace ZstdFrame

open Bytes

/-! ## The descriptor -/

/-- Bits 7 and 6. -/
def contentSizeFlag (descriptor : UInt8) : ℕ := descriptor.toNat / 64

/-- Bit 5. -/
def SingleSegment (descriptor : UInt8) : Prop := descriptor.toNat / 32 % 2 = 1

instance (descriptor : UInt8) : Decidable (SingleSegment descriptor) :=
  inferInstanceAs (Decidable (_ = _))

/-- Bit 3. -/
def reservedBit (descriptor : UInt8) : ℕ := descriptor.toNat / 8 % 2

/-- Bits 1 and 0. -/
def dictionaryIdFlag (descriptor : UInt8) : ℕ := descriptor.toNat % 4

/-- The length of the window descriptor. -/
def windowDescriptorLen (descriptor : UInt8) : ℕ := if SingleSegment descriptor then 0 else 1

/-- The length of the dictionary ID. -/
def dictionaryIdLen (descriptor : UInt8) : ℕ :=
  match dictionaryIdFlag descriptor with
  | 0 => 0
  | 1 => 1
  | 2 => 2
  | _ => 4

/-- The length of the content size. -/
def contentSizeLen (descriptor : UInt8) : ℕ :=
  match contentSizeFlag descriptor with
  | 0 => if SingleSegment descriptor then 1 else 0
  | 1 => 2
  | 2 => 4
  | _ => 8

/-! ## Headers -/

/-- A header, with its fields as they are written. -/
structure Header where
  /-- The descriptor. -/
  descriptor : UInt8
  /-- The window descriptor. -/
  windowDescriptor : Bytes
  /-- The dictionary ID. -/
  dictionaryId : Bytes
  /-- The content size. -/
  contentSize : Bytes
  /-- The window descriptor has its length. -/
  length_windowDescriptor : windowDescriptor.length = windowDescriptorLen descriptor
  /-- The dictionary ID has its length. -/
  length_dictionaryId : dictionaryId.length = dictionaryIdLen descriptor
  /-- The content size has its length. -/
  length_contentSize : contentSize.length = contentSizeLen descriptor

/-- The window of a window descriptor: `2 ^ (10 + e)` and `m` eighths of it. -/
def windowOf (windowDescriptor : ℕ) : ℕ :=
  let exponent := windowDescriptor / 8
  let mantissa := windowDescriptor % 8
  2 ^ (10 + exponent) + 2 ^ (10 + exponent) / 8 * mantissa

namespace Header

/-- The header as it is written. -/
def bytes (h : Header) : Bytes :=
  h.descriptor :: (h.windowDescriptor ++ h.dictionaryId ++ h.contentSize)

/-- The dictionary, 0 for none. -/
def dictionary (h : Header) : ℕ := ofLe h.dictionaryId

/-- The content size, if the header has it.  Two bytes count from 256. -/
def content? (h : Header) : Option ℕ :=
  match h.contentSize.length with
  | 0 => none
  | 2 => some (ofLe h.contentSize + 256)
  | _ => some (ofLe h.contentSize)

/-- The window size. -/
def windowSize (h : Header) : ℕ :=
  if SingleSegment h.descriptor then h.content?.getD 0 else windowOf (ofLe h.windowDescriptor)

theorem content?_eq (h : Header) : h.content? = if h.contentSize.length = 0 then none else
    some (if h.contentSize.length = 2 then ofLe h.contentSize + 256 else ofLe h.contentSize) := by
  rw [content?]
  split
  · rename_i hlen
    rw [if_pos hlen]
  · rename_i hlen
    rw [if_neg (by omega), if_pos hlen]
  · rename_i hzero htwo
    rw [if_neg hzero, if_neg htwo]

/-- **Where a header stands**: its fields are the slices behind its descriptor. -/
theorem slice?_bytes {h : Header} {b : Bytes} {off : ℕ} :
    slice? b off h.bytes.length = some h.bytes ↔ b[off]? = some h.descriptor ∧
      slice? b (off + 1) (windowDescriptorLen h.descriptor) = some h.windowDescriptor ∧
      slice? b (off + 1 + windowDescriptorLen h.descriptor) (dictionaryIdLen h.descriptor) =
        some h.dictionaryId ∧
      slice? b (off + 1 + windowDescriptorLen h.descriptor + dictionaryIdLen h.descriptor)
        (contentSizeLen h.descriptor) = some h.contentSize := by
  have hwindow := h.length_windowDescriptor
  have hdictionary := h.length_dictionaryId
  have hcontent := h.length_contentSize
  have hbytes : h.bytes = [h.descriptor] ++ h.windowDescriptor ++ h.dictionaryId ++ h.contentSize :=
    by simp [bytes]
  have hlen : h.bytes.length = 1 + windowDescriptorLen h.descriptor +
      dictionaryIdLen h.descriptor + contentSizeLen h.descriptor := by
    rw [hbytes]
    simp only [List.length_append, List.length_singleton]
    omega
  rw [hlen, hbytes,
    slice?_append_eq_some (by simp only [List.length_append, List.length_singleton]; omega),
    slice?_append_eq_some (by simp only [List.length_append, List.length_singleton]; omega),
    slice?_append_eq_some (by rfl), slice?_singleton]
  simp only [Nat.add_assoc, and_assoc]

end Header

end ZstdFrame
