import Mst2Codec.Checked.Zstd1
import Mst2Codec.Library.ZstdHeader

/-!
# The header gate is the frame header of the format

`validateFrameHeader` finds the fields with masks, shifts and a moving offset, in `UInt64`.
`ZstdFrame.Header` says where they stand and what they mean without any of that, and
`validateFrameHeader_iff` that the gate passes exactly the headers that are there in full, with no
reserved bit, no dictionary, a window of at most 8 MiB and no content size but the announced one.

The masks and the shifts of one byte are compared with the quotients and remainders of the format
for all 256 bytes (`descriptor_bits`, `toNat_windowBytes`).
-/

set_option autoImplicit false

namespace Mst2

open Bytes Except

/-! ## Bits and bytes -/

/-- The bit groups of a descriptor. -/
theorem descriptor_bits (d : UInt8) :
    (d &&& 0x08 ≠ 0 ↔ ZstdFrame.reservedBit d ≠ 0) ∧
      (d &&& 0x20 ≠ 0 ↔ ZstdFrame.SingleSegment d) ∧
      dictionaryLen d = ZstdFrame.dictionaryIdLen d ∧
      contentSizeLen d (d &&& 0x20 ≠ 0) = ZstdFrame.contentSizeLen d := by
  have h : ∀ n < 256, (UInt8.ofNat n &&& 0x08 ≠ 0 ↔ ZstdFrame.reservedBit (UInt8.ofNat n) ≠ 0) ∧
      (UInt8.ofNat n &&& 0x20 ≠ 0 ↔ ZstdFrame.SingleSegment (UInt8.ofNat n)) ∧
      dictionaryLen (UInt8.ofNat n) = ZstdFrame.dictionaryIdLen (UInt8.ofNat n) ∧
      contentSizeLen (UInt8.ofNat n) (UInt8.ofNat n &&& 0x20 ≠ 0) =
        ZstdFrame.contentSizeLen (UInt8.ofNat n) := by
    decide +kernel
  have hd := h d.toNat d.toNat_lt
  rwa [UInt8.ofNat_toNat] at hd

theorem toNat_windowBytes (w : UInt8) : (windowBytes w).toNat = ZstdFrame.windowOf w.toNat := by
  have h : ∀ n < 256, (windowBytes (UInt8.ofNat n)).toNat = ZstdFrame.windowOf n := by
    decide +kernel
  have hw := h w.toNat w.toNat_lt
  rwa [UInt8.ofNat_toNat] at hw

theorem pow_succ_byte (i : ℕ) : 2 ^ (8 * (i + 1)) = 2 ^ (8 * i) * 256 := by
  rw [Nat.mul_succ, pow_add]
  rfl

/-- A byte above all that is there is added. -/
theorem toNat_or_shl (size : UInt64) (byte : UInt8) {i : ℕ} (hi : i < 8)
    (hsize : size.toNat < 2 ^ (8 * i)) :
    (size ||| (byte.toUInt64 <<< UInt64.ofNat (8 * i))).toNat =
      size.toNat + 2 ^ (8 * i) * byte.toNat := by
  have hlt : 2 ^ (8 * i) * byte.toNat < 2 ^ 64 :=
    calc 2 ^ (8 * i) * byte.toNat < 2 ^ (8 * i) * 256 :=
          Nat.mul_lt_mul_of_pos_left byte.toNat_lt (by positivity)
      _ = 2 ^ (8 * (i + 1)) := (pow_succ_byte i).symm
      _ ≤ 2 ^ 64 := Nat.pow_le_pow_right (by omega) (by omega)
  rw [← Checked.shl_byte byte hi, UInt64.toNat_or, UInt64.toNat_ofNat', Nat.mod_mod, mul_comm,
    Nat.mod_eq_of_lt hlt, Nat.or_comm, ← Nat.two_pow_add_eq_or_of_lt hsize, add_comm]

theorem toNat_foldl_bytes (bytes : Bytes) (k : ℕ) (size : UInt64) (hk : k + bytes.length ≤ 8)
    (hsize : size.toNat < 2 ^ (8 * k)) :
    ((bytes.zipIdx k).foldl (fun size (byte, i) ↦
      size ||| (byte.toUInt64 <<< UInt64.ofNat (8 * i))) size).toNat =
      size.toNat + 2 ^ (8 * k) * ofLe bytes := by
  induction bytes generalizing k size with
  | nil => rw [List.zipIdx_nil, List.foldl_nil, ofLe, mul_zero, add_zero]
  | cons byte bytes ih =>
    rw [List.length_cons] at hk
    have hstep := toNat_or_shl size byte (by omega) hsize
    have hlt : size.toNat + 2 ^ (8 * k) * byte.toNat < 2 ^ (8 * (k + 1)) := by
      have hbyte := Nat.mul_le_mul_left (2 ^ (8 * k)) (Nat.le_of_lt_succ byte.toNat_lt)
      rw [pow_succ_byte]
      omega
    rw [List.zipIdx_cons, List.foldl_cons]
    dsimp only
    rw [ih _ _ (by omega) (hstep ▸ hlt), hstep, ofLe, pow_succ_byte]
    ring

/-- **The fold reads a little-endian number.** -/
theorem toNat_contentSize {bytes : Bytes} (h : bytes.length ≤ 8) :
    (contentSize bytes).toNat = ofLe bytes := by
  have hfold := toNat_foldl_bytes bytes 0 0 (by omega) (by decide)
  rwa [UInt64.toNat_zero, mul_zero, pow_zero, one_mul, zero_add] at hfold

/-- A content size of two bytes has room for 256 more. -/
theorem toNat_size {content : Bytes} (h : content.length ≤ 8) :
    (if content.length = 2 then contentSize content + 256 else contentSize content).toNat =
      if content.length = 2 then ofLe content + 256 else ofLe content := by
  split
  · rename_i htwo
    have hlt := Checked.contentSize_lt content htwo
    have h256 : (256 : UInt64).toNat = 256 := rfl
    rw [UInt64.toNat_add, h256, ← toNat_contentSize h]
    exact Nat.mod_eq_of_lt (by omega)
  · exact toNat_contentSize h

theorem ofLe_eq_zero_iff {b : Bytes} : ofLe b = 0 ↔ ∀ x ∈ b, x = 0 := by
  induction b with
  | nil => simp [ofLe]
  | cons a b ih =>
    rw [ofLe, List.forall_mem_cons, ← ih, ← UInt8.toNat_inj, UInt8.toNat_zero]
    omega

/-! ## The fields that the gate reads -/

/-- The end of the gate: the dictionary ID and the content size. -/
def checkFields (wire : Bytes) (rawLen : ℕ) (single : Bool) (dl cl offset : ℕ) :
    CodecResult Unit := do
  let dictionary ← okOr (slice? wire offset dl) (.truncated "zstd dictionary ID")
  reject (dictionary.any (· ≠ 0)) (.unsupported "external zstd dictionary")
  if cl ≠ 0 then
    let bytes ← okOr (slice? wire (offset + dl) cl) (.truncated "zstd content size")
    let size := if cl = 2 then contentSize bytes + 256 else contentSize bytes
    reject (single ∧ size > (1 : UInt64) <<< UInt64.ofNat maxWindowLog)
      (.badLength "zstd window exceeds 8MiB")
    reject (size ≠ UInt64.ofNat rawLen) (.badLength "zstd content size differs from raw_len")

/-- The start of the gate: the window, and `f` at the offset behind it. -/
def checkWindow (wire : Bytes) (single : Bool) (f : ℕ → CodecResult Unit) : CodecResult Unit :=
  if single then f 5
  else do
    let window ← okOr wire[5]? (.truncated "zstd window")
    reject (windowBytes window > (1 : UInt64) <<< UInt64.ofNat maxWindowLog)
      (.badLength "zstd window exceeds 8MiB")
    f 6

theorem validateFrameHeader_eq (wire : Bytes) (rawLen : ℕ) :
    validateFrameHeader wire rawLen = (do
      let d ← okOr wire[4]? (.truncated "zstd header")
      reject (d &&& 0x08 ≠ 0) (.badConstant "zstd reserved header bit")
      checkWindow wire (d &&& 0x20 ≠ 0) (checkFields wire rawLen (d &&& 0x20 ≠ 0) (dictionaryLen d)
        (contentSizeLen d (d &&& 0x20 ≠ 0)))) := rfl

theorem checkFields_eq_ok {wire : Bytes} {rawLen : UInt64} {single : Bool}
    {offset dl cl : ℕ} (hcl : cl ≤ 8) :
    checkFields wire rawLen.toNat single dl cl offset = .ok () ↔
      ∃ dictionary content, slice? wire offset dl = some dictionary ∧
        slice? wire (offset + dl) cl = some content ∧ ofLe dictionary = 0 ∧
        (cl ≠ 0 → ∀ size, size = (if cl = 2 then ofLe content + 256 else ofLe content) →
          (single → size ≤ 2 ^ 23) ∧ size = rawLen.toNat) := by
  have hlimit : ((1 : UInt64) <<< UInt64.ofNat maxWindowLog).toNat = 2 ^ 23 := by decide
  have hzero : ∀ d : Bytes, ¬ d.any (· ≠ 0) = true ↔ ofLe d = 0 := by
    intro d
    rw [ofLe_eq_zero_iff]
    simp
  rw [checkFields, okOr_bind_eq_ok]
  refine exists_congr fun dictionary ↦ ?_
  rw [reject_bind_eq_ok, hzero]
  by_cases hcl0 : cl = 0
  · -- no content size
    subst hcl0
    rw [if_neg (by simp)]
    constructor
    · rintro ⟨hdictionary, hz, -⟩
      have hle := le_of_slice? hdictionary
      exact ⟨[], hdictionary, by rw [slice?, if_pos (by omega), List.take_zero], hz,
        fun h ↦ absurd rfl h⟩
    · rintro ⟨content, hdictionary, -, hz, -⟩
      exact ⟨hdictionary, hz, rfl⟩
  · rw [if_pos hcl0, okOr_bind_eq_ok]
    simp only [reject_bind_eq_ok, reject_eq_ok, not_not]
    have hsize : ∀ content, slice? wire (offset + dl) cl = some content →
        (if cl = 2 then contentSize content + 256 else contentSize content).toNat =
          if cl = 2 then ofLe content + 256 else ofLe content := by
      intro content hcontent
      obtain rfl := length_of_slice? hcontent
      exact toNat_size hcl
    constructor
    · rintro ⟨hdictionary, hz, content, hcontent, hwindow, heq⟩
      refine ⟨content, hdictionary, hcontent, hz, fun _ size hval ↦ ?_⟩
      rw [← hsize content hcontent] at hval
      rw [gt_iff_lt, UInt64.lt_iff_toNat_lt, hlimit, ← hval, not_and, not_lt] at hwindow
      rw [UInt64.ofNat_toNat] at heq
      exact ⟨hwindow, by rw [hval, heq]⟩
    · rintro ⟨content, hdictionary, hcontent, hz, hval⟩
      obtain ⟨hwindow, heq⟩ := hval hcl0 _ rfl
      rw [← hsize content hcontent] at hwindow heq
      refine ⟨hdictionary, hz, content, hcontent, ?_, ?_⟩
      · rw [gt_iff_lt, UInt64.lt_iff_toNat_lt, hlimit, not_and, not_lt]
        exact hwindow
      · rw [UInt64.ofNat_toNat]
        exact UInt64.toNat_inj.mp heq

theorem checkWindow_eq_ok {wire : Bytes} {d : UInt8} (hd : wire[4]? = some d)
    {f : ℕ → CodecResult Unit} :
    checkWindow wire (d &&& 0x20 ≠ 0) f = .ok () ↔
      ∃ window, slice? wire 5 (ZstdFrame.windowDescriptorLen d) = some window ∧
        (¬ ZstdFrame.SingleSegment d → ZstdFrame.windowOf (ofLe window) ≤ 2 ^ 23) ∧
        f (5 + ZstdFrame.windowDescriptorLen d) = .ok () := by
  obtain ⟨-, hsingle, -⟩ := descriptor_bits d
  have hlt := (List.getElem?_eq_some_iff.mp hd).1
  by_cases hs : ZstdFrame.SingleSegment d
  · rw [checkWindow, if_pos (decide_eq_true (hsingle.mpr hs)), ZstdFrame.windowDescriptorLen,
      if_pos hs]
    refine ⟨fun h ↦ ⟨[], ?_, fun hns ↦ absurd hs hns, h⟩, fun h ↦ ?_⟩
    · rw [slice?, if_pos (by omega), List.take_zero]
    · obtain ⟨-, -, -, h⟩ := h
      exact h
  · rw [checkWindow, if_neg (by simpa using hsingle.not.mpr hs), ZstdFrame.windowDescriptorLen,
      if_neg hs, okOr_bind_eq_ok]
    have hlimit : ∀ w : UInt8, ¬ windowBytes w > (1 : UInt64) <<< UInt64.ofNat maxWindowLog ↔
        ZstdFrame.windowOf w.toNat ≤ 2 ^ 23 := by
      intro w
      rw [gt_iff_lt, UInt64.lt_iff_toNat_lt, toNat_windowBytes, not_lt]
      rfl
    constructor
    · rintro ⟨w, hw, h⟩
      rw [reject_bind_eq_ok, hlimit] at h
      exact ⟨[w], slice?_singleton.mpr hw, fun _ ↦ h.1, h.2⟩
    · rintro ⟨window, hwindow, hle, h⟩
      obtain ⟨w, rfl⟩ := List.length_eq_one_iff.mp (length_of_slice? hwindow)
      refine ⟨w, slice?_singleton.mp hwindow, ?_⟩
      rw [reject_bind_eq_ok, hlimit]
      exact ⟨hle hs, h⟩

/-- The limits of a header, in the order in which the gate checks them. -/
theorem header_limits {h : ZstdFrame.Header} {rawLen : ℕ} :
    (h.windowSize ≤ 2 ^ 23 ∧ ∀ size, h.content? = some size → size = rawLen) ↔
      (¬ ZstdFrame.SingleSegment h.descriptor →
        ZstdFrame.windowOf (ofLe h.windowDescriptor) ≤ 2 ^ 23) ∧
      (ZstdFrame.contentSizeLen h.descriptor ≠ 0 →
        ∀ size, size = (if ZstdFrame.contentSizeLen h.descriptor = 2 then ofLe h.contentSize + 256
          else ofLe h.contentSize) →
        (ZstdFrame.SingleSegment h.descriptor → size ≤ 2 ^ 23) ∧ size = rawLen) := by
  rw [ZstdFrame.Header.windowSize, ZstdFrame.Header.content?_eq, h.length_contentSize]
  by_cases hcl : ZstdFrame.contentSizeLen h.descriptor = 0
  · have hsingle : ¬ ZstdFrame.SingleSegment h.descriptor := by
      intro hs
      rw [ZstdFrame.contentSizeLen, if_pos hs] at hcl
      split at hcl <;> simp at hcl
    simp [hcl, hsingle]
  · simp only [hcl, if_false, Option.getD_some, Option.some.injEq, ne_eq, not_false_eq_true,
      forall_const, forall_eq, forall_eq']
    by_cases hs : ZstdFrame.SingleSegment h.descriptor <;> simp [hs]

/-- **What the gate accepts**, field by field. -/
theorem validateFrameHeader_eq_ok {wire : Bytes} {rawLen : UInt64} :
    validateFrameHeader wire rawLen.toNat = .ok () ↔
      ∃ h : ZstdFrame.Header, slice? wire 4 h.bytes.length = some h.bytes ∧
        ZstdFrame.reservedBit h.descriptor = 0 ∧ h.dictionary = 0 ∧ h.windowSize ≤ 2 ^ 23 ∧
        ∀ size, h.content? = some size → size = rawLen.toNat := by
  rw [validateFrameHeader_eq, okOr_bind_eq_ok]
  simp only [ZstdFrame.Header.slice?_bytes, header_limits]
  constructor
  · rintro ⟨d, hd, h⟩
    obtain ⟨hres, hsingle, hdl, hcl⟩ := descriptor_bits d
    rw [reject_bind_eq_ok, hres, not_not] at h
    obtain ⟨hres0, hchecks⟩ := h
    obtain ⟨window, hwindow, hwindowLe, hfields⟩ := (checkWindow_eq_ok hd).mp hchecks
    obtain ⟨dictionary, content, hdictionary, hcontent, hzero, hsize⟩ :=
      (checkFields_eq_ok (Checked.contentSizeLen_le _ _)).mp hfields
    rw [hdl] at hdictionary hcontent
    rw [hcl] at hcontent hsize
    simp only [decide_eq_true_eq, hsingle] at hsize
    exact ⟨⟨d, window, dictionary, content, length_of_slice? hwindow,
      length_of_slice? hdictionary, length_of_slice? hcontent⟩,
      ⟨hd, hwindow, hdictionary, hcontent⟩, hres0, hzero, hwindowLe, hsize⟩
  · rintro ⟨⟨d, window, dictionary, content, hwl, hdl', hcl'⟩,
      ⟨hd, hwindow, hdictionary, hcontent⟩, hres0, hzero, hwindowLe, hsize⟩
    obtain ⟨hres, hsingle, hdl, hcl⟩ := descriptor_bits d
    refine ⟨d, hd, reject_bind_eq_ok.mpr ⟨hres.not.mpr (not_not.mpr hres0), ?_⟩⟩
    refine (checkWindow_eq_ok hd).mpr ⟨window, hwindow, hwindowLe, ?_⟩
    refine (checkFields_eq_ok (Checked.contentSizeLen_le _ _)).mpr
      ⟨dictionary, content, hdl ▸ hdictionary, ?_, hzero, ?_⟩
    · rw [hdl, hcl]
      exact hcontent
    · rw [hcl]
      simp only [decide_eq_true_eq, hsingle]
      exact hsize

/-- A slice of all of its length behind a string is a prefix of what follows. -/
theorem slice?_append_left_eq_some {a b x : Bytes} :
    slice? (a ++ b) a.length x.length = some x ↔ x <+: b := by
  rw [slice?_eq_some, List.drop_left]
  constructor
  · rintro ⟨-, -, hb⟩
    exact ⟨_, hb.symm⟩
  · rintro ⟨t, rfl⟩
    refine ⟨by simp, rfl, ?_⟩
    rw [← List.drop_drop, List.drop_left, List.drop_left]

/-- **The gate is the frame header of the format**: behind the magic it passes the headers that are
there in full, with no reserved bit, no dictionary, a window of at most 8 MiB and no content size
but the announced one.  No shift and no sum overflows. -/
theorem validateFrameHeader_iff (rest : Bytes) (rawLen : UInt64) :
    (validateFrameHeader (zstdMagic ++ rest) rawLen.toNat = .ok () ↔
      ∃ h : ZstdFrame.Header, h.bytes <+: rest ∧ ZstdFrame.reservedBit h.descriptor = 0 ∧
        h.dictionary = 0 ∧ h.windowSize ≤ 2 ^ 23 ∧
        ∀ size, h.content? = some size → size = rawLen.toNat) ∧
    Checked.validateFrameHeader (zstdMagic ++ rest) rawLen.toNat =
      Machine.lift (validateFrameHeader (zstdMagic ++ rest) rawLen.toNat) := by
  refine ⟨?_, Checked.validateFrameHeader_eq _ _⟩
  rw [validateFrameHeader_eq_ok]
  refine exists_congr fun h ↦ and_congr_left fun _ ↦ ?_
  exact slice?_append_left_eq_some

end Mst2
