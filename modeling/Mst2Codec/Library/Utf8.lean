import Mst2Codec.Library.Bytes

/-!
# Strings as byte strings

`String.asBytes` is the UTF-8 text of a string and `String.ofUtf8` the checked way back;
`String.ofUtf8_eq_some` says that the two determine each other.

An ASCII character is one byte, and that byte occurs in the text of no other character.  So looking
for an ASCII byte in the text is looking for the character in the string
(`String.mem_asBytes_of_ascii`), which is what makes it sound to split text on a separator byte.
-/

set_option autoImplicit false

namespace String

/-- The UTF-8 bytes of a string. -/
def asBytes (s : String) : Bytes := s.toByteArray.data.toList

/-- The string with the given UTF-8 bytes, if they are UTF-8. -/
def ofUtf8 (b : Bytes) : Option String := String.fromUTF8? ⟨b.toArray⟩

theorem asBytes_injective : Function.Injective asBytes := by
  intro s t h
  apply String.toByteArray_inj.mp
  apply ByteArray.ext
  exact Array.toList_inj.mp h

@[simp] theorem asBytes_inj {s t : String} : s.asBytes = t.asBytes ↔ s = t :=
  asBytes_injective.eq_iff

@[simp] theorem ofUtf8_asBytes (s : String) : ofUtf8 s.asBytes = some s := by
  have hb : (⟨s.asBytes.toArray⟩ : ByteArray) = s.toByteArray := by
    apply ByteArray.ext
    simp [asBytes]
  rw [ofUtf8, hb, String.fromUTF8?, dif_pos s.isValidUTF8]
  rfl

theorem ofUtf8_eq_some {b : Bytes} {s : String} : ofUtf8 b = some s ↔ s.asBytes = b := by
  constructor
  · intro h
    rw [ofUtf8, String.fromUTF8?] at h
    split at h
    · cases h
      simp [asBytes, String.fromUTF8]
    · cases h
  · rintro rfl
    exact ofUtf8_asBytes s

theorem asBytes_ofList (cs : List Char) :
    (String.ofList cs).asBytes = cs.flatMap String.utf8EncodeChar := by
  simp [asBytes, List.utf8Encode]

theorem asBytes_eq_flatMap (s : String) : s.asBytes = s.toList.flatMap String.utf8EncodeChar := by
  rw [← asBytes_ofList, String.ofList_toList]

@[simp] theorem asBytes_empty : "".asBytes = [] := rfl

@[simp] theorem asBytes_append (s t : String) : (s ++ t).asBytes = s.asBytes ++ t.asBytes := by
  simp [asBytes_eq_flatMap]

theorem asBytes_eq_nil {s : String} : s.asBytes = [] ↔ s = "" := by
  rw [← asBytes_empty, asBytes_inj]

/-! ## ASCII characters -/

/-- The text of an ASCII character is that one byte. -/
theorem utf8EncodeChar_of_ascii {c : Char} (h : c.toNat < 128) :
    String.utf8EncodeChar c = [UInt8.ofNat c.toNat] := by
  have hv : c.val.toNat ≤ 127 := by
    have : c.toNat = c.val.toNat := rfl
    omega
  rw [String.utf8EncodeChar]
  simp only [hv, if_true]
  rfl

/-- Every byte of a multi-byte character is at least `0x80`. -/
theorem le_of_mem_utf8EncodeChar {c : Char} (h : 128 ≤ c.toNat) {b : UInt8}
    (hb : b ∈ String.utf8EncodeChar c) : 128 ≤ b.toNat := by
  have hv : ¬ c.val.toNat ≤ 127 := by
    have : c.toNat = c.val.toNat := rfl
    omega
  simp only [String.utf8EncodeChar, hv, if_false] at hb
  split at hb <;> [skip; split at hb] <;>
    simp only [List.mem_cons, List.not_mem_nil, or_false] at hb <;>
    rcases hb with rfl | rfl | rfl | rfl <;>
    simp <;> omega

theorem mem_utf8EncodeChar_of_ascii {c d : Char} (hd : d.toNat < 128) :
    UInt8.ofNat d.toNat ∈ String.utf8EncodeChar c ↔ c = d := by
  have hd8 : (UInt8.ofNat d.toNat).toNat = d.toNat := by
    rw [UInt8.toNat_ofNat']
    omega
  constructor
  · intro h
    rcases Nat.lt_or_ge c.toNat 128 with hc | hc
    · rw [utf8EncodeChar_of_ascii hc, List.mem_singleton] at h
      have hcd := congrArg UInt8.toNat h
      rw [hd8, UInt8.toNat_ofNat', Nat.mod_eq_of_lt (by omega)] at hcd
      exact (Char.toNat_inj.mp hcd).symm
    · have := le_of_mem_utf8EncodeChar hc h
      omega
  · rintro rfl
    rw [utf8EncodeChar_of_ascii hd]
    exact List.mem_singleton.mpr rfl

/-- **An ASCII byte occurs in the text exactly where its character occurs in the string.** -/
theorem mem_asBytes_of_ascii {s : String} {c : Char} (hc : c.toNat < 128) :
    UInt8.ofNat c.toNat ∈ s.asBytes ↔ c ∈ s.toList := by
  rw [asBytes_eq_flatMap, List.mem_flatMap]
  constructor
  · rintro ⟨d, hd, hmem⟩
    rwa [← (mem_utf8EncodeChar_of_ascii hc).mp hmem]
  · intro h
    exact ⟨c, h, (mem_utf8EncodeChar_of_ascii hc).mpr rfl⟩

end String
