import Mst2Codec.Namespace.Radix

/-!
# The key of a path

`keyOf p` is the key of a valid path in closed form: its components, each followed by a NUL.
`encodeKey` computes it (`encodeKey_eq_ok`) and `decodeKey` inverts it (`decodeKey_eq_ok`): the two
are a bijection between valid paths and their keys.

As no component contains a NUL, one key is a prefix of another exactly when the components are
(`keyOf_isPrefix_iff`).  This is what lets the index walk bytes while meaning components.
-/

set_option autoImplicit false

namespace Mst2

open Bytes Except

/-- The components of a path, each followed by a NUL. -/
def keyOf (path : String) : Bytes := terminate 0 ((components path).map String.asBytes)

theorem validPath_root : ValidPath "/" := by decide

@[simp] theorem keyOf_root : keyOf "/" = [] := by decide

theorem zero_notMem_map_components {p : String} (hp : ValidPath p) :
    ∀ w ∈ (components p).map String.asBytes, (0 : UInt8) ∉ w := by
  intro w hw
  obtain ⟨name, hname, rfl⟩ := List.mem_map.mp hw
  exact (zero_notMem_components hp hname).1

theorem map_slashToZero_of_notMem {b : Bytes} (h : (0x2F : UInt8) ∉ b) :
    b.map slashToZero = b := by
  rw [List.map_congr_left (fun x hx ↦ ?_), List.map_id]
  exact if_neg fun hx' : x = 0x2F ↦ h (hx' ▸ hx)

theorem zeroToSlash_slashToZero {b : UInt8} (h : b ≠ 0) : zeroToSlash (slashToZero b) = b := by
  rw [slashToZero]
  split
  · rename_i hb; rw [hb]; decide
  · exact if_neg h

/-- A valid path other than the root, split after its slash: the key is read off the rest. -/
theorem keyOf_eq_of_stripSlash {path relative : String} (hp : ValidPath path)
    (h : stripSlash path = some relative) (hne : relative ≠ "") :
    keyOf path = relative.asBytes.map slashToZero ++ [0] := by
  have hmap := congrArg (List.map slashToZero) (asBytes_append_slash h hne)
  rw [List.map_append, map_terminate, List.map_map] at hmap
  have hcomp : (components path).map (List.map slashToZero ∘ String.asBytes) =
      (components path).map String.asBytes :=
    List.map_congr_left fun name hname ↦
      map_slashToZero_of_notMem (zero_notMem_components hp hname).2
  rw [hcomp] at hmap
  exact hmap.symm

theorem asBytes_of_stripSlash {path relative : String} (h : stripSlash path = some relative) :
    path.asBytes = 0x2F :: relative.asBytes := by
  rw [String.asBytes_eq_flatMap, stripSlash_eq_some.mp h, List.flatMap_cons,
    ← String.asBytes_eq_flatMap]
  rfl

theorem eq_root_iff {path relative : String} (h : stripSlash path = some relative) :
    path = "/" ↔ relative = "" := by
  rw [← String.asBytes_inj, asBytes_of_stripSlash h, ← String.asBytes_eq_nil]
  exact ⟨fun he ↦ (List.cons.inj he).2, fun he ↦ by rw [he]; decide⟩

/-- **`encodeKey` succeeds exactly on valid paths, with their key.** -/
theorem encodeKey_eq_ok {path : String} {key : Bytes} :
    encodeKey path = .ok key ↔ ValidPath path ∧ key = keyOf path := by
  rw [encodeKey, bind_eq_ok]
  constructor
  · rintro ⟨⟨⟩, hp, hkey⟩
    refine ⟨hp, ?_⟩
    obtain ⟨relative, hrel⟩ := (validPath_iff.mp hp).2.1
    split at hkey
    · rename_i hroot
      rw [hroot, keyOf_root]
      exact (Except.ok.inj hkey).symm
    · rename_i hroot
      rw [keyOf_eq_of_stripSlash hp hrel (fun he ↦ hroot ((eq_root_iff hrel).mpr he))]
      rw [asBytes_of_stripSlash hrel] at hkey
      exact (Except.ok.inj hkey).symm
  · rintro ⟨hp, rfl⟩
    refine ⟨(), hp, ?_⟩
    obtain ⟨relative, hrel⟩ := (validPath_iff.mp hp).2.1
    split
    · rename_i hroot
      rw [hroot, keyOf_root]
      rfl
    · rename_i hroot
      rw [keyOf_eq_of_stripSlash hp hrel (fun he ↦ hroot ((eq_root_iff hrel).mpr he)),
        asBytes_of_stripSlash hrel]
      rfl

/-- A key is no longer than its path, except that the root has the empty key. -/
theorem length_keyOf_le {path : String} (hp : ValidPath path) :
    (keyOf path).length ≤ pathMaxBytes := by
  obtain ⟨hlen, ⟨relative, hrel⟩, -⟩ := validPath_iff.mp hp
  by_cases hne : relative = ""
  · rw [(eq_root_iff hrel).mpr hne, keyOf_root]
    simp
  · rw [keyOf_eq_of_stripSlash hp hrel hne]
    rw [asBytes_of_stripSlash hrel] at hlen
    simpa using hlen

theorem slash_notMem_keyOf {path : String} (hp : ValidPath path) :
    (0x2F : UInt8) ∉ keyOf path := by
  intro h
  rcases mem_terminate h with h0 | ⟨w, hw, h0⟩
  · simp at h0
  · obtain ⟨name, hname, rfl⟩ := List.mem_map.mp hw
    exact (zero_notMem_components hp hname).2 h0

/-- **`decodeKey` inverts `encodeKey`.** -/
theorem decodeKey_eq_ok {key : Bytes} {path : String} :
    decodeKey key = .ok path ↔ ValidPath path ∧ key = keyOf path := by
  constructor
  · intro h
    rw [decodeKey, reject_bind_eq_ok] at h
    obtain ⟨-, h⟩ := h
    split at h
    · rename_i hnil
      obtain rfl : "/" = path := Except.ok.inj h
      exact ⟨validPath_root, by rw [hnil, keyOf_root]⟩
    · rw [reject_bind_eq_ok, okOr_bind_eq_ok] at h
      obtain ⟨-, p, -, h⟩ := h
      rw [bind_eq_ok] at h
      obtain ⟨⟨⟩, -, h⟩ := h
      rw [bind_eq_ok] at h
      obtain ⟨encoded, henc, h⟩ := h
      rw [reject_bind_eq_ok, not_not] at h
      obtain ⟨rfl, h⟩ := h
      obtain rfl : p = path := Except.ok.inj h
      exact encodeKey_eq_ok.mp henc
  · rintro ⟨hp, rfl⟩
    obtain ⟨-, ⟨relative, hrel⟩, -⟩ := validPath_iff.mp hp
    rw [decodeKey, reject_bind_eq_ok]
    refine ⟨not_lt.mpr (length_keyOf_le hp), ?_⟩
    by_cases hne : relative = ""
    · rw [(eq_root_iff hrel).mpr hne, keyOf_root]
      rfl
    · have hkey := keyOf_eq_of_stripSlash hp hrel hne
      have hback : (relative.asBytes.map slashToZero).map zeroToSlash = relative.asBytes := by
        rw [List.map_map, List.map_congr_left (fun x hx ↦ ?_), List.map_id]
        exact zeroToSlash_slashToZero fun h0 ↦ zero_notMem_relative hp hrel (h0 ▸ hx)
      have hslash := slash_notMem_keyOf hp
      rw [if_neg (by simp [hkey]), reject_bind_eq_ok, okOr_bind_eq_ok]
      refine ⟨?_, path, ?_, ?_⟩
      · rintro (h | h)
        · simp [hkey] at h
        · exact hslash h
      · rw [String.ofUtf8_eq_some, hkey, List.dropLast_concat, hback, asBytes_of_stripSlash hrel]
      · rw [show validateAbsolutePath path = .ok () from hp, ok_bind,
          encodeKey_eq_ok.mpr ⟨hp, rfl⟩, ok_bind, reject_of_not (by simp)]
        rfl

/-! ## Keys and components -/

/-- **Prefixes of keys are prefixes of component lists.** -/
theorem keyOf_isPrefix_iff {p q : String} (hp : ValidPath p) (hq : ValidPath q) :
    keyOf p <+: keyOf q ↔ components p <+: components q := by
  rw [keyOf, keyOf,
    terminate_isPrefix_iff (zero_notMem_map_components hp) (zero_notMem_map_components hq),
    List.prefix_map_iff_of_injective String.asBytes_injective]

theorem keyOf_injective {p q : String} (hp : ValidPath p) (hq : ValidPath q)
    (h : keyOf p = keyOf q) : p = q := by
  have hpq := (keyOf_isPrefix_iff hp hq).mp (h ▸ List.prefix_rfl)
  have hqp := (keyOf_isPrefix_iff hq hp).mp (h ▸ List.prefix_rfl)
  exact components_injective hp hq
    (hpq.eq_of_length (le_antisymm hpq.length_le hqp.length_le))

/-- Among the ancestors of a path, the longer key has the more components. -/
theorem length_keyOf_lt {p q r : String} (hp : components p <+: components r)
    (hq : components q <+: components r) :
    (keyOf p).length < (keyOf q).length ↔ (components p).length < (components q).length := by
  rw [keyOf, keyOf, length_terminate_lt (hp.map String.asBytes) (hq.map String.asBytes),
    List.length_map, List.length_map]

end Mst2
