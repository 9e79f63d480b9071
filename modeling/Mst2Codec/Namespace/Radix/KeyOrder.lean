import Mst2Codec.Namespace.Radix.Keys

/-!
# Keys against component lists

What a canonical path is, without the parser that checks it: a list of names and the text they are
spelled with (`CanonicalPath`).  `validPath_iff_canonical` says that the checks of
`src/namespace.rs` accept these and no others, and `key_codec` that keys are component lists in
another form, with the same prefixes and the same order.

For the order it matters that the letter behind each component is NUL, the least byte, which no
component has.  In the text of the paths it is a slash, and their order is a different one.
-/

set_option autoImplicit false

namespace Mst2

open Bytes Except

/-! ## Canonical paths -/

/-- A name of a canonical path. -/
structure ValidName (name : String) : Prop where
  /-- Not empty. -/
  ne_empty : name ≠ ""
  /-- At most 255 bytes. -/
  length_le : name.asBytes.length ≤ 255
  /-- No NUL. -/
  nul_notMem : '\x00' ∉ name.toList
  /-- No slash. -/
  slash_notMem : '/' ∉ name.toList
  /-- Not the directory itself. -/
  ne_dot : name ≠ "."
  /-- Not its parent. -/
  ne_dotDot : name ≠ ".."

/-- The absolute path with the given components. -/
def absolutePath (names : List String) : String :=
  String.ofList ('/' :: List.intercalate ['/'] (names.map String.toList))

/-- A canonical absolute path. -/
structure CanonicalPath where
  /-- The components. -/
  components : List String
  /-- They are names. -/
  valid : ∀ name ∈ components, ValidName name
  /-- The limit for paths. -/
  length_le : (absolutePath components).asBytes.length ≤ pathMaxBytes

/-- The text of a path. -/
def CanonicalPath.path (p : CanonicalPath) : String := absolutePath p.components

theorem validateName_eq_ok_iff {name : String} :
    validateName name.asBytes = .ok () ↔ ValidName name := by
  rw [validateName_eq_ok]
  constructor
  · rintro ⟨hne, hlen, s, hs, hnul, hslash, hdot, hdots⟩
    obtain rfl : s = name := by rwa [String.ofUtf8_asBytes, Option.some.injEq, eq_comm] at hs
    exact ⟨fun he ↦ hne (String.asBytes_eq_nil.mpr he), hlen, hnul, hslash, hdot, hdots⟩
  · rintro ⟨hne, hlen, hnul, hslash, hdot, hdots⟩
    exact ⟨fun he ↦ hne (String.asBytes_eq_nil.mp he), hlen, name, String.ofUtf8_asBytes name, hnul,
      hslash, hdot, hdots⟩

theorem stripSlash_absolutePath (names : List String) : stripSlash (absolutePath names) =
    some (String.ofList (List.intercalate ['/'] (names.map String.toList))) := by
  rw [stripSlash_eq_some, absolutePath, String.toList_ofList, String.toList_ofList]

instance (name : String) : Decidable (ValidName name) := decidable_of_iff _ validateName_eq_ok_iff

/-- The components are read off the text. -/
theorem components_absolutePath {names : List String} (h : ∀ name ∈ names, ValidName name) :
    components (absolutePath names) = names := by
  rw [components, stripSlash_absolutePath]
  dsimp only
  cases names with
  | nil => rfl
  | cons name names =>
    have hne : String.ofList (List.intercalate ['/'] ((name :: names).map String.toList)) ≠ "" := by
      have hname : name.toList ≠ [] := fun hnil ↦
        (h name List.mem_cons_self).ne_empty (String.toList_eq_nil_iff.mp hnil)
      rw [ne_eq, ← String.toList_eq_nil_iff, String.toList_ofList]
      cases names <;> simp [hname]
    have hslash : ∀ cs ∈ (name :: names).map String.toList, '/' ∉ cs := by
      intro cs hcs
      obtain ⟨n, hn, rfl⟩ := List.mem_map.mp hcs
      exact (h n hn).slash_notMem
    rw [if_neg hne, splitSlash, String.toList_ofList, List.splitOn_intercalate _ hslash (by simp),
      List.map_map]
    simp [Function.comp_def]

/-- **What `validate_absolute_path` accepts.** -/
theorem validPath_iff_canonical {path : String} :
    ValidPath path ↔ ∃ p : CanonicalPath, p.path = path := by
  constructor
  · intro h
    obtain ⟨hlen, ⟨relative, hrel⟩, hnames⟩ := validPath_iff.mp h
    have hpath : absolutePath (components path) = path := by
      rw [absolutePath, ← toList_eq_of_components hrel, String.ofList_toList]
    exact ⟨⟨components path, fun name hname ↦ validateName_eq_ok_iff.mp (hnames name hname),
      hpath.symm ▸ hlen⟩, hpath⟩
  · rintro ⟨p, rfl⟩
    refine validPath_iff.mpr ⟨p.length_le, ⟨_, stripSlash_absolutePath p.components⟩,
      fun name hname ↦ ?_⟩
    rw [CanonicalPath.path, components_absolutePath p.valid] at hname
    exact validateName_eq_ok_iff.mpr (p.valid name hname)

namespace CanonicalPath

variable (p q : CanonicalPath)

theorem validPath : ValidPath p.path := validPath_iff_canonical.mpr ⟨p, rfl⟩

@[simp] theorem components_path : Mst2.components p.path = p.components :=
  components_absolutePath p.valid

/-! ## Keys -/

/-- NUL is below every byte of a component. -/
theorem zero_lt_of_mem {w : Bytes} (hw : w ∈ p.components.map String.asBytes) {b : UInt8}
    (hb : b ∈ w) : 0 < b := by
  rw [← p.components_path] at hw
  have hne : b ≠ 0 := fun h0 ↦ zero_notMem_map_components p.validPath w hw (h0 ▸ hb)
  exact UInt8.pos_iff_ne_zero.mpr hne

/-- **Keys have the order of the component lists.** -/
theorem keyOf_lt_iff : keyOf p.path < keyOf q.path ↔
    p.components.map String.asBytes < q.components.map String.asBytes := by
  rw [keyOf, keyOf, components_path, components_path]
  exact terminate_lt_iff (fun w hw _ ↦ p.zero_lt_of_mem hw) fun w hw _ ↦ q.zero_lt_of_mem hw

theorem keyOf_isPrefix_iff : keyOf p.path <+: keyOf q.path ↔ p.components <+: q.components := by
  rw [Mst2.keyOf_isPrefix_iff p.validPath q.validPath, components_path, components_path]

end CanonicalPath

/-- **The keys of paths**: `encode_key` maps the canonical paths one to one to the keys that
`decode_key` accepts, prefixes of component lists to prefixes and their order to the byte order. -/
theorem key_codec :
    (∀ path, (∃ key, encodeKey path = .ok key) ↔ ∃ p : CanonicalPath, p.path = path) ∧
    (∀ p : CanonicalPath, ∃ key, encodeKey p.path = .ok key ∧ decodeKey key = .ok p.path) ∧
    (∀ key path, decodeKey key = .ok path → encodeKey path = .ok key) ∧
    ∀ (a b : CanonicalPath) (ka kb : Bytes), encodeKey a.path = .ok ka → encodeKey b.path = .ok kb →
      (ka <+: kb ↔ a.components <+: b.components) ∧
      (ka < kb ↔ a.components.map String.asBytes < b.components.map String.asBytes) := by
  refine ⟨fun path ↦ ?_, fun p ↦ ?_, fun key path h ↦ ?_, fun a b ka kb ha hb ↦ ?_⟩
  · rw [← validPath_iff_canonical]
    simp only [encodeKey_eq_ok]
    refine ⟨fun h ↦ ?_, fun h ↦ ⟨_, h, rfl⟩⟩
    obtain ⟨_, h, -⟩ := h
    exact h
  · exact ⟨keyOf p.path, encodeKey_eq_ok.mpr ⟨p.validPath, rfl⟩,
      decodeKey_eq_ok.mpr ⟨p.validPath, rfl⟩⟩
  · exact encodeKey_eq_ok.mpr (decodeKey_eq_ok.mp h)
  · obtain ⟨-, rfl⟩ := encodeKey_eq_ok.mp ha
    obtain ⟨-, rfl⟩ := encodeKey_eq_ok.mp hb
    exact ⟨a.keyOf_isPrefix_iff b, a.keyOf_lt_iff b⟩

/-- `/x/lib` -/
def libPath : CanonicalPath := ⟨["x", "lib"], by decide, by decide⟩

/-- `/x/library` -/
def libraryPath : CanonicalPath := ⟨["x", "library"], by decide, by decide⟩

/-- The one is not above the other, and comes before it. -/
theorem key_codec_library : ∃ ka kb, encodeKey "/x/lib" = .ok ka ∧
    encodeKey "/x/library" = .ok kb ∧ ¬ ka <+: kb ∧ ka < kb := by
  have hlib : encodeKey libPath.path = .ok "x\x00lib\x00".asBytes := by decide
  have hlibrary : encodeKey libraryPath.path = .ok "x\x00library\x00".asBytes := by decide
  obtain ⟨hpre, hlt⟩ := key_codec.2.2.2 libPath libraryPath _ _ hlib hlibrary
  exact ⟨_, _, hlib, hlibrary, fun h ↦ absurd (hpre.mp h) (by decide), hlt.mpr (by decide)⟩

end Mst2
