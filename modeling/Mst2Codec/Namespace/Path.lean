import Mst2Codec.Basic
import Mst2Codec.Library.Words

/-!
# Canonical paths

The path rules of `src/namespace.rs`: an absolute path is `/`, or `/` followed by canonical names
separated by single slashes, and at most `pathMaxBytes` bytes long.

`components` lists the names of a path.  A valid path is recovered from its components
(`components_injective`), and none of them contains a slash or a NUL (`zero_notMem_components`),
which is what the key encoding rests on.
-/

set_option autoImplicit false

namespace Mst2

open Bytes Except

/-- `PATH_MAX_BYTES` -/
def pathMaxBytes : ℕ := 4096

/-- `path.split('/')` -/
def splitSlash (path : String) : List String := (path.toList.splitOn '/').map String.ofList

/-- `path.strip_prefix('/')` -/
def stripSlash (path : String) : Option String :=
  match path.toList with
  | '/' :: rest => some (String.ofList rest)
  | _ => none

/-- `validate_relative_path` -/
def validateRelativePath (path : String) : CodecResult Unit := do
  reject (path.asBytes.length > pathMaxBytes) (.badLength "relative path")
  if path = "" then pure () else forM (splitSlash path) fun name ↦ validateName name.asBytes

/-- `validate_absolute_path` -/
def validateAbsolutePath (path : String) : CodecResult Unit := do
  reject (path.asBytes.length > pathMaxBytes) (.badLength "absolute path")
  let relative ← okOr (stripSlash path) (.badName "absolute path")
  validateRelativePath relative

/-- A canonical absolute path. -/
def ValidPath (path : String) : Prop := validateAbsolutePath path = .ok ()

instance (path : String) : Decidable (ValidPath path) :=
  inferInstanceAs (Decidable (validateAbsolutePath path = .ok ()))

/-- The names a path is made of. -/
def components (path : String) : List String :=
  match stripSlash path with
  | some relative => if relative = "" then [] else splitSlash relative
  | none => []

theorem stripSlash_eq_some {path relative : String} :
    stripSlash path = some relative ↔ path.toList = '/' :: relative.toList := by
  rw [stripSlash]
  split
  · rename_i rest h
    rw [Option.some.injEq, h, List.cons.injEq, ← String.ofList_inj, String.ofList_toList]
    simp
  · rename_i h
    simp only [reduceCtorEq, false_iff]
    exact h _

theorem forM_eq_ok {α : Type} {f : α → CodecResult Unit} {l : List α} :
    forM l f = .ok () ↔ ∀ a ∈ l, f a = .ok () := by
  induction l with
  | nil => simp [pure, Except.pure]
  | cons a l ih =>
    rw [List.forM_cons, bind_eq_ok, List.forall_mem_cons, ← ih]
    refine ⟨fun h ↦ ?_, fun h ↦ ⟨(), h.1, h.2⟩⟩
    obtain ⟨⟨⟩, ha, hl⟩ := h
    exact ⟨ha, hl⟩

/-- What makes a path valid, in terms of its components. -/
theorem validPath_iff {path : String} : ValidPath path ↔
    path.asBytes.length ≤ pathMaxBytes ∧ (∃ relative, stripSlash path = some relative) ∧
      ∀ name ∈ components path, validateName name.asBytes = .ok () := by
  rw [ValidPath, validateAbsolutePath, reject_bind_eq_ok, okOr_bind_eq_ok, not_lt]
  refine and_congr_right fun hlen ↦ ?_
  constructor
  · rintro ⟨relative, hrel, hval⟩
    refine ⟨⟨relative, hrel⟩, ?_⟩
    rw [validateRelativePath, reject_bind_eq_ok] at hval
    rw [components, hrel]
    simp only
    split
    · simp
    · rename_i hne
      rw [if_neg hne, forM_eq_ok] at hval
      exact hval.2
  · rintro ⟨⟨relative, hrel⟩, hval⟩
    refine ⟨relative, hrel, ?_⟩
    rw [components, hrel] at hval
    rw [validateRelativePath, reject_bind_eq_ok]
    refine ⟨?_, ?_⟩
    · have hp := stripSlash_eq_some.mp hrel
      rw [String.asBytes_eq_flatMap, hp, List.flatMap_cons, List.length_append,
        ← String.asBytes_eq_flatMap] at hlen
      omega
    · split
      · rfl
      · rename_i hne
        simp only [hne, if_false] at hval
        exact forM_eq_ok.mpr hval

theorem length_of_validateAbsolutePath {path : String} (h : validateAbsolutePath path = .ok ()) :
    path.asBytes.length ≤ pathMaxBytes := (validPath_iff.mp h).1

theorem length_of_validateRelativePath {path : String} (h : validateRelativePath path = .ok ()) :
    path.asBytes.length ≤ pathMaxBytes := by
  rw [validateRelativePath, reject_bind_eq_ok, Nat.not_lt] at h
  exact h.1

theorem intercalate_splitSlash (s : String) :
    List.intercalate ['/'] ((splitSlash s).map String.toList) = s.toList := by
  rw [splitSlash, List.map_map]
  have h : String.toList ∘ String.ofList = id := by
    funext cs
    simp
  rw [h, List.map_id, List.intercalate_splitOn]

/-- A path with a leading slash is spelled by its components. -/
theorem toList_eq_of_components {path relative : String} (h : stripSlash path = some relative) :
    path.toList = '/' :: List.intercalate ['/'] ((components path).map String.toList) := by
  rw [stripSlash_eq_some.mp h, components, h]
  simp only
  split
  · rename_i hrel; simp [hrel]
  · rw [intercalate_splitSlash]

/-- **A valid path is determined by its components.** -/
theorem components_injective {p q : String} (hp : ValidPath p) (hq : ValidPath q)
    (h : components p = components q) : p = q := by
  obtain ⟨r, hr⟩ := (validPath_iff.mp hp).2.1
  obtain ⟨s, hs⟩ := (validPath_iff.mp hq).2.1
  apply String.toList_inj.mp
  rw [toList_eq_of_components hr, toList_eq_of_components hs, h]

/-- Every component of a valid path is free of NUL and slash bytes. -/
theorem zero_notMem_components {p : String} (hp : ValidPath p) {name : String}
    (h : name ∈ components p) : (0 : UInt8) ∉ name.asBytes ∧ (0x2F : UInt8) ∉ name.asBytes := by
  obtain ⟨-, -, s, hs, hnul, hslash, -⟩ :=
    validateName_eq_ok.mp ((validPath_iff.mp hp).2.2 name h)
  obtain rfl : s = name := by rwa [String.ofUtf8_asBytes, Option.some.injEq, eq_comm] at hs
  exact ⟨fun hz ↦ hnul ((String.mem_asBytes_of_ascii (by decide)).mp hz),
    fun hz ↦ hslash ((String.mem_asBytes_of_ascii (by decide)).mp hz)⟩

/-- The bytes after the leading slash, with one more slash at the end, are the components' bytes,
each followed by a slash. -/
theorem asBytes_append_slash {path relative : String} (h : stripSlash path = some relative)
    (hne : relative ≠ "") :
    relative.asBytes ++ [0x2F] = terminate 0x2F ((components path).map String.asBytes) := by
  have hc : components path = splitSlash relative := by simp [components, h, hne]
  have hnil : (splitSlash relative).map String.toList ≠ [] := by
    intro hnil
    have := intercalate_splitSlash relative
    rw [hnil] at this
    exact hne (String.toList_inj.mp (by simpa [List.intercalate] using this.symm))
  have hslash : String.utf8EncodeChar '/' = [0x2F] := by decide
  rw [String.asBytes_eq_flatMap, ← intercalate_splitSlash, ← hc, ← hslash,
    ← List.flatMap_singleton (f := String.utf8EncodeChar), ← List.flatMap_append,
    intercalate_append (by rwa [hc]), flatMap_terminate hslash, List.map_map]
  simp only [Function.comp_def, ← String.asBytes_eq_flatMap]

/-- The bytes of a valid path contain no NUL. -/
theorem zero_notMem_relative {path relative : String} (hp : ValidPath path)
    (h : stripSlash path = some relative) : (0 : UInt8) ∉ relative.asBytes := by
  intro hz
  rcases eq_or_ne relative "" with rfl | hne
  · simp at hz
  · have hz' := List.mem_append_left [0x2F] hz
    rw [asBytes_append_slash h hne] at hz'
    rcases mem_terminate hz' with h0 | ⟨w, hw, h0⟩
    · simp at h0
    · obtain ⟨name, hname, rfl⟩ := List.mem_map.mp hw
      exact (zero_notMem_components hp hname).1 h0

end Mst2
