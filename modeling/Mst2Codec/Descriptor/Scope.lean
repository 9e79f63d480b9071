import Mst2Codec.Descriptor.Canonical
import Mst2Codec.Namespace.Radix.KeyOrder

/-!
# Scopes are canonical paths

`src/descriptor.rs` and `src/namespace.rs` check paths in two ways.  `validateScope` looks at the
whole string first (a slash in front, none behind, no NUL, the limit) and then at the components;
`validateAbsolutePath` leaves all but the limit and the slash in front to the checks of the names.
`validateScope_eq_ok` says what the first one accepts: the canonical paths of at most 256
components, which are what the second one accepts, up to the number of components.
-/

set_option autoImplicit false

namespace Mst2

open Bytes Except

/-! ## Components -/

/-- The loop checks each component, and how many there are. -/
theorem validateScopeComponents_eq_ok {index : ℕ} {comps : List String} :
    validateScopeComponents index comps = .ok () ↔
      (∀ comp ∈ comps, comp ≠ "" ∧ ¬ (comp = "." ∨ comp = "..") ∧ comp.asBytes.length ≤ 255) ∧
        (comps = [] ∨ index + comps.length ≤ 256) := by
  induction comps generalizing index with
  | nil => simp [validateScopeComponents, pure, Except.pure]
  | cons comp comps ih =>
    rw [validateScopeComponents, reject_bind_eq_ok, reject_bind_eq_ok, reject_bind_eq_ok,
      reject_bind_eq_ok, ih, List.forall_mem_cons, List.length_cons, not_lt]
    constructor
    · rintro ⟨hindex, hne, hdot, hlen, hcomps, hcount⟩
      refine ⟨⟨⟨hne, hdot, hlen⟩, hcomps⟩, .inr ?_⟩
      rcases hcount with rfl | hcount
      · rw [List.length_nil]
        omega
      · omega
    · rintro ⟨⟨⟨hne, hdot, hlen⟩, hcomps⟩, hcount⟩
      have hcount' : index + (comps.length + 1) ≤ 256 := by simpa using hcount
      exact ⟨by omega, hne, hdot, hlen, hcomps, .inr (by omega)⟩

/-! ## Canonical paths as strings -/

namespace CanonicalPath

variable (p : CanonicalPath)

theorem toList_path :
    p.path.toList = '/' :: List.intercalate ['/'] (p.components.map String.toList) :=
  String.toList_ofList

theorem stripSlash_path : stripSlash p.path =
    some (String.ofList (List.intercalate ['/'] (p.components.map String.toList))) :=
  stripSlash_absolutePath _

theorem nul_notMem_path : '\x00' ∉ p.path.toList := by
  intro h
  rw [p.toList_path] at h
  rcases List.mem_cons.mp h with h | h
  · exact absurd h (by decide)
  · have hzero := zero_notMem_relative p.validPath p.stripSlash_path
    rw [← String.toList_ofList (l := List.intercalate _ _)] at h
    exact hzero ((String.mem_asBytes_of_ascii (c := '\x00') (by decide)).mpr h)

/-- A path other than `/` ends with its last name, which has no slash. -/
theorem getLast?_path_ne (hlen : p.path.asBytes.length > 1) :
    p.path.toList.getLast? ≠ some '/' := by
  intro hlast
  rcases List.eq_nil_or_concat p.components with hnil | ⟨names, name, hnames⟩
  · rw [path, hnil] at hlen
    exact absurd hlen (by decide)
  rw [List.concat_eq_append] at hnames
  have hname := p.valid name (by simp [hnames])
  have hne : name.toList ≠ [] := fun h ↦ hname.ne_empty (String.toList_eq_nil_iff.mp h)
  rw [p.toList_path, hnames, List.map_append, List.map_singleton] at hlast
  have hint := getLast?_intercalate '/' (names.map String.toList) hne
  rw [List.getLast?_cons, hint, List.getLast?_eq_some_getLast hne] at hlast
  exact hname.slash_notMem (Option.some.inj hlast ▸ List.getLast_mem hne)

/-- The components are split off the text behind the slash. -/
theorem splitSlash_path (h : p.path ≠ "/") :
    splitSlash (String.ofList (p.path.toList.drop 1)) = p.components := by
  have hne : String.ofList (p.path.toList.drop 1) ≠ "" := by
    intro hnil
    refine h (String.toList_inj.mp ?_)
    rw [p.toList_path, List.drop_one, List.tail_cons] at hnil
    rw [p.toList_path, ← String.toList_ofList (l := List.intercalate _ _), hnil]
    rfl
  rw [p.toList_path, List.drop_one, List.tail_cons] at hne ⊢
  have hcomps := p.components_path
  rw [Mst2.components, p.stripSlash_path] at hcomps
  exact (if_neg hne).symm.trans hcomps

end CanonicalPath

/-! ## The two checks -/

theorem exists_canonicalPath {scope : String} (h : validateScope scope = .ok ()) :
    ∃ p : CanonicalPath, p.path = scope ∧ p.components.length ≤ 256 := by
  rw [validateScope, reject_bind_eq_ok, not_or, not_not, reject_bind_eq_ok, reject_bind_eq_ok,
    not_lt, reject_bind_eq_ok] at h
  obtain ⟨⟨-, hslash⟩, hnul, hlen, -, h⟩ := h
  obtain ⟨rest, hrest⟩ := List.head?_eq_some_iff.mp hslash
  have hstrip : stripSlash scope = some (String.ofList rest) :=
    stripSlash_eq_some.mpr (by rw [hrest, String.toList_ofList])
  have hpath := toList_eq_of_components hstrip
  by_cases hroot : scope = "/"
  · subst hroot
    exact ⟨⟨[], List.forall_mem_nil _, by decide⟩, rfl, Nat.zero_le _⟩
  have hne : String.ofList rest ≠ "" := by
    intro hnil
    refine hroot (String.toList_inj.mp ?_)
    rw [hrest, ← String.toList_ofList (l := rest), hnil]
    rfl
  have hcomps : components scope = splitSlash (String.ofList rest) := by
    rw [components, hstrip]
    exact if_neg hne
  rw [if_neg hroot, hrest, List.drop_one, List.tail_cons, ← hcomps,
    validateScopeComponents_eq_ok] at h
  obtain ⟨hvalid, hcount⟩ := h
  have hnames : ∀ name ∈ components scope, ValidName name := by
    intro name hname
    obtain ⟨hempty, hdot, hle⟩ := hvalid name hname
    rw [not_or] at hdot
    rw [hcomps, splitSlash, String.toList_ofList] at hname
    obtain ⟨w, hw, rfl⟩ := List.mem_map.mp hname
    refine ⟨hempty, hle, fun hmem ↦ ?_, fun hmem ↦ ?_, hdot.1, hdot.2⟩
    · rw [String.toList_ofList] at hmem
      exact hnul (hrest ▸ List.mem_cons_of_mem _ (mem_of_mem_splitOn hw hmem).2)
    · rw [String.toList_ofList] at hmem
      exact (mem_of_mem_splitOn hw hmem).1 rfl
  have habs : absolutePath (components scope) = scope := by
    rw [absolutePath, ← hpath, String.ofList_toList]
  refine ⟨⟨components scope, hnames, habs.symm ▸ hlen⟩, habs, ?_⟩
  rcases hcount with hnil | hcount
  · exact (congrArg List.length hnil).le.trans (Nat.zero_le _)
  · simpa using hcount

theorem validateScope_path {p : CanonicalPath} (hcount : p.components.length ≤ 256) :
    validateScope p.path = .ok () := by
  have hlist := p.toList_path
  rw [validateScope, reject_bind_eq_ok, not_or, not_not, reject_bind_eq_ok, reject_bind_eq_ok,
    not_lt, reject_bind_eq_ok]
  refine ⟨⟨fun hempty ↦ ?_, by rw [hlist, List.head?_cons]⟩, p.nul_notMem_path, p.length_le,
    fun h ↦ p.getLast?_path_ne h.1 h.2, ?_⟩
  · rw [hempty] at hlist
    exact absurd hlist.symm (List.cons_ne_nil _ _)
  · split
    · rfl
    · rename_i hroot
      rw [p.splitSlash_path hroot, validateScopeComponents_eq_ok]
      refine ⟨fun name hname ↦ ?_, .inr (by omega)⟩
      have hvalid := p.valid name hname
      exact ⟨hvalid.ne_empty, not_or.mpr ⟨hvalid.ne_dot, hvalid.ne_dotDot⟩, hvalid.length_le⟩

/-- **What `validate_scope` accepts.** -/
theorem validateScope_eq_ok {scope : String} : validateScope scope = .ok () ↔
    ∃ p : CanonicalPath, p.path = scope ∧ p.components.length ≤ 256 := by
  refine ⟨exists_canonicalPath, ?_⟩
  rintro ⟨p, rfl, hcount⟩
  exact validateScope_path hcount

/-- **The two checks of paths agree**: a scope is a valid path with at most 256 components, and the
scope of a descriptor is one. -/
theorem validateScope_iff_validateAbsolutePath :
    (∀ s : String, validateScope s = .ok () ↔
      validateAbsolutePath s = .ok () ∧ (s = "/" ∨ (components s).length ≤ 256)) ∧
    ∀ (d : ServingDescriptor) (b : Bytes), d.encode = .ok b ∨ ServingDescriptor.decode b = .ok d →
      validateAbsolutePath d.scope = .ok () := by
  have hiff : ∀ s : String, validateScope s = .ok () ↔
      validateAbsolutePath s = .ok () ∧ (s = "/" ∨ (components s).length ≤ 256) := by
    intro s
    rw [validateScope_eq_ok]
    constructor
    · rintro ⟨p, rfl, hcount⟩
      exact ⟨p.validPath, .inr (p.components_path ▸ hcount)⟩
    · rintro ⟨hvalid, hcount⟩
      obtain ⟨p, rfl⟩ := validPath_iff_canonical.mp hvalid
      refine ⟨p, rfl, ?_⟩
      rw [← p.components_path]
      rcases hcount with hroot | hcount
      · rw [hroot]
        decide
      · exact hcount
  refine ⟨hiff, fun d b h ↦ ((hiff _).mp ?_).1⟩
  rcases h with h | h
  · exact (ServingDescriptor.encode_eq_ok.mp h).2.1
  · exact (ServingDescriptor.decode_eq_ok.mp h).2.1

/-- A scope that is not ASCII, from the bytes of its descriptor. -/
theorem validateScope_iff_validateAbsolutePath_sample :
    ServingDescriptor.decode ServingDescriptor.sample.bytes = .ok .sample ∧
      validateAbsolutePath "/é/b" = .ok () := by
  have h : ServingDescriptor.decode ServingDescriptor.sample.bytes = .ok .sample := by
    decide +kernel
  exact ⟨h, validateScope_iff_validateAbsolutePath.2 .sample _ (.inr h)⟩

end Mst2
