import Mst2Codec.Descriptor.Canonical
import Mst2Codec.Namespace.ManifestCanonical
import Mst2Codec.Namespace.Radix.FiniteMap

/-!
# What a view names

A binding mounts a part of a source.  Where that part is in its repository, the source does not
spell out: `new` only adds up the length.  That is enough (`new_eq_ok_iff_composed`): the path that
is composed of the scope and the part, `composedPath`, is a path like any other exactly if the
binding is accepted, and its names are those of the scope and then those of the part.

A view names the root of an index whose values are the identities of bindings, and a descriptor
names the view.  So a snapshot id determines all of them (`snapshot_pins_namespace`).
-/

set_option autoImplicit false

namespace Mst2

open Bytes Except

/-! ## Composed source paths -/

/-- The path of a part of a source. -/
def composedPath (scopePath sourceSubpath : String) : String :=
  if sourceSubpath = "" then scopePath
  else if scopePath = "/" then "/" ++ sourceSubpath
  else scopePath ++ "/" ++ sourceSubpath

/-- `new` computes its length. -/
theorem length_composedPath (source : SourceSnapshot) (sourceSubpath : String) :
    (composedPath source.scopePath sourceSubpath).asBytes.length =
      composedLen source sourceSubpath := by
  have hslash : "/".asBytes.length = 1 := by decide
  rw [composedPath, composedLen]
  split
  · rfl
  · split <;> simp [String.asBytes_append, hslash, Nat.add_assoc]

theorem stripSlash_slash_append (s : String) : stripSlash ("/" ++ s) = some s :=
  stripSlash_eq_some.mpr (by rw [String.toList_append]; rfl)

/-- Splitting at a slash. -/
theorem splitSlash_append (s t : String) :
    splitSlash (s ++ "/" ++ t) = splitSlash s ++ splitSlash t := by
  have htoList : (s ++ "/" ++ t).toList = s.toList ++ '/' :: t.toList := by
    rw [String.toList_append, String.toList_append, List.append_assoc]
    rfl
  rw [splitSlash, splitSlash, splitSlash, htoList, List.splitOn_append_cons_self, List.map_append]

/-- A composed path starts as the scope does. -/
theorem exists_stripSlash_composedPath {scopePath : String} (h : ValidPath scopePath)
    (sourceSubpath : String) :
    ∃ relative, stripSlash (composedPath scopePath sourceSubpath) = some relative := by
  obtain ⟨relative, hrel⟩ := (validPath_iff.mp h).2.1
  have hscope := stripSlash_eq_some.mp hrel
  rw [composedPath]
  split
  · exact ⟨relative, hrel⟩
  · split
    · exact ⟨sourceSubpath, stripSlash_slash_append _⟩
    · refine ⟨relative ++ "/" ++ sourceSubpath, stripSlash_eq_some.mpr ?_⟩
      simp [String.toList_append, hscope]

theorem length_le_composedLen (source : SourceSnapshot) (sourceSubpath : String) :
    sourceSubpath.asBytes.length ≤ composedLen source sourceSubpath := by
  rw [composedLen]
  split
  · rename_i h
    rw [h]
    exact Nat.zero_le _
  · split <;> omega

/-- **The names of a composed path.** -/
theorem components_composedPath {scopePath : String} (h : ValidPath scopePath)
    (sourceSubpath : String) : components (composedPath scopePath sourceSubpath) =
      components scopePath ++ components ("/" ++ sourceSubpath) := by
  obtain ⟨relative, hrel⟩ := (validPath_iff.mp h).2.1
  obtain rfl : scopePath = "/" ++ relative :=
    String.toList_inj.mp (by rw [stripSlash_eq_some.mp hrel, String.toList_append]; rfl)
  by_cases hsub : sourceSubpath = ""
  · subst hsub
    rw [composedPath, if_pos rfl]
    exact (List.append_nil _).symm
  by_cases hroot : relative = ""
  · subst hroot
    rw [composedPath, if_neg hsub, if_pos (by decide)]
    rfl
  · have hne : "/" ++ relative ≠ "/" := fun heq ↦ hroot (by simpa using heq)
    have hne' : relative ++ "/" ++ sourceSubpath ≠ "" := by simp
    rw [composedPath, if_neg hsub, if_neg hne, String.append_assoc, String.append_assoc]
    simp only [components, stripSlash_slash_append]
    rw [← String.append_assoc, if_neg hne', if_neg hroot, if_neg hsub, splitSlash_append]

/-- What makes a relative path valid. -/
theorem validateRelativePath_eq_ok {path : String} : validateRelativePath path = .ok () ↔
    path.asBytes.length ≤ pathMaxBytes ∧
      ∀ name ∈ components ("/" ++ path), validateName name.asBytes = .ok () := by
  rw [validateRelativePath, reject_bind_eq_ok, not_lt, components, stripSlash_slash_append]
  refine and_congr_right fun _ ↦ ?_
  dsimp only
  split
  · simp [pure, Except.pure]
  · exact forM_eq_ok

namespace NamespaceBinding

theorem exists_new_eq_ok {mountPath sourceSubpath : String} {source : SourceSnapshot}
    {policy : BindingPolicy} : (∃ x, new mountPath source sourceSubpath policy = .ok x) ↔
      ValidPath mountPath ∧ validateRelativePath sourceSubpath = .ok () ∧
        composedLen source sourceSubpath ≤ pathMaxBytes := by
  constructor
  · rintro ⟨x, hx⟩
    obtain ⟨rfl, rfl, rfl, -⟩ := new_eq_ok.mp hx
    exact ⟨x.validMountPath, x.validSourceSubpath, x.composedLen_le⟩
  · rintro ⟨h₁, h₂, h₃⟩
    exact ⟨⟨mountPath, source, sourceSubpath, policy, h₁, h₂, h₃⟩,
      new_eq_ok.mpr ⟨rfl, rfl, rfl, rfl⟩⟩

/-- **A binding is accepted if its paths are paths**: the mount and the composed source path.  The
names of the latter are those of the scope, and then those of the mounted part. -/
theorem new_eq_ok_iff_composed (mountPath : String) (source : SourceSnapshot)
    (sourceSubpath : String) (policy : BindingPolicy) :
    ((∃ x, new mountPath source sourceSubpath policy = .ok x) ↔
      validateAbsolutePath mountPath = .ok () ∧
        validateAbsolutePath (composedPath source.scopePath sourceSubpath) = .ok ()) ∧
    components (composedPath source.scopePath sourceSubpath) =
      components source.scopePath ++ components ("/" ++ sourceSubpath) := by
  have hcomps := components_composedPath source.validScopePath sourceSubpath
  refine ⟨?_, hcomps⟩
  rw [exists_new_eq_ok]
  refine and_congr_right fun _ ↦ ?_
  change _ ↔ ValidPath _
  have hscope := (validPath_iff.mp source.validScopePath).2.2
  have hle := length_le_composedLen source sourceSubpath
  rw [validateRelativePath_eq_ok, validPath_iff, length_composedPath, hcomps,
    List.forall_mem_append]
  constructor
  · rintro ⟨⟨-, hnames⟩, hlen⟩
    exact ⟨hlen, exists_stripSlash_composedPath source.validScopePath _, hscope, hnames⟩
  · rintro ⟨hlen, -, -, hnames⟩
    exact ⟨⟨hle.trans hlen, hnames⟩, hlen⟩

end NamespaceBinding

/-! ## Publications -/

/-- A namespace with all that its snapshot id stands for. -/
structure Publication where
  /-- The updates that have built the index of the bindings. -/
  ops : List Op
  /-- The bindings by their paths. -/
  bindings : String → Option NamespaceBinding
  /-- The view. -/
  view : NamespaceView
  /-- The descriptor. -/
  descriptor : ServingDescriptor

namespace Publication

open RadixIndex

variable [Sha256] {σ σ' : Type} {S : NodeStore σ} {S' : NodeStore σ'}
  {contents : σ → Digest → Option Bytes} {contents' : σ' → Digest → Option Bytes}

/-- The identities fit together: the index has those of the bindings, the view that of the index,
and the descriptor that of the view. -/
structure Sound (P : Publication) (S : NodeStore σ) (s₀ : σ) : Prop where
  /-- The updates are at valid paths. -/
  valid : ∀ op ∈ P.ops, ValidPath op.1
  /-- The values are the identities of the bindings. -/
  binds : ∀ path, mapOf P.ops path = (P.bindings path).map NamespaceBinding.id
  /-- The view names the root. -/
  root : ((updateAll emptyRoot P.ops).run S.env s₀).1 = .ok P.view.bindingsRoot
  /-- The descriptor names the view. -/
  view : P.descriptor.namespaceViewId = P.view.id

/-- The strings that are hashed for a publication. -/
def strings (P : Publication) (S : NodeStore σ) (held : Digest → Option Bytes) (s₀ : σ) :
    Set Bytes :=
  hashedBytes held ((updateAll emptyRoot P.ops).trace S.env s₀) ∪
    ({b | ∃ path x, P.bindings path = some x ∧ b = x.encode} ∪
      {P.view.encode, ServingDescriptor.snapshotInput P.descriptor.bytes})

/-- **A snapshot id determines the namespace**: its descriptor, its view with all sources, and where
which part of which source is mounted. -/
theorem snapshot_pins_namespace (hS : S.Honest contents) (hS' : S'.Honest contents') {s₀ : σ}
    {s₀' : σ'} (haddr : Addressed (contents s₀)) (haddr' : Addressed (contents' s₀'))
    {P P' : Publication} (hP : P.Sound S s₀) (hP' : P'.Sound S' s₀')
    (hfree : CollisionFree (P.strings S (contents s₀) s₀ ∪ P'.strings S' (contents' s₀') s₀'))
    {id : Digest} (hid : P.descriptor.snapshotId = .ok id)
    (hid' : P'.descriptor.snapshotId = .ok id) :
    P.descriptor = P'.descriptor ∧ P.view = P'.view ∧ P.bindings = P'.bindings := by
  have hinputs : {ServingDescriptor.snapshotInput P.descriptor.bytes,
      ServingDescriptor.snapshotInput P'.descriptor.bytes} ⊆
      P.strings S (contents s₀) s₀ ∪ P'.strings S' (contents' s₀') s₀' := by
    rintro b (rfl | rfl)
    · exact .inl (.inr (.inr (.inr rfl)))
    · exact .inr (.inr (.inr (.inr rfl)))
  have hdescriptor := ServingDescriptor.eq_of_snapshotId_eq (hfree.mono hinputs) hid hid'
  have hview : P.view = P'.view := NamespaceView.isManifest.injOn_sha256 hfree
    (.inl (.inr (.inr (.inl rfl)))) (.inr (.inr (.inr (.inl rfl))))
    (hP.view.symm.trans ((congrArg _ hdescriptor).trans hP'.view))
  refine ⟨hdescriptor, hview, ?_⟩
  -- the root determines the map, which has the identities of the bindings
  have hmap : mapOf P.ops = mapOf P'.ops := by
    have hempty : RadixNode.empty.encode ∈
        P.strings S (contents s₀) s₀ ∪ P'.strings S' (contents' s₀') s₀' :=
      .inl (.inl (empty_mem_hashedBytes _ _))
    obtain ⟨root, s, t, hrun, hs, hroot, hM⟩ := updateAll_run hS hfree hempty hP.valid
      ((within_hashedBytes haddr _).mono fun b hb ↦ .inl (.inl hb)) (rooted_empty _) maps_absent
      ((insertedIn_subset_hashedBytes _ _).trans fun b hb ↦ .inl (.inl hb))
    obtain ⟨root', s', t', hrun', hs', hroot', hM'⟩ := updateAll_run hS' hfree hempty hP'.valid
      ((within_hashedBytes haddr' _).mono fun b hb ↦ .inr (.inl hb)) (rooted_empty _) maps_absent
      ((insertedIn_subset_hashedBytes _ _).trans fun b hb ↦ .inr (.inl hb))
    have hsame : root = root' := by
      have h := hP.root
      have h' := hP'.root
      rw [hrun, hview] at h
      rw [hrun'] at h'
      exact (Except.ok.inj h).trans (Except.ok.inj h').symm
    rw [hroot.root_eq, hroot'.root_eq] at hsame
    obtain rfl := eq_of_rootId_eq hfree hempty hroot.canonical hroot'.canonical hroot.keyed
      hroot'.keyed (hroot.stored.mono hs.subset) (hroot'.stored.mono hs'.subset) hsame
    exact hM.map_eq hM'
  funext path
  have hpath := (hP.binds path).symm.trans ((congrFun hmap path).trans (hP'.binds path))
  cases hx : P.bindings path with
  | none =>
    rw [hx, Option.map_none, eq_comm, Option.map_eq_none_iff] at hpath
    exact hpath.symm
  | some x =>
    rw [hx, Option.map_some, eq_comm, Option.map_eq_some_iff] at hpath
    obtain ⟨y, hy, hpath⟩ := hpath
    rw [hy, NamespaceBinding.isManifest.injOn_sha256 hfree (.inr (.inr (.inl ⟨path, y, hy, rfl⟩)))
      (.inl (.inr (.inl ⟨path, x, hx, rfl⟩))) hpath]

/-! ### Tools at one path -/

section tools

omit [Sha256]

/-- The source of the tools. -/
def toolsSource : SourceSnapshot where
  sourceId := "01234567-89ab-cdef-0123-456789abcdef"
  scopePath := "/"
  commitOid := "0123456789abcdef0123456789abcdef01234567"
  rootTreeOid := "76543210fedcba9876543210fedcba9876543210"
  validSourceId := by decide +kernel
  validScopePath := by decide
  validCommitOid := by decide
  validRootTreeOid := by decide

/-- A part of it is mounted. -/
def toolsBinding : NamespaceBinding where
  mountPath := "/tools"
  source := toolsSource
  sourceSubpath := "bin"
  policy := .immutableRelease
  validMountPath := by decide
  validSourceSubpath := by decide
  composedLen_le := by decide

/-- The identity of the binding. -/
def toolsBindingId : Digest :=
  .ofNat 0x98cb7da0d0ef28d08f140cffc926ad6aa695d697c01bf6caf0889e1c66afa9db

/-- The view with the root of the index. -/
def toolsView : NamespaceView where
  instanceId := "01234567-89ab-cdef-0123-456789abcdef"
  native := toolsSource
  bindingsRoot := .ofNat 0x62c09cc44871939ff05c5aa334242fd411acc3c7d85713fab9246a0b4b433c2d
  overridesRoot := none
  validInstanceId := by decide
  native_scopePath := rfl

/-- The descriptor with the identity of the view. -/
def toolsDescriptor : ServingDescriptor where
  instanceUuid := ServingDescriptor.sample.instanceUuid
  namespaceViewId := .ofNat 0x03667c203831c0e788dbc9e090861c1f58bbe0bc57eeab2f86dcbd3eed27387b
  scope := "/"
  metadataRoot := .fill 1

/-- The strings with their SHA-256 digests: the empty node, the binding, the node of another binding
at the same path, the node of this one, the view and the descriptor. -/
def toolsTable : List (Bytes × Digest) :=
  [(RadixNode.empty.encode,
      .ofNat 0x18946486089198dfa8eeb70fa90e04b137c579dc08ae1e6f8bceafc0d35ef677),
    (toolsBinding.encode, toolsBindingId),
    (RadixNode.encode ⟨"tools\x00".asBytes, some (.fill 2), []⟩,
      .ofNat 0x7031edfa5334a6d4449f7f87f05fff9217649536a50d49fdea5af049d31f7c00),
    (RadixNode.encode ⟨"tools\x00".asBytes, some toolsBindingId, []⟩, toolsView.bindingsRoot),
    (toolsView.encode, toolsDescriptor.namespaceViewId),
    (ServingDescriptor.snapshotInput toolsDescriptor.bytes,
      .ofNat 0x2d73cdfe93d818aeae17703bd2fb6eb0cf3547bf1f0ea95261e87b8bfcdaa9a4)]

/-- SHA-256 on the strings of the table. -/
@[reducible] def toolsSha256 : Sha256 := .ofTable toolsTable

/-- The strings of the table. -/
def toolsStrings : List Bytes := toolsTable.map Prod.fst

theorem collisionFree_tools : @CollisionFree toolsSha256 {b | b ∈ toolsStrings} := by
  have h : ∀ a ∈ toolsStrings, ∀ b ∈ toolsStrings,
      toolsSha256.sha256 a = toolsSha256.sha256 b → a = b := by decide +kernel
  exact fun a ha b hb hab ↦ h a ha b hb hab

/-- The tools are published after other updates. -/
def tools (before : List Op) : Publication where
  ops := before ++ [("/tools", some toolsBindingId)]
  bindings := Function.update (fun _ ↦ none) "/tools" (some toolsBinding)
  view := toolsView
  descriptor := toolsDescriptor

/-- Another binding was there before. -/
def otherTools : List Op := [("/tools", some (.fill 2))]

theorem sound_tools {before : List Op} (h : before = [] ∨ before = otherTools) :
    letI := toolsSha256
    (tools before).Sound (MemoryStore.store none) .default := by
  let _ := toolsSha256
  have hid : toolsBinding.id = toolsBindingId := by decide +kernel
  have hview : toolsDescriptor.namespaceViewId = toolsView.id := by decide +kernel
  refine ⟨?_, fun path ↦ ?_, ?_, hview⟩
  · rcases h with rfl | rfl <;> decide
  · have hmap : mapOf (tools before).ops =
        Function.update (fun _ ↦ none) "/tools" (some toolsBindingId) := by
      rcases h with rfl | rfl
      · rfl
      · exact Function.update_idem _ _ _
    rw [hmap, ← hid]
    by_cases hpath : path = "/tools"
    · subst hpath
      simp [tools]
    · simp [tools, Function.update_of_ne hpath]
  · rcases h with rfl | rfl <;> decide +kernel

theorem strings_tools {before : List Op} (h : before = [] ∨ before = otherTools) :
    letI := toolsSha256
    (tools before).strings (MemoryStore.store none) MemoryStore.default.contents .default ⊆
      {b | b ∈ toolsStrings} := by
  let _ := toolsSha256
  have hinserts : ∀ b ∈ inserts ((updateAll emptyRoot (tools before).ops).trace
      (MemoryStore.store none).env .default), b ∈ toolsStrings := by
    rcases h with rfl | rfl <;> decide +kernel
  rintro b ((rfl | ⟨id, hid⟩ | ⟨id, a, hmem⟩) | ⟨path, x, hx, rfl⟩ | rfl | rfl)
  · decide
  · cases hid
  · exact hinserts b (List.mem_filterMap.mpr ⟨_, hmem, rfl⟩)
  · by_cases hpath : path = "/tools"
    · subst hpath
      obtain rfl : toolsBinding = x := Option.some.inj hx
      decide +kernel
    · have hnone : (tools before).bindings path = none := by simp [tools, hpath]
      cases hnone.symm.trans hx
  · exact (by decide +kernel : toolsView.encode ∈ toolsStrings)
  · exact (by decide +kernel :
      ServingDescriptor.snapshotInput toolsDescriptor.bytes ∈ toolsStrings)

/-- The history of an index does not show. -/
theorem snapshot_pins_namespace_tools :
    letI := toolsSha256
    ∃ id, (tools []).descriptor.snapshotId = .ok id ∧
      (tools otherTools).descriptor.snapshotId = .ok id ∧
      (tools []).bindings = (tools otherTools).bindings := by
  let _ := toolsSha256
  obtain ⟨id, hid⟩ : ∃ id, toolsDescriptor.snapshotId = .ok id := ⟨_, rfl⟩
  exact ⟨id, hid, hid, (snapshot_pins_namespace MemoryStore.honest MemoryStore.honest
    (fun _ _ h ↦ by cases h) (fun _ _ h ↦ by cases h) (sound_tools (.inl rfl))
    (sound_tools (.inr rfl)) (collisionFree_tools.mono (Set.union_subset
      (strings_tools (.inl rfl)) (strings_tools (.inr rfl)))) hid hid).2.2⟩

end tools

end Publication

end Mst2
