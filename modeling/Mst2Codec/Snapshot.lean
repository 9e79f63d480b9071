import Mst2Codec.Descriptor.Canonical
import Mst2Codec.MetaPage.Identity
import Mst2Codec.MetaPage.Lookup

/-!
# What a snapshot pins

The entry of a file has the SHA-256 digest of its content, the entry of a directory the identity of
its root page, and a descriptor has the identity of the root page of all.  `FileTree` is the tree
that these digests stand for, and `FileTree.entry` what a directory has of it.

The snapshot id determines the tree (`snapshot_pins_tree`): below the root page there is one list of
entries, and each entry stands for one tree.  And it is enough to look something up.  A client that
knows the root, and checks the pages it is sent for each name of a path, finds what the tree has at
the path, or that there is nothing (`resolves_iff`).
-/

set_option autoImplicit false

namespace Mst2

open Bytes Except Page

/-- A tree of files.  The names of a directory are those of its children, in order. -/
inductive FileTree where
  /-- A file of one of the three kinds. -/
  | file (kind : { kind : EntryKind // kind ≠ .directory }) (content : Bytes)
  /-- A directory. -/
  | dir (size : ℕ) (name : Fin size → Bytes) (child : Fin size → FileTree)

namespace FileTree

variable [Sha256]

/-- The identity of a directory with these entries, if they make one. -/
def rootPageId (S : List Entry) : Option Digest := ((build S).map pageId).toOption

/-- The entry of a tree under a name. -/
def entry : FileTree → Bytes → Entry
  | file kind content, name => .file kind name (UInt64.ofNat content.length) (sha256 content)
  | dir _ names child, name =>
    .dir name ((rootPageId (List.ofFn fun i ↦ (child i).entry (names i))).getD .zero)

/-- The entries of a directory. -/
def entries : FileTree → List Entry
  | file _ _ => []
  | dir _ names child => List.ofFn fun i ↦ (child i).entry (names i)

/-- Every directory can be built. -/
def WellFormed : FileTree → Prop
  | file _ _ => True
  | dir size names child => size < 2 ^ 63 ∧
      Buildable (List.ofFn fun i ↦ (child i).entry (names i)) ∧ ∀ i, (child i).WellFormed

/-- The strings that the digests of a tree are digests of: pages and contents. -/
def strings : FileTree → Set Bytes
  | file _ content => {content}
  | dir _ names child =>
    {x | ∃ b, TreePage (List.ofFn fun i ↦ (child i).entry (names i)) b ∧ x = pageInput b} ∪
      ⋃ i, (child i).strings

variable {T T' : FileTree} {S : List Entry} {size : ℕ} {names : Fin size → Bytes}
  {child : Fin size → FileTree} {name name' page : Bytes} {id : Digest} {K : Set Bytes}

theorem name_entry (T : FileTree) (name : Bytes) : (T.entry name).name = name := by
  cases T <;> rfl

theorem isDir_entry (T : FileTree) (name : Bytes) :
    (T.entry name).isDir = true ↔ ∃ size names child, T = dir size names child := by
  cases T with
  | file kind content =>
    refine ⟨fun h ↦ absurd (of_decide_eq_true h) kind.2, ?_⟩
    rintro ⟨size, names, child, h⟩
    cases h
  | dir size names child => exact ⟨fun _ ↦ ⟨size, names, child, rfl⟩, fun _ ↦ rfl⟩

theorem made_entry (T : FileTree) (name : Bytes) : (T.entry name).Made := by
  cases T with
  | file kind content => exact .file kind name _ _ kind.2
  | dir size names child => exact .dir name _

/-- A directory of a well-formed tree has a tree of pages. -/
theorem WellFormed.isDirectory (h : T.WellFormed) : IsDirectory T.entries := by
  cases T with
  | file kind content =>
    exact ⟨⟨fun e he ↦ (by cases he), .nil⟩, by simp [entries], fun e he ↦ by cases he⟩
  | dir size names child =>
    refine ⟨h.2.1, by rw [entries, List.length_ofFn]; exact h.1, fun e he ↦ ?_⟩
    obtain ⟨i, rfl⟩ := List.mem_ofFn.mp he
    exact (made_entry _ _).shaped

/-- The entry of a directory has the identity of its root page. -/
theorem WellFormed.exists_build (h : (dir size names child).WellFormed) (name : Bytes) :
    ∃ page, build (dir size names child).entries = .ok page ∧
      (dir size names child).entry name = .dir name (pageId page) := by
  have hdir := h.isDirectory
  obtain ⟨page, hpage⟩ := (build_eq_ok_iff hdir.length_lt).mpr hdir.buildable
  refine ⟨page, hpage, ?_⟩
  rw [entries] at hpage
  rw [entry, rootPageId, hpage]
  rfl

/-! ## One tree for an identity -/

/-- **An entry stands for one tree.** -/
theorem eq_of_entry_eq (hT : T.WellFormed) (hT' : T'.WellFormed)
    (hfree : CollisionFree (T.strings ∪ T'.strings)) (h : T.entry name = T'.entry name') :
    name = name' ∧ T = T' := by
  induction T generalizing T' name name' with
  | file kind content =>
    cases T' with
    | file kind' content' =>
      simp only [entry, Entry.file, Entry.mk.injEq] at h
      obtain ⟨hkind, hname, -, hid, -⟩ := h
      obtain rfl := hfree (.inl rfl) (.inr rfl) hid
      exact ⟨hname, by rw [Subtype.ext hkind]⟩
    | dir size' names' child' => exact absurd (congrArg Entry.kind h) kind.2
  | dir size names child ih =>
    cases T' with
    | file kind' content' => exact absurd (congrArg Entry.kind h).symm kind'.2
    | dir size' names' child' =>
      obtain ⟨page, hpage, hentry⟩ := hT.exists_build name
      obtain ⟨page', hpage', hentry'⟩ := hT'.exists_build name'
      rw [hentry, hentry'] at h
      simp only [Entry.dir, Entry.mk.injEq] at h
      obtain ⟨-, hname, -, -, hid⟩ := h
      -- the root pages have one list of entries
      have hentries := eq_of_pageId_eq hT.isDirectory hT'.isDirectory (hfree.mono (by
        rintro x ⟨b, hb | hb, rfl⟩
        · exact .inl (.inl ⟨b, hb, rfl⟩)
        · exact .inr (.inl ⟨b, hb, rfl⟩))) hpage hpage' hid
      rw [entries, entries, List.ofFn_inj'] at hentries
      obtain ⟨rfl, hentries⟩ := Sigma.mk.inj_iff.mp hentries
      have hchild : ∀ i, names i = names' i ∧ child i = child' i := by
        intro i
        refine ih i (hT.2.2 i) (hT'.2.2 i) (hfree.mono (Set.union_subset_union ?_ ?_))
          (congrFun (eq_of_heq hentries) i)
        · exact (Set.subset_iUnion (fun i ↦ (child i).strings) i).trans Set.subset_union_right
        · exact (Set.subset_iUnion (fun i ↦ (child' i).strings) i).trans Set.subset_union_right
      rw [funext fun i ↦ (hchild i).1, funext fun i ↦ (hchild i).2]
      exact ⟨hname, rfl⟩

/-- **A snapshot id determines the tree** below the root page that its descriptor names. -/
theorem snapshot_pins_tree {d d' : ServingDescriptor} {size' : ℕ} {names' : Fin size' → Bytes}
    {child' : Fin size' → FileTree} (hT : (dir size names child).WellFormed)
    (hT' : (dir size' names' child').WellFormed)
    (hroot : rootPageId (dir size names child).entries = some d.metadataRoot)
    (hroot' : rootPageId (dir size' names' child').entries = some d'.metadataRoot)
    (hfree : CollisionFree ({ServingDescriptor.snapshotInput d.bytes,
      ServingDescriptor.snapshotInput d'.bytes} ∪
        ((dir size names child).strings ∪ (dir size' names' child').strings)))
    (hid : d.snapshotId = .ok id) (hid' : d'.snapshotId = .ok id) :
    d = d' ∧ dir size names child = dir size' names' child' := by
  obtain rfl := ServingDescriptor.eq_of_snapshotId_eq (hfree.mono Set.subset_union_left) hid hid'
  have hentry : (dir size names child).entry [] = (dir size' names' child').entry [] := by
    rw [entries] at hroot hroot'
    rw [entry, entry, hroot, hroot']
  exact ⟨rfl, (eq_of_entry_eq hT hT' (hfree.mono Set.subset_union_right) hentry).2⟩

/-! ## Looking something up -/

/-- What the tree has at a path. -/
def find : FileTree → List Bytes → Option FileTree
  | T, [] => some T
  | file _ _, _ :: _ => none
  | dir size names child, name :: path =>
    match (List.finRange size).find? fun i ↦ names i = name with
    | some i => (child i).find path
    | none => none

/-- Pages that pass the checks of the client on the route that a name takes from a root page with
the identity `id`. -/
structure Opened (K : Set Bytes) (id : Digest) (name : Bytes) (ps : List Bytes) (r : List UInt8) :
    Prop where
  /-- There is a page before and after each step. -/
  length_eq : ps.length = r.length + 1
  /-- The first is the root page. -/
  root : pageId ps[0] = id
  /-- Each has been verified against the one before it. -/
  verified : ∀ i (hi : i < r.length), verifyReceivedChild ps[i] r[i] ps[i + 1] = .ok ()
  /-- The name takes the route. -/
  follows : Follows name ps r
  /-- The pages are among the strings that do not collide. -/
  known : ∀ b ∈ ps, pageInput b ∈ K

/-- What a client finds at a path, name by name, from verified pages. -/
inductive Resolves (K : Set Bytes) : Digest → List Bytes → Option Entry → Prop where
  /-- There is no entry. -/
  | absent {id : Digest} {name : Bytes} {path : List Bytes} {r : List UInt8} {ps : List Bytes}
      (h : Opened K id name ps r) (hnone : findName name (lastEntries ps) = none) :
      Resolves K id (name :: path) none
  /-- The path ends at an entry. -/
  | found {id : Digest} {name : Bytes} {r : List UInt8} {ps : List Bytes} {e : Entry}
      (h : Opened K id name ps r) (hsome : findName name (lastEntries ps) = some e) :
      Resolves K id [name] (some e)
  /-- The path goes on below a file. -/
  | blocked {id : Digest} {name : Bytes} {path : List Bytes} {r : List UInt8} {ps : List Bytes}
      {e : Entry} (h : Opened K id name ps r) (hsome : findName name (lastEntries ps) = some e)
      (hfile : e.isDir = false) (hpath : path ≠ []) : Resolves K id (name :: path) none
  /-- The path goes on in a directory. -/
  | descend {id : Digest} {name : Bytes} {path : List Bytes} {r : List UInt8} {ps : List Bytes}
      {e : Entry} {o : Option Entry} (h : Opened K id name ps r)
      (hsome : findName name (lastEntries ps) = some e) (hdir : e.isDir = true)
      (hrest : Resolves K e.childRoot path o) : Resolves K id (name :: path) o

/-- One name of a path, if it is known what the pages say about it. -/
theorem resolves_cons {x : Option Entry} {path : List Bytes} {o : Option Entry}
    (hopened : ∃ r ps, Opened K id name ps r)
    (hx : ∀ r ps, Opened K id name ps r → findName name (lastEntries ps) = x) :
    Resolves K id (name :: path) o ↔ x = none ∧ o = none ∨ ∃ e, x = some e ∧
      (path = [] ∧ o = some e ∨ path ≠ [] ∧ e.isDir = false ∧ o = none ∨
        e.isDir = true ∧ Resolves K e.childRoot path o) := by
  constructor
  · intro h
    cases h with
    | absent h hnone => exact .inl ⟨(hx _ _ h).symm.trans hnone, rfl⟩
    | found h hsome => exact .inr ⟨_, (hx _ _ h).symm.trans hsome, .inl ⟨rfl, rfl⟩⟩
    | blocked h hsome hfile hpath =>
      exact .inr ⟨_, (hx _ _ h).symm.trans hsome, .inr (.inl ⟨hpath, hfile, rfl⟩)⟩
    | descend h hsome hdir hrest =>
      exact .inr ⟨_, (hx _ _ h).symm.trans hsome, .inr (.inr ⟨hdir, hrest⟩)⟩
  · obtain ⟨r, ps, h⟩ := hopened
    obtain rfl := hx r ps h
    rintro (⟨hnone, rfl⟩ | ⟨e, hsome, ⟨rfl, rfl⟩ | ⟨hpath, hfile, rfl⟩ | ⟨hdir, hrest⟩⟩)
    · exact .absent h hnone
    · exact .found h hsome
    · exact .blocked h hsome hfile hpath
    · exact .descend h hsome hdir hrest

section directory

variable (hfree : CollisionFree K) (hS : IsDirectory S) (hpage : build S = .ok page)
  (hK : ∀ b, TreePage S b → pageInput b ∈ K)

include hfree hS hpage hK

/-- A server has the pages that a name needs. -/
theorem exists_opened (name : Bytes) : ∃ r ps, Opened K (pageId page) name ps r := by
  obtain ⟨r, ps, hloop, hfollows, -⟩ : ∃ r ps, routeLoop S page r = .ok ps ∧
      Follows name (page :: ps) r ∧ r.length ≤ name.length - [].length :=
    exists_follows hS.buildable hS.length_lt hpage fun _ _ ↦ List.nil_prefix
  have hpages : ∀ r' ps', routeLoop S page r' = .ok ps' → ∀ b ∈ page :: ps', pageInput b ∈ K :=
    fun r' ps' h b hb ↦ hK b (treePage_of_routeLoop hS.buildable hS.length_lt hpage h b hb)
  have hlen : (page :: ps).length = r.length + 1 := by
    rw [List.length_cons, length_of_routeLoop hS.buildable hS.length_lt hpage hloop]
  refine ⟨r, page :: ps, hlen, rfl, ?_, hfollows, hpages r ps hloop⟩
  exact (verified_iff_routeLoop hfree hS.buildable hS.length_lt hpage hlen
    (fun b hb ↦ hpages r ps hloop b (List.mem_cons_of_mem _ hb))
    fun r' ps' _ h b hb ↦ hpages r' ps' h b (List.mem_cons_of_mem _ hb)).mpr hloop

/-- Verified pages say of a name what the directory has. -/
theorem Opened.findName_eq {r : List UInt8} {ps : List Bytes}
    (h : Opened K (pageId page) name ps r) : findName name (lastEntries ps) = findName name S := by
  obtain ⟨hlen, hroot, hverified, hfollows, hknown⟩ := h
  cases ps with
  | nil => cases hlen
  | cons b ps =>
    obtain ⟨rfl, hloop⟩ := routeLoop_of_verified hfree hS.buildable hS.length_lt hpage hlen hknown
      (fun r' ps' _ h b hb ↦ hK b (treePage_of_routeLoop hS.buildable hS.length_lt hpage h b hb))
      hroot.symm hverified
    rw [findName_lastEntries hS.buildable hS.length_lt hpage hloop hfollows]
    cases hfind : findName name S with
    | none => rfl
    | some e =>
      have he := ((findName_eq_some hS.buildable).mp hfind).1
      rw [Option.map_some, Entry.wire_of_shaped (hS.shaped e he)]

end directory

omit [Sha256] in
@[simp] theorem find_nil (T : FileTree) : T.find [] = some T := by cases T <;> rfl

omit [Sha256] in
theorem find_cons (name : Bytes) (path : List Bytes) : (dir size names child).find (name :: path) =
    ((List.finRange size).find? fun i ↦ names i = name).bind fun i ↦ (child i).find path := by
  rw [find]
  cases (List.finRange size).find? fun i ↦ names i = name <;> rfl

/-- The entry of a name is that of its child. -/
theorem findName_entries (name : Bytes) : findName name (dir size names child).entries =
    ((List.finRange size).find? fun i ↦ names i = name).map fun i ↦ (child i).entry name := by
  rw [entries, List.ofFn_eq_map, findName, List.find?_map]
  have hname : ((fun e : Entry ↦ decide (e.name = name)) ∘ fun i ↦ (child i).entry (names i)) =
      fun i ↦ decide (names i = name) := by
    funext i
    rw [Function.comp_apply, name_entry]
  rw [hname]
  cases hfind : (List.finRange size).find? fun i ↦ names i = name with
  | none => rfl
  | some i =>
    have hi : names i = name := by simpa using List.find?_some hfind
    rw [Option.map_some, Option.map_some, hi]

/-- **A path resolves to what the tree has there.** -/
theorem resolves_cons_iff (hfree : CollisionFree K) (hT : (dir size names child).WellFormed)
    (hK : (dir size names child).strings ⊆ K)
    (hpage : build (dir size names child).entries = .ok page) {path : List Bytes}
    {o : Option Entry} : Resolves K (pageId page) (name :: path) o ↔
      o = ((dir size names child).find (name :: path)).map fun u ↦
        u.entry ((name :: path).getLast (List.cons_ne_nil _ _)) := by
  induction path generalizing size names child name page with
  | nil =>
    have hpages : ∀ b, TreePage (dir size names child).entries b → pageInput b ∈ K :=
      fun b hb ↦ hK (.inl ⟨b, hb, rfl⟩)
    rw [resolves_cons (exists_opened hfree hT.isDirectory hpage hpages name)
      fun r ps h ↦ h.findName_eq hfree hT.isDirectory hpage hpages, findName_entries, find_cons]
    cases (List.finRange size).find? fun i ↦ names i = name with
    | none => simp
    | some i =>
      rw [Option.map_some, Option.bind_some, find_nil, Option.map_some, List.getLast_singleton]
      constructor
      · rintro (⟨h, -⟩ | ⟨e, he, ⟨-, rfl⟩ | ⟨hne, -⟩ | ⟨-, hrest⟩⟩)
        · cases h
        · exact he.symm
        · exact absurd rfl hne
        · cases hrest
      · rintro rfl
        exact .inr ⟨_, rfl, .inl ⟨rfl, rfl⟩⟩
  | cons next path ih =>
    have hpages : ∀ b, TreePage (dir size names child).entries b → pageInput b ∈ K :=
      fun b hb ↦ hK (.inl ⟨b, hb, rfl⟩)
    rw [resolves_cons (exists_opened hfree hT.isDirectory hpage hpages name)
      fun r ps h ↦ h.findName_eq hfree hT.isDirectory hpage hpages, findName_entries, find_cons]
    cases (List.finRange size).find? fun i ↦ names i = name with
    | none => simp
    | some i =>
      have hwell := hT.2.2 i
      have hstrings := (Set.subset_iUnion (fun i ↦ (child i).strings) i).trans
        (Set.subset_union_right.trans hK)
      rw [Option.map_some, Option.bind_some, List.getLast_cons_cons]
      cases hchild : child i with
      | file kind content =>
        have hfile : ((file kind content).entry name).isDir = false := by
          rw [Bool.eq_false_iff]
          intro h
          obtain ⟨_, _, _, h⟩ := (isDir_entry _ _).mp h
          cases h
        constructor
        · rintro (⟨h, -⟩ | ⟨e, he, ⟨h, -⟩ | ⟨-, -, rfl⟩ | ⟨hdir, -⟩⟩)
          · cases h
          · cases h
          · rfl
          · obtain rfl := Option.some.inj he
            exact absurd (hfile.symm.trans hdir) (by simp)
        · rintro rfl
          exact .inr ⟨_, rfl, .inr (.inl ⟨List.cons_ne_nil _ _, hfile, rfl⟩)⟩
      | dir size' names' child' =>
        rw [hchild] at hwell hstrings
        obtain ⟨page', hpage', hentry⟩ := hwell.exists_build name
        rw [hentry, ← ih hwell hstrings hpage']
        constructor
        · rintro (⟨h, -⟩ | ⟨e, he, ⟨h, -⟩ | ⟨-, hfile, -⟩ | ⟨-, hrest⟩⟩)
          · cases h
          · cases h
          · obtain rfl := Option.some.inj he
            cases hfile
          · obtain rfl := Option.some.inj he
            exact hrest
        · intro hrest
          exact .inr ⟨_, rfl, .inr (.inr ⟨rfl, hrest⟩)⟩

theorem strings_subset_of_find {path : List Bytes} (h : T.find path = some T') :
    T'.strings ⊆ T.strings := by
  induction path generalizing T with
  | nil =>
    rw [find_nil, Option.some.injEq] at h
    exact h ▸ subset_rfl
  | cons name path ih =>
    cases T with
    | file kind content => cases h
    | dir size names child =>
      rw [find_cons, Option.bind_eq_some_iff] at h
      obtain ⟨i, -, hi⟩ := h
      exact (ih hi).trans ((Set.subset_iUnion (fun i ↦ (child i).strings) i).trans
        Set.subset_union_right)

/-- **A client that verifies pages finds what is in the snapshot.**  From the identity of the root
page each path resolves, to the entry that the tree has there and to nothing else; and a content
that has the digest of a file's entry is the content of the file. -/
theorem resolves_iff (hfree : CollisionFree K) (hT : (dir size names child).WellFormed)
    (hK : (dir size names child).strings ⊆ K)
    (hroot : rootPageId (dir size names child).entries = some id) (path : List Bytes)
    (hpath : path ≠ []) :
    (∀ o, Resolves K id path o ↔ o = ((dir size names child).find path).map fun u ↦
      u.entry (path.getLast hpath)) ∧
    ∀ e content, Resolves K id path (some e) → e.isDir = false → content ∈ K →
      sha256 content = e.contentId →
      ∃ kind, (dir size names child).find path = some (.file kind content) := by
  obtain ⟨page, hpage, -⟩ := hT.exists_build []
  obtain rfl : pageId page = id := by
    rw [rootPageId, hpage] at hroot
    exact Option.some.inj hroot
  cases path with
  | nil => exact absurd rfl hpath
  | cons name path =>
    refine ⟨fun o ↦ resolves_cons_iff hfree hT hK hpage, fun e content h hfile hcontent hid ↦ ?_⟩
    obtain ⟨u, hu, rfl⟩ := Option.map_eq_some_iff.mp
      ((resolves_cons_iff hfree hT hK hpage).mp h).symm
    cases u with
    | file kind content' =>
      have hcontent' := hK (strings_subset_of_find hu rfl)
      exact ⟨kind, by rw [hu, hfree hcontent hcontent' hid]⟩
    | dir size' names' child' => cases hfile

/-! ## Two versions of a project -/

section project

omit [Sha256]

/-- The inner directory. -/
def programTree (program : Bytes) : FileTree :=
  .dir 1 ![ "main".asBytes] ![.file ⟨.executable, by decide +kernel⟩ program]

/-- A file and a directory with a program in it. -/
def project (program : Bytes) : FileTree :=
  .dir 2 ![ "README.md".asBytes, "src".asBytes]
    ![.file ⟨.regular, by decide⟩ "hi".asBytes,
      programTree program]

/-- The page of the inner directory. -/
def programPage (programId : Digest) : Page :=
  .leaf [.file .executable "main".asBytes 2 programId]

/-- The root page. -/
def projectPage (srcRoot : Digest) : Page :=
  .leaf [.file .regular "README.md".asBytes 2
    (.ofNat 0x8f434346648f6b96df89dda901c5176b10a6d83961dd3c1ac88b59b2dc327aa4),
    .dir "src".asBytes srcRoot]

/-- The descriptor of a version. -/
def projectDescriptor (root : Digest) : ServingDescriptor where
  instanceUuid := ServingDescriptor.sample.instanceUuid
  namespaceViewId := .fill 1
  scope := "/"
  metadataRoot := root

/-- The root identities of the two versions. -/
def rootIds : Digest × Digest :=
  (.ofNat 0xdf9e5c97d53707d7771626cabe20a46489fa06a9bc69344e28a41c7f6dcc5efb,
    .ofNat 0x4b79c4d3403e45a715a254e7b6e5bdd26554d79432c7f04a53aab6e48ec44fff)

/-- The strings of the two versions with their SHA-256 digests. -/
def projectTable : List (Bytes × Digest) :=
  let programId : Digest :=
    .ofNat 0x3612ddaf46e149a4f583faf0face846585148f59e0ce2645594df83b5dc807e8
  let programId' : Digest :=
    .ofNat 0x8704e7f4ed55969b5eb8f82bc760d29894588506b7d59cce9bd28eea9972aaa3
  let srcRoot : Digest := .ofNat 0xb783b80ad7dd929d4e0bb2ae5ca81813bdf3662934d6c519900b5c6fd3c8f0d4
  let srcRoot' : Digest :=
    .ofNat 0x9847bf5d06abc3bd5e5e7a345be45ba998bdc10131523d875fb313f3bb90f09d
  [("hi".asBytes, .ofNat 0x8f434346648f6b96df89dda901c5176b10a6d83961dd3c1ac88b59b2dc327aa4),
    ("#!".asBytes, programId), ("#?".asBytes, programId'),
    (pageInput (programPage programId).bytes, srcRoot),
    (pageInput (programPage programId').bytes, srcRoot'),
    (pageInput (projectPage srcRoot).bytes, rootIds.1),
    (pageInput (projectPage srcRoot').bytes, rootIds.2),
    (ServingDescriptor.snapshotInput (projectDescriptor rootIds.1).bytes,
      .ofNat 0x457154813d5c0e0f20cab9cab1d0e30c68d3c5aa6cd3a77f679e2f0ee997ac4e),
    (ServingDescriptor.snapshotInput (projectDescriptor rootIds.2).bytes,
      .ofNat 0xe642b3a22b1debb077f483d649cddbec63518c85062ef383196e19b84cc00ce8)]

/-- SHA-256 on the strings of the table. -/
@[reducible] def projectSha256 : Sha256 := .ofTable projectTable

/-- The strings of the table. -/
def projectStrings : List Bytes := projectTable.map Prod.fst

theorem collisionFree_project :
    @CollisionFree projectSha256 {b | b ∈ projectStrings} := by
  have h : ∀ a ∈ projectStrings, ∀ b ∈ projectStrings,
      projectSha256.sha256 a = projectSha256.sha256 b → a = b := by decide +kernel
  exact fun a ha b hb hab ↦ h a ha b hb hab

/-- The strings of a directory that fits in a leaf. -/
theorem strings_dir_subset [Sha256] {P : Set Bytes}
    (hfits : Page.Fits (dir size names child).entries)
    (hpage : build (dir size names child).entries = .ok page) (hmem : pageInput page ∈ P)
    (hchild : ∀ i, (child i).strings ⊆ P) : (dir size names child).strings ⊆ P := by
  rintro x (⟨b, hb, rfl⟩ | hx)
  · obtain rfl := Except.ok.inj (hpage.symm.trans (hb.of_fits hfits))
    exact hmem
  · obtain ⟨i, hi⟩ := Set.mem_iUnion.mp hx
    exact hchild i hi

theorem wellFormed_programTree {program : Bytes}
    (h : program = "#!".asBytes ∨ program = "#?".asBytes) :
    letI := projectSha256
    (programTree program).WellFormed ∧ (programTree program).strings ⊆
      {b | b ∈ projectStrings} := by
  let _ := projectSha256
  have hmem : program ∈ projectStrings := by
    rcases h with rfl | rfl <;> decide
  have hbuildable : Buildable (programTree program).entries := by
    rcases h with rfl | rfl <;> exact checkInput_eq_ok_iff_buildable.mp (by decide +kernel)
  have hfits : Page.Fits (programTree program).entries := by
    rcases h with rfl | rfl <;> decide +kernel
  refine ⟨⟨by decide, hbuildable, fun i ↦ ?_⟩,
    strings_dir_subset hfits (build_of_fits hbuildable hfits) ?_ fun i ↦ ?_⟩
  · obtain rfl := Fin.fin_one_eq_zero i
    trivial
  · rcases h with rfl | rfl <;> decide +kernel
  · obtain rfl := Fin.fin_one_eq_zero i
    exact Set.singleton_subset_iff.mpr hmem

/-- What is to be known of a version. -/
theorem wellFormed_project {program : Bytes} (h : program = "#!".asBytes ∨ program = "#?".asBytes) :
    letI := projectSha256
    (project program).WellFormed ∧ (project program).strings ⊆ {b | b ∈ projectStrings} := by
  let _ := projectSha256
  obtain ⟨hwell, hstrings⟩ := wellFormed_programTree h
  have hbuildable : Buildable (project program).entries := by
    rcases h with rfl | rfl <;> exact checkInput_eq_ok_iff_buildable.mp (by decide +kernel)
  have hfits : Page.Fits (project program).entries := by
    rcases h with rfl | rfl <;> decide +kernel
  refine ⟨⟨by decide, hbuildable, Fin.forall_fin_two.mpr ⟨trivial, hwell⟩⟩,
    strings_dir_subset hfits (build_of_fits hbuildable hfits) ?_
      (Fin.forall_fin_two.mpr ⟨?_, hstrings⟩)⟩
  · rcases h with rfl | rfl <;> decide +kernel
  · exact Set.singleton_subset_iff.mpr (by decide : "hi".asBytes ∈ projectStrings)

/-- The root identity of a version. -/
theorem rootPageId_project :
    letI := projectSha256
    rootPageId (project "#!".asBytes).entries = some rootIds.1 ∧
      rootPageId (project "#?".asBytes).entries = some rootIds.2 := by
  let _ := projectSha256
  constructor <;> decide +kernel

/-- The versions have different snapshot ids. -/
theorem snapshot_pins_tree_project :
    letI := projectSha256
    (projectDescriptor rootIds.1).snapshotId ≠ (projectDescriptor rootIds.2).snapshotId := by
  let _ := projectSha256
  obtain ⟨hT, hK⟩ := wellFormed_project (.inl rfl)
  obtain ⟨hT', hK'⟩ := wellFormed_project (.inr rfl)
  have hinputs : ∀ x ∈ [ServingDescriptor.snapshotInput (projectDescriptor rootIds.1).bytes,
      ServingDescriptor.snapshotInput (projectDescriptor rootIds.2).bytes],
      x ∈ projectStrings := by decide +kernel
  obtain ⟨id, hid⟩ : ∃ id, (projectDescriptor rootIds.1).snapshotId = .ok id := ⟨_, rfl⟩
  intro hsame
  have hroot : rootPageId (project "#!".asBytes).entries =
    some (projectDescriptor rootIds.1).metadataRoot := rootPageId_project.1
  have hroot' : rootPageId (project "#?".asBytes).entries =
    some (projectDescriptor rootIds.2).metadataRoot := rootPageId_project.2
  have h := snapshot_pins_tree hT hT' hroot hroot'
    (collisionFree_project.mono (Set.union_subset (by
      rintro x (rfl | rfl)
      · exact hinputs _ (by simp)
      · exact hinputs _ (by simp)) (Set.union_subset hK hK'))) hid (hsame.symm.trans hid)
  exact absurd (congrArg ServingDescriptor.metadataRoot h.1) (by decide)

/-- A program is found, and nothing below a file. -/
theorem resolves_iff_project :
    letI := projectSha256
    Resolves {b | b ∈ projectStrings} rootIds.1 [ "src".asBytes, "main".asBytes]
        (some (.file .executable "main".asBytes 2 (sha256 "#!".asBytes))) ∧
      Resolves {b | b ∈ projectStrings} rootIds.1 [ "README.md".asBytes, "main".asBytes] none := by
  let _ := projectSha256
  obtain ⟨hT, hK⟩ := wellFormed_project (.inl rfl)
  have h := fun path hpath ↦ (resolves_iff collisionFree_project hT hK rootPageId_project.1 path
    hpath).1
  exact ⟨(h _ (by simp) _).mpr rfl, (h _ (by simp) _).mpr rfl⟩

end project

end FileTree

end Mst2
