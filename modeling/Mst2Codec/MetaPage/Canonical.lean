import Mst2Codec.MetaPage.Codec
import Mst2Codec.MetaPage.Partition

/-!
# The canonical tree of a directory

`Canonical S page` says what the page of the directory `S` has to be: the leaf with all of `S` if
that fits, and otherwise the branch of the longest common prefix, whose children refer to the pages
that `build` makes of the groups.  `build_canonical` shows that `build` succeeds with this page on
every ascending list of valid entries; no group is ever too large, no prefix too long and no child
table too wide, because names have at most 255 bytes and bytes have 256 values.
-/

set_option autoImplicit false

namespace Mst2

open Bytes Except Lex

namespace Entry

/-- The entries that `Entry::file`, for the kind of a file, and `Entry::dir` make. -/
inductive Made : Entry → Prop where
  /-- A file. -/
  | file (kind : EntryKind) (name : Bytes) (size : UInt64) (contentId : Digest)
      (h : kind ≠ .directory) : Made (Entry.file kind name size contentId)
  /-- A directory. -/
  | dir (name : Bytes) (childRoot : Digest) : Made (Entry.dir name childRoot)

theorem Made.shaped {e : Entry} (h : e.Made) : e.Shaped := by
  cases h with
  | file kind name size contentId h =>
    have hdir : (Entry.file kind name size contentId).isDir = false := by
      simp [Entry.file, isDir, h]
    exact ⟨fun h ↦ absurd (hdir.symm.trans h) (by simp),
      fun h ↦ absurd (hdir.symm.trans h) (by simp), fun _ ↦ rfl⟩
  | dir name childRoot => exact ⟨fun _ ↦ rfl, fun _ ↦ rfl, fun h ↦ by simp [Entry.dir, isDir] at h⟩

/-- An invalid entry is not a matter of order. -/
theorem validate_ne_badOrdering {e : Entry} {what : String} :
    e.validate ≠ .error (.badOrdering what) := by
  intro h
  rw [validate, bind_eq_error] at h
  rcases h with h | ⟨⟨⟩, -, h⟩
  · simp [validateName, bind_eq_error] at h
  · split at h <;> simp at h

end Entry

namespace Page

/-! ## The input of `build` -/

/-- What `build` accepts: valid entries with ascending names. -/
structure Buildable (entries : List Entry) : Prop where
  /-- The entries are valid. -/
  validate : ∀ e ∈ entries, e.validate = .ok ()
  /-- The names ascend. -/
  ascending : entries.Pairwise fun a b ↦ a.name < b.name

theorem checkInput_eq_ok {prev : Option Bytes} {entries : List Entry} :
    checkInput prev entries = .ok () ↔ (∀ e ∈ entries, e.validate = .ok ()) ∧
      Ascends Entry.name prev entries := by
  induction entries generalizing prev with
  | nil => simp [checkInput, ascends_nil, pure, Except.pure]
  | cons e entries ih =>
    rw [checkInput, bind_eq_ok, ascends_cons bytes_lt_trans, List.forall_mem_cons]
    constructor
    · rintro ⟨⟨⟩, hvalid, h⟩
      rw [reject_bind_eq_ok, any_eq_false, ih] at h
      exact ⟨⟨hvalid, h.2.1⟩, h.1, h.2.2⟩
    · rintro ⟨⟨hvalid, hvalids⟩, hprev, hascends⟩
      refine ⟨(), hvalid, ?_⟩
      rw [reject_bind_eq_ok, any_eq_false, ih]
      exact ⟨hprev, hvalids, hascends⟩

theorem checkInput_eq_ok_iff_buildable {entries : List Entry} :
    checkInput none entries = .ok () ↔ Buildable entries := by
  rw [checkInput_eq_ok, ascends_none]
  exact ⟨fun h ↦ ⟨h.1, h.2⟩, fun h ↦ ⟨h.validate, h.ascending⟩⟩

/-- The one complaint about order. -/
theorem checkInput_ne_badOrdering {prev : Option Bytes} {entries : List Entry} {what : String}
    (hwhat : what ≠ "build input must be strictly ascending") :
    checkInput prev entries ≠ .error (.badOrdering what) := by
  induction entries generalizing prev with
  | nil => simp [checkInput, pure, Except.pure]
  | cons e entries ih =>
    intro h
    rw [checkInput, bind_eq_error] at h
    rcases h with h | ⟨⟨⟩, -, h⟩
    · exact Entry.validate_ne_badOrdering h
    rw [bind_eq_error, reject_eq_error] at h
    rcases h with ⟨-, h⟩ | ⟨⟨⟩, -, h⟩
    · exact hwhat (CodecError.badOrdering.inj h).symm
    · exact ih h

namespace Buildable

variable {entries : List Entry} (h : Buildable entries)
include h

theorem filter (P : Entry → Bool) : Buildable (entries.filter P) :=
  ⟨fun e he ↦ h.validate e (List.mem_of_mem_filter he), h.ascending.filter P⟩

theorem length_name_le {e : Entry} (he : e ∈ entries) : e.name.length ≤ 255 :=
  Entry.length_name_le (h.validate e he)

theorem encodedLen_le {e : Entry} (he : e ∈ entries) : e.encodedLen ≤ 298 := by
  have := h.length_name_le he
  rw [Entry.encodedLen]
  split <;> omega

end Buildable

/-! ## Leaves -/

/-- Whether a directory fits in a leaf. -/
def Fits (entries : List Entry) : Prop :=
  entries.length ≤ leafMaxEntries ∧ 20 + (entries.map Entry.encodedLen).sum ≤ 16384

instance (entries : List Entry) : Decidable (Fits entries) :=
  inferInstanceAs (Decidable (_ ∧ _))

theorem length_bytes_leaf (entries : List Entry) :
    (leaf entries).bytes.length = 20 + (entries.map Entry.encodedLen).sum := by
  rw [length_bytes, headerLen, payload, List.length_flatMap]
  congr 2
  exact List.map_congr_left fun e _ ↦ Entry.length_bytes e

theorem leafBytes_eq {entries : List Entry} (h : Buildable entries) :
    leafBytes entries = if Fits entries then some (leaf entries).bytes else none := by
  have hlength := length_bytes_leaf entries
  rw [leafBytes]
  by_cases hlen : entries.length ≤ leafMaxEntries
  · rw [if_pos hlen]
    have hvalid : (leaf entries).Valid := ⟨hlen, h.validate, h.ascending⟩
    by_cases hbytes : (leaf entries).bytes.length ≤ 16384
    · rw [encode_eq_ok.mpr ⟨hvalid, rfl, hbytes⟩,
        if_pos (show Fits entries from ⟨hlen, hlength ▸ hbytes⟩)]
      exact if_pos hbytes
    · rw [if_neg fun hfits : Fits entries ↦ hbytes (hlength ▸ hfits.2)]
      cases hencode : encode (leaf entries) with
      | error e => rfl
      | ok b =>
        obtain ⟨-, rfl, hb⟩ := encode_eq_ok.mp hencode
        exact absurd hb hbytes
  · rw [if_neg hlen, if_neg fun hfits : Fits entries ↦ hlen hfits.1]

/-- A directory that needs a branch has at least two entries. -/
theorem two_le_length {entries : List Entry} (h : Buildable entries) (hfits : ¬ Fits entries) :
    2 ≤ entries.length := by
  match entries, h, hfits with
  | [], _, hfits => exact absurd ⟨by decide, by decide⟩ hfits
  | [e], h, hfits =>
    have := h.encodedLen_le (List.mem_singleton_self e)
    refine absurd ⟨by simp [leafMaxEntries], ?_⟩ hfits
    simp only [List.map_cons, List.map_nil, List.sum_cons, List.sum_nil]
    omega
  | _ :: _ :: _, _, _ => simp

/-! ## Branches -/

/-- The terminal of an ascending list is the one entry with that name. -/
theorem find?_name_eq_some {entries : List Entry} (h : Buildable entries) {p : Bytes} {e : Entry} :
    (entries.find? fun x ↦ x.name = p) = some e ↔ e ∈ entries ∧ e.name = p := by
  constructor
  · intro he
    exact ⟨List.mem_of_find?_eq_some he, by simpa using List.find?_some he⟩
  · rintro ⟨he, rfl⟩
    cases hfind : entries.find? fun x ↦ x.name = e.name with
    | none => simpa using List.find?_eq_none.mp hfind e he
    | some x =>
      have hx := List.mem_of_find?_eq_some hfind
      have hname : x.name = e.name := by simpa using List.find?_some hfind
      have hinj : entries.Pairwise fun a b ↦ a.name ≠ b.name :=
        h.ascending.imp fun {a b} (hlt : a.name < b.name) heq ↦ List.lt_irrefl _ (heq ▸ hlt)
      rw [List.inj_on_of_nodup_map (List.pairwise_map.mpr hinj) hx he hname]

/-- There are at most 256 labels. -/
theorem length_labels_le {labels : List UInt8} (h : labels.Pairwise (· < ·)) :
    labels.length ≤ branchMaxChildren := by
  have hnodup : (labels.map UInt8.toNat).Nodup :=
    List.pairwise_map.mpr (h.imp fun hlt heq ↦ ne_of_lt hlt (UInt8.toNat_inj.mp heq))
  have hsub : labels.map UInt8.toNat ⊆ List.range 256 := by
    intro n hn
    obtain ⟨l, -, rfl⟩ := List.mem_map.mp hn
    exact List.mem_range.mpr l.toNat_lt
  have hle := (hnodup.subperm hsub).length_le
  rwa [List.length_map, List.length_range] at hle

/-- Unless the directory is as small as a leaf, its longest common prefix leaves two groups. -/
theorem two_le_groups {entries : List Entry} {p : Bytes} {terminal : Option Entry}
    {labels : List UInt8} (htwo : 2 ≤ entries.length)
    (hp : IsLongestCommonPrefix p (entries.map Entry.name))
    (happend : terminal.toList ++ labels.flatMap (group p · entries) = entries) :
    ¬ labels.length + terminal.toList.length < 2 := by
  intro hlt
  match labels, terminal, happend, hlt with
  | [], terminal, happend, hlt =>
    rw [List.flatMap_nil, List.append_nil] at happend
    rw [happend, List.length_nil] at hlt
    omega
  | [l], none, happend, _ =>
    -- one group alone would have a longer common prefix
    obtain ⟨n, hn, hnot⟩ := hp.exists_not_isPrefix l
    obtain ⟨e, he, rfl⟩ := List.mem_map.mp hn
    have hgroup : group p l entries = entries := by simpa using happend
    rw [← hgroup, group, List.mem_filter, decide_eq_true_eq] at he
    exact hnot (concat_isPrefix_iff.mpr ⟨hp.isPrefix hn, he.2⟩)

section branch

variable [Sha256]

/-- The branch of a directory: the longest common prefix, the entry of that name, and for each byte
that comes next, in ascending order, the number of entries and the page of the group. -/
structure Partitioned (entries : List Entry) (p : Bytes) (terminal : Option Entry)
    (children : List BranchChild) : Prop where
  /-- The prefix is the longest one. -/
  isLongestCommonPrefix : IsLongestCommonPrefix p (entries.map Entry.name)
  /-- The terminal is the entry with the prefix as its name. -/
  terminal_eq_some : ∀ e, terminal = some e ↔ e ∈ entries ∧ e.name = p
  /-- The labels ascend. -/
  ascending : children.Pairwise fun c c' ↦ c.label < c'.label
  /-- The labels are the bytes that come next. -/
  mem_labels : ∀ l, l ∈ children.map BranchChild.label ↔
    ∃ e ∈ entries, e.name[p.length]? = some l
  /-- A child has the size and the page of its group. -/
  child : ∀ c ∈ children, c.subtreeEntries.toNat = (group p c.label entries).length ∧
    ∃ b, build (group p c.label entries) = .ok b ∧ c.childPageId = pageId b
  /-- The terminal and the groups are the directory. -/
  append_groups : terminal.toList ++ children.flatMap (fun c ↦ group p c.label entries) = entries

/-- The page of a directory. -/
inductive Canonical (entries : List Entry) : Page → Prop where
  /-- A directory that fits in a leaf is a leaf. -/
  | leaf (h : Fits entries) : Canonical entries (.leaf entries)
  /-- Any other is a branch. -/
  | branch {p : Bytes} {terminal : Option Entry} {children : List BranchChild}
      (h : ¬ Fits entries) (hp : Partitioned entries p terminal children) :
      Canonical entries (.branch p terminal children)

/-- The branch of a directory is valid and fits. -/
theorem Partitioned.valid {entries : List Entry} {p : Bytes} {terminal : Option Entry}
    {children : List BranchChild} (h : Partitioned entries p terminal children)
    (hentries : Buildable entries) (hlen : entries.length < 2 ^ 63) (htwo : 2 ≤ entries.length) :
    (branch p terminal children).Valid ∧ (branch p terminal children).total = entries.length ∧
      (branch p terminal children).bytes.length ≤ pageMaxBytes := by
  have hterminal : ∀ t, terminal = some t → t ∈ entries ∧ t.name = p :=
    fun t ht ↦ (h.terminal_eq_some t).mp ht
  have hp : p.length ≤ 255 := by
    obtain ⟨e, he⟩ := List.exists_mem_of_length_pos (show 0 < entries.length by omega)
    have hpre := h.isLongestCommonPrefix.isPrefix (List.mem_map_of_mem he)
    exact hpre.length_le.trans (hentries.length_name_le he)
  have hchildren : children.length ≤ branchMaxChildren := by
    rw [← List.length_map BranchChild.label]
    exact length_labels_le (List.pairwise_map.mpr h.ascending)
  have hgroups : ¬ (children.map BranchChild.label).length + terminal.toList.length < 2 := by
    refine two_le_groups htwo h.isLongestCommonPrefix ?_
    rw [List.flatMap_map]
    exact h.append_groups
  have hne : ∀ c ∈ children, c.subtreeEntries ≠ 0 := by
    intro c hc hzero
    obtain ⟨e, he, hlabel⟩ := (h.mem_labels c.label).mp (List.mem_map_of_mem hc)
    have hmem : e ∈ group p c.label entries := List.mem_filter.mpr ⟨he, by simpa using hlabel⟩
    have hlength := (h.child c hc).1
    rw [hzero] at hlength
    rw [List.length_eq_zero_iff.mp hlength.symm] at hmem
    cases hmem
  have htotal : (branch p terminal children).total = entries.length := by
    conv_rhs => rw [← h.append_groups]
    rw [total, List.length_append, List.length_flatMap, Nat.add_comm,
      List.map_congr_left fun c hc ↦ (h.child c hc).1]
  refine ⟨⟨hp, hchildren, fun t ht ↦ ⟨hentries.validate t (hterminal t ht).1, (hterminal t ht).2⟩,
    h.ascending, hne, ?_, ?_⟩, htotal, ?_⟩
  · rw [List.length_map] at hgroups
    omega
  · rw [htotal, maxTotalEntries]
    omega
  · have hterminalBytes : (terminalBytes terminal).length ≤ 299 := by
      cases terminal with
      | none => simp [terminalBytes]
      | some t =>
        have := hentries.encodedLen_le (hterminal t rfl).1
        rw [terminalBytes, List.length_cons, Entry.length_bytes]
        omega
    have hrows : (children.flatMap encodeChild).length = 41 * children.length := by
      rw [List.length_flatMap, List.map_congr_left fun c _ ↦ length_encodeChild c]
      simp [Nat.mul_comm]
    rw [branchMaxChildren] at hchildren
    rw [length_bytes, payload, pageMaxBytes, headerLen, List.length_append, List.length_append,
      List.length_append, length_writeU16, hrows]
    omega

theorem Canonical.valid {entries : List Entry} {page : Page} (h : Canonical entries page)
    (hentries : Buildable entries) (hlen : entries.length < 2 ^ 63) :
    page.Valid ∧ page.total = entries.length ∧ page.bytes.length ≤ pageMaxBytes := by
  cases h with
  | leaf hfits =>
    refine ⟨⟨hfits.1, hentries.validate, hentries.ascending⟩, rfl, ?_⟩
    rw [length_bytes_leaf]
    exact hfits.2
  | branch hfits hp => exact hp.valid hentries hlen (two_le_length hentries hfits)

/-- The row of a group whose page is `b`. -/
def row (p : Bytes) (entries : List Entry) (l : UInt8) (b : Bytes) : BranchChild :=
  ⟨l, UInt64.ofNat (group p l entries).length, pageId b⟩

/-- The rows of the groups of a partition make it the branch of the directory. -/
theorem partitioned_of_labels {entries : List Entry} {p : Bytes} {labels : List UInt8}
    {page : UInt8 → Bytes} (h : Buildable entries) (hlen : entries.length < 2 ^ 63)
    (hp : IsLongestCommonPrefix p (entries.map Entry.name)) (hasc : labels.Pairwise (· < ·))
    (hlabels : ∀ l, l ∈ labels ↔ ∃ e ∈ entries, e.name[p.length]? = some l)
    (hpages : ∀ l ∈ labels, build (group p l entries) = .ok (page l))
    (happend : (entries.find? fun e ↦ e.name = p).toList ++ labels.flatMap (group p · entries) =
      entries) :
    Partitioned entries p (entries.find? fun e ↦ e.name = p)
      (labels.map fun l ↦ row p entries l (page l)) where
  isLongestCommonPrefix := hp
  terminal_eq_some e := find?_name_eq_some h
  ascending := List.pairwise_map.mpr hasc
  mem_labels l := by
    rw [List.map_map, show BranchChild.label ∘ (fun l ↦ row p entries l (page l)) = id from rfl,
      List.map_id]
    exact hlabels l
  child c hc := by
    obtain ⟨l, hl, rfl⟩ := List.mem_map.mp hc
    have hgroup : (group p l entries).length ≤ entries.length := List.length_filter_le _ _
    exact ⟨toNat_ofNat_u64 (by omega), page l, hpages l hl, rfl⟩
  append_groups := by
    rw [List.flatMap_map]
    exact happend

/-- **`build` succeeds with the canonical page.** -/
theorem build_canonical {entries : List Entry} (h : Buildable entries)
    (hlen : entries.length < 2 ^ 63) :
    ∃ page, Canonical entries page ∧ build entries = .ok page.bytes := by
  -- the groups are smaller
  induction hn : entries.length using Nat.strong_induction_on generalizing entries with
  | _ n ih =>
    subst hn
    rw [build, checkInput_eq_ok_iff_buildable.mpr h, ok_bind, leafBytes_eq h]
    by_cases hfits : Fits entries
    · rw [if_pos hfits]
      exact ⟨_, .leaf hfits, rfl⟩
    rw [if_neg hfits]
    have htwo := two_le_length h hfits
    have hlcp : IsLongestCommonPrefix (lcp (entries.map Entry.name)) (entries.map Entry.name) := by
      refine isLongestCommonPrefix_lcp fun hnil ↦ ?_
      rw [List.map_eq_nil_iff.mp hnil] at htwo
      simp at htwo
    generalize lcp (entries.map Entry.name) = p at hlcp
    obtain ⟨labels, hasc, hlabels, hpartition, happend⟩ := partition_eq
      (fun e he ↦ hlcp.isPrefix (List.mem_map_of_mem he)) h.ascending
    have hgroups := two_le_groups htwo hlcp happend
    -- the pages of the groups
    have hpages : ∃ page : UInt8 → Bytes,
        ∀ l ∈ labels, build (group p l entries) = .ok (page l) := by
      suffices h : ∀ l, ∃ b, l ∈ labels → build (group p l entries) = .ok b from
        ⟨fun l ↦ (h l).choose, fun l hl ↦ (h l).choose_spec hl⟩
      intro l
      by_cases hl : l ∈ labels
      swap
      · exact ⟨[], fun h ↦ absurd h hl⟩
      have hlt : (group p l entries).length < entries.length :=
        length_lt_of_partition hpartition (by rwa [List.length_map])
          (List.mem_map_of_mem (f := fun l ↦ (l, group p l entries)) hl)
      obtain ⟨page, -, hbuild⟩ := ih _ hlt (h.filter _) (hlt.trans hlen) rfl
      exact ⟨_, fun _ ↦ hbuild⟩
    obtain ⟨page, hpages⟩ := hpages
    have hp := partitioned_of_labels h hlen hlcp hasc hlabels hpages happend
    refine ⟨_, .branch hfits hp, ?_⟩
    dsimp only
    split
    · rename_i hgs
      cases hgs.symm.trans hpartition
    · rename_i gs hgs
      obtain rfl := Except.ok.inj (hgs.symm.trans hpartition)
      have hrows : ((labels.map fun l ↦ (l, group p l entries)).attach.map
          fun g ↦ row p entries g.1.1 (page g.1.1)) =
          (labels.map fun l ↦ (l, group p l entries)).map fun g ↦ row p entries g.1 (page g.1) :=
        List.attach_map_val (f := fun g : UInt8 × List Entry ↦ row p entries g.1 (page g.1))
      rw [dif_neg (by rwa [List.length_map]),
        mapM_eq_ok (g := fun g ↦ row p entries g.1.1 (page g.1.1)), ok_bind, hrows, List.map_map]
      · have hvalid := hp.valid h hlen htwo
        exact encode_eq_ok.mpr ⟨hvalid.1, rfl, hvalid.2.2⟩
      · rintro ⟨⟨label, g⟩, hmem⟩ -
        obtain ⟨l, hl, heq⟩ := List.mem_map.mp hmem
        cases heq
        show (build (group p label entries) >>= _) = _
        rw [hpages label hl]
        rfl

/-! ## What `build` returns -/

theorem build_of_fits {entries : List Entry} (h : Buildable entries) (hfits : Fits entries) :
    build entries = .ok (leaf entries).bytes := by
  rw [build, checkInput_eq_ok_iff_buildable.mpr h, ok_bind, leafBytes_eq h, if_pos hfits]
  rfl

theorem build_eq_ok_iff {entries : List Entry} (hlen : entries.length < 2 ^ 63) :
    (∃ b, build entries = .ok b) ↔ Buildable entries := by
  constructor
  · rintro ⟨b, hb⟩
    rw [build, bind_eq_ok] at hb
    obtain ⟨⟨⟩, hinput, -⟩ := hb
    exact checkInput_eq_ok_iff_buildable.mp hinput
  · intro h
    obtain ⟨page, -, hb⟩ := build_canonical h hlen
    exact ⟨_, hb⟩

/-- The bytes of `build` are those of the canonical page. -/
theorem canonical_of_build {entries : List Entry} {b : Bytes} (hlen : entries.length < 2 ^ 63)
    (hb : build entries = .ok b) :
    Buildable entries ∧ ∃ page, Canonical entries page ∧ b = page.bytes := by
  have h := (build_eq_ok_iff hlen).mp ⟨b, hb⟩
  obtain ⟨page, hpage, hb'⟩ := build_canonical h hlen
  exact ⟨h, page, hpage, Except.ok.inj (hb.symm.trans hb')⟩

/-- An error of `build` is an error of its first check. -/
theorem checkInput_of_build_eq_error {entries : List Entry} {e : CodecError}
    (hlen : entries.length < 2 ^ 63) (hb : build entries = .error e) :
    checkInput none entries = .error e := by
  cases hinput : checkInput none entries with
  | ok u =>
    obtain ⟨page, -, hb'⟩ := build_canonical (checkInput_eq_ok_iff_buildable.mp hinput) hlen
    cases hb.symm.trans hb'
  | error e' =>
    rw [build, hinput, error_bind] at hb
    rw [Except.error.inj hb]

theorem Canonical.shaped {entries : List Entry} {page : Page} (h : Canonical entries page)
    (hshaped : ∀ e ∈ entries, e.Shaped) : page.Shaped := by
  cases h with
  | leaf hfits => exact hshaped
  | branch hfits hp => exact fun t ht ↦ hshaped t ((hp.terminal_eq_some t).mp ht).1

/-! ## What `build` guarantees -/

/-- The files of a directory that is too large for a leaf: `faa` to `fhp`. -/
def crowdFiles : List Entry :=
  (List.range 128).map fun i ↦
    .file .regular [102, UInt8.ofNat (97 + i / 16), UInt8.ofNat (97 + i % 16)] 1 (.fill 1)

/-- A directory behind them. -/
def crowdDir : Entry := .dir "g".asBytes (.fill 2)

/-- The directory with all of them. -/
def crowd : List Entry := crowdFiles ++ [crowdDir]

omit [Sha256] in
theorem buildable_crowd : Buildable crowd :=
  checkInput_eq_ok_iff_buildable.mp (by decide +kernel)

omit [Sha256] in
theorem length_crowd_lt : crowd.length < 2 ^ 63 := by
  simp only [crowd, crowdFiles, List.length_append, List.length_map, List.length_range,
    List.length_singleton]
  decide

omit [Sha256] in
theorem made_crowd {e : Entry} (he : e ∈ crowd) : e.Made := by
  rcases List.mem_append.mp he with he | he
  · obtain ⟨i, -, rfl⟩ := List.mem_map.mp he
    exact .file _ _ _ _ (by decide)
  · rw [List.mem_singleton.mp he]
    exact .dir _ _

/-- The page of `crowd`. -/
def crowdPage : Page :=
  .branch [] none
    [⟨102, 128, .ofNat 0x2362e46f7bcb2bca9f56d5596a9fa5092c2190568c224c09e53e06d2fe170b66⟩,
      ⟨103, 1, .ofNat 0x2df022d7c92b2dd825a5465ee71ed18fc020decd2296829db16095fd852a7863⟩]

/-- The pages of `crowd` and of its two groups, with their SHA-256 digests. -/
def crowdTable : List (Bytes × Digest) :=
  [(pageInput (leaf crowdFiles).bytes,
      .ofNat 0x2362e46f7bcb2bca9f56d5596a9fa5092c2190568c224c09e53e06d2fe170b66),
    (pageInput (leaf [crowdDir]).bytes,
      .ofNat 0x2df022d7c92b2dd825a5465ee71ed18fc020decd2296829db16095fd852a7863),
    (pageInput crowdPage.bytes,
      .ofNat 0xefd4feab3880dc3a2d72a5e94a35eed60a25abb634a13d681d4e4c5096cb8932)]

/-- SHA-256 on the strings of the table. -/
@[reducible] def crowdSha256 : Sha256 := .ofTable crowdTable

/-- **The canonical partition of a directory.**  `build` succeeds exactly on valid entries with
ascending names.  What it returns is short enough for a page, and is read as the leaf of all
entries, which is the case exactly if they fit, or as the branch that partitions them.  The errors
for a partition that went wrong do not occur. -/
theorem build_partitions (S : Slice Entry) (hmade : ∀ e ∈ S.toList, e.Made) :
    ((∃ b, build S.toList = .ok b) ↔ (∀ e ∈ S.toList, e.validate = .ok ()) ∧
      S.toList.Pairwise fun a b ↦ a.name < b.name) ∧
    (∀ b, build S.toList = .ok b → b.length ≤ pageMaxBytes ∧
      ∃ page t, decode b = .ok (page, t) ∧ t.toNat = S.toList.length ∧
        (page = .leaf S.toList ↔ S.toList.length ≤ 128 ∧
          20 + (S.toList.map Entry.encodedLen).sum ≤ 16384) ∧
        (page = .leaf S.toList ∨ ∃ p terminal children, page = .branch p terminal children ∧
          Partitioned S.toList p terminal children)) ∧
    build S.toList ≠ .error (.badOrdering "partition produced fewer than two groups") ∧
    build S.toList ≠ .error (.badOrdering "entry shorter than LCP") := by
  have hlen := S.length_lt
  refine ⟨?_, fun b hb ↦ ?_, fun h ↦ ?_, fun h ↦ ?_⟩
  · rw [build_eq_ok_iff hlen]
    exact ⟨fun h ↦ ⟨h.validate, h.ascending⟩, fun h ↦ ⟨h.1, h.2⟩⟩
  · obtain ⟨h, page, hpage, rfl⟩ := canonical_of_build hlen hb
    obtain ⟨hvalid, htotal, hbytes⟩ := hpage.valid h hlen
    have ht : (UInt64.ofNat S.toList.length).toNat = S.toList.length := toNat_ofNat_u64 (by omega)
    refine ⟨hbytes, page, UInt64.ofNat S.toList.length, decode_eq_ok.mpr ⟨hvalid,
      hpage.shaped fun e he ↦ (hmade e he).shaped, rfl, hbytes, ht.trans htotal.symm⟩, ht, ?_, ?_⟩
    · cases hpage with
      | leaf hfits => exact ⟨fun _ ↦ hfits, fun _ ↦ rfl⟩
      | branch hfits hp => exact ⟨nofun, fun h ↦ absurd h hfits⟩
    · cases hpage with
      | leaf hfits => exact .inl rfl
      | branch hfits hp => exact .inr ⟨_, _, _, rfl, hp⟩
  · exact checkInput_ne_badOrdering (by decide) (checkInput_of_build_eq_error hlen h)
  · exact checkInput_ne_badOrdering (by decide) (checkInput_of_build_eq_error hlen h)

omit [Sha256] in
/-- A directory that is too large for a leaf is a branch. -/
theorem build_partitions_crowd :
    letI := crowdSha256
    ∃ b p terminal children t, build crowd = .ok b ∧
      decode b = .ok (.branch p terminal children, t) ∧ t.toNat = 129 ∧
      Partitioned crowd p terminal children := by
  let _ := crowdSha256
  have h := build_partitions ⟨crowd, by decide +kernel⟩ fun e he ↦ made_crowd he
  obtain ⟨b, hb⟩ := h.1.mpr ⟨buildable_crowd.validate, buildable_crowd.ascending⟩
  obtain ⟨-, page, t, hdecode, ht, hleaf, hpage⟩ := h.2.1 b hb
  rcases hpage with hpage | ⟨p, terminal, children, rfl, hp⟩
  · exact absurd (hleaf.mp hpage).1 (by decide +kernel)
  · exact ⟨b, p, terminal, children, t, hb, hdecode, ht, hp⟩

end branch

end Page

end Mst2
