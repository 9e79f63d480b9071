import Mst2Codec.MetaPage.Route

/-!
# Trees of received pages

A client that has fetched a directory holds a tree of pages, one below each label of each branch,
each checked against its parent alone.  The pages may come from anyone and need not be canonical.
The local checks still add up: `listing_ascending`, `length_listing` and `length_le_of_chain` are
the inductions over the tree, `verified_wellFormed` collects them.
-/

set_option autoImplicit false

namespace Mst2

open Bytes Except Lex

/-- A page with the pages below it.  Only those at a label of the page matter. -/
inductive PageTree where
  /-- No page. -/
  | absent
  /-- The bytes of the page, and the tree at each label. -/
  | node (bytes : Bytes) (child : UInt8 → PageTree)

namespace PageTree

open Page

/-- The bytes of the root page. -/
def bytes : PageTree → Bytes
  | absent => []
  | node b _ => b

/-- The tree at a label. -/
def child : PageTree → UInt8 → PageTree
  | absent => fun _ ↦ absent
  | node _ f => f

/-- The children of a page; a leaf has none. -/
def children : Page → List BranchChild
  | .leaf _ => []
  | .branch _ _ children => children

/-- The entries in order: those of a leaf, or the terminal and then the children by label. -/
def listing : PageTree → List Entry
  | absent => []
  | node b child =>
    match decode b with
    | .ok (.leaf entries, _) => entries
    | .ok (.branch _ terminal children, _) =>
      terminal.toList ++ children.flatMap fun c ↦ (child c.label).listing
    | .error _ => []

theorem listing_of_leaf {T : PageTree} {entries : List Entry} {t : UInt64}
    (hdecode : decode T.bytes = .ok (.leaf entries, t)) : T.listing = entries := by
  cases T with
  | absent => cases hdecode
  | node b f => rw [listing, show decode b = _ from hdecode]

theorem listing_of_branch {T : PageTree} {p : Bytes} {terminal : Option Entry}
    {cs : List BranchChild} {t : UInt64}
    (hdecode : decode T.bytes = .ok (.branch p terminal cs, t)) :
    T.listing = terminal.toList ++ cs.flatMap fun c ↦ (T.child c.label).listing := by
  cases T with
  | absent => cases hdecode
  | node b f =>
    rw [listing, show decode b = _ from hdecode]
    rfl

section verified

variable [Sha256]

/-- The root page is accepted by `decode`, and every child label of every branch page has a page
that `verify_received_child` accepts. -/
inductive Verified : PageTree → Prop where
  /-- A page, and verified trees below its labels. -/
  | node {b : Bytes} {f : UInt8 → PageTree} {page : Page} {t : UInt64}
      (hdecode : decode b = .ok (page, t))
      (hchild : ∀ c ∈ children page, verifyReceivedChild b c.label (f c.label).bytes = .ok ())
      (hbelow : ∀ c ∈ children page, Verified (f c.label)) : Verified (node b f)

/-- The pages of a tree, with the trees below them. -/
inductive Below : PageTree → PageTree → Prop where
  /-- The root. -/
  | refl (T : PageTree) : Below T T
  /-- A page below a label of the root. -/
  | step {T U : PageTree} {p : Bytes} {terminal : Option Entry} {cs : List BranchChild} {t : UInt64}
      {c : BranchChild} (hdecode : decode T.bytes = .ok (.branch p terminal cs, t)) (hc : c ∈ cs)
      (h : Below (T.child c.label) U) : Below T U

/-- A chain of pages with `n` edges from the root. -/
inductive Chain : PageTree → ℕ → Prop where
  /-- The root alone. -/
  | nil (T : PageTree) : Chain T 0
  /-- A chain that goes on below a label of the root. -/
  | cons {T : PageTree} {n : ℕ} {p : Bytes} {terminal : Option Entry} {cs : List BranchChild}
      {t : UInt64} {c : BranchChild} (hdecode : decode T.bytes = .ok (.branch p terminal cs, t))
      (hc : c ∈ cs) (h : Chain (T.child c.label) n) : Chain T (n + 1)

/-! ## One page and its child -/

variable {b : Bytes} {p : Bytes} {terminal : Option Entry} {cs : List BranchChild} {t : UInt64}

/-- What the check of a child says, once its label is known to be in the page. -/
theorem received_of_verify {T : PageTree} (hdecode : decode b = .ok (.branch p terminal cs, t))
    {c : BranchChild} (hc : c ∈ cs) (h : verifyReceivedChild b c.label T.bytes = .ok ()) :
    ∃ received, decode T.bytes = .ok (received, c.subtreeEntries) ∧
      partitionMatches (p ++ [c.label]) received = true := by
  obtain ⟨p', terminal', cs', t', c', received, hdecode', hfind, -, hreceived, hmatch⟩ :=
    verifyReceivedChild_eq_ok.mp h
  rw [hdecode, Except.ok.injEq, Prod.mk.injEq, Page.branch.injEq] at hdecode'
  obtain ⟨⟨rfl, -, rfl⟩, -⟩ := hdecode'
  obtain ⟨hc', hlabel⟩ := find?_label_eq_some hfind
  -- labels are unique, so the child that `find` returns is `c`
  have hasc : cs.Pairwise fun x y ↦ x.label < y.label := (decode_eq_ok.mp hdecode).1.2.2.2.1
  have hnodup : (cs.map BranchChild.label).Nodup := List.pairwise_map.mpr (hasc.imp ne_of_lt)
  obtain rfl := List.inj_on_of_nodup_map hnodup hc' hc hlabel
  exact ⟨received, hreceived, hmatch⟩

/-- The trees of a branch. -/
theorem Verified.branch {T : PageTree} (h : Verified T)
    (hdecode : decode T.bytes = .ok (.branch p terminal cs, t)) :
    ∀ c ∈ cs, Verified (T.child c.label) ∧ ∃ received,
      decode (T.child c.label).bytes = .ok (received, c.subtreeEntries) ∧
        partitionMatches (p ++ [c.label]) received = true := by
  cases h with
  | @node b f page t' hdecode' hchild hbelow =>
    obtain ⟨rfl, -⟩ := Prod.mk.inj (Except.ok.inj (hdecode'.symm.trans hdecode))
    exact fun c hc ↦ ⟨hbelow c hc, received_of_verify hdecode hc (hchild c hc)⟩

/-! ## The inductions -/

/-- The names of a tree are in the partition that its root page was checked for. -/
theorem isPrefix_of_partitionMatches {T : PageTree} (h : Verified T) {page : Page} {t : UInt64}
    {q : Bytes} (hdecode : decode T.bytes = .ok (page, t))
    (hmatch : partitionMatches q page = true) {e : Entry} (he : e ∈ T.listing) : q <+: e.name := by
  induction T generalizing page t q with
  | absent => cases hdecode
  | node b f ih =>
    cases page with
    | leaf entries =>
      rw [listing_of_leaf hdecode] at he
      rw [partitionMatches, List.all_eq_true] at hmatch
      exact List.isPrefixOf_iff_prefix.mp (hmatch e he)
    | branch p terminal cs =>
      rw [partitionMatches, List.isPrefixOf_iff_prefix] at hmatch
      rw [listing_of_branch hdecode] at he
      rcases List.mem_append.mp he with he | he
      · have hterminal : ∀ t, terminal = some t → t.validate = .ok () ∧ t.name = p :=
          (decode_eq_ok.mp hdecode).1.2.2.1
        rw [(hterminal e (Option.mem_toList.mp he)).2]
        exact hmatch
      · obtain ⟨c, hc, he⟩ := List.mem_flatMap.mp he
        obtain ⟨hc', received, hreceived, hmatch'⟩ := h.branch hdecode c hc
        exact (hmatch.trans (List.prefix_append p [c.label])).trans
          (ih c.label hc' hreceived hmatch' he)

/-- **The names of a verified tree ascend.** -/
theorem listing_ascending {T : PageTree} (h : Verified T) :
    T.listing.Pairwise fun x y ↦ x.name < y.name := by
  induction h with
  | @node b f page t hdecode hchild hbelow ih =>
    have hvalid := (decode_eq_ok.mp hdecode).1
    cases page with
    | leaf entries =>
      rw [listing_of_leaf (T := .node b f) hdecode]
      exact hvalid.2.2
    | branch p terminal cs =>
      obtain ⟨-, -, hterminal, hasc, -⟩ := hvalid
      have hlist : (cs.flatMap fun c ↦ (f c.label).listing) =
          (cs.map BranchChild.label).flatMap fun l ↦ (f l).listing := by rw [List.flatMap_map]
      rw [listing_of_branch (T := .node b f) hdecode]
      show (_ ++ cs.flatMap fun c ↦ (f c.label).listing).Pairwise _
      rw [hlist]
      refine pairwise_groups (p := p) ?_ ?_ (List.pairwise_map.mpr hasc) ?_ ?_
      · cases terminal with
        | none => exact .nil
        | some t => exact List.pairwise_singleton _ _
      · exact fun e he ↦ (hterminal e (Option.mem_toList.mp he)).2
      · intro l hl
        obtain ⟨c, hc, rfl⟩ := List.mem_map.mp hl
        exact ih c hc
      · intro l hl e he
        obtain ⟨c, hc, rfl⟩ := List.mem_map.mp hl
        obtain ⟨received, hreceived, hmatch⟩ := received_of_verify hdecode hc (hchild c hc)
        exact isPrefix_of_partitionMatches (hbelow c hc) hreceived hmatch he

/-- **A verified tree has as many entries as its root page declares.** -/
theorem length_listing {T : PageTree} (h : Verified T) {page : Page} {t : UInt64}
    (hdecode : decode T.bytes = .ok (page, t)) : T.listing.length = t.toNat := by
  induction h generalizing page t with
  | @node b f page' t' hdecode' hchild hbelow ih =>
    rw [show (PageTree.node b f).bytes = b from rfl, hdecode', Except.ok.injEq,
      Prod.mk.injEq] at hdecode
    obtain ⟨rfl, rfl⟩ := hdecode
    have htotal := (decode_eq_ok.mp hdecode').2.2.2.2
    cases page' with
    | leaf entries =>
      rw [listing_of_leaf (T := .node b f) hdecode', htotal]
      rfl
    | branch p terminal cs =>
      have hcounts : (cs.map fun c ↦ (f c.label).listing.length) =
          cs.map fun c ↦ c.subtreeEntries.toNat := by
        refine List.map_congr_left fun c hc ↦ ?_
        obtain ⟨received, hreceived, -⟩ := received_of_verify hdecode' hc (hchild c hc)
        exact ih c hc hreceived
      rw [listing_of_branch (T := .node b f) hdecode', List.length_append, List.length_flatMap,
        htotal, total, Nat.add_comm, ← hcounts]
      rfl

/-- **A chain is no longer than a name.**  Every edge adds a byte to the prefix, and at the end
there is an entry. -/
theorem length_le_of_chain {T : PageTree} {n : ℕ} (hchain : Chain T n) (h : Verified T)
    {page : Page} {t : UInt64} {q : Bytes} (hdecode : decode T.bytes = .ok (page, t)) (ht : t ≠ 0)
    (hmatch : partitionMatches q page = true) : q.length + n ≤ 255 := by
  induction hchain generalizing page t q with
  | nil T =>
    obtain ⟨hvalid, -, -, -, htotal⟩ := decode_eq_ok.mp hdecode
    cases page with
    | leaf entries =>
      have hpos : 0 < entries.length := by
        have htotal : t.toNat = entries.length := htotal
        have hne : t.toNat ≠ 0 := fun h0 ↦ ht (UInt64.toNat_inj.mp h0)
        omega
      obtain ⟨e, he⟩ := List.exists_mem_of_length_pos hpos
      rw [partitionMatches, List.all_eq_true] at hmatch
      have hpre := (List.isPrefixOf_iff_prefix.mp (hmatch e he)).length_le
      have := Entry.length_name_le (hvalid.2.1 e he)
      omega
    | branch p terminal cs =>
      rw [partitionMatches, List.isPrefixOf_iff_prefix] at hmatch
      have hle := hmatch.length_le
      have hp : p.length ≤ maxDepth := hvalid.1
      rw [maxDepth] at hp
      omega
  | @cons T n p terminal cs t' c hdecode' hc hchain ih =>
    rw [hdecode, Except.ok.injEq, Prod.mk.injEq] at hdecode'
    obtain ⟨rfl, -⟩ := hdecode'
    rw [partitionMatches, List.isPrefixOf_iff_prefix] at hmatch
    obtain ⟨hbelow, received, hreceived, hmatch'⟩ := h.branch hdecode c hc
    have hne : ∀ c ∈ cs, c.subtreeEntries ≠ 0 := (decode_eq_ok.mp hdecode).1.2.2.2.2.1
    have hle := ih hbelow hreceived (hne c hc) hmatch'
    have hlength := hmatch.length_le
    rw [List.length_append, List.length_singleton] at hle
    omega

theorem Verified.of_below {T U : PageTree} (hU : Below T U) (h : Verified T) : Verified U := by
  induction hU with
  | refl T => exact h
  | step hdecode hc hU ih => exact ih (h.branch hdecode _ hc).1

/-- **A fully verified page tree is a well-formed directory**: its names ascend, its entries are as
many as the root declares, every entry below a child begins with the parent's prefix and the label,
and no chain has more than 255 edges. -/
theorem verified_wellFormed (T : PageTree) (h : Verified T) :
    (T.listing.Pairwise fun x y ↦ x.name < y.name) ∧
    (∃ page t, decode T.bytes = .ok (page, t) ∧ T.listing.length = t.toNat) ∧
    (∀ U, Below T U → ∀ p terminal cs t, decode U.bytes = .ok (.branch p terminal cs, t) →
      ∀ c ∈ cs, ∀ e ∈ (U.child c.label).listing, p ++ [c.label] <+: e.name) ∧
    ∀ n, Chain T n → n ≤ 255 := by
  refine ⟨listing_ascending h, ?_, fun U hU p terminal cs t hdecode c hc e he ↦ ?_, fun n hn ↦ ?_⟩
  · cases h with
    | node hdecode hchild hbelow =>
      exact ⟨_, _, hdecode, length_listing ⟨hdecode, hchild, hbelow⟩ hdecode⟩
  · obtain ⟨hbelow, received, hreceived, hmatch⟩ := (h.of_below hU).branch hdecode c hc
    exact isPrefix_of_partitionMatches hbelow hreceived hmatch he
  · cases hn with
    | nil => exact Nat.zero_le _
    | cons hdecode hc hchain =>
      -- the root has a child, which is not empty
      obtain ⟨hbelow, received, hreceived, hmatch⟩ := h.branch hdecode _ hc
      have hne := (decode_eq_ok.mp hdecode).1.2.2.2.2.1
      have hle := length_le_of_chain hchain hbelow hreceived (hne _ hc) hmatch
      rw [List.length_append, List.length_singleton] at hle
      omega

/-- The page of the file `fa`. -/
def pairFile : Page := .leaf [.file .regular "fa".asBytes 1 (.fill 1)]

/-- The page of the directory `g`. -/
def pairDir : Page := .leaf [.dir "g".asBytes (.fill 2)]

/-- A page for both, which `build` would have put in one leaf. -/
def pairPage : Page :=
  .branch [] none
    [⟨102, 1, .ofNat 0x0bc98b0fb1346da6078ca4bd242939584cc12a2d878f7f2f909c82c94bc0dca4⟩,
      ⟨103, 1, .ofNat 0x2df022d7c92b2dd825a5465ee71ed18fc020decd2296829db16095fd852a7863⟩]

/-- The pages below `pairPage` with their SHA-256 digests. -/
def pairTable : List (Bytes × Digest) :=
  [(pageInput pairFile.bytes,
      .ofNat 0x0bc98b0fb1346da6078ca4bd242939584cc12a2d878f7f2f909c82c94bc0dca4),
    (pageInput pairDir.bytes,
      .ofNat 0x2df022d7c92b2dd825a5465ee71ed18fc020decd2296829db16095fd852a7863)]

/-- SHA-256 on the strings of the table. -/
@[reducible] def pairSha256 : Sha256 := .ofTable pairTable

/-- The tree of the three pages. -/
def pairTree : PageTree :=
  .node pairPage.bytes fun l ↦
    .node (if l = 102 then pairFile.bytes else pairDir.bytes) fun _ ↦ .absent

omit [Sha256] in
/-- A tree that is not canonical. -/
theorem verified_wellFormed_pair :
    letI := pairSha256
    Verified pairTree ∧ pairTree.listing.length = 2 ∧
      pairTree.listing.Pairwise fun x y ↦ x.name < y.name := by
  let _ := pairSha256
  have hpage : decode pairTree.bytes = .ok (pairPage, 2) := by decide +kernel
  have hfile : decode pairFile.bytes = .ok (pairFile, 1) := by decide +kernel
  have hdir : decode pairDir.bytes = .ok (pairDir, 1) := by decide +kernel
  have hleaf : ∀ b entries, decode b = .ok (.leaf entries, 1) →
      Verified (.node b fun _ ↦ .absent) := fun b entries hdecode ↦
    .node hdecode (fun c hc ↦ absurd hc List.not_mem_nil) fun c hc ↦ absurd hc List.not_mem_nil
  have hverified : Verified pairTree := by
    refine .node hpage (by decide +kernel) fun c hc ↦ ?_
    split
    · exact hleaf _ _ hfile
    · exact hleaf _ _ hdir
  obtain ⟨hasc, ⟨page, t, hdecode, hlength⟩, -, -⟩ := verified_wellFormed pairTree hverified
  rw [hpage, Except.ok.injEq, Prod.mk.injEq] at hdecode
  obtain ⟨-, rfl⟩ := hdecode
  exact ⟨hverified, hlength, hasc⟩

end verified

end PageTree

end Mst2
