import Mst2Codec.Checked.Readers
import Mst2Codec.MetaPage.Codec
import Mst2Codec.MetaPage.Build

/-!
# Checked decoding of pages

`Entry::decode`, `Page::decode` and `Page::verify_received_child` of `src/metapage.rs`, operation by
operation.
-/

set_option autoImplicit false

namespace Mst2

namespace Checked

open Bytes Machine

/-! ## Entries -/

/-- The fields after the name. -/
def Entry.decodeBody (kind : EntryKind) (name : Bytes) (buf : Bytes) (off : ℕ) :
    Run (Entry × ℕ) :=
  if kind = .directory then do
    let childRoot ← readDigestAt "child_root" buf off
    let off ← add 64 off 32
    pure (⟨kind, name, 0, .zero, childRoot⟩, off)
  else do
    let size ← readU64 buf off
    let off ← add 64 off 8
    let contentId ← readDigestAt "content_id" buf off
    let off ← add 64 off 32
    pure (⟨kind, name, size, contentId, .zero⟩, off)

/-- `Entry::decode` -/
def Entry.decode (buf : Bytes) (off : ℕ) : Run (Entry × ℕ) := do
  reject (buf.length ≤ off) (.truncated "entry kind")
  let v ← index buf off
  let kind ← lift (EntryKind.fromU8 v)
  let off ← add 64 off 1
  let nameLen ← readU16 buf off
  let off ← add 64 off 2
  reject (¬ nameLen.toNat + off < 2 ^ 64) (.overflow "name end")
  let nameEnd := nameLen.toNat + off
  let name ← okOr (getRange buf off nameEnd) (.truncated "entry name")
  lift (validateName name)
  let (entry, off) ← Entry.decodeBody kind name buf nameEnd
  lift entry.validate
  pure (entry, off)

theorem Entry.decodeBody_eq {kind : EntryKind} {name buf : Bytes} {off : ℕ}
    (h : off + 64 < 2 ^ 64) :
    Entry.decodeBody kind name buf off = lift (Mst2.Entry.decodeBody kind name buf off) := by
  rw [← sim_eq_iff, decodeBody, Mst2.Entry.decodeBody]
  split
  · exact sim_readDigestAt (by omega) fun childRoot ↦ .add (by omega) (.ok rfl)
  · refine sim_readU64 (by omega) fun size ↦ .add (by omega) ?_
    exact sim_readDigestAt (by omega) fun contentId ↦ .add (by omega) (.ok rfl)

theorem Entry.decode_eq {buf : Bytes} (hbuf : buf.length < 2 ^ 63) (off : ℕ) :
    Entry.decode buf off = lift (Mst2.Entry.decode buf off) := by
  rw [← sim_eq_iff, decode, Mst2.Entry.decode]
  refine .rejectIndex fun v hv ↦ ?_
  have hoff := (List.getElem?_eq_some_iff.mp hv).1
  refine .lift fun kind _ ↦ .add (by omega) ?_
  refine sim_readU16 (by omega) fun nameLen ↦ .add (by omega) ?_
  have hlen := nameLen.toNat_lt
  refine .pass (by omega) ?_
  dsimp only
  rw [Nat.add_comm nameLen.toNat, getRange_eq_slice?]
  refine .okOr fun name hname ↦ .lift fun _ _ ↦ ?_
  have hend := le_of_slice? hname
  rw [Entry.decodeBody_eq (by omega)]
  exact .liftPair fun entry off' _ ↦ .lift fun _ _ ↦ .ok rfl

/-! ## Pages -/

/-- The entries of a leaf. -/
def Page.decodeEntries (payload : Bytes) : ℕ → ℕ → Option Bytes → Run (List Entry × ℕ)
  | 0, off, _ => pure ([], off)
  | n + 1, off, prev => do
    let (e, off) ← Entry.decode payload off
    reject (prev.any fun p ↦ ¬ p < e.name)
      (.badOrdering "leaf entries must be strictly ascending by name bytes")
    let (entries, off) ← Page.decodeEntries payload n off (some e.name)
    pure (e :: entries, off)

/-- The payload of a leaf. -/
def Page.decodeLeaf (n : ℕ) (totalEntries : UInt64) (payload : Bytes) : Run (Page × UInt64) := do
  reject (n > leafMaxEntries) (.badLength "leaf over 128 entries")
  reject (totalEntries.toNat ≠ n) (.badOrdering "leaf total_entries must equal n")
  let (entries, off) ← Page.decodeEntries payload n 0 none
  reject (off ≠ payload.length) (.badLength "trailing bytes in leaf payload")
  pure (.leaf entries, totalEntries)

/-- The entry named by the prefix of a branch, if there is one. -/
def Page.decodeTerminal (payload : Bytes) (off : ℕ) (hasTerminal : UInt8) (pre : Bytes) :
    Run (Option Entry × ℕ) :=
  if hasTerminal = 1 then do
    let (e, off) ← Entry.decode payload off
    reject (e.name ≠ pre) (.badOrdering "terminal entry name must equal prefix")
    pure (some e, off)
  else pure (none, off)

/-- The child table of a branch. -/
def Page.decodeChildren (payload : Bytes) :
    ℕ → ℕ → Option UInt8 → Run (List BranchChild × ℕ)
  | 0, off, _ => pure ([], off)
  | n + 1, off, prevLabel => do
    reject (payload.length ≤ off) (.truncated "branch child")
    let label ← index payload off
    let off ← add 64 off 1
    reject (prevLabel.any fun p ↦ label ≤ p)
      (.badOrdering "branch child labels must be strictly ascending")
    let subtreeEntries ← readU64 payload off
    reject (subtreeEntries = 0) (.badOrdering "branch child must be non-empty")
    let off ← add 64 off 8
    let childPageId ← readDigestAt "child_page_id" payload off
    let off ← add 64 off 32
    let (children, off) ← Page.decodeChildren payload n off (some label)
    pure (⟨label, subtreeEntries, childPageId⟩ :: children, off)

/-- The payload of a branch. -/
def Page.decodeBranch (n : ℕ) (totalEntries : UInt64) (payload : Bytes) :
    Run (Page × UInt64) := do
  let off := 0
  let prefixLen ← readU16 payload off
  let off ← add 64 off 2
  reject (prefixLen.toNat > maxDepth) (.badLength "branch prefix over 255 bytes")
  let hi ← add 64 off prefixLen.toNat
  let pre ← okOr (getRange payload off hi) (.truncated "branch prefix")
  let off ← add 64 off prefixLen.toNat
  reject (payload.length ≤ off) (.truncated "has_terminal")
  let hasTerminal ← index payload off
  let off ← add 64 off 1
  reject (hasTerminal > 1) (.badConstant "has_terminal must be 0 or 1")
  let (terminal, off) ← Page.decodeTerminal payload off hasTerminal pre
  reject (n > branchMaxChildren) (.badLength "branch over 256 children")
  let (children, off) ← Page.decodeChildren payload n off none
  reject (off ≠ payload.length) (.badLength "trailing bytes in branch payload")
  let groups ← add 64 children.length hasTerminal.toNat
  reject (groups < 2) (.badOrdering "branch needs at least two groups (terminal counts as one)")
  let declared ← lift (Page.sumCounts "branch child counts" 0 children)
  let expected ← lift (checkedAdd declared hasTerminal.toUInt64 "total_entries")
  reject (expected ≠ totalEntries)
    (.badOrdering "branch total_entries != terminal + sum(children)")
  pure (.branch pre terminal children, totalEntries)

/-- `Page::decode` -/
def Page.decode (pageBytes : Bytes) : Run (Page × UInt64) := do
  reject (pageBytes.length < headerLen) (.truncated "page header")
  reject (pageBytes.length > pageMaxBytes) (.badLength "page over 16KiB")
  let magic ← range pageBytes 0 4
  reject (magic ≠ pageMagic) (.badConstant "MTP2 magic")
  let pageKind ← index pageBytes 4
  let flags ← index pageBytes 5
  reject (flags ≠ 0) (.badConstant "page flags must be zero")
  let n ← readU16 pageBytes 6
  let totalEntries ← readU64 pageBytes 8
  reject (totalEntries.toNat > maxTotalEntries) (.badLength "total_entries over 2^63-1")
  let payloadLen ← readU32 pageBytes 16
  let len ← add 64 headerLen payloadLen.toNat
  reject (pageBytes.length ≠ len) (.badLength "payload_len must cover exactly the page")
  let payload ← rangeFrom pageBytes headerLen
  if pageKind = 0 then Page.decodeLeaf n.toNat totalEntries payload
  else if pageKind = 1 then Page.decodeBranch n.toNat totalEntries payload
  else lift (.error (.badConstant "page_kind"))

/-- `Page::verify_received_child` -/
def Page.verifyReceivedChild [Sha256] (parentPageBytes : Bytes) (label : UInt8)
    (receivedPageBytes : Bytes) : Run Unit := do
  let (parent, _) ← Page.decode parentPageBytes
  let (pre, children) ← lift (Page.branchParts "cannot verify a child of a leaf page" parent)
  let child ← okOr (children.find? fun c ↦ c.label = label)
    (.badOrdering "label not present in parent")
  reject (pageId receivedPageBytes ≠ child.childPageId)
    (.digestMismatch "received page does not match parent's child_page_id")
  let (received, totalEntries) ← Page.decode receivedPageBytes
  reject (totalEntries ≠ child.subtreeEntries)
    (.badOrdering "received child count does not match parent")
  reject (Page.partitionMatches (pre ++ [label]) received = false)
    (.badOrdering "received child outside parent prefix/label partition")

section

variable {payload : Bytes} (hlen : payload.length < 2 ^ 63)

include hlen

theorem Page.decodeEntries_eq (n off : ℕ) (prev : Option Bytes) :
    Page.decodeEntries payload n off prev =
      lift (Mst2.Page.decodeEntries payload n off prev) := by
  rw [← sim_eq_iff]
  induction n generalizing off prev with
  | zero => exact .ok rfl
  | succ n ih =>
    rw [decodeEntries, Mst2.Page.decodeEntries, Entry.decode_eq hlen]
    exact .liftPair fun e off _ ↦ .reject fun _ ↦
      (ih off (some e.name)).andThenPair fun entries off ↦ .ok rfl

theorem Page.decodeLeaf_eq (n : ℕ) (totalEntries : UInt64) :
    Page.decodeLeaf n totalEntries payload =
      lift (Mst2.Page.decodeLeaf n totalEntries payload) := by
  rw [← sim_eq_iff, decodeLeaf, Mst2.Page.decodeLeaf]
  refine .reject fun _ ↦ .reject fun _ ↦ ?_
  rw [Page.decodeEntries_eq hlen]
  exact .liftPair fun entries off _ ↦ .reject fun _ ↦ .ok rfl

theorem Page.decodeTerminal_eq (off : ℕ) (hasTerminal : UInt8) (pre : Bytes) :
    Page.decodeTerminal payload off hasTerminal pre =
      lift (Mst2.Page.decodeTerminal payload off hasTerminal pre) := by
  rw [← sim_eq_iff, decodeTerminal, Mst2.Page.decodeTerminal]
  split
  · rw [Entry.decode_eq hlen]
    exact .liftPair fun e off _ ↦ .reject fun _ ↦ .ok rfl
  · exact .ok rfl

theorem Page.decodeChildren_eq (n off : ℕ) (prevLabel : Option UInt8) :
    Page.decodeChildren payload n off prevLabel =
      lift (Mst2.Page.decodeChildren payload n off prevLabel) := by
  rw [← sim_eq_iff]
  induction n generalizing off prevLabel with
  | zero => exact .ok rfl
  | succ n ih =>
    rw [decodeChildren, Mst2.Page.decodeChildren]
    refine .rejectIndex fun label hlabel ↦ ?_
    have hoff := (List.getElem?_eq_some_iff.mp hlabel).1
    refine .add (by omega) (.reject fun _ ↦ ?_)
    refine sim_readU64 (by omega) fun subtreeEntries ↦ .reject fun _ ↦ .add (by omega) ?_
    exact sim_readDigestAt (by omega) fun childPageId ↦ .add (by omega)
      ((ih _ _).andThenPair fun children off ↦ .ok rfl)

omit hlen in
theorem length_of_decodeChildren {n off off' : ℕ} {prevLabel : Option UInt8}
    {children : List BranchChild}
    (h : Mst2.Page.decodeChildren payload n off prevLabel = .ok (children, off')) :
    children.length = n := by
  induction n generalizing off prevLabel children with
  | zero =>
    obtain ⟨rfl, -⟩ := Prod.mk.inj (Except.ok.inj h)
    rfl
  | succ n ih =>
    rw [Mst2.Page.decodeChildren] at h
    simp only [Except.bind_eq_ok] at h
    obtain ⟨label, -, -, -, subtreeEntries, -, -, -, childPageId, -, ⟨rest, off''⟩, hrest, h⟩ := h
    obtain ⟨rfl, rfl⟩ := Prod.mk.inj (Except.ok.inj h)
    rw [List.length_cons, ih hrest]

theorem Page.decodeBranch_eq (n : ℕ) (totalEntries : UInt64) :
    Page.decodeBranch n totalEntries payload =
      lift (Mst2.Page.decodeBranch n totalEntries payload) := by
  rw [← sim_eq_iff, decodeBranch, Mst2.Page.decodeBranch]
  dsimp only
  refine sim_readU16 (by omega) fun prefixLen ↦ .add (by omega) (.reject fun hdepth ↦ ?_)
  rw [maxDepth, Nat.not_lt] at hdepth
  refine .add (by omega) ?_
  rw [getRange_eq_slice?]
  refine .okOr fun pre _ ↦ .add (by omega) (.rejectIndex fun hasTerminal _ ↦ .add (by omega)
    (.reject fun hflag ↦ ?_))
  rw [Page.decodeTerminal_eq hlen]
  refine .liftPair fun terminal off _ ↦ .reject fun hn ↦ ?_
  rw [Page.decodeChildren_eq hlen]
  refine .liftPair fun children off' hchildren ↦ .reject fun _ ↦ ?_
  have hcount := hasTerminal.toNat_lt
  have hchildren := length_of_decodeChildren hchildren
  rw [branchMaxChildren] at hn
  dsimp only
  exact .add (by omega) (.reject fun _ ↦ .lift fun declared _ ↦ .lift fun expected _ ↦
    .reject fun _ ↦ .ok rfl)

end

theorem Page.decode_eq (pageBytes : Bytes) :
    Page.decode pageBytes = lift (Mst2.Page.decode pageBytes) := by
  rw [← sim_eq_iff, decode, Mst2.Page.decode]
  refine .reject fun hlen ↦ .reject fun hmax ↦ ?_
  rw [headerLen, Nat.not_lt] at hlen
  rw [pageMaxBytes, Nat.not_lt] at hmax
  refine .range (by omega) (by omega) (.reject fun _ ↦ .indexD 0 (by omega)
    (.indexD 0 (by omega) (.reject fun _ ↦ ?_)))
  refine sim_readU16 (by omega) fun n ↦ ?_
  refine sim_readU64 (by omega) fun totalEntries ↦ .reject fun _ ↦ ?_
  refine sim_readU32 (by omega) fun payloadLen ↦ ?_
  have hpayload := payloadLen.toNat_lt
  refine .add (by rw [headerLen]; omega) (.reject fun _ ↦ .rangeFrom hlen ?_)
  dsimp only
  have hpayloadLen : (pageBytes.drop headerLen).length < 2 ^ 63 := by
    rw [List.length_drop]
    omega
  split
  · exact sim_eq_iff.mpr (Page.decodeLeaf_eq hpayloadLen _ _)
  split
  · exact sim_eq_iff.mpr (Page.decodeBranch_eq hpayloadLen _ _)
  · exact sim_lift _

theorem Page.verifyReceivedChild_eq [Sha256] (parentPageBytes : Bytes) (label : UInt8)
    (receivedPageBytes : Bytes) :
    Page.verifyReceivedChild parentPageBytes label receivedPageBytes =
      lift (Mst2.Page.verifyReceivedChild parentPageBytes label receivedPageBytes) := by
  rw [← sim_eq_iff, verifyReceivedChild, Mst2.Page.verifyReceivedChild, Page.decode_eq]
  refine .liftPair fun parent _ _ ↦ .liftPair fun pre children _ ↦ .okOr fun child _ ↦
    .reject fun _ ↦ ?_
  rw [Page.decode_eq]
  exact .liftPair fun received totalEntries _ ↦ .reject fun _ ↦ sim_lift _

end Checked

end Mst2
