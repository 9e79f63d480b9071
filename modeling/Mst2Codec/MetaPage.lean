import Mst2Codec.Basic

/-!
# Directory pages

The model of `src/metapage.rs`, the MTP2 codec.  A directory is an ordered list of entries.  A small
one is a single leaf page; a large one is a branch page that names the common prefix of all names
and refers to one page for each byte that comes next, by its digest.

Decoders carry the offset `off` explicitly and return it behind what they read.  Loops that
remember the previous name or label are recursions with that name as an argument.
-/

set_option autoImplicit false

namespace Mst2

open Bytes Except

/-- `LEAF_MAX_ENTRIES` -/
def leafMaxEntries : ℕ := 128

/-- `PAGE_MAX_BYTES` -/
def pageMaxBytes : ℕ := 16384

/-- `BRANCH_MAX_CHILDREN` -/
def branchMaxChildren : ℕ := 256

/-- `MAX_DEPTH` -/
def maxDepth : ℕ := 255

/-- `MAX_TOTAL_ENTRIES` -/
def maxTotalEntries : ℕ := 2 ^ 63 - 1

/-- `DOMAIN` of the page digest. -/
def pageDomain : Bytes := "mega.mst2.metapage\x00".asBytes

/-- `HEADER_LEN` -/
def headerLen : ℕ := 20

/-- The magic of a page. -/
def pageMagic : Bytes := "MTP2".asBytes

/-! ## Entries -/

/-- The kind of a directory entry. -/
inductive EntryKind where
  /-- A file. -/
  | regular
  /-- A file that can be run. -/
  | executable
  /-- A symbolic link. -/
  | symlink
  /-- A directory. -/
  | directory
deriving DecidableEq, Repr

namespace EntryKind

/-- `self.kind as u8` -/
def toU8 : EntryKind → UInt8
  | regular => 1
  | executable => 2
  | symlink => 3
  | directory => 4

/-- `from_u8` -/
def fromU8 (v : UInt8) : CodecResult EntryKind :=
  if v = 1 then .ok regular
  else if v = 2 then .ok executable
  else if v = 3 then .ok symlink
  else if v = 4 then .ok directory
  else .error (.badConstant "entry kind")

end EntryKind

/-- A directory entry.  Files carry `size` and `contentId`, directories `childRoot`. -/
@[ext] structure Entry where
  /-- The kind. -/
  kind : EntryKind
  /-- The basename. -/
  name : Bytes
  /-- The size of a file. -/
  size : UInt64
  /-- The identity of a file's content. -/
  contentId : Digest
  /-- The page identity of a directory's root. -/
  childRoot : Digest
deriving DecidableEq

namespace Entry

/-- `Entry::file` -/
def file (kind : EntryKind) (name : Bytes) (size : UInt64) (contentId : Digest) : Entry :=
  ⟨kind, name, size, contentId, .zero⟩

/-- `Entry::dir` -/
def dir (name : Bytes) (childRoot : Digest) : Entry := ⟨.directory, name, 0, .zero, childRoot⟩

/-- `is_dir` -/
def isDir (e : Entry) : Bool := e.kind = .directory

/-- `encoded_len` -/
def encodedLen (e : Entry) : ℕ :=
  if e.isDir then 1 + 2 + e.name.length + 32 else 1 + 2 + e.name.length + 8 + 32

/-- `validate` -/
def validate (e : Entry) : CodecResult Unit := do
  validateName e.name
  if e.isDir then
    reject (e.childRoot = .zero) (.digestMismatch "directory child_root is all-zero")
  else
    reject (e.name = ".".asBytes ∨ e.name = "..".asBytes) (.badName "dot entry")

/-- What follows the name of an entry. -/
def body (e : Entry) : Bytes :=
  if e.isDir then e.childRoot.bytes else writeU64 e.size ++ e.contentId.bytes

/-- `encode` -/
def encode (e : Entry) : CodecResult Bytes := do
  e.validate
  pure (e.kind.toU8 :: writeU16 (UInt16.ofNat e.name.length) ++ e.name ++ e.body)

/-- The fields after the name: those the kind does not have are zero. -/
def decodeBody (kind : EntryKind) (name : Bytes) (buf : Bytes) (off : ℕ) :
    CodecResult (Entry × ℕ) :=
  if kind = .directory then do
    let childRoot ← readDigestAt "child_root" buf off
    pure (⟨kind, name, 0, .zero, childRoot⟩, off + 32)
  else do
    let size ← readU64 buf off
    let contentId ← readDigestAt "content_id" buf (off + 8)
    pure (⟨kind, name, size, contentId, .zero⟩, off + 8 + 32)

/-- `decode` -/
def decode (buf : Bytes) (off : ℕ) : CodecResult (Entry × ℕ) := do
  let v ← okOr buf[off]? (.truncated "entry kind")
  let kind ← EntryKind.fromU8 v
  let nameLen ← readU16 buf (off + 1)
  let name ← okOr (slice? buf (off + 3) nameLen.toNat) (.truncated "entry name")
  validateName name
  let (entry, off) ← decodeBody kind name buf (off + 3 + nameLen.toNat)
  entry.validate
  pure (entry, off)

end Entry

/-! ## Pages -/

/-- A reference to the page of a group of entries. -/
structure BranchChild where
  /-- The byte after the common prefix. -/
  label : UInt8
  /-- The number of entries of the group. -/
  subtreeEntries : UInt64
  /-- The identity of the group's page. -/
  childPageId : Digest
deriving DecidableEq

/-- A decoded page. -/
inductive Page where
  /-- All entries of a small directory. -/
  | leaf (entries : List Entry)
  /-- The groups of a large directory. -/
  | branch (pre : Bytes) (terminal : Option Entry) (children : List BranchChild)
deriving DecidableEq

/-- What `page_id` hashes. -/
def pageInput (pageBytes : Bytes) : Bytes := pageDomain ++ pageBytes

/-- `page_id` -/
def pageId [Sha256] (pageBytes : Bytes) : Digest := sha256 (pageInput pageBytes)

/-- `a.checked_add(b)` -/
def checkedAdd (a b : UInt64) (what : String) : CodecResult UInt64 :=
  if a.toNat + b.toNat < 2 ^ 64 then .ok (a + b) else .error (.overflow what)

namespace Page

/-! ### Decoding -/

/-- The entries of a leaf, each with a larger name than the one before. -/
def decodeEntries (payload : Bytes) : ℕ → ℕ → Option Bytes → CodecResult (List Entry × ℕ)
  | 0, off, _ => pure ([], off)
  | n + 1, off, prev => do
    let (e, off) ← Entry.decode payload off
    reject (prev.any fun p ↦ ¬ p < e.name)
      (.badOrdering "leaf entries must be strictly ascending by name bytes")
    let (entries, off) ← decodeEntries payload n off (some e.name)
    pure (e :: entries, off)

/-- The payload of a leaf. -/
def decodeLeaf (n : ℕ) (totalEntries : UInt64) (payload : Bytes) : CodecResult (Page × UInt64) := do
  reject (n > leafMaxEntries) (.badLength "leaf over 128 entries")
  reject (totalEntries.toNat ≠ n) (.badOrdering "leaf total_entries must equal n")
  let (entries, off) ← decodeEntries payload n 0 none
  reject (off ≠ payload.length) (.badLength "trailing bytes in leaf payload")
  pure (.leaf entries, totalEntries)

/-- The entry named by the prefix of a branch, if there is one. -/
def decodeTerminal (payload : Bytes) (off : ℕ) (hasTerminal : UInt8) (pre : Bytes) :
    CodecResult (Option Entry × ℕ) :=
  if hasTerminal = 1 then do
    let (e, off) ← Entry.decode payload off
    reject (e.name ≠ pre) (.badOrdering "terminal entry name must equal prefix")
    pure (some e, off)
  else pure (none, off)

/-- The child table of a branch, each label larger than the one before. -/
def decodeChildren (payload : Bytes) :
    ℕ → ℕ → Option UInt8 → CodecResult (List BranchChild × ℕ)
  | 0, off, _ => pure ([], off)
  | n + 1, off, prevLabel => do
    let label ← okOr payload[off]? (.truncated "branch child")
    reject (prevLabel.any fun p ↦ label ≤ p)
      (.badOrdering "branch child labels must be strictly ascending")
    let subtreeEntries ← readU64 payload (off + 1)
    reject (subtreeEntries = 0) (.badOrdering "branch child must be non-empty")
    let childPageId ← readDigestAt "child_page_id" payload (off + 1 + 8)
    let (children, off) ← decodeChildren payload n (off + 1 + 8 + 32) (some label)
    pure (⟨label, subtreeEntries, childPageId⟩ :: children, off)

/-- The sum of the counts of a child table, which must not overflow. -/
def sumCounts (what : String) : UInt64 → List BranchChild → CodecResult UInt64
  | sum, [] => pure sum
  | sum, child :: children => do
    let sum ← checkedAdd sum child.subtreeEntries what
    sumCounts what sum children

/-- The payload of a branch. -/
def decodeBranch (n : ℕ) (totalEntries : UInt64) (payload : Bytes) :
    CodecResult (Page × UInt64) := do
  let prefixLen ← readU16 payload 0
  reject (prefixLen.toNat > maxDepth) (.badLength "branch prefix over 255 bytes")
  let pre ← okOr (slice? payload 2 prefixLen.toNat) (.truncated "branch prefix")
  let hasTerminal ← okOr payload[2 + prefixLen.toNat]? (.truncated "has_terminal")
  reject (hasTerminal > 1) (.badConstant "has_terminal must be 0 or 1")
  let (terminal, off) ← decodeTerminal payload (2 + prefixLen.toNat + 1) hasTerminal pre
  reject (n > branchMaxChildren) (.badLength "branch over 256 children")
  let (children, off) ← decodeChildren payload n off none
  reject (off ≠ payload.length) (.badLength "trailing bytes in branch payload")
  reject (children.length + hasTerminal.toNat < 2)
    (.badOrdering "branch needs at least two groups (terminal counts as one)")
  let declared ← sumCounts "branch child counts" 0 children
  let expected ← checkedAdd declared hasTerminal.toUInt64 "total_entries"
  reject (expected ≠ totalEntries)
    (.badOrdering "branch total_entries != terminal + sum(children)")
  pure (.branch pre terminal children, totalEntries)

/-- `decode` -/
def decode (pageBytes : Bytes) : CodecResult (Page × UInt64) := do
  reject (pageBytes.length < headerLen) (.truncated "page header")
  reject (pageBytes.length > pageMaxBytes) (.badLength "page over 16KiB")
  reject (pageBytes.take 4 ≠ pageMagic) (.badConstant "MTP2 magic")
  let pageKind := pageBytes.getD 4 0
  reject (pageBytes.getD 5 0 ≠ 0) (.badConstant "page flags must be zero")
  let n ← readU16 pageBytes 6
  let totalEntries ← readU64 pageBytes 8
  reject (totalEntries.toNat > maxTotalEntries) (.badLength "total_entries over 2^63-1")
  let payloadLen ← readU32 pageBytes 16
  reject (pageBytes.length ≠ headerLen + payloadLen.toNat)
    (.badLength "payload_len must cover exactly the page")
  let payload := pageBytes.drop headerLen
  if pageKind = 0 then decodeLeaf n.toNat totalEntries payload
  else if pageKind = 1 then decodeBranch n.toNat totalEntries payload
  else .error (.badConstant "page_kind")

/-! ### Encoding -/

/-- The payload of a leaf. -/
def encodeEntries : Option Bytes → List Entry → CodecResult Bytes
  | _, [] => pure []
  | prev, e :: entries => do
    e.validate
    reject (prev.any fun p ↦ ¬ p < e.name) (.badOrdering "leaf entries not strictly ascending")
    let bytes ← e.encode
    let rest ← encodeEntries (some e.name) entries
    pure (bytes ++ rest)

/-- The terminal behind its presence byte. -/
def encodeTerminal (pre : Bytes) : Option Entry → CodecResult Bytes
  | none => pure [0]
  | some t => do
    t.validate
    reject (t.name ≠ pre) (.badOrdering "terminal name must equal prefix")
    let bytes ← t.encode
    pure (1 :: bytes)

/-- One row of the child table. -/
def encodeChild (child : BranchChild) : Bytes :=
  child.label :: writeU64 child.subtreeEntries ++ child.childPageId.bytes

/-- The child table, and the sum of the counts. -/
def encodeChildren : Option UInt8 → UInt64 → List BranchChild → CodecResult (Bytes × UInt64)
  | _, sum, [] => pure ([], sum)
  | prevLabel, sum, child :: children => do
    reject (prevLabel.any fun p ↦ child.label ≤ p)
      (.badOrdering "child labels not strictly ascending")
    reject (child.subtreeEntries = 0) (.badOrdering "branch child must be non-empty")
    let sum ← checkedAdd sum child.subtreeEntries "sum"
    let (rest, sum) ← encodeChildren (some child.label) sum children
    pure (encodeChild child ++ rest, sum)

/-- The header in front of the payload. -/
def frame (kind : UInt8) (n : ℕ) (total : UInt64) (payload : Bytes) : Bytes :=
  pageMagic ++ [kind, 0] ++ writeU16 (UInt16.ofNat n) ++ writeU64 total ++
    writeU32 (UInt32.ofNat payload.length) ++ payload

/-- The last check of `encode`. -/
def finish (kind : UInt8) (n : ℕ) (total : UInt64) (payload : Bytes) : CodecResult Bytes := do
  let out := frame kind n total payload
  reject (out.length > pageMaxBytes) (.badLength "page over 16KiB")
  pure out

/-- `terminal.is_some() as u64` -/
def terminalCount (terminal : Option Entry) : UInt64 := if terminal.isSome then 1 else 0

/-- `encode` -/
def encode : Page → CodecResult Bytes
  | .leaf entries => do
    reject (entries.length > leafMaxEntries) (.badLength "leaf over 128 entries")
    let payload ← encodeEntries none entries
    finish 0 entries.length (UInt64.ofNat entries.length) payload
  | .branch pre terminal children => do
    reject (pre.length > maxDepth) (.badLength "branch prefix over 255 bytes")
    reject (children.length > branchMaxChildren) (.badLength "branch over 256 children")
    let terminalBytes ← encodeTerminal pre terminal
    let (childBytes, sum) ← encodeChildren none 0 children
    reject (children.length + (terminalCount terminal).toNat < 2)
      (.badOrdering "branch needs at least two groups")
    let total ← checkedAdd sum (terminalCount terminal) "total_entries"
    reject (total.toNat > maxTotalEntries) (.badLength "total_entries over 2^63-1")
    finish 1 children.length total
      (writeU16 (UInt16.ofNat pre.length) ++ pre ++ terminalBytes ++ childBytes)

/-! ### Building the canonical tree -/

/-- The inner loop of `lcp`: the first of `len` bytes in which two names differ, or `len`. -/
def matchLen : ℕ → Bytes → Bytes → ℕ
  | len + 1, a :: as, b :: bs => if a = b then matchLen len as bs + 1 else 0
  | len, _, _ => len

/-- `lcp`.  The source indexes the first name, so it is never called without names. -/
def lcp : List Bytes → Bytes
  | [] => []
  | first :: names =>
    first.take (names.foldl (fun len n ↦ matchLen (min len n.length) first n) first.length)

/-- The check in front of `build`: every entry is valid and has a larger name than the one
before. -/
def checkInput : Option Bytes → List Entry → CodecResult Unit
  | _, [] => pure ()
  | prev, e :: entries => do
    e.validate
    reject (prev.any fun p ↦ ¬ p < e.name) (.badOrdering "build input must be strictly ascending")
    checkInput (some e.name) entries

/-- `groups.last_mut()`: put an entry in the last group if it has that label, or in a new one. -/
def pushGroup (groups : List (UInt8 × List Entry)) (label : UInt8) (e : Entry) :
    List (UInt8 × List Entry) :=
  match groups.getLast? with
  | some (l, group) =>
    if l = label then groups.dropLast ++ [(l, group ++ [e])] else groups ++ [(label, [e])]
  | none => [(label, [e])]

/-- The loop that partitions the entries by the byte after the prefix `p`. -/
def partition (p : Bytes) :
    List (UInt8 × List Entry) → List Entry → CodecResult (List (UInt8 × List Entry))
  | groups, [] => pure groups
  | groups, e :: entries =>
    if e.name = p then partition p groups entries
    else do
      let label ← okOr e.name[p.length]? (.badOrdering "entry shorter than LCP")
      partition p (pushGroup groups label e) entries

/-- The leaf page of a directory, if it is small enough for one. -/
def leafBytes (entries : List Entry) : Option Bytes :=
  if entries.length ≤ leafMaxEntries then
    match encode (.leaf entries) with
    | .ok bytes => if bytes.length ≤ pageMaxBytes then some bytes else none
    | .error _ => none
  else none

end Page

end Mst2
