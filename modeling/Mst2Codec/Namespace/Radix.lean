import Mst2Codec.Namespace.Path

/-!
# Radix nodes and component keys

The model of `src/namespace/radix.rs`: the byte form of one node of the binding index, and the key
a path is filed under.

`RadixNode` is a plain record, as the index edits nodes that are not canonical yet; `RadixNode.new`
checks the local shape.  The cursor `&mut &[u8]` of the decoder is passed along explicitly: each
reader returns what it read and the bytes after it.
-/

set_option autoImplicit false

namespace Mst2

open Bytes Except

/-- `NODE_MAX_BYTES` -/
def nodeMaxBytes : ℕ := 16384

/-- `CHILD_MAX_COUNT` -/
def childMaxCount : ℕ := 256

/-- `NODE_DOMAIN` -/
def nodeDomain : Bytes := "mega.namespace-radix.v1\x00".asBytes

/-- A reference to a child node, by the first byte of its label and its digest. -/
structure RadixChild where
  /-- The first byte of the child's label. -/
  edge : UInt8
  /-- The child's identity. -/
  digest : Digest
deriving DecidableEq

/-- A node of the index. -/
structure RadixNode where
  /-- The key bytes from the parent to here. -/
  label : Bytes
  /-- The binding of the key that ends here. -/
  binding : Option Digest
  /-- The children, by ascending edge. -/
  children : List RadixChild
deriving DecidableEq

/-! ## The cursor -/

/-- Read `count` bytes off the input. -/
def take (input : Bytes) (count : ℕ) : CodecResult (Bytes × Bytes) :=
  if count ≤ input.length then .ok (input.take count, input.drop count)
  else .error (.truncated "radix node field")

/-- Read a big-endian `u16`, as a `usize`. -/
def readU16Be (input : Bytes) : CodecResult (ℕ × Bytes) := do
  let (bytes, input) ← take input 2
  pure (ofBe bytes, input)

/-- Read one byte: `take(input, 1)?[0]`. -/
def takeByte (input : Bytes) : CodecResult (UInt8 × Bytes) := do
  let (bytes, input) ← take input 1
  pure (bytes.headD 0, input)

/-- Read a digest. -/
def readDigest (input : Bytes) : CodecResult (Digest × Bytes) := do
  let (bytes, input) ← take input 32
  let digest ← okOr (Digest.ofBytes? bytes) (.truncated "radix node field")
  pure (digest, input)

namespace RadixNode

/-- `pair[0].edge >= pair[1].edge` for no two neighbours. -/
def edgesAscend : List RadixChild → Bool
  | a :: b :: rest => a.edge < b.edge && edgesAscend (b :: rest)
  | _ => true

/-- Validate only the local canonical shape, not the assembled value path. -/
def new (label : Bytes) (binding : Option Digest) (children : List RadixChild) :
    CodecResult RadixNode := do
  reject (label.length > pathMaxBytes) (.badLength "radix label")
  reject (children.length > childMaxCount) (.badLength "radix fanout")
  reject (edgesAscend children = false) (.badOrdering "radix child edges")
  reject (binding = none ∧ (children.length = 1 ∨ (children = [] ∧ label ≠ [])))
    (.badOrdering "noncanonical radix compression")
  pure ⟨label, binding, children⟩

/-- Canonical implicit empty index; it need not have a stored row. -/
def empty : RadixNode := ⟨[], none, []⟩

/-- One row of the child table. -/
def encodeChild (child : RadixChild) : Bytes := child.edge :: child.digest.bytes

/-- The binding behind its presence byte. -/
def encodeBinding : Option Digest → Bytes
  | none => [0]
  | some binding => 1 :: binding.bytes

/-- The bytes of a node. -/
def encode (node : RadixNode) : Bytes :=
  nodeDomain ++ beBytes 2 node.label.length ++ node.label ++ encodeBinding node.binding ++
    beBytes 2 node.children.length ++ node.children.flatMap encodeChild

/-- The presence byte and the binding after it. -/
def decodeBinding (input : Bytes) : CodecResult (Option Digest × Bytes) := do
  let (presence, input) ← takeByte input
  if presence = 0 then pure (none, input)
  else if presence = 1 then do
    let (binding, input) ← readDigest input
    pure (some binding, input)
  else .error (.badConstant "radix binding presence")

/-- The rows of the child table. -/
def decodeChildren : ℕ → Bytes → CodecResult (List RadixChild × Bytes)
  | 0, input => pure ([], input)
  | count + 1, input => do
    let (edge, input) ← takeByte input
    let (digest, input) ← readDigest input
    let (rest, input) ← decodeChildren count input
    pure (⟨edge, digest⟩ :: rest, input)

/-- Parse a node and check its local shape. -/
def decode (bytes : Bytes) : CodecResult RadixNode := do
  reject (bytes.length > nodeMaxBytes) (.badLength "radix node")
  let input ← okOr (bytes.dropPrefix? nodeDomain) (.badConstant "radix domain")
  let (labelLen, input) ← readU16Be input
  reject (labelLen > pathMaxBytes) (.badLength "radix label")
  let (label, input) ← take input labelLen
  let (binding, input) ← decodeBinding input
  let (childCount, input) ← readU16Be input
  reject (childCount > childMaxCount) (.badLength "radix fanout")
  let (children, input) ← decodeChildren childCount input
  reject (input ≠ []) (.badLength "radix trailing bytes")
  new label binding children

/-- The identity of a node. -/
def id [Sha256] (node : RadixNode) : Digest := sha256 node.encode

end RadixNode

/-- `empty_root` -/
def emptyRoot [Sha256] : Digest := RadixNode.empty.id

/-! ## Keys -/

/-- Write `/` as NUL. -/
def slashToZero (byte : UInt8) : UInt8 := if byte = 0x2F then 0 else byte

/-- Write NUL as `/`. -/
def zeroToSlash (byte : UInt8) : UInt8 := if byte = 0 then 0x2F else byte

/-- The key of a path: its components, each followed by a NUL. -/
def encodeKey (path : String) : CodecResult Bytes := do
  validateAbsolutePath path
  if path = "/" then pure []
  else pure ((path.asBytes.drop 1).map slashToZero ++ [0])

/-- Decode a complete value key, never a partial compressed label.  Slashes in encoded keys and a
NUL-only root are rejected as noncanonical encodings. -/
def decodeKey (key : Bytes) : CodecResult String := do
  reject (key.length > pathMaxBytes) (.badLength "radix key")
  if key = [] then pure "/"
  else
    reject (key.getLast? ≠ some 0 ∨ 0x2F ∈ key) (.badName "radix key boundary")
    let path ← okOr (String.ofUtf8 (0x2F :: key.dropLast.map zeroToSlash))
      (.badName "radix key UTF-8")
    validateAbsolutePath path
    let encoded ← encodeKey path
    reject (encoded ≠ key) (.badName "noncanonical radix key")
    pure path

end Mst2
