import Mst2Codec.Namespace.Radix.Codec
import Mst2Codec.Namespace.Radix.Keys
import Mst2Codec.Library.Prog

/-!
# The binding index

The model of `src/namespace/radix/index.rs`.  The operations of `RadixIndex` read and write nodes
through a store they know nothing about, so they are programs that make requests: `IndexM` is
`Prog` over the two methods of the trait `NodeStore`, and `NodeStore.env` runs such a program
against an implementation of the trait.  Every answer that is an error ends the program with it, as
`?` does.

The loops are recursions.  Their variable `offset` splits the key, and it is carried as the two
halves: `done` is `&key[..offset]` and `rest` is `&key[offset..]`.  A loop goes on only below a node
that was loaded under an edge, and `load` returns such a node together with the fact that its label
begins with that edge; this is what makes `rest` shorter and the recursions well-founded.
-/

set_option autoImplicit false

namespace Mst2

open Bytes Except

/-! ## Errors and stores -/

/-- `IndexError` -/
inductive IndexError where
  /-- A codec error. -/
  | codec (error : CodecError)
  /-- The store is unavailable. -/
  | store (message : String)
deriving DecidableEq, Repr

/-- `IndexResult` -/
abbrev IndexResult := Except IndexError

/-- `NodeStore`, as a machine whose state is `σ`. -/
structure NodeStore (σ : Type) where
  /-- `read` -/
  read : σ → Digest → IndexResult Bytes × σ
  /-- `insert` -/
  insert : σ → Digest → Bytes → IndexResult Unit × σ

/-- A call of a store method. -/
inductive Request where
  /-- `store.read(id)` -/
  | read (id : Digest)
  /-- `store.insert(id, bytes)` -/
  | insert (id : Digest) (bytes : Bytes)
deriving DecidableEq

/-- What a store method returns. -/
@[reducible] def Answer : Request → Type
  | .read _ => IndexResult Bytes
  | .insert _ _ => IndexResult Unit

/-- A store answers requests. -/
def NodeStore.env {σ : Type} (S : NodeStore σ) : Env Request Answer σ where
  answer
    | .read id, s => S.read s id
    | .insert id bytes, s => S.insert s id bytes

/-- Programs over a node store. -/
abbrev IndexM := Prog IndexError Request Answer

namespace RadixIndex

/-- `self.store.read(id)?` -/
def readNode (id : Digest) : IndexM Bytes := .call (.read id) .ofExcept

/-- `self.store.insert(id, bytes)?` -/
def insertNode (id : Digest) (bytes : Bytes) : IndexM Unit := .call (.insert id bytes) .ofExcept

/-- `?` on a codec result: `From<CodecError> for IndexError`. -/
def ofCodec {α : Type} (x : CodecResult α) : IndexM α := .ofExcept (x.mapError .codec)

/-! ## Helper functions -/

/-- `joined_key` -/
def joinedKey (pre label : Bytes) : IndexM Bytes := do
  ofCodec (reject (pre.length + label.length > pathMaxBytes) (.badLength "radix assembled key"))
  pure (pre ++ label)

/-- `validate_position` -/
def validatePosition (pre : Bytes) (node : RadixNode) : IndexM Unit := do
  let assembled ← joinedKey pre node.label
  if node.binding.isSome then
    let _ ← ofCodec (decodeKey assembled)
    pure ()
  else pure ()

/-- `children.binary_search_by_key(&edge, ..)` on children sorted by edge: the index of the edge, or
the index where it is to be inserted. -/
def binarySearch (children : List RadixChild) (edge : UInt8) : Except ℕ ℕ :=
  let index := (children.takeWhile fun child ↦ child.edge < edge).length
  if children[index]?.any fun child ↦ child.edge = edge then .ok index else .error index

/-- `set_child` -/
def setChild (children : List RadixChild) (edge : UInt8) (digest : Option Digest) :
    List RadixChild :=
  match binarySearch children edge, digest with
  | .ok index, some digest => children.modify index fun child ↦ { child with digest := digest }
  | .ok index, none => children.eraseIdx index
  | .error index, some digest => children.insertIdx index ⟨edge, digest⟩
  | .error _, none => children

/-- `required_id` -/
def requiredId (id : Option Digest) : IndexM Digest :=
  ofCodec (okOr id (.badOrdering "unexpected empty radix replacement"))

/-! ## Loading and saving nodes -/

variable [Sha256]

/-- The label of a node loaded under an edge begins with that edge. -/
def EdgeOk (edge : Option UInt8) (node : RadixNode) : Prop :=
  ∀ e, edge = some e → node.label.head? = some e

instance (edge : Option UInt8) (node : RadixNode) : Decidable (EdgeOk edge node) :=
  match edge with
  | none => isTrue (by simp [EdgeOk])
  | some e => decidable_of_iff (node.label.head? = some e) (by simp [EdgeOk])

omit [Sha256] in
/-- The loops go on with a shorter rest, or from the root to a node under an edge. -/
theorem length_lt_of_edgeOk {edge : Option UInt8} {node : RadixNode} (hnode : EdgeOk edge node)
    {rest suffix : Bytes} {e : UInt8} (h : rest.drop node.label.length = e :: suffix) :
    (e :: suffix).length + (if (some e).isSome then 0 else 1) <
      rest.length + if edge.isSome then 0 else 1 := by
  have hlen := congrArg List.length h
  rw [List.length_drop] at hlen
  cases edge with
  | none => simp at hlen ⊢; omega
  | some e =>
    have hpos : node.label ≠ [] := by
      intro hnil
      have := hnode e rfl
      simp [hnil] at this
    have := List.length_pos_iff.mpr hpos
    simp at hlen ⊢
    omega

/-- Read a node that is not the implicit empty one, and check its bytes against the digest. -/
def loadStored (id : Digest) : IndexM RadixNode := do
  let bytes ← readNode id
  ofCodec (reject (bytes.length > nodeMaxBytes) (.badLength "radix stored node"))
  ofCodec (reject (sha256 bytes ≠ id) (.digestMismatch "radix stored node"))
  ofCodec (RadixNode.decode bytes)

/-- `load`, returning the checked edge with the node. -/
def load (id : Digest) (edge : Option UInt8) (pre : Bytes) :
    IndexM { node : RadixNode // EdgeOk edge node } := do
  let node ← if id = emptyRoot then pure RadixNode.empty else loadStored id
  if h : EdgeOk edge node then
    validatePosition pre node
    pure ⟨node, h⟩
  else ofCodec (.error (.badOrdering "radix incoming child label"))

/-- The compression step of `save`: an unbound node with a single child absorbs it. -/
def absorb (node : RadixNode) (pre : Bytes) : IndexM RadixNode :=
  match node.binding, node.children with
  | none, [childRef] => do
    let childPrefix ← joinedKey pre node.label
    let child ← load childRef.digest (some childRef.edge) childPrefix
    pure ⟨node.label ++ child.val.label, child.val.binding, child.val.children⟩
  | _, _ => pure node

/-- `save`: a transient edit may need compression before it has canonical local shape. -/
def save (node : RadixNode) (pre : Bytes) : IndexM (Option Digest) :=
  if node.binding = none ∧ node.children = [] then pure none
  else do
    let node ← absorb node pre
    validatePosition pre node
    let node ← ofCodec (RadixNode.new node.label node.binding node.children)
    let bytes := node.encode
    let id := sha256 bytes
    insertNode id bytes
    pure (some id)

/-! ## Update -/

/-- An entry of the stack `ancestors`: the node, the edge taken below it, and the key up to it. -/
structure Ancestor where
  /-- The node as loaded. -/
  node : RadixNode
  /-- The edge the descent took. -/
  edge : UInt8
  /-- `&key[..parent_offset]` -/
  pre : Bytes

/-- How the descent of `update` ends. -/
inductive Descent where
  /-- `return Ok(*root)` -/
  | unchanged
  /-- `break`, with the replacement of the last node and the ancestors still to rewrite. -/
  | rebuilt (replacement : Option Digest) (ancestors : List Ancestor)

/-- The number of leading bytes two keys share. -/
def commonLen (remaining label : Bytes) : ℕ :=
  ((remaining.zip label).takeWhile fun p ↦ p.1 == p.2).length

/-- The split branch of `update`: the key leaves the label of `node` after `common` bytes. -/
def splitNode (node : RadixNode) (common : ℕ) (done rest : Bytes) (binding : Digest) :
    IndexM (Option Digest) := do
  let label := node.label.take common
  let lower := { node with label := node.label.drop common }
  let childPrefix ← joinedKey done label
  let childEdge := lower.label.headD 0
  let childId ← requiredId (← save lower childPrefix)
  let children := setChild [] childEdge (some childId)
  match rest.drop common with
  | [] => save ⟨label, some binding, children⟩ done
  | edge :: suffix => do
    let leaf ← ofCodec (RadixNode.new (edge :: suffix) (some binding) [])
    let leafId ← requiredId (← save leaf childPrefix)
    save ⟨label, none, setChild children edge (some leafId)⟩ done

/-- The new-leaf branch of `update`: the key goes on below `node` at an edge it does not have. -/
def addLeaf (node : RadixNode) (done : Bytes) (edge : UInt8) (suffix : Bytes) (binding : Digest) :
    IndexM (Option Digest) := do
  let leaf ← ofCodec (RadixNode.new (edge :: suffix) (some binding) [])
  let leafId ← requiredId (← save leaf (done ++ node.label))
  save { node with children := setChild node.children edge (some leafId) } done

/-- The descent loop of `update`. -/
def descend (binding : Option Digest) (done rest : Bytes) (id : Digest) (edge : Option UInt8)
    (ancestors : List Ancestor) : IndexM Descent := do
  let ⟨node, _hnode⟩ ← load id edge done
  let common := commonLen rest node.label
  if common < node.label.length then
    match binding with
    | none => pure .unchanged
    | some binding => do
      let replacement ← splitNode node common done rest binding
      pure (.rebuilt replacement ancestors)
  else
    -- the whole label matches, so `offset + common` is `offset + label.len()`
    match _hrest : rest.drop node.label.length with
    | [] =>
      if node.binding = binding then pure .unchanged
      else do
        let replacement ← save { node with binding := binding } done
        pure (.rebuilt replacement ancestors)
    | nextEdge :: suffix =>
      match node.children.find? fun child ↦ child.edge = nextEdge with
      | some child =>
        descend binding (done ++ node.label) (nextEdge :: suffix) child.digest (some nextEdge)
          (⟨node, nextEdge, done⟩ :: ancestors)
      | none =>
        match binding with
        | none => pure .unchanged
        | some binding => do
          let replacement ← addLeaf node done nextEdge suffix binding
          pure (.rebuilt replacement ancestors)
termination_by rest.length + if edge.isSome then 0 else 1
decreasing_by exact length_lt_of_edgeOk _hnode _hrest

/-- The second loop of `update`: rewrite the ancestors, innermost first. -/
def ascend : List Ancestor → Option Digest → IndexM (Option Digest)
  | [], replacement => pure replacement
  | a :: ancestors, replacement => do
    let replacement ←
      save { a.node with children := setChild a.node.children a.edge replacement } a.pre
    ascend ancestors replacement

/-- Copy only changed ancestors, retaining old roots.  A no-op writes no nodes. -/
def update (root : Digest) (path : String) (binding : Option Digest) : IndexM Digest := do
  let key ← ofCodec (encodeKey path)
  match ← descend binding [] key root none [] with
  | .unchanged => pure root
  | .rebuilt replacement ancestors => do
    let replacement ← ascend ancestors replacement
    pure (replacement.getD emptyRoot)

/-! ## Lookup -/

/-- `if let Some(binding) = node.binding`: the deepest bound node so far, with its path. -/
def remember (key : Bytes) (binding : Option Digest) (found : Option (String × Digest)) :
    IndexM (Option (String × Digest)) :=
  match binding with
  | some binding => do
    let matched ← ofCodec (decodeKey key)
    pure (some (matched, binding))
  | none => pure found

/-- The loop of `walk`. -/
def walkLoop (path : String) (ancestors : Bool) (done rest : Bytes) (id : Digest)
    (edge : Option UInt8) (found : Option (String × Digest)) :
    IndexM (Option (String × Digest)) := do
  let ⟨node, _hnode⟩ ← load id edge done
  if node.label <+: rest then do
    let found ← remember (done ++ node.label) node.binding found
    match _hrest : rest.drop node.label.length with
    | [] => pure (found.filter fun f ↦ ancestors || f.1 = path)
    | nextEdge :: suffix =>
      match node.children.find? fun child ↦ child.edge = nextEdge with
      | some child =>
        walkLoop path ancestors (done ++ node.label) (nextEdge :: suffix) child.digest
          (some nextEdge) found
      | none => pure (if ancestors then found else none)
  else pure (if ancestors then found else none)
termination_by rest.length + if edge.isSome then 0 else 1
decreasing_by exact length_lt_of_edgeOk _hnode _hrest

/-- `walk` -/
def walk (root : Digest) (path : String) (ancestors : Bool) :
    IndexM (Option (String × Digest)) := do
  let key ← ofCodec (encodeKey path)
  walkLoop path ancestors [] key root none none

/-- `get` -/
def get (root : Digest) (path : String) : IndexM (Option Digest) := do
  let found ← walk root path false
  pure (found.map Prod.snd)

/-- `longest_prefix` -/
def longestPrefix (root : Digest) (path : String) : IndexM (Option (String × Digest)) :=
  walk root path true

end RadixIndex

end Mst2
