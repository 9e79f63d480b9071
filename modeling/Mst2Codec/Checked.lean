import Mst2Codec.Checked.TreeFrame
import Mst2Codec.Checked.MetaPage
import Mst2Codec.Checked.ChunkMap
import Mst2Codec.Checked.Descriptor
import Mst2Codec.Checked.Namespace

/-!
# No input panics the parsers

The parsers of the crate in their checked form do what their models do (`parseFrame_eq`, ...,
`NamespaceView.decode_eq`), so that none of them panics.  What is left out are the allocator and the
crates `sha2`, `zstd` and `zstd-safe`, which are taken to return.
-/

set_option autoImplicit false

namespace Mst2

namespace Checked

open Machine

variable [Sha256] [Features]

/-- **No input panics the parsers**: on every buffer, and for every label and every length in a
frame header, they return a value or an error. -/
theorem parsers_return (buf received : Slice UInt8) (label : UInt8) (rawLen : UInt32) :
    (Returns (parseFrame buf.toList) ∧ Returns (parseStream buf.toList)) ∧
    (Returns (MetaPayload.decode buf.toList) ∧ Returns (ObjectPayload.decode buf.toList) ∧
      Returns (ChunkPayload.decode buf.toList rawLen) ∧ Returns (EndPayload.decode buf.toList) ∧
      Returns (ErrorPayload.decode buf.toList)) ∧
    (Returns (Page.decode buf.toList) ∧
      Returns (Page.verifyReceivedChild buf.toList label received.toList)) ∧
    (Returns (ChunkMap.decode buf.toList) ∧ Returns (ChunkLeaf.decode buf.toList)) ∧
    Returns (ServingDescriptor.decode buf.toList) ∧
    Returns (RadixNode.decode buf.toList) ∧
    (Returns (SourceSnapshot.decode buf.toList) ∧ Returns (NamespaceBinding.decode buf.toList) ∧
      Returns (NamespaceView.decode buf.toList)) :=
  ⟨⟨.of_eq (parseFrame_eq _), .of_eq (parseStream_eq buf.length_lt)⟩,
    ⟨.of_eq (MetaPayload.decode_eq _), .of_eq (ObjectPayload.decode_eq _),
      .of_eq (ChunkPayload.decode_eq _ _), .of_eq (EndPayload.decode_eq _),
      .of_eq (ErrorPayload.decode_eq _)⟩,
    ⟨.of_eq (Page.decode_eq _), .of_eq (Page.verifyReceivedChild_eq _ _ _)⟩,
    ⟨.of_eq (ChunkMap.decode_eq _), .of_eq (ChunkLeaf.decode_eq _)⟩,
    .of_eq (ServingDescriptor.decode_eq _), .of_eq (RadixNode.decode_eq _),
    ⟨.of_eq (SourceSnapshot.decode_eq _), .of_eq (NamespaceBinding.decode_eq _),
      .of_eq (NamespaceView.decode_eq _)⟩⟩

end Checked

end Mst2
