import Mst2Codec.ChunkMap.Content
import Mst2Codec.Library.PrefixFree
import Mst2Codec.MetaPage.Identity
import Mst2Codec.Namespace.View

/-!
# One identity, one value

Nine kinds of values have an identity: a digest of their bytes behind a domain of the kind.  No
domain is a prefix of another (`domain_prefixFree`), and each kind has canonical bytes, so that what
is hashed determines the kind and the value (`eq_of_input_eq`).  A table from identities to values
can therefore hold values of all kinds (`id_injOn`), and a page never passes for a chunk map, nor a
leaf of a Merkle tree for one of its branches.

The contents of files and chunks are hashed as they are, and are not among them.
-/

set_option autoImplicit false

namespace Mst2

open Bytes Except

/-- The kinds of values that have an identity. -/
inductive IdentityKind where
  /-- `page_id` -/
  | page
  /-- `snapshot_id` -/
  | descriptor
  /-- `map_id` -/
  | chunkMap
  /-- `leaf_hash` -/
  | chunkLeaf
  /-- `branch_hash` -/
  | chunkBranch
  /-- `SourceSnapshot::id` -/
  | source
  /-- `NamespaceBinding::id` -/
  | binding
  /-- `NamespaceView::id` -/
  | view
  /-- `RadixNode::id` -/
  | node
deriving DecidableEq

/-- What is hashed before a value of the kind. -/
def IdentityKind.domain : IdentityKind → Bytes
  | page => pageDomain
  | descriptor => descriptorDomain
  | chunkMap => mapDomain
  | chunkLeaf => chunkLeafDomain
  | chunkBranch => chunkBranchDomain
  | source => sourceDomain
  | binding => bindingDomain
  | view => viewDomain
  | node => nodeDomain

/-- No domain is a prefix of another. -/
theorem IdentityKind.domain_prefixFree (k k' : IdentityKind) (h : k.domain <+: k'.domain) :
    k = k' := by
  cases k <;> cases k' <;> first | rfl | exact absurd h (by decide)

/-- The values that have an identity. -/
inductive Identified where
  /-- A page of a directory. -/
  | page (p : Page)
  /-- A serving descriptor. -/
  | descriptor (d : ServingDescriptor)
  /-- A chunk map. -/
  | chunkMap (m : ChunkMap)
  /-- A leaf page of a chunk map. -/
  | chunkLeaf (l : ChunkLeaf)
  /-- A branch of the tree over the leaf pages. -/
  | chunkBranch (left right : Digest) (leftCount rightCount : UInt64)
  /-- A source. -/
  | source (x : SourceSnapshot)
  /-- A binding. -/
  | binding (x : NamespaceBinding)
  /-- A view. -/
  | view (x : NamespaceView)
  /-- A node of an index. -/
  | node (x : RadixNode)

namespace Identified

/-- The kind of a value. -/
def kind : Identified → IdentityKind
  | page _ => .page
  | descriptor _ => .descriptor
  | chunkMap _ => .chunkMap
  | chunkLeaf _ => .chunkLeaf
  | chunkBranch .. => .chunkBranch
  | source _ => .source
  | binding _ => .binding
  | view _ => .view
  | node _ => .node

/-- What is hashed for a value, if it can be encoded. -/
def input : Identified → CodecResult Bytes
  | page p => do pure (pageInput (← p.encode))
  | descriptor d => do pure (ServingDescriptor.snapshotInput (← d.encode))
  | chunkMap m => .ok (mapDomain ++ m.encode)
  | chunkLeaf l => do pure (ChunkLeaf.hashInput (← l.encode))
  | chunkBranch left right leftCount rightCount =>
    .ok (Merkle.branchInput left right leftCount.toNat rightCount.toNat)
  | source x => .ok x.encode
  | binding x => .ok x.encode
  | view x => .ok x.encode
  | node x => .ok x.encode

/-- What can be made of the constructors of the source. -/
def WellFormed : Identified → Prop
  | page p => ∀ e ∈ p.entries, e.Made
  | node x => x.Shaped
  | _ => True

variable {x y : Identified} {b : Bytes}

/-- What is hashed starts with the domain of the kind. -/
theorem domain_isPrefix (h : x.input = .ok b) : x.kind.domain <+: b := by
  cases x with
  | page p | descriptor d | chunkLeaf l =>
    obtain ⟨c, -, hb⟩ := bind_eq_ok.mp h
    obtain rfl := Except.ok.inj hb
    exact List.prefix_append _ _
  | chunkBranch left right leftCount rightCount =>
    obtain rfl := Except.ok.inj h
    simp only [Merkle.branchInput, List.append_assoc]
    exact List.prefix_append _ _
  | node x =>
    obtain rfl := Except.ok.inj h
    simp only [RadixNode.encode, List.append_assoc]
    exact List.prefix_append _ _
  | chunkMap m | source x | binding x | view x =>
    obtain rfl := Except.ok.inj h
    exact List.prefix_append _ _

/-- So it gives the kind. -/
theorem kind_eq_of_input_eq (hx : x.input = .ok b) (hy : y.input = .ok b) : x.kind = y.kind :=
  tag_unique IdentityKind.domain_prefixFree (domain_isPrefix hx) (domain_isPrefix hy)

/-- Two values behind one domain with the same input have the same bytes. -/
theorem eq_ok_of_prefixed {x y : CodecResult Bytes} {domain : Bytes}
    (h : (do pure (domain ++ (← x))) = .ok b) (h' : (do pure (domain ++ (← y))) = .ok b) :
    ∃ c, x = .ok c ∧ y = .ok c := by
  obtain ⟨c, hc, hb⟩ := bind_eq_ok.mp h
  obtain ⟨c', hc', hb'⟩ := bind_eq_ok.mp h'
  obtain rfl := List.append_cancel_left ((Except.ok.inj hb).trans (Except.ok.inj hb').symm)
  exact ⟨c, hc, hc'⟩

/-- **What is hashed determines the value.** -/
theorem eq_of_input_eq (hx : x.WellFormed) (hy : y.WellFormed) (hbx : x.input = .ok b)
    (hby : y.input = .ok b) : x = y := by
  have hkind := kind_eq_of_input_eq hbx hby
  have hinput := hbx.trans hby.symm
  cases x with
  | page p =>
    cases y with
    | page q =>
      obtain ⟨c, hc, hc'⟩ := eq_ok_of_prefixed hbx hby
      obtain ⟨hvalid, hbytes, hlen⟩ := Page.encode_eq_ok.mp hc
      obtain ⟨hvalid', hbytes', -⟩ := Page.encode_eq_ok.mp hc'
      have hread := Page.decode_eq_ok.mpr
        ⟨hvalid, Page.shaped_of_made hx, hbytes, hlen, Page.toNat_totalEntries hvalid⟩
      have hread' := Page.decode_eq_ok.mpr
        ⟨hvalid', Page.shaped_of_made hy, hbytes', hlen, Page.toNat_totalEntries hvalid'⟩
      rw [(Prod.mk.inj (Except.ok.inj (hread.symm.trans hread'))).1]
    | _ => cases hkind
  | descriptor d =>
    cases y with
    | descriptor e =>
      obtain ⟨c, hc, hc'⟩ := eq_ok_of_prefixed hbx hby
      rw [← ServingDescriptor.decode_eq_ok_iff_encode] at hc hc'
      rw [Except.ok.inj (hc.symm.trans hc')]
    | _ => cases hkind
  | chunkLeaf l =>
    cases y with
    | chunkLeaf m =>
      obtain ⟨c, hc, hc'⟩ := eq_ok_of_prefixed hbx hby
      have hread := ChunkLeaf.decode_eq_ok.mpr (ChunkLeaf.encode_eq_ok.mp hc)
      have hread' := ChunkLeaf.decode_eq_ok.mpr (ChunkLeaf.encode_eq_ok.mp hc')
      rw [Except.ok.inj (hread.symm.trans hread')]
    | _ => cases hkind
  | chunkBranch left right leftCount rightCount =>
    cases y with
    | chunkBranch left' right' leftCount' rightCount' =>
      obtain ⟨rfl, rfl, hleft, hright⟩ := Merkle.branchInput_inj leftCount.toNat_lt
        rightCount.toNat_lt leftCount'.toNat_lt rightCount'.toNat_lt (Except.ok.inj hinput)
      rw [UInt64.toNat_inj.mp hleft, UInt64.toNat_inj.mp hright]
    | _ => cases hkind
  | chunkMap m =>
    cases y with
    | chunkMap n =>
      rw [ChunkMap.encode_injective (List.append_cancel_left (Except.ok.inj hinput))]
    | _ => cases hkind
  | source x =>
    cases y with
    | source y =>
      rw [SourceSnapshot.isManifest.injective (Except.ok.inj hinput)]
    | _ => cases hkind
  | binding x =>
    cases y with
    | binding y =>
      rw [NamespaceBinding.isManifest.injective (Except.ok.inj hinput)]
    | _ => cases hkind
  | view x =>
    cases y with
    | view y =>
      rw [NamespaceView.isManifest.injective (Except.ok.inj hinput)]
    | _ => cases hkind
  | node x =>
    cases y with
    | node y =>
      rw [RadixNode.encode_injective hx hy (Except.ok.inj hinput)]
    | _ => cases hkind

section id

variable [Sha256]

/-- The identity of a value, by the function of its kind. -/
def id : Identified → CodecResult Digest
  | page p => do pure (pageId (← p.encode))
  | descriptor d => d.snapshotId
  | chunkMap m => .ok m.mapId
  | chunkLeaf l => l.leafHash
  | chunkBranch left right leftCount rightCount =>
    .ok (Merkle.branchHash left right leftCount.toNat rightCount.toNat)
  | source x => .ok x.id
  | binding x => .ok x.id
  | view x => .ok x.id
  | node x => .ok x.id

/-- It is the digest of what is hashed. -/
theorem id_eq (h : x.input = .ok b) : x.id = .ok (sha256 b) := by
  cases x with
  | page p | descriptor d | chunkLeaf l =>
    obtain ⟨c, hc, hb⟩ := bind_eq_ok.mp h
    obtain rfl := Except.ok.inj hb
    exact bind_eq_ok.mpr ⟨c, hc, rfl⟩
  | _ =>
    obtain rfl := Except.ok.inj h
    rfl

/-- **An identity names one value of one kind.** -/
theorem id_injOn {K : Set Bytes} (hK : CollisionFree K) :
    Set.InjOn id {x | x.WellFormed ∧ ∃ b ∈ K, x.input = .ok b} := by
  rintro x ⟨hx, b, hb, hbx⟩ y ⟨hy, b', hb', hby⟩ h
  rw [id_eq hbx, id_eq hby] at h
  obtain rfl := hK hb hb' (Except.ok.inj h)
  exact eq_of_input_eq hx hy hbx hby

omit [Sha256] in
/-- A view and its binding have different identities. -/
theorem id_injOn_tools :
    letI := Publication.toolsSha256
    (view Publication.toolsView).id ≠ (binding Publication.toolsBinding).id := by
  let _ := Publication.toolsSha256
  have hinj := id_injOn Publication.collisionFree_tools
  have hview : (view Publication.toolsView).WellFormed ∧ ∃ b ∈ {b | b ∈ Publication.toolsStrings},
      (view Publication.toolsView).input = .ok b :=
    ⟨trivial, _, (by decide +kernel : Publication.toolsView.encode ∈ Publication.toolsStrings), rfl⟩
  have hbinding : (binding Publication.toolsBinding).WellFormed ∧
      ∃ b ∈ {b | b ∈ Publication.toolsStrings},
        (binding Publication.toolsBinding).input = .ok b :=
    ⟨trivial, _, (by decide +kernel : Publication.toolsBinding.encode ∈ Publication.toolsStrings),
      rfl⟩
  intro h
  cases hinj hview hbinding h

end id

end Identified

end Mst2
