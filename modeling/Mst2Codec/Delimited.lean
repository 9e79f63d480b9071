import Mst2Codec.ChunkMap.Canonical
import Mst2Codec.Descriptor.Canonical
import Mst2Codec.Library.PrefixFree
import Mst2Codec.MetaPage.Codec
import Mst2Codec.Namespace.ManifestCanonical
import Mst2Codec.Namespace.Radix.Canonical

/-!
# Truncation and trailing bytes are detected

No decoder of the crate accepts two byte strings of which one is a proper prefix of the other.  It
is not a matter of round trips: a decoder that stopped early would have them too.  Pages, chunk
leaves and descriptors have a length field at a fixed place of their header; manifests and radix
nodes are sequences of fields, each of which ends where it says.
-/

set_option autoImplicit false

namespace Mst2

open Bytes Except

/-! ## Formats with a length field -/

theorem ChunkLeaf.delimited_decode : Delimited ChunkLeaf.decode := by
  refine delimited_iff.mpr (.of_lengthField (p := 12) (w := 2) (fun n ↦ 16 + 32 * ofLe n) ?_)
  rintro b ⟨l, h⟩
  obtain ⟨⟨-, hle⟩, rfl⟩ := decode_eq_ok.mp h
  rw [chunksPerPage] at hle
  refine ⟨chunkLeafMagic ++ writeU64 l.pageIndex, writeU16 (UInt16.ofNat l.chunkSha256.length),
    writeU16 0 ++ l.chunkSha256.flatMap Digest.bytes, ?_, by simp, length_writeU16 _, ?_⟩
  · simp only [bytes, List.append_assoc]
  · rw [length_bytes, writeU16, toNat_ofNat_u16 (by omega), ofLe_leBytes (by omega)]

theorem ServingDescriptor.delimited_decode : Delimited ServingDescriptor.decode := by
  refine delimited_iff.mpr (.of_lengthField (p := 56) (w := 2) (fun n ↦ 98 + ofLe n) ?_)
  rintro b ⟨d, h⟩
  obtain ⟨-, hscope, rfl⟩ := decode_eq_ok.mp h
  have hle := length_of_validateScope hscope
  refine ⟨descriptorMagic ++ writeU16 descriptorSchemaVersion ++ writeU16 metadataCodec ++
    d.instanceUuid.bytes ++ d.namespaceViewId.bytes,
    writeU16 (UInt16.ofNat d.scope.asBytes.length),
    d.scope.asBytes ++ writeU16 materializationPolicyGitRawV1 ++ writeU16 fsSemanticsLinuxCodeV1 ++
      writeU16 accessProjectionExactFull ++ writeU16 0 ++ d.metadataRoot.bytes, ?_, by simp,
    length_writeU16 _, ?_⟩
  · simp only [bytes, List.append_assoc]
  · rw [length_bytes, writeU16, toNat_ofNat_u16 (by omega), ofLe_leBytes (by omega), baseLength]

theorem Page.delimited_decode : Delimited Page.decode := by
  refine delimited_iff.mpr (.of_lengthField (p := 16) (w := 4) (fun n ↦ 20 + ofLe n) ?_)
  rintro b ⟨⟨p, t⟩, h⟩
  obtain ⟨-, -, rfl, hle, -⟩ := decode_eq_ok.mp h
  rw [length_bytes, pageMaxBytes] at hle
  refine ⟨pageMagic ++ [p.kindByte, 0] ++ writeU16 (UInt16.ofNat p.rows) ++
    writeU64 (UInt64.ofNat p.total), writeU32 (UInt32.ofNat p.payload.length), p.payload, ?_, ?_,
    length_writeU32 _, ?_⟩
  · rfl
  · simp [show pageMagic.length = 4 from rfl]
  · rw [length_bytes, writeU32, toNat_ofNat_u32 (by omega), ofLe_leBytes (by omega), headerLen]

/-! ## Sequences of fields -/

/-- A big-endian number. -/
theorem selfDelimiting_beBytes (w : ℕ) : SelfDelimiting {n | n < 256 ^ w} (beBytes w) :=
  .of_length (fun _ _ ↦ length_beBytes w _) fun m hm n hn h ↦ by
    rw [← ofBe_beBytes hm, h, ofBe_beBytes hn]

theorem selfDelimiting_digest : SelfDelimiting Set.univ Digest.bytes :=
  .of_length (fun d _ ↦ d.length_eq) fun _ _ _ _ h ↦ Digest.ext h

/-- A field of a manifest. -/
theorem selfDelimiting_writeField :
    SelfDelimiting {b : Bytes | b.length < 2 ^ 32} writeField := by
  intro a ha b hb s t h
  rw [Set.mem_ofPred_eq] at ha hb
  simp only [writeField, toNat_ofNat_u32 ha, toNat_ofNat_u32 hb] at h
  exact (selfDelimiting_beBytes 4).lengthPrefixed ha hb h

/-- A text. -/
theorem selfDelimiting_text :
    SelfDelimiting {x : String | x.asBytes.length < 2 ^ 32} fun x ↦ writeField x.asBytes :=
  selfDelimiting_writeField.comp (fun _ h ↦ h) String.asBytes_injective.injOn

/-- **A sequential decoder reads a self-delimiting encoding.** -/
theorem delimited_of_selfDelimiting {α ε : Type} {decode : Bytes → Except ε α} {encode : α → Bytes}
    {V : Set α} (hencode : SelfDelimiting V encode)
    (h : ∀ b x, decode b = .ok x → x ∈ V ∧ encode x = b) : Delimited decode := by
  rw [delimited_iff]
  rintro b ⟨x, hb⟩ c ⟨y, hc⟩ hbc
  exact hencode.prefixFree ⟨x, h b x hb⟩ ⟨y, h c y hc⟩ hbc

namespace SourceSnapshot

/-- The texts of a snapshot. -/
def texts (x : SourceSnapshot) : List String :=
  [x.sourceId, x.scopePath, "sha1", x.commitOid, x.rootTreeOid]

theorem length_texts_lt {x : SourceSnapshot} : ∀ s ∈ x.texts, s.asBytes.length < 2 ^ 32 := by
  have h₁ := length_of_validateUuid x.validSourceId
  have h₂ := length_of_validateAbsolutePath x.validScopePath
  have h₃ := length_of_validateOid x.validCommitOid
  have h₄ := length_of_validateOid x.validRootTreeOid
  have hformat : "sha1".asBytes.length = 4 := by decide +kernel
  rw [pathMaxBytes] at h₂
  simp only [texts, List.forall_mem_cons, List.not_mem_nil, IsEmpty.forall_iff, implies_true,
    and_true]
  omega

theorem selfDelimiting_encode : SelfDelimiting Set.univ encode := by
  intro x _ y _ s t h
  rw [encode, encode, List.append_assoc, List.append_assoc] at h
  obtain ⟨htexts, hst⟩ := selfDelimiting_text.flatMap (l := x.texts) (m := y.texts) rfl
    length_texts_lt length_texts_lt (List.append_cancel_left h)
  simp only [texts, List.cons.injEq] at htexts
  obtain ⟨hsource, hscope, -, hcommit, htree, -⟩ := htexts
  exact ⟨SourceSnapshot.ext hsource hscope hcommit htree, hst⟩

/-- A snapshot inside another manifest. -/
theorem selfDelimiting_field : SelfDelimiting Set.univ fun x ↦ writeField (encode x) :=
  selfDelimiting_writeField.comp
    (fun x _ ↦ lt_of_le_of_lt x.length_encode_le (by decide)) isManifest.injective.injOn

theorem delimited_decode : Delimited decode :=
  delimited_of_selfDelimiting selfDelimiting_encode fun _ x h ↦
    ⟨Set.mem_univ x, decode_eq_ok.mp h⟩

end SourceSnapshot

theorem NamespaceBinding.selfDelimiting_encode : SelfDelimiting Set.univ encode := by
  intro x _ y _ s t h
  have hlt : ∀ x : NamespaceBinding, x.mountPath.asBytes.length < 2 ^ 32 ∧
      x.sourceSubpath.asBytes.length < 2 ^ 32 := by
    intro x
    have h₁ := length_of_validateAbsolutePath x.validMountPath
    have h₂ := length_of_validateRelativePath x.validSourceSubpath
    rw [pathMaxBytes] at h₁ h₂
    omega
  simp only [encode, List.append_assoc] at h
  obtain ⟨hmount, h⟩ := selfDelimiting_text (hlt x).1 (hlt y).1 (List.append_cancel_left h)
  obtain ⟨hsource, h⟩ := SourceSnapshot.selfDelimiting_field (Set.mem_univ _) (Set.mem_univ _) h
  obtain ⟨hsubpath, h⟩ := selfDelimiting_text (hlt x).2 (hlt y).2 h
  obtain ⟨htag, hst⟩ := List.cons.inj h
  have hpolicy := Except.ok.inj ((BindingPolicy.ofTag_eq_ok.mpr rfl).symm.trans
    (BindingPolicy.ofTag_eq_ok.mpr htag))
  exact ⟨NamespaceBinding.ext hmount hsource hsubpath hpolicy, hst⟩

theorem NamespaceBinding.delimited_decode : Delimited decode :=
  delimited_of_selfDelimiting selfDelimiting_encode fun _ x h ↦
    ⟨Set.mem_univ x, decode_eq_ok.mp h⟩

/-- A digest behind its presence byte. -/
theorem selfDelimiting_presence {f : Option Digest → Bytes} (hnone : f none = [0])
    (hsome : ∀ d, f (some d) = 1 :: d.bytes) : SelfDelimiting Set.univ f := by
  have hf : f = fun o ↦ o.elim [0] fun d ↦ 1 :: d.bytes := by
    funext o
    rcases o with _ | d
    · exact hnone
    · exact hsome d
  intro a _ b _ s t h
  rw [hf] at h
  exact selfDelimiting_digest.optional (by decide) (fun _ _ ↦ Set.mem_univ _)
    (fun _ _ ↦ Set.mem_univ _) h

theorem NamespaceView.selfDelimiting_encode : SelfDelimiting Set.univ encode := by
  intro x _ y _ s t h
  have hlt : ∀ x : NamespaceView, x.instanceId.asBytes.length < 2 ^ 32 := by
    intro x
    have := length_of_validateUuid x.validInstanceId
    omega
  simp only [encode, List.append_assoc] at h
  obtain ⟨hinstance, h⟩ := selfDelimiting_text (hlt x) (hlt y)
    (List.append_cancel_left (List.append_cancel_left h))
  obtain ⟨hnative, h⟩ := SourceSnapshot.selfDelimiting_field (Set.mem_univ _) (Set.mem_univ _) h
  obtain ⟨hbindings, h⟩ := selfDelimiting_digest (Set.mem_univ _) (Set.mem_univ _) h
  obtain ⟨hoverrides, h⟩ :=
    selfDelimiting_presence rfl (fun _ ↦ rfl) (Set.mem_univ _) (Set.mem_univ _) h
  exact ⟨NamespaceView.ext hinstance hnative hbindings hoverrides, List.append_cancel_left h⟩

theorem NamespaceView.delimited_decode : Delimited decode :=
  delimited_of_selfDelimiting selfDelimiting_encode fun _ x h ↦
    ⟨Set.mem_univ x, decode_eq_ok.mp h⟩

theorem RadixNode.selfDelimiting_encode : SelfDelimiting {x | Shaped x} encode := by
  intro x hx y hy s t h
  have hlt : ∀ x, Shaped x → x.label.length < 256 ^ 2 ∧ x.children.length < 256 ^ 2 := by
    intro x hx
    have h₁ := hx.label_le
    have h₂ := hx.children_le
    rw [pathMaxBytes] at h₁
    rw [childMaxCount] at h₂
    omega
  have hchild : SelfDelimiting Set.univ encodeChild :=
    .of_length (n := 33) (fun c _ ↦ by simp [encodeChild]) fun c _ d _ hcd ↦ by
      obtain ⟨a, c⟩ := c
      obtain ⟨b, d⟩ := d
      obtain ⟨hedge, hdigest⟩ := List.cons.inj hcd
      rw [RadixChild.mk.injEq]
      exact ⟨hedge, Digest.ext hdigest⟩
  -- the label and the rows stand behind their number
  have hform : ∀ (x : RadixNode) (s : Bytes), x.encode ++ s =
      nodeDomain ++ ((beBytes 2 x.label.length ++ x.label) ++ (encodeBinding x.binding ++
        ((beBytes 2 x.children.length ++ x.children.flatMap encodeChild) ++ s))) := by
    intro x s
    simp only [encode, List.append_assoc]
  rw [hform, hform] at h
  obtain ⟨hlabel, h⟩ := (selfDelimiting_beBytes 2).lengthPrefixed (hlt x hx).1 (hlt y hy).1
    (List.append_cancel_left h)
  obtain ⟨hbinding, h⟩ :=
    selfDelimiting_presence rfl (fun _ ↦ rfl) (Set.mem_univ _) (Set.mem_univ _) h
  obtain ⟨hchildren, hst⟩ := (selfDelimiting_beBytes 2).counted hchild
    ⟨(hlt x hx).2, fun _ _ ↦ Set.mem_univ _⟩ ⟨(hlt y hy).2, fun _ _ ↦ Set.mem_univ _⟩ h
  rcases x
  rcases y
  rw [RadixNode.mk.injEq]
  exact ⟨⟨hlabel, hbinding, hchildren⟩, hst⟩

theorem RadixNode.delimited_decode : Delimited decode :=
  delimited_of_selfDelimiting selfDelimiting_encode fun _ x h ↦ by
    obtain ⟨hx, rfl⟩ := decode_eq_ok.mp h
    exact ⟨hx, rfl⟩

/-- **Truncation and trailing bytes are detected.** -/
theorem decoders_delimited :
    Delimited SourceSnapshot.decode ∧ Delimited NamespaceBinding.decode ∧
      Delimited NamespaceView.decode ∧ Delimited RadixNode.decode ∧ Delimited Page.decode ∧
      Delimited ServingDescriptor.decode ∧ Delimited ChunkLeaf.decode :=
  ⟨SourceSnapshot.delimited_decode, NamespaceBinding.delimited_decode,
    NamespaceView.delimited_decode, RadixNode.delimited_decode, Page.delimited_decode,
    ServingDescriptor.delimited_decode, ChunkLeaf.delimited_decode⟩

end Mst2
