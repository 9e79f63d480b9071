import Mst2Codec.Descriptor

/-!
# Serving descriptors are canonical bytes

`slice?_bytes` reads the fields of a descriptor off a buffer, each at its offset; those behind the
scope move with its length.  A valid scope is at most 4096 bytes long, so that the length written in
16 bits is its length.  Hence the decoder accepts the bytes of valid descriptors only, each as the
descriptor they were written from (`decode_eq_ok`), and the snapshot id identifies a descriptor.
-/

set_option autoImplicit false

namespace Mst2

open Bytes Except

attribute [simp] InstanceUuid.length_eq

theorem InstanceUuid.ofBytes?_eq_some {b : Bytes} {u : InstanceUuid} :
    InstanceUuid.ofBytes? b = some u ↔ u.bytes = b := by
  rw [ofBytes?]
  split
  · rw [Option.some.injEq, InstanceUuid.ext_iff]
    exact eq_comm
  · rename_i h
    refine ⟨nofun, fun hu ↦ absurd ?_ h⟩
    rw [← hu, u.length_eq]

/-- A valid scope is within the limit of a path. -/
theorem length_of_validateScope {scope : String} (h : validateScope scope = .ok ()) :
    scope.asBytes.length ≤ 4096 := by
  rw [validateScope, reject_bind_eq_ok, reject_bind_eq_ok, reject_bind_eq_ok, not_lt] at h
  exact h.2.2.1

namespace ServingDescriptor

theorem readUuidAt_eq_ok {what : String} {buf : Bytes} {off : ℕ} {u : InstanceUuid} :
    readUuidAt what buf off = .ok u ↔ slice? buf off 16 = some u.bytes := by
  rw [readUuidAt, okOr_eq_ok, Option.bind_eq_some_iff]
  constructor
  · rintro ⟨x, hx, hu⟩
    rw [hx, InstanceUuid.ofBytes?_eq_some.mp hu]
  · intro h
    exact ⟨_, h, InstanceUuid.ofBytes?_eq_some.mpr rfl⟩

@[simp] theorem length_descriptorMagic : descriptorMagic.length = 4 := rfl

theorem length_bytes (d : ServingDescriptor) :
    d.bytes.length = baseLength + d.scope.asBytes.length := by
  simp [bytes, baseLength]
  omega

/-- The fields of a descriptor in their places. -/
theorem slice?_bytes {buf : Bytes} {d : ServingDescriptor} {n : ℕ}
    (hn : d.scope.asBytes.length = n) :
    slice? buf 0 (baseLength + n) = some d.bytes ↔
      slice? buf 0 4 = some descriptorMagic ∧ readU16 buf 4 = .ok descriptorSchemaVersion ∧
      readU16 buf 6 = .ok metadataCodec ∧
      readUuidAt "instance_uuid" buf 8 = .ok d.instanceUuid ∧
      readDigestAt "namespace_view_id" buf 24 = .ok d.namespaceViewId ∧
      readU16 buf 56 = .ok (UInt16.ofNat n) ∧ slice? buf 58 n = some d.scope.asBytes ∧
      readU16 buf (58 + n) = .ok materializationPolicyGitRawV1 ∧
      readU16 buf (60 + n) = .ok fsSemanticsLinuxCodeV1 ∧
      readU16 buf (62 + n) = .ok accessProjectionExactFull ∧ readU16 buf (64 + n) = .ok 0 ∧
      readDigestAt "metadata_root" buf (66 + n) = .ok d.metadataRoot := by
  have hlen : baseLength + n = 58 + n + 2 + 2 + 2 + 2 + 32 := by rw [baseLength]; omega
  have hsem : 58 + n + 2 = 60 + n := by omega
  have hproj : 60 + n + 2 = 62 + n := by omega
  have hres : 62 + n + 2 = 64 + n := by omega
  have hroot : 64 + n + 2 = 66 + n := by omega
  rw [bytes, hn, hlen, slice?_append_eq_some (by simp [hn]; omega),
    slice?_append_eq_some (by simp [hn]; omega), slice?_append_eq_some (by simp [hn]; omega),
    slice?_append_eq_some (by simp [hn]; omega), slice?_append_eq_some (by simp [hn]; omega),
    slice?_append_eq_some (n := 58) (by simp), slice?_append_eq_some (n := 56) (m := 2) (by simp),
    slice?_append_eq_some (n := 24) (m := 32) (by simp),
    slice?_append_eq_some (n := 8) (m := 16) (by simp),
    slice?_append_eq_some (n := 6) (m := 2) (by simp),
    slice?_append_eq_some (n := 4) (m := 2) (by rfl)]
  simp only [readU16_eq_ok, readUuidAt_eq_ok, readDigestAt_eq_ok, Nat.zero_add, and_assoc, hsem,
    hproj, hres, hroot]

/-- What `encode` accepts. -/
theorem encode_eq_ok {d : ServingDescriptor} {b : Bytes} : d.encode = .ok b ↔
    validateInstanceUuid d.instanceUuid = .ok () ∧ validateScope d.scope = .ok () ∧
      b = d.bytes := by
  rw [encode, bind_eq_ok]
  constructor
  · rintro ⟨⟨⟩, huuid, h⟩
    obtain ⟨⟨⟩, hscope, h⟩ := bind_eq_ok.mp h
    exact ⟨huuid, hscope, (Except.ok.inj h).symm⟩
  · rintro ⟨huuid, hscope, rfl⟩
    exact ⟨(), huuid, bind_eq_ok.mpr ⟨(), hscope, rfl⟩⟩

/-- **What `decode` accepts**: the bytes of the valid descriptors. -/
theorem decode_eq_ok {b : Bytes} {d : ServingDescriptor} : decode b = .ok d ↔
    validateInstanceUuid d.instanceUuid = .ok () ∧ validateScope d.scope = .ok () ∧
      b = d.bytes := by
  rw [decode]
  constructor
  · intro h
    rw [reject_bind_eq_ok, reject_bind_eq_ok, not_not, bind_eq_ok] at h
    obtain ⟨hmin, hmagic, v, hv, h⟩ := h
    rw [reject_bind_eq_ok, not_not, bind_eq_ok] at h
    obtain ⟨rfl, c, hc, h⟩ := h
    rw [reject_bind_eq_ok, not_not, bind_eq_ok] at h
    obtain ⟨rfl, scopeLen, hscopeLen, h⟩ := h
    rw [reject_bind_eq_ok, not_not, bind_eq_ok] at h
    obtain ⟨hlen, policy, hpolicy, h⟩ := h
    rw [reject_bind_eq_ok, not_not, bind_eq_ok] at h
    obtain ⟨rfl, semantics, hsemantics, h⟩ := h
    rw [reject_bind_eq_ok, not_not, bind_eq_ok] at h
    obtain ⟨rfl, projection, hprojection, h⟩ := h
    rw [reject_bind_eq_ok, not_not, bind_eq_ok] at h
    obtain ⟨rfl, reserved, hreserved, h⟩ := h
    rw [reject_bind_eq_ok, not_not, bind_eq_ok] at h
    obtain ⟨rfl, uuid, huuid, h⟩ := h
    rw [bind_eq_ok] at h
    obtain ⟨⟨⟩, hvalid, h⟩ := h
    rw [bind_eq_ok] at h
    obtain ⟨view, hview, h⟩ := h
    rw [okOr_bind_eq_ok] at h
    obtain ⟨scope, hscope, h⟩ := h
    rw [bind_eq_ok] at h
    obtain ⟨⟨⟩, hscopeValid, h⟩ := h
    rw [bind_eq_ok] at h
    obtain ⟨root, hroot, h⟩ := h
    obtain rfl := Except.ok.inj h
    refine ⟨hvalid, hscopeValid, ?_⟩
    rw [baseLength] at hlen
    rw [String.ofUtf8_eq_some] at hscope
    have hslice : slice? b 58 scopeLen.toNat = some scope.asBytes := by
      rw [slice?, if_pos (by omega), hscope]
    have hmagic' : slice? b 0 4 = some descriptorMagic := by
      rw [slice?, if_pos (by omega), List.drop_zero, hmagic]
    refine (slice?_length_eq_some hlen).mp ?_
    refine (slice?_bytes (length_of_slice? hslice)).mpr ⟨hmagic', hv, hc, huuid, hview, ?_, hslice,
      hpolicy, hsemantics, hprojection, hreserved, hroot⟩
    rwa [UInt16.ofNat_toNat]
  · rintro ⟨hvalid, hscope, rfl⟩
    have hle := length_of_validateScope hscope
    have hnat := toNat_ofNat_u16 (n := d.scope.asBytes.length) (by omega)
    have hlen := length_bytes d
    obtain ⟨hmagic, hv, hc, huuid, hview, hscopeLen, hslice, hpolicy, hsemantics, hprojection,
      hreserved, hroot⟩ := (slice?_bytes (n := d.scope.asBytes.length) rfl).mp
        ((slice?_length_eq_some hlen).mpr rfl)
    have hmagic' : d.bytes.take 4 = descriptorMagic := by
      rw [slice?_eq_some, List.drop_zero] at hmagic
      rw [hmagic.2.2, List.take_left' hmagic.2.1]
    have hmin : ¬ d.bytes.length < baseLength := by omega
    have hscope' : (d.bytes.drop 58).take d.scope.asBytes.length = d.scope.asBytes := by
      rw [slice?_eq_some] at hslice
      rw [hslice.2.2, List.take_left]
    rw [reject_of_not hmin, ok_bind, reject_of_not (not_not.mpr hmagic'), ok_bind, hv, ok_bind,
      reject_of_not (not_not.mpr rfl), ok_bind, hc, ok_bind, reject_of_not (not_not.mpr rfl),
      ok_bind, hscopeLen, ok_bind]
    dsimp only
    rw [hnat, reject_of_not (not_not.mpr hlen), ok_bind, hpolicy, ok_bind,
      reject_of_not (not_not.mpr rfl), ok_bind, hsemantics, ok_bind,
      reject_of_not (not_not.mpr rfl), ok_bind, hprojection, ok_bind,
      reject_of_not (not_not.mpr rfl), ok_bind, hreserved, ok_bind,
      reject_of_not (not_not.mpr rfl), ok_bind, huuid, ok_bind, hvalid, ok_bind, hview, ok_bind,
      hscope', String.ofUtf8_asBytes, okOr_some, ok_bind, hscope, ok_bind, hroot, ok_bind]
    rfl

theorem decode_eq_ok_iff_encode {b : Bytes} {d : ServingDescriptor} :
    decode b = .ok d ↔ d.encode = .ok b := decode_eq_ok.trans encode_eq_ok.symm

/-- **Serving descriptors are canonical bytes**, and the snapshot id identifies a descriptor unless
two inputs of the hash collide. -/
theorem canonical_descriptor [Sha256] :
    (∀ (d : ServingDescriptor) (b : Bytes), d.encode = .ok b →
      b.length = 98 + d.scope.asBytes.length ∧ decode b = .ok d) ∧
    (∀ (b : Bytes) (d : ServingDescriptor), decode b = .ok d → d.encode = .ok b) ∧
    ∀ (d e : ServingDescriptor) (b c : Bytes) (snapshot : Digest), d.encode = .ok b →
      e.encode = .ok c → CollisionFree {snapshotInput b, snapshotInput c} →
      d.snapshotId = .ok snapshot → e.snapshotId = .ok snapshot → d = e := by
  refine ⟨fun d b h ↦ ?_, fun b d h ↦ decode_eq_ok_iff_encode.mp h, ?_⟩
  · obtain ⟨-, -, rfl⟩ := encode_eq_ok.mp h
    exact ⟨length_bytes d, decode_eq_ok_iff_encode.mpr h⟩
  · intro d e b c snapshot hd he hfree hsd hse
    rw [snapshotId, hd, ok_bind] at hsd
    rw [snapshotId, he, ok_bind] at hse
    have hsha := (Except.ok.inj hsd).trans (Except.ok.inj hse).symm
    have hinput := hfree (by simp) (by simp) hsha
    obtain rfl := List.append_cancel_left hinput
    rw [← decode_eq_ok_iff_encode] at hd he
    exact Except.ok.inj (hd.symm.trans he)

/-- Descriptors with the same snapshot id are the same. -/
theorem eq_of_snapshotId_eq [Sha256] {d d' : ServingDescriptor}
    (hfree : CollisionFree {snapshotInput d.bytes, snapshotInput d'.bytes}) {id : Digest}
    (h : d.snapshotId = .ok id) (h' : d'.snapshotId = .ok id) : d = d' := by
  obtain ⟨b, hb, hsha⟩ := bind_eq_ok.mp h
  obtain ⟨b', hb', hsha'⟩ := bind_eq_ok.mp h'
  obtain rfl := (encode_eq_ok.mp hb).2.2
  obtain rfl := (encode_eq_ok.mp hb').2.2
  have hinput := hfree (.inl rfl) (.inr rfl) ((Except.ok.inj hsha).trans (Except.ok.inj hsha').symm)
  rw [← decode_eq_ok_iff_encode, List.append_cancel_left hinput] at hb
  rw [← decode_eq_ok_iff_encode] at hb'
  exact Except.ok.inj (hb.symm.trans hb')

/-- A descriptor of a scope that is not ASCII. -/
def sample : ServingDescriptor where
  instanceUuid := ⟨List.replicate 16 7, rfl⟩
  namespaceViewId := .fill 1
  scope := "/é/b"
  metadataRoot := .fill 2

/-- Its snapshot id. -/
def sampleId : Digest :=
  .ofNat 0x58102ef65f47c58c5095854038411f28a49df83314b61f4ea000a85c823d277b

/-- SHA-256 on its input. -/
@[reducible] def sampleSha256 : Sha256 := .ofTable [(snapshotInput sample.bytes, sampleId)]

/-- It is decoded, and its snapshot id is its own. -/
theorem canonical_descriptor_sample :
    letI := sampleSha256
    (sample.bytes.length = 103 ∧ decode sample.bytes = .ok sample) ∧
      sample.encode = .ok sample.bytes ∧
      ∀ e : ServingDescriptor, e.encode = .ok sample.bytes → sample = e := by
  let _ := sampleSha256
  obtain ⟨hencode, hdecode, hid⟩ := canonical_descriptor
  have h : sample.encode = .ok sample.bytes := by decide +kernel
  have hsnapshot : sha256 (snapshotInput sample.bytes) = sampleId := by decide +kernel
  refine ⟨hencode _ _ h, hdecode _ _ (hencode _ _ h).2, fun e he ↦ ?_⟩
  refine hid sample e _ _ sampleId h he (by simp [CollisionFree]) ?_ ?_
  · rw [snapshotId, h, ok_bind, hsnapshot]
    rfl
  · rw [snapshotId, he, ok_bind, hsnapshot]
    rfl

end ServingDescriptor

end Mst2
