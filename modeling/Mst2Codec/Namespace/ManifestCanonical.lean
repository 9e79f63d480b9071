import Mst2Codec.Namespace.Manifest

/-!
# Manifests are canonical bytes

Each reader of `Input` accepts exactly what the writer of its field writes, so a decoder accepts
exactly the bytes of the value it returns (`decode_eq_ok` of each manifest).  The sizes that the
validators allow keep every field below `2 ^ 32` bytes and every manifest below the limit.
-/

set_option autoImplicit false

namespace Mst2

open Bytes Except

/-! ## Sizes of fields -/

theorem length_of_validateUuid {value : String} (h : validateUuid value = .ok ()) :
    value.asBytes.length = 36 := by
  rw [validateUuid, reject_eq_ok, not_or, not_not] at h
  exact h.1

theorem length_of_validateOid {value : String} (h : validateOid value = .ok ()) :
    value.asBytes.length = 40 := by
  rw [validateOid, reject_eq_ok, not_or, not_not] at h
  exact h.1

@[simp] theorem length_writeField (bytes : Bytes) :
    (writeField bytes).length = 4 + bytes.length := by
  rw [writeField, List.length_append, length_beBytes]

/-! ## What the readers accept -/

namespace Input

theorem new_eq_ok {bytes domain input : Bytes} : Input.new bytes domain = .ok input ↔
    bytes.length ≤ manifestMaxBytes ∧ bytes = domain ++ input := by
  rw [Input.new, reject_bind_eq_ok, Nat.not_lt, okOr_eq_ok, List.dropPrefix?_eq_some_iff]
  simp

theorem take_eq_ok {input x rest : Bytes} {n : ℕ} :
    take input n = .ok (x, rest) ↔ input = x ++ rest ∧ x.length = n := by
  rw [take, okOr_bind_eq_ok]
  constructor
  · rintro ⟨y, hy, h⟩
    obtain ⟨rfl, rfl⟩ := Prod.mk.inj (Except.ok.inj h)
    obtain ⟨-, hlen, hdrop⟩ := slice?_eq_some.mp hy
    rw [List.drop_zero, Nat.zero_add] at hdrop
    exact ⟨hdrop, hlen⟩
  · rintro ⟨rfl, rfl⟩
    exact ⟨x, slice?_of_drop (Nat.zero_le _) (List.drop_zero) rfl, by rw [List.drop_left]; rfl⟩

theorem byte_eq_ok {input rest : Bytes} {b : UInt8} :
    byte input = .ok (b, rest) ↔ input = b :: rest := by
  rw [byte, bind_eq_ok]
  constructor
  · rintro ⟨⟨x, input'⟩, htake, h⟩
    obtain ⟨rfl, rfl⟩ := Prod.mk.inj (Except.ok.inj h)
    obtain ⟨rfl, hlen⟩ := take_eq_ok.mp htake
    obtain ⟨b, rfl⟩ := List.length_eq_one_iff.mp hlen
    rfl
  · rintro rfl
    exact ⟨([b], rest), take_eq_ok.mpr ⟨rfl, rfl⟩, rfl⟩

theorem digest_eq_ok {input rest : Bytes} {d : Digest} :
    digest input = .ok (d, rest) ↔ input = d.bytes ++ rest := by
  rw [digest, bind_eq_ok]
  constructor
  · rintro ⟨⟨x, input'⟩, htake, h⟩
    obtain ⟨rfl, rfl⟩ := Prod.mk.inj (Except.ok.inj h)
    obtain ⟨rfl, hlen⟩ := take_eq_ok.mp htake
    rw [Digest.ofBytes?, dif_pos hlen, Option.getD_some]
  · rintro rfl
    refine ⟨(d.bytes, rest), take_eq_ok.mpr ⟨rfl, d.length_eq⟩, ?_⟩
    dsimp only
    rw [Digest.ofBytes?_bytes, Option.getD_some]
    rfl

theorem field_eq_ok {input x rest : Bytes} :
    field input = .ok (x, rest) ↔ input = writeField x ++ rest ∧ x.length < 2 ^ 32 := by
  rw [field, bind_eq_ok]
  constructor
  · rintro ⟨⟨length, input'⟩, htake, h⟩
    obtain ⟨rfl, hlen⟩ := take_eq_ok.mp htake
    obtain ⟨rfl, hx⟩ := take_eq_ok.mp h
    have hlt := ofBe_lt length
    rw [hlen, ← hx] at hlt
    refine ⟨?_, hlt⟩
    rw [writeField, toNat_ofNat_u32 hlt, hx, ← hlen, beBytes_ofBe, List.append_assoc]
  · rintro ⟨rfl, hlt⟩
    rw [writeField, toNat_ofNat_u32 hlt, List.append_assoc]
    refine ⟨_, take_eq_ok.mpr ⟨rfl, length_beBytes _ _⟩, take_eq_ok.mpr ⟨rfl, ?_⟩⟩
    exact (ofBe_beBytes hlt).symm

theorem text_eq_ok {input rest : Bytes} {s : String} : text input = .ok (s, rest) ↔
    input = writeField s.asBytes ++ rest ∧ s.asBytes.length < 2 ^ 32 := by
  rw [text, bind_eq_ok]
  constructor
  · rintro ⟨⟨x, input'⟩, hfield, h⟩
    dsimp only at h
    rw [okOr_bind_eq_ok] at h
    obtain ⟨s', hs, h⟩ := h
    obtain ⟨rfl, rfl⟩ := Prod.mk.inj (Except.ok.inj h)
    rw [String.ofUtf8_eq_some.mp hs]
    exact field_eq_ok.mp hfield
  · intro h
    refine ⟨(s.asBytes, rest), field_eq_ok.mpr h, ?_⟩
    dsimp only
    rw [String.ofUtf8_asBytes, okOr_some, ok_bind]
    rfl

/-! ### A reader and what follows it -/

section

variable {α : Type} {input : Bytes} {a : α}

theorem new_bind_eq_ok {bytes domain : Bytes} {f : Bytes → CodecResult α} :
    (Input.new bytes domain >>= f) = .ok a ↔
      ∃ input, (bytes.length ≤ manifestMaxBytes ∧ bytes = domain ++ input) ∧ f input = .ok a := by
  simp only [bind_eq_ok, new_eq_ok]

theorem take_bind_eq_ok {n : ℕ} {f : Bytes × Bytes → CodecResult α} :
    (take input n >>= f) = .ok a ↔
      ∃ x rest, (input = x ++ rest ∧ x.length = n) ∧ f (x, rest) = .ok a := by
  simp only [bind_eq_ok, Prod.exists, take_eq_ok]

theorem byte_bind_eq_ok {f : UInt8 × Bytes → CodecResult α} :
    (byte input >>= f) = .ok a ↔ ∃ b rest, input = b :: rest ∧ f (b, rest) = .ok a := by
  simp only [bind_eq_ok, Prod.exists, byte_eq_ok]

theorem digest_bind_eq_ok {f : Digest × Bytes → CodecResult α} :
    (digest input >>= f) = .ok a ↔ ∃ d rest, input = d.bytes ++ rest ∧ f (d, rest) = .ok a := by
  simp only [bind_eq_ok, Prod.exists, digest_eq_ok]

theorem field_bind_eq_ok {f : Bytes × Bytes → CodecResult α} :
    (field input >>= f) = .ok a ↔
      ∃ x rest, (input = writeField x ++ rest ∧ x.length < 2 ^ 32) ∧ f (x, rest) = .ok a := by
  simp only [bind_eq_ok, Prod.exists, field_eq_ok]

theorem text_bind_eq_ok {f : String × Bytes → CodecResult α} :
    (text input >>= f) = .ok a ↔ ∃ s rest,
      (input = writeField s.asBytes ++ rest ∧ s.asBytes.length < 2 ^ 32) ∧ f (s, rest) = .ok a := by
  simp only [bind_eq_ok, Prod.exists, text_eq_ok]

theorem finish_bind_eq_ok {f : Unit → CodecResult α} :
    (finish input >>= f) = .ok a ↔ input = [] ∧ f () = .ok a := by
  rw [finish, reject_bind_eq_ok, not_not]

end

end Input

/-! ## Source snapshots -/

namespace SourceSnapshot

theorem new_eq_ok {sourceId scopePath commitOid rootTreeOid : String} {x : SourceSnapshot} :
    new sourceId scopePath commitOid rootTreeOid = .ok x ↔ sourceId = x.sourceId ∧
      scopePath = x.scopePath ∧ commitOid = x.commitOid ∧ rootTreeOid = x.rootTreeOid := by
  rw [new]
  simp only [bind_eq_ok, attest_eq_ok]
  constructor
  · rintro ⟨⟨h₁⟩, -, ⟨h₂⟩, -, ⟨h₃⟩, -, ⟨h₄⟩, -, h⟩
    obtain rfl := Except.ok.inj h
    exact ⟨rfl, rfl, rfl, rfl⟩
  · rintro ⟨rfl, rfl, rfl, rfl⟩
    exact ⟨⟨x.validSourceId⟩, x.validSourceId, ⟨x.validScopePath⟩, x.validScopePath,
      ⟨x.validCommitOid⟩, x.validCommitOid, ⟨x.validRootTreeOid⟩, x.validRootTreeOid, rfl⟩

theorem length_encode (x : SourceSnapshot) :
    x.encode.length = 164 + x.scopePath.asBytes.length := by
  have h₁ := length_of_validateUuid x.validSourceId
  have h₃ := length_of_validateOid x.validCommitOid
  have h₄ := length_of_validateOid x.validRootTreeOid
  have hdomain : sourceDomain.length = 24 := by decide +kernel
  have hformat : "sha1".asBytes.length = 4 := by decide +kernel
  simp only [encode, List.flatMap_cons, List.flatMap_nil, List.length_append, length_writeField,
    List.length_nil, h₁, h₃, h₄, hdomain, hformat]
  omega

theorem length_encode_le (x : SourceSnapshot) : x.encode.length ≤ 4260 := by
  have := length_of_validateAbsolutePath x.validScopePath
  rw [pathMaxBytes] at this
  rw [length_encode]
  omega

/-- **What the decoder accepts.** -/
theorem decode_eq_ok {b : Bytes} {x : SourceSnapshot} : decode b = .ok x ↔ x.encode = b := by
  rw [decode]
  simp only [Input.new_bind_eq_ok, Input.text_bind_eq_ok, reject_bind_eq_ok, not_not,
    Input.finish_bind_eq_ok, new_eq_ok]
  constructor
  · rintro ⟨_, ⟨-, rfl⟩, _, _, ⟨rfl, -⟩, _, _, ⟨rfl, -⟩, _, _, ⟨rfl, -⟩, rfl, _, _, ⟨rfl, -⟩, _, _,
      ⟨rfl, -⟩, rfl, rfl, rfl, rfl, rfl⟩
    simp [encode]
  · rintro rfl
    have hle := x.length_encode_le
    have h₁ := length_of_validateUuid x.validSourceId
    have h₂ := length_of_validateAbsolutePath x.validScopePath
    have h₃ := length_of_validateOid x.validCommitOid
    have h₄ := length_of_validateOid x.validRootTreeOid
    have hformat : "sha1".asBytes.length = 4 := by decide +kernel
    rw [pathMaxBytes] at h₂
    refine ⟨_, ⟨?_, rfl⟩, x.sourceId, _, ⟨rfl, ?_⟩, x.scopePath, _, ⟨rfl, ?_⟩, "sha1", _, ⟨rfl, ?_⟩,
      rfl, x.commitOid, _, ⟨rfl, ?_⟩, x.rootTreeOid, _, ⟨rfl, ?_⟩, rfl, rfl, rfl, rfl, rfl⟩
    · exact hle.trans (by decide)
    all_goals omega

theorem decode_bind_eq_ok {α : Type} {b : Bytes} {a : α} {f : SourceSnapshot → CodecResult α} :
    (decode b >>= f) = .ok a ↔ ∃ x, x.encode = b ∧ f x = .ok a := by
  simp only [bind_eq_ok, decode_eq_ok]

end SourceSnapshot

/-! ## Bindings -/

theorem BindingPolicy.ofTag_eq_ok {policy : BindingPolicy} {tag : UInt8} :
    ofTag tag = .ok policy ↔ tag = policy.tag := by
  rw [ofTag]
  constructor
  · intro h
    split at h
    · obtain rfl := Except.ok.inj h
      assumption
    split at h
    · obtain rfl := Except.ok.inj h
      assumption
    · cases h
  · rintro rfl
    cases policy <;> rfl

theorem BindingPolicy.ofTag_bind_eq_ok {α : Type} {tag : UInt8} {a : α}
    {f : BindingPolicy → CodecResult α} :
    (ofTag tag >>= f) = .ok a ↔ ∃ policy, tag = policy.tag ∧ f policy = .ok a := by
  simp only [bind_eq_ok, ofTag_eq_ok]

namespace NamespaceBinding

theorem new_eq_ok {mountPath sourceSubpath : String} {source : SourceSnapshot}
    {policy : BindingPolicy} {x : NamespaceBinding} :
    new mountPath source sourceSubpath policy = .ok x ↔ mountPath = x.mountPath ∧
      source = x.source ∧ sourceSubpath = x.sourceSubpath ∧ policy = x.policy := by
  rw [new]
  simp only [bind_eq_ok, attest_eq_ok]
  constructor
  · rintro ⟨⟨h₁⟩, -, ⟨h₂⟩, -, h⟩
    split at h
    · cases h
    · obtain rfl := Except.ok.inj h
      exact ⟨rfl, rfl, rfl, rfl⟩
  · rintro ⟨rfl, rfl, rfl, rfl⟩
    refine ⟨⟨x.validMountPath⟩, x.validMountPath, ⟨x.validSourceSubpath⟩, x.validSourceSubpath, ?_⟩
    rw [dif_neg (Nat.not_lt.mpr x.composedLen_le)]
    rfl

theorem length_encode_le (x : NamespaceBinding) : x.encode.length ≤ manifestMaxBytes := by
  have h₁ := length_of_validateAbsolutePath x.validMountPath
  have h₂ := x.source.length_encode_le
  have h₃ := length_of_validateRelativePath x.validSourceSubpath
  have hdomain : bindingDomain.length = 26 := by decide +kernel
  rw [pathMaxBytes] at h₁ h₃
  simp only [encode, List.length_append, length_writeField, List.length_singleton, hdomain,
    manifestMaxBytes]
  omega

/-- **What the decoder accepts.** -/
theorem decode_eq_ok {b : Bytes} {x : NamespaceBinding} : decode b = .ok x ↔ x.encode = b := by
  rw [decode]
  simp only [Input.new_bind_eq_ok, Input.text_bind_eq_ok, Input.field_bind_eq_ok,
    SourceSnapshot.decode_bind_eq_ok, Input.byte_bind_eq_ok, BindingPolicy.ofTag_bind_eq_ok,
    Input.finish_bind_eq_ok, new_eq_ok]
  constructor
  · rintro ⟨_, ⟨-, rfl⟩, _, _, ⟨rfl, -⟩, _, _, ⟨rfl, -⟩, _, rfl, _, _, ⟨rfl, -⟩, _, _, rfl, _, rfl,
      rfl, rfl, rfl, rfl, rfl⟩
    simp [encode]
  · rintro rfl
    have h₁ := length_of_validateAbsolutePath x.validMountPath
    have h₂ := x.source.length_encode_le
    have h₃ := length_of_validateRelativePath x.validSourceSubpath
    rw [pathMaxBytes] at h₁ h₃
    refine ⟨_, ⟨x.length_encode_le, rfl⟩, x.mountPath, _, ⟨rfl, ?_⟩, x.source.encode, _, ⟨rfl, ?_⟩,
      x.source, rfl, x.sourceSubpath, _, ⟨rfl, ?_⟩, x.policy.tag, _, rfl, x.policy, rfl, rfl, rfl,
      rfl, rfl, rfl⟩
    all_goals omega

end NamespaceBinding

/-! ## Views -/

namespace NamespaceView

theorem new_eq_ok {instanceId : String} {native : SourceSnapshot} {bindingsRoot : Digest}
    {overridesRoot : Option Digest} {x : NamespaceView} :
    new instanceId native bindingsRoot overridesRoot = .ok x ↔ instanceId = x.instanceId ∧
      native = x.native ∧ bindingsRoot = x.bindingsRoot ∧ overridesRoot = x.overridesRoot := by
  rw [new]
  simp only [bind_eq_ok, attest_eq_ok]
  constructor
  · rintro ⟨⟨h₁⟩, -, h⟩
    split at h
    · cases h
    · obtain rfl := Except.ok.inj h
      exact ⟨rfl, rfl, rfl, rfl⟩
  · rintro ⟨rfl, rfl, rfl, rfl⟩
    refine ⟨⟨x.validInstanceId⟩, x.validInstanceId, ?_⟩
    rw [dif_neg (not_not.mpr x.native_scopePath)]
    rfl

theorem readOverrides_eq_ok {input rest : Bytes} {root : Option Digest} :
    readOverrides input = .ok (root, rest) ↔ input = optionBytes root ++ rest := by
  rw [readOverrides, Input.byte_bind_eq_ok]
  dsimp only
  constructor
  · rintro ⟨presence, input, rfl, h⟩
    split at h
    · rename_i hzero
      subst hzero
      obtain ⟨rfl, rfl⟩ := Prod.mk.inj (Except.ok.inj h)
      rfl
    split at h
    · rename_i hone
      subst hone
      obtain ⟨d, rest', rfl, hroot⟩ := Input.digest_bind_eq_ok.mp h
      obtain ⟨rfl, rfl⟩ := Prod.mk.inj (Except.ok.inj hroot)
      rfl
    · cases h
  · rintro rfl
    cases root with
    | none => exact ⟨0, rest, rfl, rfl⟩
    | some d => exact ⟨1, d.bytes ++ rest, rfl, Input.digest_bind_eq_ok.mpr ⟨d, rest, rfl, rfl⟩⟩

theorem readOverrides_bind_eq_ok {α : Type} {input : Bytes} {a : α}
    {f : Option Digest × Bytes → CodecResult α} : (readOverrides input >>= f) = .ok a ↔
      ∃ root rest, input = optionBytes root ++ rest ∧ f (root, rest) = .ok a := by
  simp only [bind_eq_ok, Prod.exists, readOverrides_eq_ok]

theorem length_encode_le (x : NamespaceView) : x.encode.length ≤ manifestMaxBytes := by
  have h₁ := length_of_validateUuid x.validInstanceId
  have h₂ := x.native.length_encode_le
  have hdomain : viewDomain.length = 23 := by decide +kernel
  have hroot : (optionBytes x.overridesRoot).length ≤ 33 := by
    cases x.overridesRoot with
    | none => decide
    | some d => rw [optionBytes, List.length_cons, d.length_eq]
  simp only [encode, List.length_append, length_writeField, length_beBytes, Digest.length_eq,
    List.length_singleton, hdomain, manifestMaxBytes]
  omega

/-- **What the decoder accepts.** -/
theorem decode_eq_ok {b : Bytes} {x : NamespaceView} : decode b = .ok x ↔ x.encode = b := by
  rw [decode]
  simp only [Input.new_bind_eq_ok, Input.take_bind_eq_ok, reject_bind_eq_ok, not_not,
    Input.text_bind_eq_ok, Input.field_bind_eq_ok, SourceSnapshot.decode_bind_eq_ok,
    Input.digest_bind_eq_ok, readOverrides_bind_eq_ok, Input.byte_bind_eq_ok,
    Input.finish_bind_eq_ok, new_eq_ok]
  constructor
  · rintro ⟨_, ⟨-, rfl⟩, _, _, ⟨rfl, -⟩, rfl, _, _, ⟨rfl, -⟩, _, _, ⟨rfl, -⟩, _, rfl, _, _, rfl,
      _, _, rfl, _, _, rfl, rfl, rfl, rfl, rfl, rfl, rfl⟩
    simp [encode]
  · rintro rfl
    have h₁ := length_of_validateUuid x.validInstanceId
    have h₂ := x.native.length_encode_le
    refine ⟨_, ⟨x.length_encode_le, rfl⟩, _, _, ⟨rfl, length_beBytes _ _⟩, rfl, x.instanceId, _,
      ⟨rfl, ?_⟩, x.native.encode, _, ⟨rfl, ?_⟩, x.native, rfl, x.bindingsRoot, _, rfl,
      x.overridesRoot, _, rfl, 1, _, rfl, rfl, rfl, rfl, rfl, rfl, rfl⟩
    all_goals omega

end NamespaceView

/-! ## Canonical bytes -/

/-- Every value has bytes within the limit, which are decoded to the value, and no other bytes
are. -/
structure IsManifest {α : Type} (encode : α → Bytes) (decode : Bytes → CodecResult α) : Prop where
  /-- The bytes are within the limit. -/
  length_le : ∀ x, (encode x).length ≤ manifestMaxBytes
  /-- They are decoded to the value. -/
  decode_encode : ∀ x, decode (encode x) = .ok x
  /-- Other bytes are not. -/
  encode_decode : ∀ b x, decode b = .ok x → encode x = b

/-- What the decoder accepts makes the bytes canonical. -/
theorem IsManifest.of_decode_eq_ok {α : Type} {encode : α → Bytes}
    {decode : Bytes → CodecResult α} (hle : ∀ x, (encode x).length ≤ manifestMaxBytes)
    (h : ∀ b x, decode b = .ok x ↔ encode x = b) : IsManifest encode decode :=
  ⟨hle, fun x ↦ (h _ x).mpr rfl, fun b x ↦ (h b x).mp⟩

theorem IsManifest.injective {α : Type} {encode : α → Bytes} {decode : Bytes → CodecResult α}
    (h : IsManifest encode decode) : Function.Injective encode := fun x y hxy ↦
  Except.ok.inj ((h.decode_encode x).symm.trans (hxy ▸ h.decode_encode y))

/-- Digests of canonical bytes determine the value among those whose bytes do not collide. -/
theorem IsManifest.injOn_sha256 [Sha256] {α : Type} {encode : α → Bytes}
    {decode : Bytes → CodecResult α} (h : IsManifest encode decode) {S : Set Bytes}
    (hS : CollisionFree S) : Set.InjOn (fun x ↦ sha256 (encode x)) (Set.preimage encode S) :=
  fun _ hx _ hy hxy ↦ h.injective (hS hx hy hxy)

theorem SourceSnapshot.isManifest : IsManifest SourceSnapshot.encode SourceSnapshot.decode :=
  .of_decode_eq_ok (fun x ↦ x.length_encode_le.trans (by decide)) fun _ _ ↦ decode_eq_ok

theorem NamespaceBinding.isManifest : IsManifest NamespaceBinding.encode NamespaceBinding.decode :=
  .of_decode_eq_ok length_encode_le fun _ _ ↦ decode_eq_ok

theorem NamespaceView.isManifest : IsManifest NamespaceView.encode NamespaceView.decode :=
  .of_decode_eq_ok length_encode_le fun _ _ ↦ decode_eq_ok

/-- **Manifests are canonical bytes**, and their ids determine them up to collisions. -/
theorem manifests_canonical [Sha256] :
    (IsManifest SourceSnapshot.encode SourceSnapshot.decode ∧
      IsManifest NamespaceBinding.encode NamespaceBinding.decode ∧
      IsManifest NamespaceView.encode NamespaceView.decode) ∧
    ∀ S : Set Bytes, CollisionFree S →
      Set.InjOn SourceSnapshot.id (Set.preimage SourceSnapshot.encode S) ∧
      Set.InjOn NamespaceBinding.id (Set.preimage NamespaceBinding.encode S) ∧
      Set.InjOn NamespaceView.id (Set.preimage NamespaceView.encode S) :=
  ⟨⟨SourceSnapshot.isManifest, NamespaceBinding.isManifest, NamespaceView.isManifest⟩, fun _ hS ↦
    ⟨SourceSnapshot.isManifest.injOn_sha256 hS, NamespaceBinding.isManifest.injOn_sha256 hS,
      NamespaceView.isManifest.injOn_sha256 hS⟩⟩

end Mst2
