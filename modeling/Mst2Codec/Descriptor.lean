import Mst2Codec.Namespace.Path

/-!
# Serving descriptors

The model of `src/descriptor.rs`: the scope rules and the codec of the descriptor (MSD2).  The
descriptor has a fixed part of 98 bytes, with the scope in the middle of it: what follows the scope
stands at offsets shifted by its length.
-/

set_option autoImplicit false

namespace Mst2

open Bytes Except

/-- `SCHEMA_VERSION` -/
def descriptorSchemaVersion : UInt16 := 2

/-- `METADATA_CODEC` -/
def metadataCodec : UInt16 := 1

/-- `MATERIALIZATION_POLICY_GIT_RAW_V1` -/
def materializationPolicyGitRawV1 : UInt16 := 1

/-- `FS_SEMANTICS_LINUX_CODE_V1` -/
def fsSemanticsLinuxCodeV1 : UInt16 := 1

/-- `ACCESS_PROJECTION_EXACT_FULL` -/
def accessProjectionExactFull : UInt16 := 0

/-- `BASE_LENGTH` -/
def baseLength : ℕ := 98

/-- The magic of a descriptor. -/
def descriptorMagic : Bytes := "MSD2".asBytes

/-- `DOMAIN` -/
def descriptorDomain : Bytes := "mega.mst2.descriptor\x00".asBytes

/-! ## Instances -/

/-- `[u8; 16]`. -/
@[ext] structure InstanceUuid where
  /-- The bytes. -/
  bytes : Bytes
  /-- There are 16 of them. -/
  length_eq : bytes.length = 16
deriving DecidableEq

namespace InstanceUuid

/-- `[0; 16]` -/
def nil : InstanceUuid := ⟨List.replicate 16 0, rfl⟩

/-- The UUID with the given bytes, if there are 16 of them. -/
def ofBytes? (b : Bytes) : Option InstanceUuid := if h : b.length = 16 then some ⟨b, h⟩ else none

end InstanceUuid

/-- `validate_instance_uuid` -/
def validateInstanceUuid (uuid : InstanceUuid) : CodecResult Unit :=
  reject (uuid = .nil) (.badConstant "instance UUID must be non-nil")

/-! ## Scopes -/

/-- The loop of `validate_scope`, from the component `index` on. -/
def validateScopeComponents : ℕ → List String → CodecResult Unit
  | _, [] => pure ()
  | index, comp :: comps => do
    reject (index ≥ 256) (.badLength "scope over 256 components")
    reject (comp = "") (.badName "empty path component")
    reject (comp = "." ∨ comp = "..") (.badName "dot component")
    reject (comp.asBytes.length > 255) (.badName "path component over 255 bytes")
    validateScopeComponents (index + 1) comps

/-- `validate_scope` -/
def validateScope (scope : String) : CodecResult Unit := do
  reject (scope = "" ∨ scope.toList.head? ≠ some '/') (.badName "scope must be absolute")
  reject ('\x00' ∈ scope.toList) (.badName "NUL in scope")
  reject (scope.asBytes.length > 4096) (.badLength "scope over 4096 UTF-8 bytes")
  reject (scope.asBytes.length > 1 ∧ scope.toList.getLast? = some '/') (.badName "trailing slash")
  if scope = "/" then pure ()
  else validateScopeComponents 0 (splitSlash (String.ofList (scope.toList.drop 1)))

/-! ## Descriptors -/

/-- A parsed descriptor. -/
@[ext] structure ServingDescriptor where
  /-- The instance that serves. -/
  instanceUuid : InstanceUuid
  /-- The namespace it serves from. -/
  namespaceViewId : Digest
  /-- The part of the namespace. -/
  scope : String
  /-- The root page. -/
  metadataRoot : Digest
deriving DecidableEq

namespace ServingDescriptor

/-- The bytes that `encode` writes. -/
def bytes (d : ServingDescriptor) : Bytes :=
  descriptorMagic ++ writeU16 descriptorSchemaVersion ++ writeU16 metadataCodec ++
    d.instanceUuid.bytes ++ d.namespaceViewId.bytes ++
    writeU16 (UInt16.ofNat d.scope.asBytes.length) ++ d.scope.asBytes ++
    writeU16 materializationPolicyGitRawV1 ++ writeU16 fsSemanticsLinuxCodeV1 ++
    writeU16 accessProjectionExactFull ++ writeU16 0 ++ d.metadataRoot.bytes

/-- `encode` -/
def encode (d : ServingDescriptor) : CodecResult Bytes := do
  validateInstanceUuid d.instanceUuid
  validateScope d.scope
  pure d.bytes

/-- What `snapshot_id` hashes. -/
def snapshotInput (bytes : Bytes) : Bytes := descriptorDomain ++ bytes

/-- `snapshot_id` -/
def snapshotId [Sha256] (d : ServingDescriptor) : CodecResult Digest := do
  let bytes ← d.encode
  pure (sha256 (snapshotInput bytes))

/-- Read a UUID: `copy_from_slice` from `buf[off..off + 16]`. -/
def readUuidAt (what : String) (buf : Bytes) (off : ℕ) : CodecResult InstanceUuid :=
  okOr ((slice? buf off 16).bind InstanceUuid.ofBytes?) (.truncated what)

/-- `decode`: with the length checked, the UUID and the digests are there to be copied. -/
def decode (buf : Bytes) : CodecResult ServingDescriptor := do
  reject (buf.length < baseLength) (.truncated "descriptor header")
  reject (buf.take 4 ≠ descriptorMagic) (.badConstant "MSD2 magic")
  let schemaVersion ← readU16 buf 4
  reject (schemaVersion ≠ descriptorSchemaVersion) (.badConstant "schema_version")
  let codec ← readU16 buf 6
  reject (codec ≠ metadataCodec) (.badConstant "metadata_codec")
  let scopeLen ← readU16 buf 56
  let scopeLen := scopeLen.toNat
  reject (buf.length ≠ baseLength + scopeLen)
    (.badLength "descriptor must be exactly 98 + scope_byte_length")
  let policy ← readU16 buf (58 + scopeLen)
  reject (policy ≠ materializationPolicyGitRawV1) (.badConstant "materialization_policy")
  let semantics ← readU16 buf (60 + scopeLen)
  reject (semantics ≠ fsSemanticsLinuxCodeV1) (.badConstant "fs_semantics")
  let projection ← readU16 buf (62 + scopeLen)
  reject (projection ≠ accessProjectionExactFull) (.badConstant "access_projection")
  let reserved ← readU16 buf (64 + scopeLen)
  reject (reserved ≠ 0) (.badConstant "reserved must be zero")
  let instanceUuid ← readUuidAt "instance_uuid" buf 8
  validateInstanceUuid instanceUuid
  let namespaceViewId ← readDigestAt "namespace_view_id" buf 24
  let scope ← okOr (String.ofUtf8 ((buf.drop 58).take scopeLen)) (.badName "scope not UTF-8")
  validateScope scope
  let metadataRoot ← readDigestAt "metadata_root" buf (66 + scopeLen)
  pure ⟨instanceUuid, namespaceViewId, scope, metadataRoot⟩

end ServingDescriptor

end Mst2
