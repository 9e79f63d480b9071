import Mst2Codec.Namespace.Path

/-!
# Namespace manifests

The source, binding and view manifests of `src/namespace.rs`: their validated values, their bytes,
and the reader `Input` that decodes them.

The fields of the structures are private in the source and set by `new` only, so a value is what
`new` has accepted; here every structure carries what its `new` checks.
-/

set_option autoImplicit false

namespace Mst2

open Bytes Except

/-- `MANIFEST_MAX_BYTES` -/
def manifestMaxBytes : ℕ := 16384

/-- `SOURCE_DOMAIN` -/
def sourceDomain : Bytes := "mega.source-snapshot.v1\x00".asBytes

/-- `BINDING_DOMAIN` -/
def bindingDomain : Bytes := "mega.namespace-binding.v1\x00".asBytes

/-- `VIEW_DOMAIN` -/
def viewDomain : Bytes := "mega.namespace-view.v1\x00".asBytes

/-! ## Validators -/

/-- `b.is_ascii_digit() || (b'a'..=b'f').contains(b)` -/
def isLowerHex (b : UInt8) : Bool := (0x30 ≤ b ∧ b ≤ 0x39) ∨ (0x61 ≤ b ∧ b ≤ 0x66)

/-- `validate_uuid` -/
def validateUuid (value : String) : CodecResult Unit :=
  let bytes := value.asBytes
  reject
    (bytes.length ≠ 36 ∨
      ¬ (bytes.zipIdx.all fun (b, i) ↦
        if i = 8 ∨ i = 13 ∨ i = 18 ∨ i = 23 then b = 0x2D else isLowerHex b) ∨
      ¬ bytes.any fun b ↦ b ≠ 0x30 ∧ b ≠ 0x2D)
    (.badName "canonical non-nil UUID")

/-- `validate_oid` -/
def validateOid (value : String) : CodecResult Unit :=
  reject (value.asBytes.length ≠ 40 ∨ ¬ value.asBytes.all isLowerHex)
    (.badName "canonical SHA-1 OID")

/-- A check, and that it has passed. -/
def attest (check : CodecResult Unit) : CodecResult (PLift (check = .ok ())) :=
  match check with
  | .ok () => .ok ⟨rfl⟩
  | .error e => .error e

@[simp] theorem attest_eq_ok {check : CodecResult Unit} {h : PLift (check = .ok ())} :
    attest check = .ok h ↔ check = .ok () := by
  refine ⟨fun _ ↦ h.down, ?_⟩
  rintro rfl
  rfl

/-! ## Fields -/

/-- `write_field`: the length is cast to `u32`. -/
def writeField (bytes : Bytes) : Bytes := beBytes 4 (UInt32.ofNat bytes.length).toNat ++ bytes

namespace Input

/-- `Input::new`: what remains behind the domain. -/
def new (bytes domain : Bytes) : CodecResult Bytes := do
  reject (bytes.length > manifestMaxBytes) (.badLength "manifest")
  okOr (bytes.dropPrefix? domain) (.badConstant "manifest domain")

/-- `Input::take` -/
def take (input : Bytes) (length : ℕ) : CodecResult (Bytes × Bytes) := do
  let bytes ← okOr (slice? input 0 length) (.truncated "manifest field")
  pure (bytes, input.drop length)

/-- `Input::byte` -/
def byte (input : Bytes) : CodecResult (UInt8 × Bytes) := do
  let (bytes, input) ← take input 1
  pure (bytes.headD 0, input)

/-- `Input::digest` -/
def digest (input : Bytes) : CodecResult (Digest × Bytes) := do
  let (bytes, input) ← take input 32
  pure ((Digest.ofBytes? bytes).getD .zero, input)

/-- `Input::field`: every `u32` fits `usize`. -/
def field (input : Bytes) : CodecResult (Bytes × Bytes) := do
  let (length, input) ← take input 4
  take input (ofBe length)

/-- `Input::text` -/
def text (input : Bytes) : CodecResult (String × Bytes) := do
  let (bytes, input) ← field input
  let s ← okOr (String.ofUtf8 bytes) (.badName "manifest UTF-8")
  pure (s, input)

/-- `Input::finish` -/
def finish (input : Bytes) : CodecResult Unit :=
  reject (input ≠ []) (.badLength "manifest trailing bytes")

end Input

/-! ## Source snapshots -/

/-- `SourceSnapshot` -/
@[ext] structure SourceSnapshot where
  /-- The source. -/
  sourceId : String
  /-- The scope. -/
  scopePath : String
  /-- The commit. -/
  commitOid : String
  /-- Its tree. -/
  rootTreeOid : String
  /-- The source has a UUID. -/
  validSourceId : validateUuid sourceId = .ok ()
  /-- The scope is a canonical path. -/
  validScopePath : validateAbsolutePath scopePath = .ok ()
  /-- The commit has an object id. -/
  validCommitOid : validateOid commitOid = .ok ()
  /-- The tree has an object id. -/
  validRootTreeOid : validateOid rootTreeOid = .ok ()
deriving DecidableEq

namespace SourceSnapshot

/-- `SourceSnapshot::new` -/
def new (sourceId scopePath commitOid rootTreeOid : String) : CodecResult SourceSnapshot := do
  let ⟨h₁⟩ ← attest (validateUuid sourceId)
  let ⟨h₂⟩ ← attest (validateAbsolutePath scopePath)
  let ⟨h₃⟩ ← attest (validateOid commitOid)
  let ⟨h₄⟩ ← attest (validateOid rootTreeOid)
  pure ⟨sourceId, scopePath, commitOid, rootTreeOid, h₁, h₂, h₃, h₄⟩

/-- `SourceSnapshot::encode` -/
def encode (x : SourceSnapshot) : Bytes :=
  sourceDomain ++ [x.sourceId, x.scopePath, "sha1", x.commitOid, x.rootTreeOid].flatMap
    fun field ↦ writeField field.asBytes

/-- `SourceSnapshot::decode` -/
def decode (bytes : Bytes) : CodecResult SourceSnapshot := do
  let input ← Input.new bytes sourceDomain
  let (sourceId, input) ← Input.text input
  let (scopePath, input) ← Input.text input
  let (format, input) ← Input.text input
  reject (format ≠ "sha1") (.badConstant "source object format")
  let (commitOid, input) ← Input.text input
  let (rootTreeOid, input) ← Input.text input
  Input.finish input
  new sourceId scopePath commitOid rootTreeOid

/-- `SourceSnapshot::id` -/
def id [Sha256] (x : SourceSnapshot) : Digest := sha256 x.encode

end SourceSnapshot

/-! ## Bindings -/

/-- `BindingPolicy` -/
inductive BindingPolicy where
  /-- `Mutable` -/
  | mutable
  /-- `ImmutableRelease` -/
  | immutableRelease
deriving DecidableEq

/-- The byte of a policy. -/
def BindingPolicy.tag : BindingPolicy → UInt8
  | mutable => 1
  | immutableRelease => 2

/-- The policy of a byte. -/
def BindingPolicy.ofTag (tag : UInt8) : CodecResult BindingPolicy :=
  if tag = 1 then .ok .mutable
  else if tag = 2 then .ok .immutableRelease
  else .error (.badConstant "binding policy")

/-- The length of the path below the source that a binding mounts. -/
def composedLen (source : SourceSnapshot) (sourceSubpath : String) : ℕ :=
  if sourceSubpath = "" then source.scopePath.asBytes.length
  else if source.scopePath = "/" then 1 + sourceSubpath.asBytes.length
  else source.scopePath.asBytes.length + 1 + sourceSubpath.asBytes.length

/-- `NamespaceBinding` -/
@[ext] structure NamespaceBinding where
  /-- Where the source is mounted. -/
  mountPath : String
  /-- The source. -/
  source : SourceSnapshot
  /-- The mounted part of it. -/
  sourceSubpath : String
  /-- The policy. -/
  policy : BindingPolicy
  /-- The mount is a canonical path. -/
  validMountPath : validateAbsolutePath mountPath = .ok ()
  /-- The part is a canonical relative path. -/
  validSourceSubpath : validateRelativePath sourceSubpath = .ok ()
  /-- The composed path is no longer than a path. -/
  composedLen_le : composedLen source sourceSubpath ≤ pathMaxBytes
deriving DecidableEq

namespace NamespaceBinding

/-- `NamespaceBinding::new` -/
def new (mountPath : String) (source : SourceSnapshot) (sourceSubpath : String)
    (policy : BindingPolicy) : CodecResult NamespaceBinding := do
  let ⟨h₁⟩ ← attest (validateAbsolutePath mountPath)
  let ⟨h₂⟩ ← attest (validateRelativePath sourceSubpath)
  if h₃ : composedLen source sourceSubpath > pathMaxBytes then
    .error (.badLength "composed source path")
  else pure ⟨mountPath, source, sourceSubpath, policy, h₁, h₂, Nat.not_lt.mp h₃⟩

/-- `NamespaceBinding::encode` -/
def encode (x : NamespaceBinding) : Bytes :=
  bindingDomain ++ (writeField x.mountPath.asBytes ++ (writeField x.source.encode ++
    (writeField x.sourceSubpath.asBytes ++ [x.policy.tag])))

/-- `NamespaceBinding::decode` -/
def decode (bytes : Bytes) : CodecResult NamespaceBinding := do
  let input ← Input.new bytes bindingDomain
  let (mountPath, input) ← Input.text input
  let (source, input) ← Input.field input
  let source ← SourceSnapshot.decode source
  let (sourceSubpath, input) ← Input.text input
  let (tag, input) ← Input.byte input
  let policy ← BindingPolicy.ofTag tag
  Input.finish input
  new mountPath source sourceSubpath policy

/-- `NamespaceBinding::id` -/
def id [Sha256] (x : NamespaceBinding) : Digest := sha256 x.encode

end NamespaceBinding

/-! ## Views -/

/-- `NamespaceView` -/
@[ext] structure NamespaceView where
  /-- The instance. -/
  instanceId : String
  /-- The native source. -/
  native : SourceSnapshot
  /-- The root of the bindings. -/
  bindingsRoot : Digest
  /-- The root of the overrides. -/
  overridesRoot : Option Digest
  /-- The instance has a UUID. -/
  validInstanceId : validateUuid instanceId = .ok ()
  /-- The native source is whole. -/
  native_scopePath : native.scopePath = "/"
deriving DecidableEq

namespace NamespaceView

/-- `NamespaceView::new` -/
def new (instanceId : String) (native : SourceSnapshot) (bindingsRoot : Digest)
    (overridesRoot : Option Digest) : CodecResult NamespaceView := do
  let ⟨h₁⟩ ← attest (validateUuid instanceId)
  if h₂ : native.scopePath ≠ "/" then .error (.badName "native scope must be root")
  else pure ⟨instanceId, native, bindingsRoot, overridesRoot, h₁, not_not.mp h₂⟩

/-- The bytes of an optional root. -/
def optionBytes : Option Digest → Bytes
  | none => [0]
  | some root => 1 :: root.bytes

/-- `NamespaceView::encode` -/
def encode (x : NamespaceView) : Bytes :=
  viewDomain ++ (beBytes 2 1 ++ (writeField x.instanceId.asBytes ++ (writeField x.native.encode ++
    (x.bindingsRoot.bytes ++ (optionBytes x.overridesRoot ++ [1])))))  -- git_raw_v1

/-- The optional root of `decode`. -/
def readOverrides (input : Bytes) : CodecResult (Option Digest × Bytes) := do
  let (presence, input) ← Input.byte input
  if presence = 0 then pure (none, input)
  else if presence = 1 then do
    let (root, input) ← Input.digest input
    pure (some root, input)
  else .error (.badConstant "override presence")

/-- `NamespaceView::decode` -/
def decode (bytes : Bytes) : CodecResult NamespaceView := do
  let input ← Input.new bytes viewDomain
  let (schema, input) ← Input.take input 2
  reject (schema ≠ beBytes 2 1) (.badConstant "namespace schema")
  let (instanceId, input) ← Input.text input
  let (native, input) ← Input.field input
  let native ← SourceSnapshot.decode native
  let (bindingsRoot, input) ← Input.digest input
  let (overridesRoot, input) ← readOverrides input
  let (policy, input) ← Input.byte input
  reject (policy ≠ 1) (.badConstant "materialization policy")
  Input.finish input
  new instanceId native bindingsRoot overridesRoot

/-- `NamespaceView::id` -/
def id [Sha256] (x : NamespaceView) : Digest := sha256 x.encode

end NamespaceView

end Mst2
