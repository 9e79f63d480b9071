import Mst2Codec.Checked.Readers
import Mst2Codec.Descriptor

/-!
# Checked decoding of descriptors

`validate_scope` and `ServingDescriptor::decode` of `src/descriptor.rs`, operation by operation.
-/

set_option autoImplicit false

namespace Mst2

namespace Checked

open Bytes Machine

/-- `s[lo..]` of a string: the index has to be the boundary of a character. -/
def strFrom (s : String) (lo : ℕ) : Run String := do
  let b ← rangeFrom s.asBytes lo
  unwrap (String.ofUtf8 b)

/-- `validate_scope` -/
def validateScope (scope : String) : Run Unit := do
  reject (scope = "" ∨ scope.toList.head? ≠ some '/') (.badName "scope must be absolute")
  reject ('\x00' ∈ scope.toList) (.badName "NUL in scope")
  reject (scope.asBytes.length > 4096) (.badLength "scope over 4096 UTF-8 bytes")
  reject (scope.asBytes.length > 1 ∧ scope.toList.getLast? = some '/') (.badName "trailing slash")
  if scope = "/" then pure ()
  else do
    let relative ← strFrom scope 1
    lift (validateScopeComponents 0 (splitSlash relative))

/-- `uuid.copy_from_slice(&buf[lo..hi])` -/
def copyUuid (buf : Bytes) (lo hi : ℕ) : Run InstanceUuid := do
  let b ← range buf lo hi
  unwrap (InstanceUuid.ofBytes? b)

/-- `ServingDescriptor::decode` -/
def ServingDescriptor.decode (buf : Bytes) : Run ServingDescriptor := do
  reject (buf.length < baseLength) (.truncated "descriptor header")
  let magic ← range buf 0 4
  reject (magic ≠ descriptorMagic) (.badConstant "MSD2 magic")
  let schemaVersion ← readU16 buf 4
  reject (schemaVersion ≠ descriptorSchemaVersion) (.badConstant "schema_version")
  let codec ← readU16 buf 6
  reject (codec ≠ metadataCodec) (.badConstant "metadata_codec")
  let scopeLen ← readU16 buf 56
  let scopeLen := scopeLen.toNat
  let len ← add 64 baseLength scopeLen
  reject (buf.length ≠ len) (.badLength "descriptor must be exactly 98 + scope_byte_length")
  let off ← add 64 58 scopeLen
  let policy ← readU16 buf off
  reject (policy ≠ materializationPolicyGitRawV1) (.badConstant "materialization_policy")
  let off ← add 64 60 scopeLen
  let semantics ← readU16 buf off
  reject (semantics ≠ fsSemanticsLinuxCodeV1) (.badConstant "fs_semantics")
  let off ← add 64 62 scopeLen
  let projection ← readU16 buf off
  reject (projection ≠ accessProjectionExactFull) (.badConstant "access_projection")
  let off ← add 64 64 scopeLen
  let reserved ← readU16 buf off
  reject (reserved ≠ 0) (.badConstant "reserved must be zero")
  let instanceUuid ← copyUuid buf 8 24
  lift (validateInstanceUuid instanceUuid)
  let namespaceViewId ← copyRange buf 24 56
  let hi ← add 64 58 scopeLen
  let scopeBytes ← range buf 58 hi
  let scope ← okOr (String.ofUtf8 scopeBytes) (.badName "scope not UTF-8")
  validateScope scope
  let lo ← add 64 66 scopeLen
  let hi ← add 64 98 scopeLen
  let metadataRoot ← copyRange buf lo hi
  pure ⟨instanceUuid, namespaceViewId, scope, metadataRoot⟩

/-! ## They do not panic -/

/-- The first character is `/`, which is one byte. -/
theorem strFrom_one {s : String} (h : s.toList.head? = some '/') :
    strFrom s 1 = .ok (String.ofList (s.toList.drop 1)) := by
  obtain ⟨rest, hrest⟩ := List.head?_eq_some_iff.mp h
  have hs : s.asBytes = 0x2F :: (String.ofList rest).asBytes := by
    rw [String.asBytes_eq_flatMap, hrest, List.flatMap_cons, ← String.asBytes_ofList]
    rfl
  rw [strFrom, rangeFrom, hs, range, getRange_eq_some (by simp) le_rfl]
  show unwrap (String.ofUtf8 (List.take _ (String.ofList rest).asBytes)) = _
  rw [List.take_of_length_le (by simp), String.ofUtf8_asBytes, hrest]
  rfl

theorem validateScope_eq (scope : String) :
    validateScope scope = lift (Mst2.validateScope scope) := by
  rw [← sim_eq_iff, validateScope, Mst2.validateScope]
  refine .reject fun habs ↦ .reject fun _ ↦ .reject fun _ ↦ .reject fun _ ↦ ?_
  rw [not_or, not_not] at habs
  split
  · exact .ok rfl
  · rw [strFrom_one habs.2]
    exact .ok_bind (sim_lift _)

theorem copyUuid_eq {what : String} {buf : Bytes} {lo hi : ℕ} (hlo : hi = lo + 16)
    (h : hi ≤ buf.length) :
    copyUuid buf lo hi = lift (Mst2.ServingDescriptor.readUuidAt what buf lo) := by
  subst hlo
  have hs : slice? buf lo 16 = some ((buf.drop lo).take 16) := if_pos h
  rw [copyUuid, range, getRange_eq_slice?, Mst2.ServingDescriptor.readUuidAt, hs, Option.bind_some,
    InstanceUuid.ofBytes?, dif_pos (length_of_slice? hs), Except.okOr_some]
  show unwrap (InstanceUuid.ofBytes? _) = _
  rw [InstanceUuid.ofBytes?, dif_pos (length_of_slice? hs)]
  rfl

theorem ServingDescriptor.decode_eq (buf : Bytes) :
    ServingDescriptor.decode buf = lift (Mst2.ServingDescriptor.decode buf) := by
  rw [← sim_eq_iff, decode, Mst2.ServingDescriptor.decode]
  refine .reject fun hmin ↦ ?_
  rw [baseLength, Nat.not_lt] at hmin
  refine .range (by omega) (by omega) (.reject fun _ ↦ ?_)
  refine sim_readU16 (by omega) fun schemaVersion ↦ .reject fun _ ↦ ?_
  refine sim_readU16 (by omega) fun codec ↦ .reject fun _ ↦ ?_
  refine sim_readU16 (by omega) fun scopeLen ↦ ?_
  have hscope := scopeLen.toNat_lt
  dsimp only
  refine .add (by rw [baseLength]; omega) (.reject fun hlen ↦ .add (by omega) ?_)
  rw [not_not, baseLength] at hlen
  refine sim_readU16 (by omega) fun policy ↦ .reject fun _ ↦ .add (by omega) ?_
  refine sim_readU16 (by omega) fun semantics ↦ .reject fun _ ↦ .add (by omega) ?_
  refine sim_readU16 (by omega) fun projection ↦ .reject fun _ ↦ .add (by omega) ?_
  refine sim_readU16 (by omega) fun reserved ↦ .reject fun _ ↦ ?_
  rw [copyUuid_eq rfl (by omega)]
  refine .lift fun instanceUuid _ ↦ .lift fun _ _ ↦ ?_
  refine sim_copyRange rfl (by omega) fun namespaceViewId ↦ ?_
  refine .add (by omega) (.range (by omega) (by omega) ?_)
  rw [Nat.add_sub_cancel_left]
  refine .okOr fun scope _ ↦ ?_
  rw [validateScope_eq]
  refine .lift fun _ _ ↦ .add (by omega) (.add (by omega) ?_)
  exact sim_copyRange (by omega) (by omega) fun metadataRoot ↦ .ok rfl

end Checked

end Mst2
