import Mst2Codec.Checked.Readers
import Mst2Codec.Namespace.Manifest
import Mst2Codec.Namespace.Radix

/-!
# Checked decoding in the namespace

`RadixNode::decode` of `src/namespace/radix.rs` and the three manifest decoders of
`src/namespace.rs`, operation by operation.  All of them move a cursor over the rest of the input.
-/

set_option autoImplicit false

namespace Mst2

namespace Checked

open Bytes Machine

/-! ## Radix nodes -/

/-- `take` -/
def take (input : Bytes) (count : ℕ) : Run (Bytes × Bytes) := do
  let head ← okOr (getRange input 0 count) (.truncated "radix node field")
  let input ← rangeFrom input count
  pure (head, input)

/-- `take(input, 1)?[0]` -/
def takeByte (input : Bytes) : Run (UInt8 × Bytes) := do
  let (bytes, input) ← take input 1
  let byte ← index bytes 0
  pure (byte, input)

/-- `read_u16` of the radix codec. -/
def readU16Be (input : Bytes) : Run (ℕ × Bytes) := do
  let (bytes, input) ← take input 2
  let bytes ← firstBytes 2 bytes
  pure (ofBe bytes, input)

/-- `read_digest` -/
def readDigest (input : Bytes) : Run (Digest × Bytes) := do
  let (bytes, input) ← take input 32
  let digest ← copyDigest bytes
  pure (digest, input)

namespace RadixNode

/-- `children.windows(2)` -/
def windows : List RadixChild → List (List RadixChild)
  | a :: b :: rest => [a, b] :: windows (b :: rest)
  | _ => []

/-- The check of neighbours: `pair[0].edge >= pair[1].edge` for none of them. -/
def checkEdges (children : List RadixChild) : Run Unit :=
  (windows children).forM fun pair ↦ do
    let a ← index pair 0
    let b ← index pair 1
    reject (b.edge ≤ a.edge) (.badOrdering "radix child edges")

/-- `RadixNode::new` -/
def new (label : Bytes) (binding : Option Digest) (children : List RadixChild) :
    Run RadixNode := do
  reject (label.length > pathMaxBytes) (.badLength "radix label")
  reject (children.length > childMaxCount) (.badLength "radix fanout")
  checkEdges children
  reject (binding = none ∧ (children.length = 1 ∨ (children = [] ∧ label ≠ [])))
    (.badOrdering "noncanonical radix compression")
  pure ⟨label, binding, children⟩

/-- The presence byte and the binding after it. -/
def decodeBinding (input : Bytes) : Run (Option Digest × Bytes) := do
  let (presence, input) ← takeByte input
  if presence = 0 then pure (none, input)
  else if presence = 1 then do
    let (binding, input) ← readDigest input
    pure (some binding, input)
  else lift (.error (.badConstant "radix binding presence"))

/-- The rows of the child table. -/
def decodeChildren : ℕ → Bytes → Run (List RadixChild × Bytes)
  | 0, input => pure ([], input)
  | count + 1, input => do
    let (edge, input) ← takeByte input
    let (digest, input) ← readDigest input
    let (rest, input) ← decodeChildren count input
    pure (⟨edge, digest⟩ :: rest, input)

/-- `RadixNode::decode` -/
def decode (bytes : Bytes) : Run RadixNode := do
  reject (bytes.length > nodeMaxBytes) (.badLength "radix node")
  let input ← okOr (bytes.dropPrefix? nodeDomain) (.badConstant "radix domain")
  let (labelLen, input) ← readU16Be input
  reject (labelLen > pathMaxBytes) (.badLength "radix label")
  let (label, input) ← take input labelLen
  let (binding, input) ← decodeBinding input
  let (childCount, input) ← readU16Be input
  reject (childCount > childMaxCount) (.badLength "radix fanout")
  let (children, input) ← decodeChildren childCount input
  reject (input ≠ []) (.badLength "radix trailing bytes")
  new label binding children

end RadixNode

theorem take_eq (input : Bytes) (count : ℕ) : take input count = lift (Mst2.take input count) := by
  rw [take, Mst2.take, getRange]
  by_cases h : count ≤ input.length
  · rw [if_pos h, if_pos ⟨Nat.zero_le _, h⟩, List.drop_zero, Nat.sub_zero, ← sim_eq_iff]
    exact .rangeFrom h (.ok rfl)
  · rw [if_neg h, if_neg fun h' ↦ h h'.2]
    rfl

theorem length_of_take {input head rest : Bytes} {count : ℕ}
    (h : Mst2.take input count = .ok (head, rest)) : head.length = count := by
  rw [Mst2.take] at h
  split at h
  · obtain ⟨rfl, -⟩ := Prod.mk.inj (Except.ok.inj h)
    rw [List.length_take]
    omega
  · cases h

/-- The only byte of a slice. -/
theorem sim_onlyByte {bytes : Bytes} (h : bytes.length = 1) (rest : Bytes) :
    Sim Eq (index bytes 0 >>= fun b ↦ pure (b, rest))
      (pure (bytes.headD 0, rest) : CodecResult (UInt8 × Bytes)) := by
  obtain ⟨b, rfl⟩ := List.length_eq_one_iff.mp h
  exact .index rfl (.ok rfl)

theorem takeByte_eq (input : Bytes) : takeByte input = lift (Mst2.takeByte input) := by
  rw [← sim_eq_iff, takeByte, Mst2.takeByte, take_eq]
  exact .liftPair fun bytes rest h ↦ sim_onlyByte (length_of_take h) rest

theorem readU16Be_eq (input : Bytes) : readU16Be input = lift (Mst2.readU16Be input) := by
  rw [← sim_eq_iff, readU16Be, Mst2.readU16Be, take_eq]
  refine .liftPair fun bytes rest h ↦ ?_
  dsimp only
  rw [firstBytes_eq (length_of_take h)]
  exact .ok rfl

theorem readDigest_eq (input : Bytes) : readDigest input = lift (Mst2.readDigest input) := by
  rw [← sim_eq_iff, readDigest, Mst2.readDigest, take_eq]
  refine .liftPair fun bytes rest h ↦ ?_
  have hlen := length_of_take h
  dsimp only
  rw [copyDigest_eq hlen, Digest.ofBytes?, dif_pos hlen]
  exact .ok rfl

namespace RadixNode

theorem checkEdges_cons (a b : RadixChild) (rest : List RadixChild) :
    checkEdges (a :: b :: rest) =
      (reject (b.edge ≤ a.edge) (.badOrdering "radix child edges") >>= fun _ ↦
        checkEdges (b :: rest)) := rfl

theorem checkEdges_eq (children : List RadixChild) :
    checkEdges children = lift (Except.reject (RadixNode.edgesAscend children = false)
      (.badOrdering "radix child edges")) := by
  induction children using windows.induct with
  | case1 a b rest ih =>
    rw [checkEdges_cons, ih, RadixNode.edgesAscend]
    by_cases hlt : a.edge < b.edge
    · rw [decide_eq_true hlt, Bool.true_and, reject,
        Except.reject_of_not (UInt8.not_le.mpr hlt)]
      rfl
    · rw [decide_eq_false hlt, Bool.false_and, reject, Except.reject, if_pos (UInt8.not_lt.mp hlt)]
      rfl
  | case2 children h =>
    rcases children with _ | ⟨a, _ | ⟨b, rest⟩⟩
    · rfl
    · rfl
    · exact absurd rfl (h a b rest)

theorem new_eq (label : Bytes) (binding : Option Digest) (children : List RadixChild) :
    new label binding children = lift (Mst2.RadixNode.new label binding children) := by
  rw [← sim_eq_iff, new, Mst2.RadixNode.new]
  refine .reject fun _ ↦ .reject fun _ ↦ ?_
  rw [checkEdges_eq]
  exact .lift fun _ _ ↦ .reject fun _ ↦ .ok rfl

theorem decodeBinding_eq (input : Bytes) :
    decodeBinding input = lift (Mst2.RadixNode.decodeBinding input) := by
  rw [← sim_eq_iff, decodeBinding, Mst2.RadixNode.decodeBinding, takeByte_eq]
  refine .liftPair fun presence rest _ ↦ ?_
  dsimp only
  split_ifs
  · exact .ok rfl
  · rw [readDigest_eq]
    exact .liftPair fun binding rest _ ↦ .ok rfl
  · exact .error _

theorem decodeChildren_eq (count : ℕ) (input : Bytes) :
    decodeChildren count input = lift (Mst2.RadixNode.decodeChildren count input) := by
  rw [← sim_eq_iff]
  induction count generalizing input with
  | zero => exact .ok rfl
  | succ count ih =>
    rw [decodeChildren, Mst2.RadixNode.decodeChildren, takeByte_eq]
    refine .liftPair fun edge input _ ↦ ?_
    dsimp only
    rw [readDigest_eq]
    exact .liftPair fun digest input _ ↦ (ih input).andThenPair fun children rest ↦ .ok rfl

theorem decode_eq (bytes : Bytes) : decode bytes = lift (Mst2.RadixNode.decode bytes) := by
  rw [← sim_eq_iff, decode, Mst2.RadixNode.decode]
  simp only [readU16Be_eq, take_eq, decodeBinding_eq, decodeChildren_eq, new_eq]
  exact .reject fun _ ↦ .okOr fun input _ ↦ .liftPair fun labelLen input _ ↦ .reject fun _ ↦
    .liftPair fun label input _ ↦ .liftPair fun binding input _ ↦ .liftPair fun childCount input _ ↦
    .reject fun _ ↦ .liftPair fun children input _ ↦ .reject fun _ ↦ sim_lift _

end RadixNode

/-! ## Manifests -/

/-- A value of a run, and that the run returns it. -/
def attest {α : Type} (X : Run α) : Run {a // X = .ok a} :=
  match X with
  | .ok a => .ok ⟨a, rfl⟩
  | .error e => .error e

/-- `b.try_into().unwrap()` into `[u8; n]`. -/
def tryInto (n : ℕ) (b : Bytes) : Run Bytes := unwrap (if b.length = n then some b else none)

namespace Input

/-- `Input::take` -/
def take (input : Bytes) (length : ℕ) : Run (Bytes × Bytes) := do
  let bytes ← okOr (getRange input 0 length) (.truncated "manifest field")
  let input ← rangeFrom input length
  pure (bytes, input)

/-- `Input::byte` -/
def byte (input : Bytes) : Run (UInt8 × Bytes) := do
  let (bytes, input) ← take input 1
  let b ← index bytes 0
  pure (b, input)

/-- `Input::digest` -/
def digest (input : Bytes) : Run (Digest × Bytes) := do
  let (bytes, input) ← take input 32
  let digest ← copyDigest bytes
  pure (digest, input)

/-- `Input::field` -/
def field (input : Bytes) : Run (Bytes × Bytes) := do
  let (length, input) ← take input 4
  let length ← tryInto 4 length
  reject (¬ ofBe length < 2 ^ 64) (.overflow "manifest length")
  take input (ofBe length)

/-- `Input::text` -/
def text (input : Bytes) : Run (String × Bytes) := do
  let (bytes, input) ← field input
  let s ← okOr (String.ofUtf8 bytes) (.badName "manifest UTF-8")
  pure (s, input)

end Input

/-- `SourceSnapshot::decode` -/
def SourceSnapshot.decode (bytes : Bytes) : Run SourceSnapshot := do
  let input ← lift (Mst2.Input.new bytes sourceDomain)
  let (sourceId, input) ← Input.text input
  let (scopePath, input) ← Input.text input
  let (format, input) ← Input.text input
  reject (format ≠ "sha1") (.badConstant "source object format")
  let (commitOid, input) ← Input.text input
  let (rootTreeOid, input) ← Input.text input
  lift (Mst2.Input.finish input)
  lift (Mst2.SourceSnapshot.new sourceId scopePath commitOid rootTreeOid)

/-- The length of the path below the source that a binding mounts. -/
def composedLen (source : SourceSnapshot) (sourceSubpath : String) : Run ℕ :=
  if sourceSubpath = "" then pure source.scopePath.asBytes.length
  else if source.scopePath = "/" then add 64 1 sourceSubpath.asBytes.length
  else do
    let len ← add 64 source.scopePath.asBytes.length 1
    add 64 len sourceSubpath.asBytes.length

theorem composedLen_eq_ok {source : SourceSnapshot} {sourceSubpath : String} {len : ℕ}
    (h : composedLen source sourceSubpath = .ok len) :
    Mst2.composedLen source sourceSubpath = len := by
  rw [composedLen] at h
  rw [Mst2.composedLen]
  split at h
  · rw [if_pos ‹_›]
    exact Except.ok.inj h
  rw [if_neg ‹_›]
  split at h
  · rw [if_pos ‹_›]
    exact (add_eq_ok.mp h).2
  · rw [if_neg ‹_›]
    obtain ⟨n, hn, h⟩ := Except.bind_eq_ok.mp h
    rw [(add_eq_ok.mp hn).2]
    exact (add_eq_ok.mp h).2

/-- `NamespaceBinding::new` -/
def NamespaceBinding.new (mountPath : String) (source : SourceSnapshot) (sourceSubpath : String)
    (policy : BindingPolicy) : Run NamespaceBinding := do
  let ⟨h₁⟩ ← lift (Mst2.attest (validateAbsolutePath mountPath))
  let ⟨h₂⟩ ← lift (Mst2.attest (validateRelativePath sourceSubpath))
  let ⟨len, hlen⟩ ← attest (composedLen source sourceSubpath)
  if h₃ : len > pathMaxBytes then lift (.error (.badLength "composed source path"))
  else pure ⟨mountPath, source, sourceSubpath, policy, h₁, h₂,
    composedLen_eq_ok hlen ▸ Nat.not_lt.mp h₃⟩

/-- `NamespaceBinding::decode` -/
def NamespaceBinding.decode (bytes : Bytes) : Run NamespaceBinding := do
  let input ← lift (Mst2.Input.new bytes bindingDomain)
  let (mountPath, input) ← Input.text input
  let (source, input) ← Input.field input
  let source ← SourceSnapshot.decode source
  let (sourceSubpath, input) ← Input.text input
  let (tag, input) ← Input.byte input
  let policy ← lift (BindingPolicy.ofTag tag)
  lift (Mst2.Input.finish input)
  NamespaceBinding.new mountPath source sourceSubpath policy

/-- The optional root of `NamespaceView::decode`. -/
def NamespaceView.readOverrides (input : Bytes) : Run (Option Digest × Bytes) := do
  let (presence, input) ← Input.byte input
  if presence = 0 then pure (none, input)
  else if presence = 1 then do
    let (root, input) ← Input.digest input
    pure (some root, input)
  else lift (.error (.badConstant "override presence"))

/-- `NamespaceView::decode` -/
def NamespaceView.decode (bytes : Bytes) : Run NamespaceView := do
  let input ← lift (Mst2.Input.new bytes viewDomain)
  let (schema, input) ← Input.take input 2
  reject (schema ≠ beBytes 2 1) (.badConstant "namespace schema")
  let (instanceId, input) ← Input.text input
  let (native, input) ← Input.field input
  let native ← SourceSnapshot.decode native
  let (bindingsRoot, input) ← Input.digest input
  let (overridesRoot, input) ← NamespaceView.readOverrides input
  let (policy, input) ← Input.byte input
  reject (policy ≠ 1) (.badConstant "materialization policy")
  lift (Mst2.Input.finish input)
  lift (Mst2.NamespaceView.new instanceId native bindingsRoot overridesRoot)

namespace Input

theorem take_eq (input : Bytes) (length : ℕ) :
    take input length = lift (Mst2.Input.take input length) := by
  rw [← sim_eq_iff, take, Mst2.Input.take, show length = 0 + length from (Nat.zero_add _).symm,
    getRange_eq_slice?, Nat.zero_add]
  refine .okOr fun bytes h ↦ .rangeFrom ?_ (.ok rfl)
  simpa using le_of_slice? h

theorem length_of_take {input bytes rest : Bytes} {length : ℕ}
    (h : Mst2.Input.take input length = .ok (bytes, rest)) : bytes.length = length := by
  rw [Mst2.Input.take, Except.okOr_bind_eq_ok] at h
  obtain ⟨b, hb, h⟩ := h
  obtain ⟨rfl, -⟩ := Prod.mk.inj (Except.ok.inj h)
  exact length_of_slice? hb

theorem byte_eq (input : Bytes) : byte input = lift (Mst2.Input.byte input) := by
  rw [← sim_eq_iff, byte, Mst2.Input.byte, take_eq]
  exact .liftPair fun bytes rest h ↦ sim_onlyByte (length_of_take h) rest

theorem digest_eq (input : Bytes) : digest input = lift (Mst2.Input.digest input) := by
  rw [← sim_eq_iff, digest, Mst2.Input.digest, take_eq]
  refine .liftPair fun bytes rest h ↦ ?_
  have hlen := length_of_take h
  dsimp only
  rw [copyDigest_eq hlen, Digest.ofBytes?, dif_pos hlen]
  exact .ok rfl

/-- Four bytes make a number that fits. -/
theorem field_eq (input : Bytes) : field input = lift (Mst2.Input.field input) := by
  rw [← sim_eq_iff, field, Mst2.Input.field, take_eq]
  refine .liftPair fun length rest h ↦ .unwrap (if_pos (length_of_take h)) ?_
  have hlt := ofBe_lt length
  rw [length_of_take h] at hlt
  refine .pass (by omega) ?_
  exact sim_eq_iff.mpr (take_eq rest (ofBe length))

theorem text_eq (input : Bytes) : text input = lift (Mst2.Input.text input) := by
  rw [← sim_eq_iff, text, Mst2.Input.text, field_eq]
  exact .liftPair fun bytes rest _ ↦ .okOr fun s _ ↦ .ok rfl

end Input

theorem SourceSnapshot.decode_eq (bytes : Bytes) :
    SourceSnapshot.decode bytes = lift (Mst2.SourceSnapshot.decode bytes) := by
  rw [← sim_eq_iff, decode, Mst2.SourceSnapshot.decode]
  simp only [Input.text_eq]
  exact .lift fun input _ ↦ .liftPair fun sourceId input _ ↦ .liftPair fun scopePath input _ ↦
    .liftPair fun format input _ ↦ .reject fun _ ↦ .liftPair fun commitOid input _ ↦
    .liftPair fun rootTreeOid input _ ↦ .lift fun _ _ ↦ sim_lift _

theorem sim_attest {α γ δ : Type} {S : γ → δ → Prop} {X : Run α} {F : {a // X = .ok a} → Run γ}
    {y : CodecResult δ} {a : α} (h : X = .ok a) (hF : Sim S (F ⟨a, h⟩) y) :
    Sim S (attest X >>= F) y := by
  subst h
  exact hF

/-- Both parts are no longer than a path. -/
theorem composedLen_eq (source : SourceSnapshot) {sourceSubpath : String}
    (h : validateRelativePath sourceSubpath = .ok ()) :
    composedLen source sourceSubpath = .ok (Mst2.composedLen source sourceSubpath) := by
  have hscope := length_of_validateAbsolutePath source.validScopePath
  have hsub := length_of_validateRelativePath h
  rw [pathMaxBytes] at hscope hsub
  rw [composedLen, Mst2.composedLen]
  split_ifs
  · rfl
  · exact add_eq_ok.mpr ⟨by omega, rfl⟩
  · rw [add_eq_ok.mpr ⟨by omega, rfl⟩, Except.ok_bind]
    exact add_eq_ok.mpr ⟨by omega, rfl⟩

theorem NamespaceBinding.new_eq (mountPath : String) (source : SourceSnapshot)
    (sourceSubpath : String) (policy : BindingPolicy) :
    NamespaceBinding.new mountPath source sourceSubpath policy =
      lift (Mst2.NamespaceBinding.new mountPath source sourceSubpath policy) := by
  rw [← sim_eq_iff, new, Mst2.NamespaceBinding.new]
  refine .lift fun _ _ ↦ .lift fun h _ ↦ sim_attest (composedLen_eq source h.down) ?_
  dsimp only
  split
  · exact .error _
  · exact .ok rfl

theorem NamespaceBinding.decode_eq (bytes : Bytes) :
    NamespaceBinding.decode bytes = lift (Mst2.NamespaceBinding.decode bytes) := by
  rw [← sim_eq_iff, decode, Mst2.NamespaceBinding.decode]
  simp only [Input.text_eq, Input.field_eq, Input.byte_eq, SourceSnapshot.decode_eq, new_eq]
  exact .lift fun input _ ↦ .liftPair fun mountPath input _ ↦ .liftPair fun source input _ ↦
    .lift fun source _ ↦ .liftPair fun sourceSubpath input _ ↦ .liftPair fun tag input _ ↦
    .lift fun policy _ ↦ .lift fun _ _ ↦ sim_lift _

theorem NamespaceView.readOverrides_eq (input : Bytes) :
    NamespaceView.readOverrides input = lift (Mst2.NamespaceView.readOverrides input) := by
  rw [← sim_eq_iff, readOverrides, Mst2.NamespaceView.readOverrides, Input.byte_eq]
  refine .liftPair fun presence input _ ↦ ?_
  dsimp only
  split_ifs
  · exact .ok rfl
  · rw [Input.digest_eq]
    exact .liftPair fun root input _ ↦ .ok rfl
  · exact .error _

theorem NamespaceView.decode_eq (bytes : Bytes) :
    NamespaceView.decode bytes = lift (Mst2.NamespaceView.decode bytes) := by
  rw [← sim_eq_iff, decode, Mst2.NamespaceView.decode]
  simp only [Input.take_eq, Input.text_eq, Input.field_eq, Input.byte_eq, Input.digest_eq,
    SourceSnapshot.decode_eq, readOverrides_eq]
  exact .lift fun input _ ↦ .liftPair fun schema input _ ↦ .reject fun _ ↦
    .liftPair fun instanceId input _ ↦ .liftPair fun native input _ ↦ .lift fun native _ ↦
    .liftPair fun bindingsRoot input _ ↦ .liftPair fun overridesRoot input _ ↦
    .liftPair fun policy input _ ↦ .reject fun _ ↦ .lift fun _ _ ↦ sim_lift _

end Checked

end Mst2
