import Mst2Codec.Namespace.Radix

/-!
# Encoding and decoding radix nodes

`RadixNode.Shaped` is what `RadixNode.new` checks.  Every shaped node fits the node budget
(`length_encode_le`) and is read back from its bytes (`decode_encode`), so its bytes determine it
(`encode_injective`).

The proofs follow the cursor: one lemma for each reader says that it takes the bytes the
corresponding writer put in front and leaves the rest.
-/

set_option autoImplicit false

namespace Mst2

open Bytes Except

/-! ## The readers undo the writers -/

theorem take_append {x rest : Bytes} {n : ℕ} (h : x.length = n) :
    take (x ++ rest) n = .ok (x, rest) := by
  rw [take, if_pos (by simp; omega), List.take_left' h, List.drop_left' h]

theorem readU16Be_append {n : ℕ} (h : n < 65536) (rest : Bytes) :
    readU16Be (beBytes 2 n ++ rest) = .ok (n, rest) := by
  rw [readU16Be, take_append (length_beBytes 2 n)]
  simp [pure, Except.pure, ofBe_beBytes (w := 2) (by omega : n < 256 ^ 2)]

theorem takeByte_cons (b : UInt8) (rest : Bytes) : takeByte (b :: rest) = .ok (b, rest) := by
  have h : take (b :: rest) 1 = .ok ([b], rest) := take_append (x := [b]) rfl
  rw [takeByte, h]
  rfl

theorem readDigest_append (d : Digest) (rest : Bytes) :
    readDigest (d.bytes ++ rest) = .ok (d, rest) := by
  rw [readDigest, take_append d.length_eq]
  simp [pure, Except.pure]

namespace RadixNode

theorem decodeBinding_append (binding : Option Digest) (rest : Bytes) :
    decodeBinding (encodeBinding binding ++ rest) = .ok (binding, rest) := by
  cases binding with
  | none =>
    rw [encodeBinding, List.singleton_append, decodeBinding, takeByte_cons]
    rfl
  | some d =>
    rw [encodeBinding, List.cons_append, decodeBinding, takeByte_cons]
    simp [readDigest_append, pure, Except.pure]

theorem decodeChildren_append (children : List RadixChild) (rest : Bytes) :
    decodeChildren children.length (children.flatMap encodeChild ++ rest) =
      .ok (children, rest) := by
  induction children with
  | nil => rfl
  | cons child children ih =>
    simp only [List.flatMap_cons, List.append_assoc, encodeChild, List.cons_append,
      List.length_cons, decodeChildren, takeByte_cons, readDigest_append, ok_bind, ih]
    rfl

theorem dropPrefix?_append (pre rest : Bytes) : (pre ++ rest).dropPrefix? pre = some rest :=
  List.dropPrefix?_eq_some_iff.mpr ⟨pre, rfl, by simp⟩

/-! ## The local shape -/

/-- The local canonical shape: what `new` accepts. -/
structure Shaped (node : RadixNode) : Prop where
  /-- The label is no longer than a path. -/
  label_le : node.label.length ≤ pathMaxBytes
  /-- There is at most one child for each byte. -/
  children_le : node.children.length ≤ childMaxCount
  /-- Children are sorted by their edge. -/
  ascend : edgesAscend node.children = true
  /-- An unbound node is the empty root or has at least two children. -/
  compressed : ¬ (node.binding = none ∧
    (node.children.length = 1 ∨ (node.children = [] ∧ node.label ≠ [])))

theorem new_eq_ok {label : Bytes} {binding : Option Digest} {children : List RadixChild}
    {node : RadixNode} : new label binding children = .ok node ↔
      node = ⟨label, binding, children⟩ ∧ Shaped ⟨label, binding, children⟩ := by
  simp only [new, reject_bind_eq_ok, pure, Except.pure, Except.ok.injEq]
  constructor
  · rintro ⟨h1, h2, h3, h4, rfl⟩
    exact ⟨rfl, by simpa using h1, by simpa using h2, by simpa using h3, h4⟩
  · rintro ⟨rfl, h⟩
    exact ⟨by simpa using h.label_le, by simpa using h.children_le, by simpa using h.ascend,
      h.compressed, rfl⟩

theorem shaped_empty : Shaped empty :=
  ⟨by decide, by decide, by decide, by decide⟩

/-! ## The round trip -/

theorem length_flatMap_encodeChild (children : List RadixChild) :
    (children.flatMap encodeChild).length = 33 * children.length := by
  induction children with
  | nil => rfl
  | cons child children ih =>
    simp only [List.flatMap_cons, List.length_append, ih, encodeChild, List.length_cons,
      Digest.length_eq]
    omega

theorem length_encodeBinding_le (binding : Option Digest) :
    (encodeBinding binding).length ≤ 33 := by
  cases binding <;> simp [encodeBinding]

@[simp] theorem length_nodeDomain : nodeDomain.length = 24 := by decide

/-- **Every shaped node fits the node budget.** -/
theorem length_encode_le {node : RadixNode} (h : node.Shaped) :
    node.encode.length ≤ nodeMaxBytes := by
  have h1 := h.label_le
  have h2 := h.children_le
  have h3 := length_encodeBinding_le node.binding
  simp only [encode, List.length_append, length_nodeDomain, length_beBytes,
    length_flatMap_encodeChild]
  simp only [pathMaxBytes, childMaxCount, nodeMaxBytes] at *
  omega

/-- **A shaped node is read back from its bytes.** -/
theorem decode_encode {node : RadixNode} (h : node.Shaped) : decode node.encode = .ok node := by
  have hlen := length_encode_le h
  have h1 := h.label_le
  have h2 := h.children_le
  simp only [decode, reject_bind_eq_ok, not_lt]
  refine ⟨hlen, ?_⟩
  have hlabel : node.label.length < 65536 := by simp only [pathMaxBytes] at h1; omega
  have hcount : node.children.length < 65536 := by simp only [childMaxCount] at h2; omega
  have hchildren := decodeChildren_append node.children []
  rw [List.append_nil] at hchildren
  simp only [encode, List.append_assoc, dropPrefix?_append, okOr_some, ok_bind,
    readU16Be_append hlabel, reject_bind_eq_ok, take_append rfl, decodeBinding_append,
    readU16Be_append hcount, hchildren]
  exact ⟨not_lt.mpr h1, not_lt.mpr h2, by simp, new_eq_ok.mpr ⟨rfl, h⟩⟩

/-- The bytes of a shaped node determine it. -/
theorem encode_injective {m n : RadixNode} (hm : m.Shaped) (hn : n.Shaped)
    (h : m.encode = n.encode) : m = n := by
  have := decode_encode hm
  rw [h, decode_encode hn] at this
  exact (Except.ok.inj this).symm

end RadixNode

end Mst2
