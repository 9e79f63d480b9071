import Mst2Codec.Namespace.Radix.Codec

/-!
# Radix nodes are canonical bytes

`Codec.lean` shows that the readers undo the writers.  Here is the converse: a reader that succeeds
has consumed exactly what the writer of its value emits, so the bytes that `RadixNode.decode`
accepts are the encodings of the shaped nodes and nothing else (`decode_eq_ok`).  There is one
encoding for each node, and its digest identifies it.
-/

set_option autoImplicit false

namespace Mst2

open Bytes Except

/-! ## What the readers consume -/

variable {input rest : Bytes}

theorem take_eq_ok {x : Bytes} {n : ℕ} :
    take input n = .ok (x, rest) ↔ x.length = n ∧ input = x ++ rest := by
  refine ⟨fun h ↦ ?_, fun h ↦ h.2 ▸ take_append h.1⟩
  rw [take] at h
  split at h
  · rename_i hle
    obtain ⟨rfl, rfl⟩ := Prod.mk.inj (Except.ok.inj h)
    exact ⟨by simpa using hle, (List.take_append_drop n input).symm⟩
  · cases h

theorem readU16Be_eq_ok {n : ℕ} :
    readU16Be input = .ok (n, rest) ↔ n < 65536 ∧ input = beBytes 2 n ++ rest := by
  refine ⟨fun h ↦ ?_, fun h ↦ h.2 ▸ readU16Be_append h.1 rest⟩
  rw [readU16Be, bind_eq_ok] at h
  obtain ⟨⟨x, tail⟩, htake, h⟩ := h
  obtain ⟨rfl, rfl⟩ := Prod.mk.inj (Except.ok.inj h)
  obtain ⟨hx, rfl⟩ := take_eq_ok.mp htake
  have hlt := ofBe_lt x
  have hback := beBytes_ofBe x
  rw [hx] at hlt hback
  exact ⟨by omega, by rw [hback]⟩

theorem takeByte_eq_ok {b : UInt8} : takeByte input = .ok (b, rest) ↔ input = b :: rest := by
  refine ⟨fun h ↦ ?_, fun h ↦ h ▸ takeByte_cons b rest⟩
  rw [takeByte, bind_eq_ok] at h
  obtain ⟨⟨x, tail⟩, htake, h⟩ := h
  obtain ⟨rfl, rfl⟩ := Prod.mk.inj (Except.ok.inj h)
  obtain ⟨hx, rfl⟩ := take_eq_ok.mp htake
  obtain ⟨a, rfl⟩ := List.length_eq_one_iff.mp hx
  rfl

theorem readDigest_eq_ok {d : Digest} :
    readDigest input = .ok (d, rest) ↔ input = d.bytes ++ rest := by
  refine ⟨fun h ↦ ?_, fun h ↦ h ▸ readDigest_append d rest⟩
  rw [readDigest, bind_eq_ok] at h
  obtain ⟨⟨x, tail⟩, htake, h⟩ := h
  rw [okOr_bind_eq_ok] at h
  obtain ⟨d', hd, h⟩ := h
  obtain ⟨rfl, rfl⟩ := Prod.mk.inj (Except.ok.inj h)
  rw [(take_eq_ok.mp htake).2, Digest.ofBytes?_eq_some.mp hd]

namespace RadixNode

theorem decodeBinding_eq_ok {binding : Option Digest} :
    decodeBinding input = .ok (binding, rest) ↔ input = encodeBinding binding ++ rest := by
  refine ⟨fun h ↦ ?_, fun h ↦ h ▸ decodeBinding_append binding rest⟩
  rw [decodeBinding, bind_eq_ok] at h
  obtain ⟨⟨presence, tail⟩, hbyte, h⟩ := h
  obtain rfl := takeByte_eq_ok.mp hbyte
  dsimp only at h
  split at h
  · rename_i hzero
    obtain ⟨rfl, rfl⟩ := Prod.mk.inj (Except.ok.inj h)
    rw [hzero, encodeBinding, List.singleton_append]
  · split at h
    · rename_i hone
      rw [bind_eq_ok] at h
      obtain ⟨⟨d, tail'⟩, hd, h⟩ := h
      obtain ⟨rfl, rfl⟩ := Prod.mk.inj (Except.ok.inj h)
      rw [hone, readDigest_eq_ok.mp hd, encodeBinding, List.cons_append]
    · cases h

theorem decodeChildren_eq_ok {count : ℕ} {children : List RadixChild} :
    decodeChildren count input = .ok (children, rest) ↔
      children.length = count ∧ input = children.flatMap encodeChild ++ rest := by
  refine ⟨fun h ↦ ?_, fun h ↦ h.2 ▸ h.1 ▸ decodeChildren_append children rest⟩
  induction count generalizing input children with
  | zero =>
    obtain ⟨rfl, rfl⟩ := Prod.mk.inj (Except.ok.inj h)
    simp
  | succ count ih =>
    rw [decodeChildren, bind_eq_ok] at h
    obtain ⟨⟨edge, input₁⟩, hedge, h⟩ := h
    rw [bind_eq_ok] at h
    obtain ⟨⟨digest, input₂⟩, hdigest, h⟩ := h
    rw [bind_eq_ok] at h
    obtain ⟨⟨others, input₃⟩, hothers, h⟩ := h
    obtain ⟨rfl, rfl⟩ := Prod.mk.inj (Except.ok.inj h)
    obtain ⟨hcount, htail⟩ := ih hothers
    refine ⟨by rw [List.length_cons, hcount], ?_⟩
    rw [takeByte_eq_ok.mp hedge, readDigest_eq_ok.mp hdigest, htail, List.flatMap_cons,
      encodeChild, List.cons_append, List.cons_append, List.append_assoc]

/-- **`decode` accepts the encodings of the shaped nodes.** -/
theorem decode_eq_ok {b : Bytes} {node : RadixNode} :
    decode b = .ok node ↔ node.Shaped ∧ b = node.encode := by
  refine ⟨fun h ↦ ?_, fun h ↦ h.2 ▸ decode_encode h.1⟩
  rw [decode, reject_bind_eq_ok, okOr_bind_eq_ok] at h
  obtain ⟨-, input, hdomain, h⟩ := h
  obtain ⟨pre, rfl, hpre⟩ := List.dropPrefix?_eq_some_iff.mp hdomain
  rw [bind_eq_ok] at h
  obtain ⟨⟨labelLen, input₁⟩, hlabelLen, h⟩ := h
  rw [reject_bind_eq_ok] at h
  obtain ⟨-, h⟩ := h
  rw [bind_eq_ok] at h
  obtain ⟨⟨label, input₂⟩, hlabel, h⟩ := h
  rw [bind_eq_ok] at h
  obtain ⟨⟨binding, input₃⟩, hbinding, h⟩ := h
  rw [bind_eq_ok] at h
  obtain ⟨⟨childCount, input₄⟩, hchildCount, h⟩ := h
  rw [reject_bind_eq_ok] at h
  obtain ⟨-, h⟩ := h
  rw [bind_eq_ok] at h
  obtain ⟨⟨children, input₅⟩, hchildren, h⟩ := h
  rw [reject_bind_eq_ok, not_not, new_eq_ok] at h
  obtain ⟨rfl, rfl, hshaped⟩ := h
  refine ⟨hshaped, ?_⟩
  -- each reader's input is its field and the next reader's input
  obtain ⟨rfl, rfl⟩ := take_eq_ok.mp hlabel
  obtain ⟨rfl, rfl⟩ := decodeChildren_eq_ok.mp hchildren
  rw [(readU16Be_eq_ok.mp hlabelLen).2, decodeBinding_eq_ok.mp hbinding,
    (readU16Be_eq_ok.mp hchildCount).2, List.append_nil, eq_of_beq hpre]
  simp only [encode, List.append_assoc]

theorem pairwise_of_edgesAscend {children : List RadixChild} (h : edgesAscend children = true) :
    (children.map RadixChild.edge).Pairwise (· < ·) := by
  rw [← List.isChain_iff_pairwise]
  fun_induction edgesAscend children with
  | case1 a b rest ih =>
    rw [Bool.and_eq_true, decide_eq_true_eq] at h
    exact .cons_cons h.1 (ih h.2)
  | case2 children hne =>
    rcases children with _ | ⟨a, _ | ⟨b, rest⟩⟩
    · exact .nil
    · exact .singleton _
    · exact absurd rfl (hne a b rest)

theorem Shaped.two_le_or {node : RadixNode} (h : node.Shaped) (hunbound : node.binding = none) :
    2 ≤ node.children.length ∨ node.label = [] ∧ node.children = [] := by
  have hc := h.compressed
  rw [hunbound] at hc
  rcases hchildren : node.children with _ | ⟨a, _ | ⟨b, rest⟩⟩
  · refine .inr ⟨by_contra fun hlabel ↦ hc ⟨rfl, .inr ⟨hchildren, hlabel⟩⟩, rfl⟩
  · exact absurd ⟨rfl, .inl (by rw [hchildren]; rfl)⟩ hc
  · exact .inl (by simp)

/-- **Radix nodes are canonical bytes.**  Every node that `new` accepts, and the empty node, fits
the node budget and is read back from its bytes; and whatever is read is the encoding of what it is
read as, a node with ascending edges that is bound, branches or is empty. -/
theorem canonical_node :
    (∀ (label : Bytes) (binding : Option Digest) (children : List RadixChild) (x : RadixNode),
      new label binding children = .ok x ∨ x = empty →
        x.encode.length ≤ nodeMaxBytes ∧ decode x.encode = .ok x) ∧
    ∀ (b : Bytes) (x : RadixNode), decode b = .ok x →
      x.encode = b ∧ (x.children.map RadixChild.edge).Pairwise (· < ·) ∧
        (x.binding = none → 2 ≤ x.children.length ∨ x.label = [] ∧ x.children = []) := by
  refine ⟨fun label binding children x hx ↦ ?_, fun b x h ↦ ?_⟩
  · have hshaped : x.Shaped := by
      rcases hx with hnew | rfl
      · obtain ⟨rfl, h⟩ := new_eq_ok.mp hnew
        exact h
      · exact shaped_empty
    exact ⟨length_encode_le hshaped, decode_encode hshaped⟩
  · obtain ⟨hshaped, rfl⟩ := decode_eq_ok.mp h
    exact ⟨rfl, pairwise_of_edgesAscend hshaped.ascend, hshaped.two_le_or⟩

/-- An unbound node with a label and two children. -/
def fork : RadixNode := ⟨[0x61, 0], none, [⟨0x62, .fill 1⟩, ⟨0x63, .fill 2⟩]⟩

/-- It is accepted, and so are its bytes. -/
theorem canonical_node_fork :
    (fork.encode.length ≤ nodeMaxBytes ∧ decode fork.encode = .ok fork) ∧
      (fork.children.map RadixChild.edge).Pairwise (· < ·) ∧ 2 ≤ fork.children.length := by
  have hnew : new fork.label fork.binding fork.children = .ok fork := by decide
  have hdecode := canonical_node.1 _ _ _ fork (.inl hnew)
  obtain ⟨-, hedges, hunbound⟩ := canonical_node.2 _ _ hdecode.2
  exact ⟨hdecode, hedges, (hunbound rfl).resolve_right fun h ↦ by cases h.1⟩

end RadixNode

end Mst2
