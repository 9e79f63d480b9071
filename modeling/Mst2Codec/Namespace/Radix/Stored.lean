import Mst2Codec.Namespace.Radix.Index
import Mst2Codec.Library.Trie

/-!
# The trie behind a root digest

The index stores a compressed trie over key bytes as a Merkle graph: a node refers to its children
by digest.  `digest? t` is the digest of the stored form of the trie `t` (`none` for the absent
trie, which is how `save` reports that nothing is left), `toNode` is the stored form of its root,
and `rootId t` the digest a caller holds.

The child table of a stored node is `childRefs` of the function that gives each byte its child.
This turns the list operations of the code into operations on functions: finding an edge is
applying the function, and `setChild` is `Function.update`.
-/

set_option autoImplicit false

namespace Mst2

open Bytes Except

namespace RadixIndex

/-! ## Child tables -/

/-- All bytes, in order. -/
def allBytes : List UInt8 := (List.range 256).map UInt8.ofNat

/-- The rows of the bytes `L` that have a child. -/
def refsOn (L : List UInt8) (f : UInt8 → Option Digest) : List RadixChild :=
  L.filterMap fun e ↦ (f e).map fun d ↦ ⟨e, d⟩

/-- The child table of a node, from the child of each byte. -/
def childRefs (f : UInt8 → Option Digest) : List RadixChild := refsOn allBytes f

theorem mem_allBytes (e : UInt8) : e ∈ allBytes :=
  List.mem_map.mpr ⟨e.toNat, List.mem_range.mpr e.toNat_lt, UInt8.ofNat_toNat⟩

theorem pairwise_allBytes : allBytes.Pairwise (· < ·) := by
  rw [allBytes, List.pairwise_map]
  refine List.Pairwise.imp_of_mem ?_ List.pairwise_lt_range
  intro a b ha hb hab
  rw [List.mem_range] at ha hb
  rw [UInt8.lt_iff_toNat_lt, UInt8.toNat_ofNat', UInt8.toNat_ofNat']
  omega

/-- The bytes around `e`: the smaller ones before it, the larger ones after it. -/
theorem exists_allBytes_eq (e : UInt8) : ∃ A B, allBytes = A ++ e :: B ∧ (∀ a ∈ A, a < e) ∧
    ∀ b ∈ B, e < b := by
  obtain ⟨A, B, h⟩ := List.append_of_mem (mem_allBytes e)
  have hp := pairwise_allBytes
  rw [h, List.pairwise_append, List.pairwise_cons] at hp
  exact ⟨A, B, h, fun a ha ↦ hp.2.2 a ha e (by simp), hp.2.1.1⟩

section refsOn

variable {A B L : List UInt8} {f g : UInt8 → Option Digest} {e : UInt8} {d : Option Digest}

theorem refsOn_append : refsOn (A ++ B) f = refsOn A f ++ refsOn B f := List.filterMap_append

theorem refsOn_cons : refsOn (e :: L) f = ((f e).map fun d ↦ (⟨e, d⟩ : RadixChild)).toList ++
    refsOn L f := by
  cases h : f e <;> simp [refsOn, h]

theorem mem_refsOn {child : RadixChild} :
    child ∈ refsOn L f ↔ child.edge ∈ L ∧ f child.edge = some child.digest := by
  rw [refsOn, List.mem_filterMap]
  constructor
  · rintro ⟨e, he, hf⟩
    obtain ⟨d, hd, rfl⟩ := Option.map_eq_some_iff.mp hf
    exact ⟨he, hd⟩
  · rintro ⟨he, hf⟩
    exact ⟨child.edge, he, by rw [hf]; rfl⟩

theorem refsOn_update_of_notMem (h : e ∉ L) : refsOn L (Function.update f e d) = refsOn L f := by
  refine List.filterMap_congr fun x hx ↦ ?_
  rw [Function.update_of_ne (fun hxe : x = e ↦ h (hxe ▸ hx))]

theorem length_refsOn_le : (refsOn L f).length ≤ L.length := List.length_filterMap_le _ _

end refsOn

theorem length_childRefs_le (f : UInt8 → Option Digest) :
    (childRefs f).length ≤ childMaxCount := by
  have h : allBytes.length = childMaxCount := by simp [allBytes, childMaxCount]
  exact h ▸ length_refsOn_le

theorem childRefs_eq_nil {f : UInt8 → Option Digest} : childRefs f = [] ↔ ∀ e, f e = none := by
  rw [childRefs, List.eq_nil_iff_forall_not_mem]
  constructor
  · intro h e
    by_contra hne
    obtain ⟨d, hd⟩ := Option.ne_none_iff_exists'.mp hne
    exact h ⟨e, d⟩ (mem_refsOn.mpr ⟨mem_allBytes e, hd⟩)
  · intro h child hmem
    have := (mem_refsOn.mp hmem).2
    rw [h] at this
    cases this

/-- A table around one byte. -/
theorem exists_childRefs_eq (f : UInt8 → Option Digest) (e : UInt8) :
    ∃ P S : List RadixChild, (∀ child ∈ P, child.edge < e) ∧ (∀ child ∈ S, e < child.edge) ∧
      ∀ d, childRefs (Function.update f e d) =
        P ++ (d.map fun d ↦ (⟨e, d⟩ : RadixChild)).toList ++ S := by
  obtain ⟨A, B, hAB, hA, hB⟩ := exists_allBytes_eq e
  refine ⟨refsOn A f, refsOn B f, fun c hc ↦ hA _ (mem_refsOn.mp hc).1,
    fun c hc ↦ hB _ (mem_refsOn.mp hc).1, fun d ↦ ?_⟩
  rw [childRefs, hAB, refsOn_append, refsOn_cons, Function.update_self,
    refsOn_update_of_notMem fun h ↦ UInt8.lt_irrefl e (hA e h),
    refsOn_update_of_notMem fun h ↦ UInt8.lt_irrefl e (hB e h), List.append_assoc]

/-- Looking up an edge in the table applies the function. -/
theorem find?_childRefs (f : UInt8 → Option Digest) (e : UInt8) :
    ((childRefs f).find? fun child ↦ child.edge = e) = (f e).map fun d ↦ ⟨e, d⟩ := by
  obtain ⟨P, S, hP, hS, h⟩ := exists_childRefs_eq f e
  have hself := h (f e)
  rw [Function.update_eq_self] at hself
  have hPne : P.find? (fun child ↦ child.edge = e) = none :=
    List.find?_eq_none.mpr fun c hc ↦ by simpa using UInt8.ne_of_lt (hP c hc)
  have hSne : S.find? (fun child ↦ child.edge = e) = none :=
    List.find?_eq_none.mpr fun c hc ↦ by simpa using (UInt8.ne_of_lt (hS c hc)).symm
  rw [hself, List.find?_append, List.find?_append, hPne, hSne]
  cases f e <;> simp

theorem childRefs_injective {f g : UInt8 → Option Digest} (h : childRefs f = childRefs g) :
    f = g := by
  funext e
  have hf := find?_childRefs f e
  rw [h, find?_childRefs g e] at hf
  cases hfe : f e <;> cases hge : g e <;> simp_all

theorem takeWhile_edge_lt {P S : List RadixChild} {e : UInt8} (d : Option Digest)
    (hP : ∀ child ∈ P, child.edge < e) (hS : ∀ child ∈ S, e < child.edge) :
    ((P ++ (d.map fun d ↦ (⟨e, d⟩ : RadixChild)).toList ++ S).takeWhile
      fun child ↦ child.edge < e) = P := by
  rw [List.append_assoc, List.takeWhile_append_of_pos (by simpa using hP)]
  have hS' : S.takeWhile (fun child ↦ decide (child.edge < e)) = [] := by
    cases S with
    | nil => rfl
    | cons c S =>
      rw [List.takeWhile_cons_of_neg]
      simpa using UInt8.le_of_lt (hS c (by simp))
  cases d with
  | none => simp [hS']
  | some d => simp

/-- The binary search finds an edge exactly where the table has it. -/
theorem binarySearch_of_split {P S : List RadixChild} {e : UInt8} (d : Option Digest)
    (hP : ∀ child ∈ P, child.edge < e) (hS : ∀ child ∈ S, e < child.edge) :
    binarySearch (P ++ (d.map fun d ↦ (⟨e, d⟩ : RadixChild)).toList ++ S) e =
      if d.isSome then .ok P.length else .error P.length := by
  rw [binarySearch, takeWhile_edge_lt d hP hS]
  cases d with
  | some d => simp
  | none =>
    cases S with
    | nil => simp
    | cons c S => simp [(UInt8.ne_of_lt (hS c (by simp))).symm]

section

variable {α : Type} (P S : List α) (x : α)

theorem insertIdx_length_append : (P ++ S).insertIdx P.length x = P ++ x :: S := by
  induction P with
  | nil => simp
  | cons a P ih => simpa using ih

theorem eraseIdx_length_append : (P ++ x :: S).eraseIdx P.length = P ++ S := by
  induction P with
  | nil => simp
  | cons a P ih => simpa using ih

theorem modify_length_append (f : α → α) : (P ++ x :: S).modify P.length f = P ++ f x :: S := by
  induction P with
  | nil => simp
  | cons a P ih => simpa using ih

end

/-- **`setChild` updates the function behind the table.** -/
theorem setChild_childRefs (f : UInt8 → Option Digest) (e : UInt8) (d : Option Digest) :
    setChild (childRefs f) e d = childRefs (Function.update f e d) := by
  obtain ⟨P, S, hP, hS, h⟩ := exists_childRefs_eq f e
  have hself := h (f e)
  rw [Function.update_eq_self] at hself
  have hsearch := binarySearch_of_split (f e) hP hS
  unfold setChild
  rw [h d, hself, hsearch]
  cases f e with
  | none =>
    cases d with
    | none => rfl
    | some d => simp [insertIdx_length_append]
  | some d' =>
    cases d with
    | none => simp [eraseIdx_length_append]
    | some d => simp [modify_length_append]

theorem edgesAscend_of_pairwise {l : List RadixChild} (h : l.Pairwise fun a b ↦ a.edge < b.edge) :
    RadixNode.edgesAscend l = true := by
  induction l with
  | nil => rfl
  | cons a l ih =>
    cases l with
    | nil => rfl
    | cons b l =>
      rw [List.pairwise_cons] at h
      rw [RadixNode.edgesAscend, ih h.2, Bool.and_true, decide_eq_true_eq]
      exact h.1 b (by simp)

theorem edgesAscend_childRefs (f : UInt8 → Option Digest) :
    RadixNode.edgesAscend (childRefs f) = true := by
  refine edgesAscend_of_pairwise ?_
  rw [childRefs, refsOn, List.pairwise_filterMap]
  refine pairwise_allBytes.imp fun {a b} hab x hx y hy ↦ ?_
  obtain ⟨-, -, rfl⟩ := Option.map_eq_some_iff.mp hx
  obtain ⟨-, -, rfl⟩ := Option.map_eq_some_iff.mp hy
  exact hab

/-! ## Keys below a node -/

section keys

variable {t : Trie UInt8 Digest} {l done k : Bytes} {v : Option Digest} {d : Digest}
  {c : UInt8 → Trie UInt8 Digest}

/-- Below `done`, every bound key completes the key of a valid path. -/
def Keyed (done : Bytes) (t : Trie UInt8 Digest) : Prop :=
  ∀ k d, t.lookup k = some d → ∃ p, ValidPath p ∧ keyOf p = done ++ k

theorem Keyed.child (h : Keyed done (.node l v c)) (a : UInt8) (hs : (c a).Starts a) :
    Keyed (done ++ l) (c a) := by
  intro k d hk
  cases k with
  | nil =>
    rw [hs.lookup_eq_none (by simp)] at hk
    cases hk
  | cons b r =>
    by_cases hb : b = a
    · subst hb
      rw [List.append_assoc]
      exact h (l ++ b :: r) d (by simpa using hk)
    · rw [hs.lookup_eq_none (by simpa using hb)] at hk
      cases hk

theorem Keyed.of_graft {m : Bytes} (h : Keyed done (t.graft m)) : Keyed (done ++ m) t := by
  intro k d hk
  rw [List.append_assoc]
  exact h (m ++ k) d (by simpa using hk)

/-- A key below a node: at the node or below a child. -/
theorem exists_lookup_append (h : (Trie.node l v c).Canonical) :
    ∃ r d, (Trie.node l v c).lookup (l ++ r) = some d := by
  cases v with
  | some d => exact ⟨[], d, by simp⟩
  | none =>
    obtain ⟨a, -, -, ha, -⟩ := h.2.2 rfl
    obtain ⟨r, d, hr⟩ := h.exists_lookup_child ha
    exact ⟨a :: r, d, hr⟩

/-- The key up to a node is never too long. -/
theorem Keyed.length_le (h : Keyed done (.node l v c)) (hc : (Trie.node l v c).Canonical) :
    done.length + l.length ≤ pathMaxBytes := by
  obtain ⟨r, d, hr⟩ := exists_lookup_append hc
  obtain ⟨p, hp, hkey⟩ := h _ _ hr
  have := length_keyOf_le hp
  rw [hkey] at this
  simp only [List.length_append] at this
  omega

end keys

/-! ## Digests of tries -/

section digests

variable [Sha256]

/-- The digest of the stored form of a trie. -/
def digest? : Trie UInt8 Digest → Option Digest
  | .absent => none
  | .node l v c => some (RadixNode.id ⟨l, v, childRefs fun e ↦ digest? (c e)⟩)

/-- The stored form of the root of a trie. -/
def toNode (l : Bytes) (v : Option Digest) (c : UInt8 → Trie UInt8 Digest) : RadixNode :=
  ⟨l, v, childRefs fun e ↦ digest? (c e)⟩

/-- The digest a caller holds for a trie. -/
def rootId (t : Trie UInt8 Digest) : Digest := (digest? t).getD emptyRoot

variable {t u : Trie UInt8 Digest} {l done k : Bytes} {v : Option Digest} {d : Digest}
  {c : UInt8 → Trie UInt8 Digest}

@[simp] theorem digest?_absent : digest? .absent = none := rfl

theorem digest?_node : digest? (.node l v c) = some (toNode l v c).id := rfl

@[simp] theorem digest?_eq_none : digest? t = none ↔ t = .absent := by
  cases t <;> simp [digest?]

theorem rootId_absent : rootId .absent = emptyRoot := rfl

theorem children_toNode : (toNode l v c).children = childRefs fun e ↦ digest? (c e) := rfl

/-- Giving one byte another subtree updates the child table at that byte. -/
theorem digest?_update (e : UInt8) :
    (fun x ↦ digest? (Function.update c e t x)) =
      Function.update (fun x ↦ digest? (c x)) e (digest? t) := by
  funext x
  exact Function.apply_update (fun _ ↦ digest?) c e t x

/-- The bytes of every node of the trie are in `S`. -/
def Stored (S : Set Bytes) : Trie UInt8 Digest → Prop
  | .absent => True
  | .node l v c => (toNode l v c).encode ∈ S ∧ ∀ a, Stored S (c a)

theorem Stored.mono {S T : Set Bytes} (hST : S ⊆ T) (h : Stored S t) : Stored T t := by
  induction t with
  | absent => trivial
  | node l v c ih => exact ⟨hST h.1, fun a ↦ ih a (h.2 a)⟩

/-- A node of a canonical trie has the shape `RadixNode.new` checks. -/
theorem shaped_toNode (h : Keyed done (.node l v c)) (hc : (Trie.node l v c).Canonical) :
    (toNode l v c).Shaped := by
  refine ⟨?_, ?_, ?_, ?_⟩
  · have := h.length_le hc
    simp only [toNode]
    omega
  · exact children_toNode ▸ length_childRefs_le _
  · exact children_toNode ▸ edgesAscend_childRefs _
  · rw [children_toNode]
    rintro ⟨hv, hchildren⟩
    obtain ⟨a, b, hab, ha, hb⟩ := hc.2.2 hv
    rcases hchildren with hone | ⟨hnil, -⟩
    · obtain ⟨x, hx⟩ := List.length_eq_one_iff.mp hone
      have hmem : ∀ {e : UInt8}, c e ≠ .absent → e = x.edge := by
        intro e he
        obtain ⟨d, hd⟩ := Option.ne_none_iff_exists'.mp (mt digest?_eq_none.mp he)
        have : (⟨e, d⟩ : RadixChild) ∈ childRefs fun e ↦ digest? (c e) :=
          mem_refsOn.mpr ⟨mem_allBytes e, hd⟩
        rw [hx, List.mem_singleton] at this
        rw [← this]
      exact hab ((hmem ha).trans (hmem hb).symm)
    · exact ha (digest?_eq_none.mp (childRefs_eq_nil.mp hnil a))

theorem toNode_injective {l' : Bytes} {v' : Option Digest} {c' : UInt8 → Trie UInt8 Digest}
    (h : toNode l v c = toNode l' v' c') :
    l = l' ∧ v = v' ∧ ∀ a, digest? (c a) = digest? (c' a) := by
  simp only [toNode, RadixNode.mk.injEq] at h
  exact ⟨h.1, h.2.1, congrFun (childRefs_injective h.2.2)⟩

/-- **Among collision-free nodes, a digest determines the trie below it.** -/
theorem eq_of_digest?_eq {S : Set Bytes} (hS : CollisionFree S) {done' : Bytes}
    (ht : t.Canonical) (hu : u.Canonical) (hkt : Keyed done t) (hku : Keyed done' u)
    (hst : Stored S t) (hsu : Stored S u) (h : digest? t = digest? u) : t = u := by
  induction t generalizing u done done' with
  | absent => exact (digest?_eq_none.mp h.symm).symm
  | node l v c ih =>
    cases u with
    | absent => exact digest?_eq_none.mp h
    | node l' v' c' =>
      have hnode : toNode l v c = toNode l' v' c' :=
        RadixNode.encode_injective (shaped_toNode hkt ht) (shaped_toNode hku hu)
          (hS hst.1 hsu.1 (Option.some.inj h))
      obtain ⟨rfl, rfl, hdig⟩ := toNode_injective hnode
      have hcc : c = c' := by
        funext a
        exact ih a (ht.1 a) (hu.1 a) (hkt.child a (ht.2.1 a)) (hku.child a (hu.2.1 a))
          (hst.2 a) (hsu.2 a) (hdig a)
      rw [hcc]

theorem toNode_ne_empty (hc : (Trie.node l v c).Canonical) : toNode l v c ≠ RadixNode.empty := by
  intro h
  simp only [toNode, RadixNode.empty, RadixNode.mk.injEq] at h
  obtain ⟨a, -, -, ha, -⟩ := hc.2.2 h.2.1
  exact ha (digest?_eq_none.mp (childRefs_eq_nil.mp h.2.2 a))

/-- The digest of a stored node is not that of the empty root. -/
theorem id_ne_emptyRoot {S : Set Bytes} (hS : CollisionFree S)
    (hempty : RadixNode.empty.encode ∈ S) (hc : (Trie.node l v c).Canonical)
    (hk : Keyed done (.node l v c)) (hs : Stored S (.node l v c)) :
    (toNode l v c).id ≠ emptyRoot := fun h ↦
  toNode_ne_empty hc (RadixNode.encode_injective (shaped_toNode hk hc) RadixNode.shaped_empty
    (hS hs.1 hempty h))

/-- **Among collision-free nodes, a root digest determines the trie.** -/
theorem eq_of_rootId_eq {S : Set Bytes} (hS : CollisionFree S)
    (hempty : RadixNode.empty.encode ∈ S) (ht : t.Canonical) (hu : u.Canonical)
    (hkt : Keyed [] t) (hku : Keyed [] u) (hst : Stored S t) (hsu : Stored S u)
    (h : rootId t = rootId u) : t = u := by
  cases t with
  | absent =>
    cases u with
    | absent => rfl
    | node l v c => exact absurd h.symm (id_ne_emptyRoot hS hempty hu hku hsu)
  | node l v c =>
    cases u with
    | absent => exact absurd h (id_ne_emptyRoot hS hempty ht hkt hst)
    | node l' v' c' =>
      exact eq_of_digest?_eq hS ht hu hkt hku hst hsu (congrArg some h)

end digests

end RadixIndex

end Mst2
