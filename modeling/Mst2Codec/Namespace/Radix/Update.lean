import Mst2Codec.Namespace.Radix.Rules

/-!
# Update sets one key

`update` on the root of a held trie returns the root of the trie with that key set, whatever
happens on the way: **a split, a new leaf, a rebinding, or a removal that merges nodes upwards**
(`gives_update`).  If the key already had that binding, it returns the root it was given and
inserts nothing.

The descent is followed along the trie.  Below a node it either ends, in one of the branches of
`Trie.set`, or goes on in the child under the next byte; then the ancestor it leaves behind is, for
the loop that goes up again, one more node to save.
-/

set_option autoImplicit false

namespace Mst2

open Bytes Except

namespace RadixIndex

/-! ## Where a key leaves a label -/

@[simp] theorem commonLen_append_append (p x y : Bytes) :
    commonLen (p ++ x) (p ++ y) = p.length + commonLen x y := by
  induction p with
  | nil => simp
  | cons a p ih =>
    simp only [commonLen, List.cons_append, List.zip_cons_cons, beq_self_eq_true,
      List.takeWhile_cons_of_pos, List.length_cons] at ih ⊢
    omega

@[simp] theorem commonLen_nil_left (y : Bytes) : commonLen [] y = 0 := by simp [commonLen]

@[simp] theorem commonLen_nil_right (x : Bytes) : commonLen x [] = 0 := by simp [commonLen]

theorem commonLen_cons_of_ne {a b : UInt8} (h : a ≠ b) (x y : Bytes) :
    commonLen (a :: x) (b :: y) = 0 := by simp [commonLen, h]

theorem commonLen_of_isPrefix {l k : Bytes} (h : l <+: k) : commonLen k l = l.length := by
  obtain ⟨r, rfl⟩ := h
  simpa using commonLen_append_append l r []

variable [Sha256]

/-! ## Editing child tables -/

section tables

variable {l : Bytes} {v : Option Digest} {c : UInt8 → Trie UInt8 Digest} {t : Trie UInt8 Digest}

theorem setChild_toNode (e : UInt8) : setChild (toNode l v c).children e (digest? t) =
    (toNode l v (Function.update c e t)).children := by
  rw [children_toNode, children_toNode, setChild_childRefs, digest?_update]

theorem setChild_nil (a : UInt8) :
    setChild [] a (digest? t) = (toNode l v (Trie.only a t)).children := by
  rw [Trie.only, ← setChild_toNode, children_toNode]
  have : childRefs (fun _ ↦ digest? .absent) = [] := childRefs_eq_nil.mpr fun _ ↦ rfl
  rw [this]

end tables

/-! ## Keys stay keys -/

section keyed

omit [Sha256]

variable {t u : Trie UInt8 Digest} {done k : Bytes} {b : Option Digest}

theorem Keyed.set (ht : t.Canonical) (h : Keyed done t) {path : String} (hp : ValidPath path)
    (hkey : keyOf path = done ++ k) : Keyed done (t.set k b) := by
  intro q d hq
  rw [ht.lookup_set] at hq
  split at hq
  · rename_i hqk
    exact ⟨path, hp, hqk ▸ hkey⟩
  · exact h q d hq

theorem keyed_leaf {d : Digest} {path : String} (hp : ValidPath path)
    (hkey : keyOf path = done ++ k) : Keyed done (Trie.leaf k d) := by
  intro q d' hq
  rw [Trie.lookup_leaf] at hq
  split at hq
  · rename_i hqk
    exact ⟨path, hp, hqk ▸ hkey⟩
  · cases hq

end keyed

variable {S : Setting} {g : Ghost} {path : String}

omit [Sha256] in
theorem requiredId_some (d : Digest) : requiredId (some d) = pure d := rfl

/-- A new leaf is stored. -/
theorem gives_saveLeaf (hw : S.writable) {α : Type} (done : Bytes) {a : UInt8} {r : Bytes}
    {d : Digest} (hp : ValidPath path) (hkey : keyOf path = done ++ a :: r) {f : Digest → IndexM α}
    {Q : α → Ghost → Prop} (hf : ∀ id g', S.held g ⊆ S.held g' →
      some id = digest? (Trie.leaf (a :: r) d) → Holds S g' done (Trie.leaf (a :: r) d) →
      Gives S (f id) g' Q) :
    Gives S (do
        let leaf ← ofCodec (RadixNode.new (a :: r) (some d) [])
        let leafId ← requiredId (← save leaf done)
        f leafId) g Q := by
  have hkeyed := keyed_leaf (d := d) hp hkey
  have hnode : toNode (a :: r) (some d) (fun _ ↦ .absent) = ⟨a :: r, some d, []⟩ := by
    have : childRefs (fun _ ↦ none) = [] := childRefs_eq_nil.mpr fun _ ↦ rfl
    simp only [toNode, digest?_absent, this]
  have hnew : RadixNode.new (a :: r) (some d) [] = .ok (toNode (a :: r) (some d) fun _ ↦ .absent) :=
    RadixNode.new_eq_ok.mpr ⟨hnode, hnode ▸ shaped_toNode hkeyed (Trie.canonical_leaf _ _)⟩
  have hcompress : Trie.compress (a :: r) (some d) (fun _ ↦ .absent) = Trie.leaf (a :: r) d :=
    Trie.compress_of_bound (by simp)
  rw [ofCodec_ok hnew, pure_bind]
  refine (gives_save hw below_absent (hcompress ▸ hkeyed)).bind ?_
  rintro _ g' hle ⟨rfl, hleaf⟩
  rw [hcompress] at hleaf ⊢
  exact hf _ g' hle rfl hleaf

/-! ## The branches of the descent -/

section branches

variable {done l : Bytes} {v : Option Digest} {c : UInt8 → Trie UInt8 Digest} {d : Digest}

/-- **Splitting a label** stores the trie with the key set. -/
theorem gives_splitNode (hw : S.writable) {p l' k : Bytes} {a : UInt8} (hp : ValidPath path)
    (hkey : keyOf path = done ++ (p ++ k)) (hk : k.head? ≠ some a)
    (h : Holds S g done (.node (p ++ a :: l') v c)) :
    Gives S (splitNode (toNode (p ++ a :: l') v c) p.length done (p ++ k) d) g fun r g' ↦
      r = digest? ((Trie.node (p ++ a :: l') v c).set (p ++ k) (some d)) ∧
        Holds S g' done ((Trie.node (p ++ a :: l') v c).set (p ++ k) (some d)) := by
  have hcan : (Trie.node (a :: l') v c).Canonical := h.canonical
  have hkeyedLower : Keyed (done ++ p) (.node (a :: l') v c) :=
    Keyed.of_graft (m := p) h.keyed
  have hkeyedSet := h.keyed.set (b := some d) h.canonical hp hkey
  have hlower : Trie.compress (a :: l') v c = .node (a :: l') v c := Trie.compress_eq_self hcan
  have hlen := h.keyed.length_le h.canonical
  rw [List.length_append] at hlen
  rw [splitNode]
  have htake : (toNode (p ++ a :: l') v c).label.take p.length = p := List.take_left
  have hdrop : ({ toNode (p ++ a :: l') v c with
      label := (toNode (p ++ a :: l') v c).label.drop p.length } : RadixNode) =
      toNode (a :: l') v c := by
    simp only [toNode, List.drop_left]
  simp only [htake, hdrop, List.drop_left]
  rw [joinedKey_eq_pure (by omega), pure_bind]
  refine (gives_save hw h.below (hlower ▸ hkeyedLower)).bind ?_
  rintro _ g₁ hle ⟨rfl, hstored⟩
  rw [hlower] at hstored ⊢
  rw [digest?_node, requiredId_some, pure_bind, ← digest?_node]
  have hhead : ((toNode (p ++ a :: l') v c).label.drop p.length).headD 0 = a := by
    simp only [toNode, List.drop_left, List.headD_cons]
  rw [hhead]
  cases k with
  | nil =>
    -- the key ends inside the label
    rw [List.append_nil, Trie.set_short] at hkeyedSet ⊢
    have hset := Trie.compress_of_bound (l := p) (v := some d)
      (c := Trie.only a (.node (a :: l') v c)) (by simp)
    rw [← hset] at hkeyedSet ⊢
    simp only
    rw [setChild_nil (l := p) (v := some d)]
    exact gives_save hw (below_absent.update hstored rfl) hkeyedSet
  | cons b k' =>
    -- the key leaves the label
    have hab : a ≠ b := by rintro rfl; simp at hk
    have hset := Trie.compress_eq_self (Trie.set_fork hab ▸ h.canonical.set (p ++ b :: k') (some d))
    rw [Trie.set_fork hab, ← hset] at hkeyedSet ⊢
    refine gives_saveLeaf hw (done ++ p) hp (by rw [hkey, List.append_assoc]) ?_
    rintro id g₂ hle₂ hid hleaf
    rw [hid, setChild_nil (l := p) (v := none), setChild_toNode]
    exact gives_save hw ((below_absent.update (hstored.mono hle₂) rfl).update hleaf rfl) hkeyedSet

/-- Saving a node after one of its subtrees has changed. -/
theorem gives_saveChild (hw : S.writable) {a : UInt8} {t : Trie UInt8 Digest} (h : Below S g c)
    (ht : Holds S g (done ++ l) t) (hs : t.Starts a)
    (hkeyed : Keyed done (Trie.compress l v (Function.update c a t))) :
    Gives S (save { toNode l v c with
        children := setChild (toNode l v c).children a (digest? t) } done) g fun r g' ↦
      r = digest? (Trie.compress l v (Function.update c a t)) ∧
        Holds S g' done (Trie.compress l v (Function.update c a t)) := by
  rw [setChild_toNode]
  exact gives_save hw (h.update ht hs) hkeyed

/-- **Adding a leaf** below a node that has no child there. -/
theorem gives_addLeaf (hw : S.writable) {a : UInt8} {r : Bytes} (hp : ValidPath path)
    (hkey : keyOf path = done ++ (l ++ a :: r)) (h : Below S g c)
    (hkeyed : Keyed done (Trie.compress l v (Function.update c a (Trie.leaf (a :: r) d)))) :
    Gives S (addLeaf (toNode l v c) done a r d) g fun x g' ↦
      x = digest? (Trie.compress l v (Function.update c a (Trie.leaf (a :: r) d))) ∧
        Holds S g' done (Trie.compress l v (Function.update c a (Trie.leaf (a :: r) d))) := by
  refine gives_saveLeaf hw (done ++ l) hp (by rw [hkey, List.append_assoc]) ?_
  rintro id g₁ hle hid hleaf
  rw [hid]
  exact gives_saveChild hw (h.mono hle) hleaf rfl hkeyed

end branches

/-! ## The descent -/

/-- The trie whose root is loaded as the node `l v c`: that node, or the absent trie, which is
loaded as the empty node. -/
def Shows (t : Trie UInt8 Digest) (l : Bytes) (v : Option Digest)
    (c : UInt8 → Trie UInt8 Digest) : Prop :=
  t = .node l v c ∨ t = .absent ∧ Trie.node l v c = Trie.hollow

section shows

omit [Sha256]

variable {t : Trie UInt8 Digest} {l : Bytes} {v : Option Digest} {c : UInt8 → Trie UInt8 Digest}

theorem Shows.lookup (h : Shows t l v c) (k : Bytes) :
    t.lookup k = (Trie.node l v c).lookup k := by
  rcases h with rfl | ⟨rfl, hhollow⟩
  · rfl
  · rw [hhollow, Trie.lookup_hollow, Trie.lookup_absent]

theorem Shows.set (h : Shows t l v c) (k : Bytes) (b : Option Digest) :
    t.set k b = (Trie.node l v c).set k b := by
  rcases h with rfl | ⟨rfl, hhollow⟩
  · rfl
  · rw [hhollow, Trie.set_hollow]

/-- Only the absent trie is shown by a node with an empty label that is not its own. -/
theorem Shows.eq_of_label {p l' : Bytes} {a : UInt8} (h : Shows t (p ++ a :: l') v c) :
    t = .node (p ++ a :: l') v c := by
  rcases h with rfl | ⟨-, hhollow⟩
  · rfl
  · rw [Trie.hollow, Trie.node.injEq] at hhollow
    simp at hhollow

/-- Induction along the nodes that are loaded. -/
theorem shows_induction {P : Trie UInt8 Digest → Prop}
    (step : ∀ t, (∀ l v c, Shows t l v c → ∀ a, c a ≠ .absent → P (c a)) → P t)
    (t : Trie UInt8 Digest) : P t := by
  induction t with
  | absent =>
    refine step _ fun l v c hshow a ha ↦ ?_
    rcases hshow with h | ⟨-, hhollow⟩
    · cases h
    · rw [Trie.hollow, Trie.node.injEq] at hhollow
      exact absurd (congrFun hhollow.2.2 a) ha
  | node l v c ih =>
    refine step _ fun l' v' c' hshow a ha ↦ ?_
    rcases hshow with h | ⟨h, -⟩
    · rw [Trie.node.injEq] at h
      exact h.2.2 ▸ ih a
    · cases h

end shows

theorem Shows.below {t : Trie UInt8 Digest} {l : Bytes} {v : Option Digest}
    {c : UInt8 → Trie UInt8 Digest} {done : Bytes} (h : Shows t l v c) (ht : Holds S g done t) :
    Below S g c := by
  rcases h with rfl | ⟨rfl, hhollow⟩
  · exact ht.below
  · rw [Trie.hollow, Trie.node.injEq] at hhollow
    exact hhollow.2.2 ▸ below_absent

theorem Shows.child {t : Trie UInt8 Digest} {l : Bytes} {v : Option Digest}
    {c : UInt8 → Trie UInt8 Digest} {done : Bytes} (h : Shows t l v c) (ht : Holds S g done t)
    (a : UInt8) : Holds S g (done ++ l) (c a) := by
  rcases h with rfl | ⟨rfl, hhollow⟩
  · exact ht.child a
  · rw [Trie.hollow, Trie.node.injEq] at hhollow
    exact hhollow.2.2 ▸ holds_absent

/-- What `update` does after the descent. -/
def finish (root : Digest) : Descent → IndexM Digest
  | .unchanged => pure root
  | .rebuilt replacement ancestors => do
    let replacement ← ascend ancestors replacement
    pure (replacement.getD emptyRoot)

theorem update_eq (root : Digest) (path : String) (binding : Option Digest) :
    update root path binding = ofCodec (encodeKey path) >>= fun key ↦
      descend binding [] key root none [] >>= finish root := by
  rw [update]
  refine bind_congr fun key ↦ bind_congr fun descent ↦ ?_
  cases descent <;> rfl

/-- The descent from a node of the trie `t`, for a key that goes on with `rest` below it: the rest
of the update runs from the trie with that key set, unless it had the binding already. -/
def Descends (S : Setting) (binding : Option Digest) (path : String) (root : Digest)
    (Q : Digest → Ghost → Prop) (t : Trie UInt8 Digest) : Prop :=
  ∀ g done rest id edge ancestors l v c, Shows t l v c → Holds S g done t →
    keyOf path = done ++ rest →
    Gives S (load id edge done) g (fun n g' ↦ n.val = toNode l v c ∧ g' = g) →
    (∀ g', S.held g ⊆ S.held g' → t.lookup rest ≠ binding →
      Holds S g' done (t.set rest binding) →
      Gives S (finish root (.rebuilt (digest? (t.set rest binding)) ancestors)) g' Q) →
    (t.lookup rest = binding → Q root g) →
    Gives S (descend binding done rest id edge ancestors >>= finish root) g Q

section descend

variable {binding : Option Digest} {root : Digest} {Q : Digest → Ghost → Prop}
  {t : Trie UInt8 Digest}

/-- **One step of the descent**: every branch, given the steps in the children. -/
theorem descends_step (hw : S.writable) (hp : ValidPath path)
    (hchildren : ∀ l v c, Shows t l v c → ∀ a, c a ≠ .absent →
      Descends S binding path root Q (c a)) :
    Descends S binding path root Q t := by
  intro g done rest id edge ancestors l v c hshow ht hkey hload hup hsame
  have hkeyedSet := ht.keyed.set (b := binding) ht.canonical hp hkey
  rw [hshow.set] at hup hkeyedSet
  rw [hshow.lookup] at hup hsame
  rw [descend, bind_assoc]
  refine hload.bind ?_
  rintro ⟨n, hn⟩ g' - ⟨hnode, rfl⟩
  obtain rfl : n = toNode l v c := hnode
  rcases lcp_cases l rest with ⟨r, rfl⟩ | hpart
  · -- the label matches in full
    show Gives S ((if commonLen (l ++ r) l < l.length then _ else _) >>= _) g' Q
    rw [commonLen_of_isPrefix (List.prefix_append l r), if_neg (lt_irrefl _)]
    have hdrop : (l ++ r).drop (toNode l v c).label.length = r := List.drop_left
    split
    · -- the key ends here
      rename_i hnil
      obtain rfl : r = [] := hdrop ▸ hnil
      rw [List.append_nil] at *
      rw [Trie.lookup_self] at hsame hup
      rw [Trie.set_self] at hup hkeyedSet
      split
      · rename_i hsameBinding
        exact gives_pure (hsame hsameBinding)
      · rename_i hne
        rw [bind_assoc]
        refine (gives_save hw (hshow.below ht) hkeyedSet).bind ?_
        rintro _ g₁ hle ⟨rfl, hstored⟩
        exact hup g₁ hle hne hstored
    · -- the key goes on at a byte
      rename_i a r' hcons
      obtain rfl : r = a :: r' := hdrop ▸ hcons
      rw [Trie.lookup_append_cons] at hsame hup
      rw [Trie.set_append_cons] at hup hkeyedSet
      rw [children_toNode, find?_childRefs]
      have hbelow := hshow.below ht
      cases hca : c a with
      | absent =>
        rw [hca] at hsame hup hkeyedSet
        rw [digest?_absent, Option.map_none]
        cases binding with
        | none => exact gives_pure (hsame rfl)
        | some d =>
          show Gives S ((addLeaf (toNode l v c) done a r' d >>= _) >>= _) g' Q
          rw [bind_assoc]
          refine (gives_addLeaf hw hp hkey hbelow hkeyedSet).bind ?_
          rintro _ g₁ hle ⟨rfl, hstored⟩
          exact hup g₁ hle (by simp) hstored
      | node m w e =>
        have hchild := hshow.child ht a
        have hstarts := hbelow.starts a
        have hdescends := hchildren l v c hshow a (by simp [hca])
        rw [hca] at hchild hstarts hdescends
        rw [hca] at hsame hup hkeyedSet
        show Gives S (descend binding (done ++ l) (a :: r') _ (some a)
          (⟨toNode l v c, a, done⟩ :: ancestors) >>= finish root) g' Q
        refine hdescends _ _ _ _ _ _ m w e (.inl rfl) hchild
          (by rw [hkey, List.append_assoc])
          (gives_load hchild fun x hx ↦ by rwa [← Option.some.inj hx]) ?_ hsame
        -- on the way up, this node is saved with the new child
        intro g₁ hle hne hset
        show Gives S ((save _ done >>= _) >>= _) g₁ Q
        rw [bind_assoc]
        refine (gives_saveChild hw (hbelow.mono hle) hset (Trie.starts_set hstarts rfl _)
          hkeyedSet).bind ?_
        rintro _ g₂ hle₂ ⟨rfl, hstored⟩
        exact hup g₂ (hle.trans hle₂) hne hstored
  · -- the key ends inside the label or leaves it
    obtain ⟨p, a, l', k, rfl, rfl, hk⟩ : ∃ p a l' k, l = p ++ a :: l' ∧ rest = p ++ k ∧
        k.head? ≠ some a := by
      rcases hpart with ⟨a, l', rfl⟩ | ⟨p, a, l', b, k', rfl, rfl, hab⟩
      · exact ⟨rest, a, l', [], rfl, by simp, by simp⟩
      · exact ⟨p, a, l', b :: k', rfl, rfl, by simpa using Ne.symm hab⟩
    obtain rfl := hshow.eq_of_label
    have hcommon : commonLen (p ++ k) (toNode (p ++ a :: l') v c).label = p.length := by
      show commonLen (p ++ k) (p ++ a :: l') = p.length
      cases k with
      | nil => rw [commonLen_append_append, commonLen_nil_left, Nat.add_zero]
      | cons b k' =>
        rw [commonLen_append_append, commonLen_cons_of_ne (by simpa using hk), Nat.add_zero]
    have hlt : p.length < (toNode (p ++ a :: l') v c).label.length := by simp [toNode]
    simp only [hcommon, if_pos hlt]
    have hnone : (Trie.node (p ++ a :: l') v c).lookup (p ++ k) = none := by
      refine Trie.lookup_of_not (fun h ↦ ?_) v c
      obtain ⟨r, hr⟩ := h
      rw [List.append_assoc, List.append_cancel_left_eq] at hr
      rw [← hr] at hk
      simp at hk
    cases binding with
    | none => exact gives_pure (hsame hnone)
    | some d =>
      show Gives S ((splitNode _ _ _ _ _ >>= _) >>= _) g' Q
      rw [bind_assoc]
      refine (gives_splitNode hw hp hkey hk ht).bind ?_
      rintro _ g₁ hle ⟨rfl, hstored⟩
      exact hup g₁ hle (by simp [hnone]) hstored

/-- The descent from any trie. -/
theorem descends (hw : S.writable) (hp : ValidPath path) (t : Trie UInt8 Digest) :
    Descends S binding path root Q t := shows_induction (fun _ ↦ descends_step hw hp) t

end descend

/-! ## Update -/

/-- The store holds the trie `t`, and `root` is its root. -/
structure Represents (S : Setting) (g : Ghost) (root : Digest) (t : Trie UInt8 Digest) : Prop
    extends Holds S g [] t where
  /-- The root digest. -/
  root_eq : root = rootId t

/-- Loading the root of a held trie. -/
theorem Represents.gives_load {root : Digest} {t : Trie UInt8 Digest}
    (h : Represents S g root t) : ∃ l v c, Shows t l v c ∧
      Gives S (load root none []) g fun n g' ↦ n.val = toNode l v c ∧ g' = g := by
  rw [h.root_eq]
  cases t with
  | absent => exact ⟨_, _, _, .inr ⟨rfl, rfl⟩, gives_load_emptyRoot⟩
  | node l v c => exact ⟨l, v, c, .inl rfl, RadixIndex.gives_load h.toHolds (by simp)⟩

/-- **`update` sets one key**, and does nothing if the key has the binding already. -/
theorem gives_update (hw : S.writable) {root : Digest} {t : Trie UInt8 Digest}
    (h : Represents S g root t) (hp : ValidPath path) (binding : Option Digest) :
    Gives S (update root path binding) g fun root' g' ↦
      Represents S g' root' (t.set (keyOf path) binding) ∧
        (t.lookup (keyOf path) = binding → root' = root ∧ g' = g) := by
  obtain ⟨l, v, c, hshow, hload⟩ := h.gives_load
  rw [update_eq, ofCodec_ok (encodeKey_eq_ok.mpr ⟨hp, rfl⟩), pure_bind]
  refine descends hw hp t g [] (keyOf path) root none [] l v c hshow h.toHolds rfl hload ?_ ?_
  · intro g' hle hne hset
    exact gives_pure ⟨⟨hset, rfl⟩, fun hsame ↦ absurd hsame hne⟩
  · intro hsame
    rw [h.canonical.set_eq_self hsame]
    exact ⟨h, fun _ ↦ ⟨rfl, rfl⟩⟩

end RadixIndex

end Mst2
