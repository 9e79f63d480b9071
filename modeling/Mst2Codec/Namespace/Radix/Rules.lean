import Mst2Codec.Namespace.Radix.Stored

/-!
# Rules for loading and saving

What the programs of the index do is proved once, for every kind of store.  A `Setting` fixes the
byte strings that may occur and that do not collide, which of them the store already holds, and how
far the store can be trusted: `reliable` for one that works, `authentic` for one that may fail but
does not lie.  The ghost state records what was inserted and whether a call has failed,
where a read also counts as failed when its bytes do not have the digest that was asked for.

`Gives S p g Q` is the triple of this development: the program `p` ends in a value with `Q` and
without a failed call, or in an error after a failed call, which a reliable store excludes.
There is one rule for loading a node (`gives_load`) and one for saving it (`gives_save`); the rest
of the proofs never look at the store again.
-/

set_option autoImplicit false

namespace Mst2

open Bytes Except

open Prog (Spec Ensures ensures_bind)

namespace RadixIndex

variable [Sha256]

/-! ## Settings and ghost states -/

/-- What is assumed of a store and of the strings it deals with. -/
structure Setting where
  /-- The byte strings that may occur. -/
  strings : Set Bytes
  /-- They do not collide. -/
  free : CollisionFree strings
  /-- The bytes of the empty node are among them, though no store has to hold them. -/
  empty_mem : RadixNode.empty.encode ∈ strings
  /-- The strings the store holds from the start. -/
  base : Set Bytes
  /-- Inserts are allowed. -/
  writable : Prop
  /-- What a read returns has the digest that was asked for. -/
  authentic : Prop
  /-- Calls do not fail. -/
  reliable : Prop

/-- What has happened so far. -/
structure Ghost where
  /-- The inserted strings. -/
  log : List Bytes
  /-- A call has failed. -/
  failed : Prop

/-- The ghost state of a run that begins. -/
def Ghost.init : Ghost := ⟨[], False⟩

/-- The strings a store holds. -/
def Setting.held (S : Setting) (g : Ghost) : Set Bytes :=
  {b | b ∈ S.strings ∧ (b ∈ S.base ∨ b ∈ g.log)}

/-- The answer to a read is the string it asked for. -/
def Genuine (id : Digest) (answer : IndexResult Bytes) : Prop :=
  ∃ b, answer = .ok b ∧ sha256 b = id

/-- How a store behaves in a setting: a string is inserted under its own digest, stays, and is what
a read of that digest returns, if the read does not fail. -/
def Setting.spec (S : Setting) : Spec Request Answer Ghost where
  pre
    | _, .read _ => True
    | _, .insert id bytes => S.writable ∧ sha256 bytes = id
  post
    | g, .read id, answer, g' => g'.log = g.log ∧ (g'.failed ↔ g.failed ∨ ¬ Genuine id answer) ∧
        (∀ b, answer = .ok b → sha256 b = id → b ∈ S.strings) ∧
        (S.authentic → ∀ b, answer = .ok b → sha256 b = id) ∧
        (S.reliable → ∀ b ∈ S.held g, sha256 b = id → answer = .ok b)
    | g, .insert _ bytes, .ok (), g' =>
        bytes ∈ S.strings ∧ g'.log = bytes :: g.log ∧ (g'.failed ↔ g.failed)
    | g, .insert _ _, .error _, g' => ¬ S.reliable ∧ g'.log = g.log ∧ g'.failed

/-- The program ends in a value with `Q`, or in an error after a failed call. -/
def Gives {α : Type} (S : Setting) (p : IndexM α) (g : Ghost) (Q : α → Ghost → Prop) : Prop :=
  p.Ensures S.spec g fun x g' ↦ S.held g ⊆ S.held g' ∧ match x with
    | .ok a => (g'.failed ↔ g.failed) ∧ Q a g'
    | .error _ => ¬ S.reliable ∧ g'.failed

section codec

variable {α : Type}

omit [Sha256]

theorem ofCodec_ok {x : CodecResult α} {a : α} (h : x = .ok a) : ofCodec x = pure a := by
  rw [h]
  rfl

theorem ofCodec_reject_of_not {c : Prop} [Decidable c] {e : CodecError} (h : ¬ c) :
    ofCodec (reject c e) = pure () := ofCodec_ok (reject_of_not h)

theorem ofCodec_reject {c : Prop} [Decidable c] {e : CodecError} (h : c) :
    ofCodec (reject c e) = .fail (.codec e) := by
  rw [reject, if_pos h]
  rfl

theorem joinedKey_eq_pure {pre label : Bytes} (h : pre.length + label.length ≤ pathMaxBytes) :
    joinedKey pre label = pure (pre ++ label) := by
  rw [joinedKey, ofCodec_reject_of_not (not_lt.mpr h), pure_bind]

end codec

section rules

variable {α β : Type} {S : Setting} {g : Ghost} {Q Q' : α → Ghost → Prop} {R : β → Ghost → Prop}

theorem gives_pure {a : α} (h : Q a g) : Gives S (pure a) g Q := ⟨subset_rfl, Iff.rfl, h⟩

theorem Gives.bind {p : IndexM α} {f : α → IndexM β} (hp : Gives S p g Q)
    (hf : ∀ a g', S.held g ⊆ S.held g' → Q a g' → Gives S (f a) g' R) : Gives S (p >>= f) g R := by
  refine ensures_bind.mpr (Ensures.mono hp fun x g' ⟨hle, hx⟩ ↦ ?_)
  cases x with
  | error e => exact ⟨hle, hx⟩
  | ok a =>
    refine Ensures.mono (hf a g' hle hx.2) fun y g'' ⟨hle', hy⟩ ↦ ⟨hle.trans hle', ?_⟩
    cases y with
    | error e => exact hy
    | ok b => exact ⟨hy.1.trans hx.1, hy.2⟩

theorem Gives.mono {p : IndexM α} (hp : Gives S p g Q) (hQ : ∀ a g', Q a g' → Q' a g') :
    Gives S p g Q' := by
  refine Ensures.mono hp fun x g' ⟨hle, hx⟩ ↦ ⟨hle, ?_⟩
  cases x with
  | error e => exact hx
  | ok a => exact ⟨hx.1, hQ a g' hx.2⟩

/-! ## Calls -/

theorem Setting.held_insert {b : Bytes} {g' : Ghost} (h : g'.log = b :: g.log) :
    S.held g ⊆ S.held g' := fun _ ⟨hx, hx'⟩ ↦ ⟨hx, hx'.imp_right fun hx ↦ h ▸ .tail _ hx⟩

theorem Setting.held_of_log {g' : Ghost} (h : g'.log = g.log) : S.held g = S.held g' := by
  rw [held, held, h]

/-- Inserting a string under its digest. -/
theorem gives_insertNode (hw : S.writable) (b : Bytes) :
    Gives S (insertNode (sha256 b) b) g fun _ g' ↦ b ∈ S.held g' := by
  refine ⟨⟨hw, rfl⟩, fun answer g' hpost ↦ ?_⟩
  cases answer with
  | error e =>
    obtain ⟨hrel, hlog, hfailed⟩ := hpost
    exact ⟨(S.held_of_log hlog).subset, hrel, hfailed⟩
  | ok u =>
    obtain ⟨hb, hlog, hfailed⟩ := hpost
    exact ⟨S.held_insert hlog, hfailed, hb, .inr (hlog ▸ .head _)⟩

/-- Reading a stored node gives it back. -/
theorem gives_loadStored {node : RadixNode} (hshaped : node.Shaped)
    (hheld : node.encode ∈ S.held g) :
    Gives S (loadStored node.id) g fun n g' ↦ n = node ∧ g' = g := by
  refine ⟨trivial, fun answer g' ⟨hlog, hfailed, hmem, _, hrel⟩ ↦ ?_⟩
  by_cases hgen : Genuine node.id answer
  · obtain ⟨b, rfl, hb⟩ := hgen
    obtain rfl : b = node.encode := S.free (hmem b rfl hb) hheld.1 hb
    obtain rfl : g' = g := by
      have hno : g'.failed ↔ g.failed := by simpa [Genuine, hb] using hfailed
      cases g
      cases g'
      rw [Ghost.mk.injEq]
      exact ⟨hlog, propext hno⟩
    show Gives S (ofCodec _ >>= fun _ ↦ ofCodec _ >>= fun _ ↦ ofCodec _) g' _
    rw [ofCodec_reject_of_not (not_lt.mpr (RadixNode.length_encode_le hshaped)), pure_bind,
      ofCodec_reject_of_not (by simpa using hb), pure_bind,
      ofCodec_ok (RadixNode.decode_encode hshaped)]
    exact gives_pure ⟨rfl, rfl⟩
  · -- whatever else the store answers is an error
    have hrel' : ¬ S.reliable := fun h ↦ hgen ⟨_, hrel h _ hheld rfl, rfl⟩
    have hend : S.held g ⊆ S.held g' ∧ ¬ S.reliable ∧ g'.failed :=
      ⟨(S.held_of_log hlog).subset, hrel', hfailed.mpr (.inr hgen)⟩
    cases answer with
    | error e => exact hend
    | ok b =>
      have hb : sha256 b ≠ node.id := fun h ↦ hgen ⟨b, rfl, h⟩
      show Prog.Ensures _ (ofCodec _ >>= fun _ ↦ ofCodec _ >>= fun _ ↦ ofCodec _) g' _
      by_cases hlen : b.length > nodeMaxBytes
      · rw [ofCodec_reject hlen]
        exact hend
      · rw [ofCodec_reject_of_not hlen, pure_bind, ofCodec_reject hb]
        exact hend

end rules

/-! ## Nodes of a trie -/

/-- The store holds the nodes of the canonical trie `t`, whose keys begin after `done`. -/
structure Holds (S : Setting) (g : Ghost) (done : Bytes) (t : Trie UInt8 Digest) : Prop where
  /-- The trie is compressed. -/
  canonical : t.Canonical
  /-- Its keys complete keys of valid paths. -/
  keyed : Keyed done t
  /-- Its nodes are held. -/
  stored : Stored (S.held g) t

/-- The store holds the subtrees `c` of a node, which may need compression itself. -/
structure Below (S : Setting) (g : Ghost) (c : UInt8 → Trie UInt8 Digest) : Prop where
  /-- The subtrees are compressed. -/
  canonical : ∀ a, (c a).Canonical
  /-- Each stands under its first byte. -/
  starts : ∀ a, (c a).Starts a
  /-- Their nodes are held. -/
  stored : ∀ a, Stored (S.held g) (c a)

section nodes

variable {S : Setting} {g g' : Ghost} {done l : Bytes} {v : Option Digest}
  {c : UInt8 → Trie UInt8 Digest} {t : Trie UInt8 Digest}

theorem Holds.mono (h : Holds S g done t) (hle : S.held g ⊆ S.held g') : Holds S g' done t :=
  ⟨h.canonical, h.keyed, h.stored.mono hle⟩

theorem Holds.below (h : Holds S g done (.node l v c)) : Below S g c :=
  ⟨h.canonical.1, h.canonical.2.1, h.stored.2⟩

theorem Below.mono (h : Below S g c) (hle : S.held g ⊆ S.held g') : Below S g' c :=
  ⟨h.canonical, h.starts, fun a ↦ (h.stored a).mono hle⟩

theorem below_absent : Below S g fun _ ↦ .absent :=
  ⟨fun _ ↦ trivial, fun _ ↦ trivial, fun _ ↦ trivial⟩

theorem Below.update (h : Below S g c) {a : UInt8} (ht : Holds S g done t) (hs : t.Starts a) :
    Below S g (Function.update c a t) := by
  refine ⟨fun x ↦ ?_, fun x ↦ ?_, fun x ↦ ?_⟩ <;> by_cases hx : x = a
  · rw [hx, Function.update_self]; exact ht.canonical
  · rw [Function.update_of_ne hx]; exact h.canonical x
  · rw [hx, Function.update_self]; exact hs
  · rw [Function.update_of_ne hx]; exact h.starts x
  · rw [hx, Function.update_self]; exact ht.stored
  · rw [Function.update_of_ne hx]; exact h.stored x

theorem Holds.child (h : Holds S g done (.node l v c)) (a : UInt8) :
    Holds S g (done ++ l) (c a) :=
  ⟨h.canonical.1 a, h.keyed.child a (h.canonical.2.1 a), h.stored.2 a⟩

theorem holds_absent : Holds S g done .absent := ⟨trivial, fun _ _ h ↦ (by cases h), trivial⟩

/-- A node of a keyed canonical trie stands at a valid position. -/
theorem validatePosition_toNode (hc : (Trie.node l v c).Canonical)
    (hk : Keyed done (.node l v c)) : validatePosition done (toNode l v c) = pure () := by
  have hjoin : joinedKey done (toNode l v c).label = pure (done ++ l) :=
    joinedKey_eq_pure (hk.length_le hc)
  rw [validatePosition, hjoin, pure_bind]
  split
  · rename_i hv
    obtain ⟨d, hd⟩ := Option.isSome_iff_exists.mp hv
    obtain ⟨p, hp, hkey⟩ := hk l d (by rw [Trie.lookup_self]; exact hd)
    rw [ofCodec_ok (decodeKey_eq_ok.mpr ⟨hp, hkey.symm⟩), pure_bind]
  · rfl

/-- **Loading a node of a held trie gives that node.** -/
theorem gives_load (h : Holds S g done (.node l v c)) {edge : Option UInt8}
    (hedge : ∀ e, edge = some e → (Trie.node l v c).Starts e) :
    Gives S (load (toNode l v c).id edge done) g fun n g' ↦ n.val = toNode l v c ∧ g' = g := by
  rw [load, if_neg (id_ne_emptyRoot S.free S.empty_mem h.canonical h.keyed
    (h.stored.mono fun _ hb ↦ hb.1))]
  refine (gives_loadStored (shaped_toNode h.keyed h.canonical) h.stored.1).bind ?_
  rintro _ g' - ⟨rfl, rfl⟩
  beta_reduce
  rw [dif_pos (show EdgeOk edge (toNode l v c) from hedge),
    validatePosition_toNode h.canonical h.keyed, pure_bind]
  exact gives_pure ⟨rfl, rfl⟩

theorem toNode_nil : toNode [] none (fun _ ↦ .absent) = RadixNode.empty := by
  have : childRefs (fun _ ↦ none) = [] := childRefs_eq_nil.mpr fun _ ↦ rfl
  simp only [toNode, digest?_absent, this, RadixNode.empty]

/-- Loading the empty root needs no store. -/
theorem gives_load_emptyRoot : Gives S (load emptyRoot none []) g fun n g' ↦
    n.val = toNode [] none (fun _ ↦ .absent) ∧ g' = g := by
  rw [load, if_pos rfl, pure_bind]
  beta_reduce
  rw [dif_pos (by simp [EdgeOk])]
  have hpos : validatePosition [] RadixNode.empty = pure () := by
    rw [validatePosition, RadixNode.empty, joinedKey_eq_pure (by simp), pure_bind]
    rfl
  rw [hpos, pure_bind]
  exact gives_pure ⟨toNode_nil.symm, rfl⟩

/-- The last part of `save`: a node of canonical shape is checked and inserted. -/
theorem gives_store (hw : S.writable) (hc : (Trie.node l v c).Canonical)
    (hk : Keyed done (.node l v c)) (hs : ∀ a, Stored (S.held g) (c a)) :
    Gives S (do
        validatePosition done (toNode l v c)
        let node ← ofCodec (RadixNode.new l v (toNode l v c).children)
        insertNode (sha256 node.encode) node.encode
        pure (some (sha256 node.encode))) g
      fun d g' ↦ d = digest? (.node l v c) ∧ Holds S g' done (.node l v c) := by
  have hnew : RadixNode.new l v (toNode l v c).children = .ok (toNode l v c) :=
    RadixNode.new_eq_ok.mpr ⟨rfl, shaped_toNode hk hc⟩
  rw [validatePosition_toNode hc hk, pure_bind, ofCodec_ok hnew, pure_bind]
  refine (gives_insertNode hw _).bind fun _ g' hle hmem ↦ gives_pure ⟨rfl, hc, hk, hmem, fun a ↦ ?_⟩
  exact (hs a).mono hle

omit [Sha256] in
theorem childRefs_of_only {a : UInt8} {d : Digest} {f : UInt8 → Option Digest}
    (ha : f a = some d) (h : ∀ b, b ≠ a → f b = none) : childRefs f = [⟨a, d⟩] := by
  obtain ⟨P, T, hP, hT, hsplit⟩ := exists_childRefs_eq f a
  have hnil := hsplit none
  have hself := hsplit (f a)
  rw [Function.update_eq_self, ha] at hself
  rw [childRefs_eq_nil.mpr] at hnil
  · obtain ⟨rfl, rfl⟩ : P = [] ∧ T = [] := by simpa using hnil.symm
    simpa using hself
  · intro b
    by_cases hb : b = a
    · rw [hb, Function.update_self]
    · rw [Function.update_of_ne hb, h b hb]

/-- **Saving a node of held subtrees stores the compressed trie.** -/
theorem gives_save (hw : S.writable) (h : Below S g c) (hk : Keyed done (Trie.compress l v c)) :
    Gives S (save (toNode l v c) done) g fun d g' ↦
      d = digest? (Trie.compress l v c) ∧ Holds S g' done (Trie.compress l v c) := by
  rcases Trie.children_cases v c with hv | ⟨rfl, hall⟩ | ⟨a, rfl, ha, hall⟩ |
    ⟨a, b, rfl, hab, ha, hb⟩
  · -- a bound node is stored as it is
    rw [Trie.compress_of_bound hv] at hk ⊢
    have habsorb : absorb (toNode l v c) done = pure (toNode l v c) := by
      obtain ⟨d, rfl⟩ := Option.ne_none_iff_exists'.mp hv
      rfl
    rw [save, if_neg (fun h ↦ hv h.1), habsorb, pure_bind]
    exact gives_store hw ⟨h.canonical, h.starts, fun h ↦ absurd h hv⟩ hk h.stored
  · -- an unbound node without children disappears
    have hnil : (toNode l none c).binding = none ∧ (toNode l none c).children = [] :=
      ⟨rfl, childRefs_eq_nil.mpr fun a ↦ digest?_eq_none.mpr (hall a)⟩
    rw [Trie.compress_of_absent hall, save, if_pos hnil]
    exact gives_pure ⟨rfl, holds_absent⟩
  · -- an unbound node with one child absorbs it
    rw [Trie.compress_of_only ha hall] at hk ⊢
    have hHolds : Holds S g (done ++ l) (c a) := ⟨h.canonical a, hk.of_graft, h.stored a⟩
    have hstarts := h.starts a
    cases hca : c a with
    | absent => exact absurd hca ha
    | node m w e =>
      rw [hca] at hHolds hk hstarts
      have hchildren : (toNode l none c).children = [⟨a, (toNode m w e).id⟩] :=
        childRefs_of_only (by rw [hca]; rfl) fun b hb ↦ digest?_eq_none.mpr (hall b hb)
      have hcan : (Trie.node (l ++ m) w e).Canonical := hHolds.canonical
      have hlen := Keyed.length_le hk hcan
      rw [List.length_append] at hlen
      rw [save, if_neg (by simp [hchildren]), absorb, hchildren]
      have hjoin : joinedKey done l = pure (done ++ l) := joinedKey_eq_pure (by omega)
      show Gives S ((joinedKey done l >>= _) >>= _) g _
      rw [hjoin, pure_bind, bind_assoc]
      refine (gives_load hHolds fun x hx ↦ ?_).bind ?_
      · rwa [← Option.some.inj hx]
      · rintro n g' - ⟨hn, rfl⟩
        rw [hn, pure_bind]
        exact gives_store hw hcan hk hHolds.stored.2
  · -- an unbound node with more children is stored as it is
    rw [Trie.compress_of_two hab ha hb] at hk ⊢
    have hcan : (Trie.node l none c).Canonical :=
      ⟨h.canonical, h.starts, fun _ ↦ ⟨a, b, hab, ha, hb⟩⟩
    have hcompressed := (shaped_toNode hk hcan).compressed
    have habsorb : absorb (toNode l none c) done = pure (toNode l none c) := by
      rw [absorb]
      split
      · rename_i hchildren
        exact absurd ⟨rfl, .inl (by rw [hchildren]; rfl)⟩ hcompressed
      · rfl
    rw [save, if_neg, habsorb, pure_bind]
    · exact gives_store hw hcan hk h.stored
    · rintro ⟨-, hnil⟩
      rw [children_toNode] at hnil
      exact ha (digest?_eq_none.mp (childRefs_eq_nil.mp hnil a))

end nodes

end RadixIndex

end Mst2
