import Mst2Codec.Namespace.Radix.Update

/-!
# Lookup reads the trie

`get` returns the binding of the key (`gives_get`), and `longestPrefix` the longest bound prefix of
the key with the path it belongs to (`gives_longestPrefix`).  Both are `walk`, which remembers the
deepest bound node above the key: in the first case only a match of the whole key counts.
-/

set_option autoImplicit false

namespace Mst2

open Bytes Except

namespace RadixIndex

variable [Sha256] {S : Setting} {g : Ghost} {path : String}

omit [Sha256] in
theorem Shows.longest {t : Trie UInt8 Digest} {l : Bytes} {v : Option Digest}
    {c : UInt8 → Trie UInt8 Digest} (h : Shows t l v c) (k : Bytes) :
    t.longest k = (Trie.node l v c).longest k := by
  rcases h with rfl | ⟨rfl, hhollow⟩
  · rfl
  · rw [hhollow, Trie.longest_hollow]
    rfl

/-- What the walk finds at or above `done ++ q`, where it has come with `found`. -/
def FoundAt (done : Bytes) (o : Option (Bytes × Digest)) (found x : Option (String × Digest)) :
    Prop :=
  match o with
  | some (q, d) => ∃ p, ValidPath p ∧ keyOf p = done ++ q ∧ x = some (p, d)
  | none => x = found

/-- What the walk returns below `done`: the deepest match, or the binding of the whole key. -/
def WalkResult (path : String) (ancestors : Bool) (done rest : Bytes) (t : Trie UInt8 Digest)
    (found x : Option (String × Digest)) : Prop :=
  if ancestors then FoundAt done (t.longest rest) found x
  else (∀ f, found = some f → f.1 ≠ path) → x.map Prod.snd = t.lookup rest

omit [Sha256] in
/-- A binding at the end of a label is remembered under its path. -/
theorem exists_remember {done l : Bytes} {v : Option Digest}
    (hkeyed : ∀ d, v = some d → ∃ p, ValidPath p ∧ keyOf p = done ++ l)
    (found : Option (String × Digest)) : ∃ found', FoundAt done (v.map (l, ·)) found found' ∧
      remember (done ++ l) v found = pure found' := by
  cases v with
  | none => exact ⟨found, rfl, rfl⟩
  | some d =>
    obtain ⟨p, hp, hkey⟩ := hkeyed d rfl
    refine ⟨some (p, d), ⟨p, hp, hkey, rfl⟩, ?_⟩
    rw [remember, ofCodec_ok (decodeKey_eq_ok.mpr ⟨hp, hkey.symm⟩), pure_bind]

/-- The walk from a node of the trie `t`. -/
def Walks (S : Setting) (path : String) (ancestors : Bool) (t : Trie UInt8 Digest) : Prop :=
  ∀ g done rest id edge found l v c, Shows t l v c → Holds S g done t →
    keyOf path = done ++ rest →
    Gives S (load id edge done) g (fun n g' ↦ n.val = toNode l v c ∧ g' = g) →
    Gives S (walkLoop path ancestors done rest id edge found) g fun x g' ↦
      g' = g ∧ WalkResult path ancestors done rest t found x

/-- **One step of the walk**: every exit of the loop, given the steps in the children. -/
theorem walks_step (hp : ValidPath path) {ancestors : Bool} {t : Trie UInt8 Digest}
    (hchildren : ∀ l v c, Shows t l v c → ∀ a, c a ≠ .absent → Walks S path ancestors (c a)) :
    Walks S path ancestors t := by
  intro g done rest id edge found l v c hshow ht hkey hload
  simp only [WalkResult, hshow.longest, hshow.lookup]
  have hkeyed : ∀ d, v = some d → ∃ p, ValidPath p ∧ keyOf p = done ++ l := by
    rintro d rfl
    exact ht.keyed l d (by rw [hshow.lookup, Trie.lookup_self])
  obtain ⟨found', hfound', hremember⟩ := exists_remember hkeyed found
  rw [walkLoop]
  refine hload.bind ?_
  rintro ⟨n, hn⟩ g' - ⟨hnode, rfl⟩
  obtain rfl : n = toNode l v c := hnode
  by_cases hl : l <+: rest
  · obtain ⟨r, rfl⟩ := hl
    have hl' : (toNode l v c).label <+: l ++ r := List.prefix_append l r
    have hdrop : (l ++ r).drop (toNode l v c).label.length = r := List.drop_left
    have hremember' : remember (done ++ (toNode l v c).label) (toNode l v c).binding found =
        pure found' := hremember
    simp only [if_pos hl', hremember', pure_bind]
    split
    · -- the key ends here
      rename_i hnil
      obtain rfl : r = [] := hdrop ▸ hnil
      rw [List.append_nil] at hkey ⊢
      rw [Trie.longest_self, Trie.lookup_self]
      refine gives_pure ⟨rfl, ?_⟩
      cases ancestors with
      | true =>
        have hfilter : (found'.filter fun f ↦ true || f.1 = path) = found' := by
          cases found' <;> rfl
        rw [hfilter, if_pos rfl]
        exact hfound'
      | false =>
        rw [if_neg (by simp)]
        intro hne
        cases v with
        | none =>
          obtain rfl : found' = found := hfound'
          cases found' with
          | none => rfl
          | some f => simp [Option.filter, hne f rfl]
        | some d =>
          obtain ⟨p, hvalid, hp', rfl⟩ := hfound'
          obtain rfl := keyOf_injective hvalid hp (hp'.trans hkey.symm)
          simp [Option.filter]
    · -- the key goes on at a byte
      rename_i a r' hcons
      obtain rfl : r = a :: r' := hdrop ▸ hcons
      rw [Trie.longest_append_cons, Trie.lookup_append_cons, children_toNode, find?_childRefs]
      have hfoundNe : (∀ f, found = some f → f.1 ≠ path) → ∀ f, found' = some f → f.1 ≠ path := by
        intro hne f hf
        cases v with
        | none =>
          obtain rfl : found' = found := hfound'
          exact hne f hf
        | some d =>
          obtain ⟨p, -, hp', rfl⟩ := hfound'
          obtain rfl := Option.some.inj hf
          rintro rfl
          rw [hp'] at hkey
          simp at hkey
      cases hca : c a with
      | absent =>
        rw [digest?_absent, Option.map_none]
        refine gives_pure ⟨rfl, ?_⟩
        cases ancestors with
        | true => simpa only [if_true, Trie.longest_absent] using hfound'
        | false => simp
      | node m w e =>
        have hchild := hshow.child ht a
        have hstarts := (hshow.below ht).starts a
        have hwalks := hchildren l v c hshow a (by simp [hca])
        rw [hca] at hchild hstarts hwalks
        refine (hwalks _ _ _ _ _ found' m w e (.inl rfl) hchild
          (by rw [hkey, List.append_assoc])
          (gives_load hchild fun x hx ↦ by rwa [← Option.some.inj hx])).mono ?_
        rintro x _ ⟨rfl, hx⟩
        refine ⟨rfl, ?_⟩
        cases ancestors with
        | true =>
          simp only [WalkResult, if_true] at hx ⊢
          cases hlongest : (Trie.node m w e).longest (a :: r') with
          | none =>
            rw [hlongest] at hx
            obtain rfl : x = found' := hx
            exact hfound'
          | some qd =>
            rw [hlongest] at hx
            obtain ⟨p, hvalid, hp', rfl⟩ := hx
            exact ⟨p, hvalid, by rw [hp', List.append_assoc], rfl⟩
        | false =>
          simp only [WalkResult, Bool.false_eq_true, if_false] at hx ⊢
          exact fun hne ↦ hx (hfoundNe hne)
  · -- the key leaves the label
    have hl' : ¬ (toNode l v c).label <+: rest := hl
    rw [Trie.longest_of_not hl, Trie.lookup_of_not hl]
    simp only [if_neg hl']
    refine gives_pure ⟨rfl, ?_⟩
    cases ancestors with
    | true => rfl
    | false => simp

/-- **`walk` reads the trie**: the binding of the key, or its longest bound prefix. -/
theorem gives_walk {root : Digest} {t : Trie UInt8 Digest} (h : Represents S g root t)
    (hp : ValidPath path) (ancestors : Bool) :
    Gives S (walk root path ancestors) g fun x g' ↦
      g' = g ∧ WalkResult path ancestors [] (keyOf path) t none x := by
  obtain ⟨l, v, c, hshow, hload⟩ := h.gives_load
  rw [walk, ofCodec_ok (encodeKey_eq_ok.mpr ⟨hp, rfl⟩), pure_bind]
  exact shows_induction (fun _ ↦ walks_step hp) t g [] (keyOf path) root none none l v c hshow
    h.toHolds rfl hload

/-- `get` returns the binding of the key. -/
theorem gives_get {root : Digest} {t : Trie UInt8 Digest} (h : Represents S g root t)
    (hp : ValidPath path) : Gives S (get root path) g fun o g' ↦
      g' = g ∧ o = t.lookup (keyOf path) := by
  rw [get]
  refine (gives_walk h hp false).bind ?_
  rintro x g' - ⟨rfl, hx⟩
  exact gives_pure ⟨rfl, hx (by simp)⟩

/-- `longestPrefix` returns the longest bound prefix of the key, as a path. -/
theorem gives_longestPrefix {root : Digest} {t : Trie UInt8 Digest} (h : Represents S g root t)
    (hp : ValidPath path) : Gives S (longestPrefix root path) g fun o g' ↦
      g' = g ∧ FoundAt [] (t.longest (keyOf path)) none o :=
  gives_walk h hp true

end RadixIndex

end Mst2
