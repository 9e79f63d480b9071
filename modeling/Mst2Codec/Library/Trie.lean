import Mathlib

/-!
# Compressed tries

A `Trie α β` is a finite map from keys `List α` to values `β`, laid out as a radix tree: a node
carries the letters all its keys begin with (its label), the value bound to exactly that key, if
any, and one subtree for each next letter.  The label of a subtree begins with the letter that
selects it.

* `Trie.lookup` is the map a trie denotes, `Trie.set` changes it at one key, and
  `Trie.compress` is the step that restores the shape after an edit: an unbound node without
  subtrees disappears, an unbound node with one subtree is merged with it.
* `Trie.Canonical` is that shape.  **A canonical trie is determined by its map**
  (`Canonical.ext`), and `set` keeps tries canonical (`Canonical.set`), so the order in which a
  trie was edited leaves no trace.
* `Trie.longest` is the longest prefix of a key that is bound (`Canonical.longest_eq_some`,
  `longest_eq_none`).

Nothing here is meant to be run: subtrees are a function of the letter, and `compress` asks whether
they are all absent.
-/

set_option autoImplicit false

/-! ## Common prefixes -/

/-- The longest common prefix of two lists. -/
def lcp {α : Type*} [DecidableEq α] : List α → List α → List α
  | a :: as, b :: bs => if a = b then a :: lcp as bs else []
  | _, _ => []

section lcp

variable {α : Type*} [DecidableEq α]

@[simp] theorem lcp_nil_left (k : List α) : lcp [] k = [] := by simp [lcp]

@[simp] theorem lcp_nil_right (l : List α) : lcp l [] = [] := by cases l <;> simp [lcp]

@[simp] theorem lcp_append_append (p l k : List α) : lcp (p ++ l) (p ++ k) = p ++ lcp l k := by
  induction p with
  | nil => rfl
  | cons a p ih => simp [lcp, ih]

theorem lcp_cons_of_ne {a b : α} (h : a ≠ b) (l k : List α) : lcp (a :: l) (b :: k) = [] := by
  simp [lcp, h]

/-- How a key can meet a label: it runs through it, ends inside it, or leaves it at some letter. -/
theorem lcp_cases (l k : List α) :
    (∃ r, k = l ++ r) ∨ (∃ a l', l = k ++ a :: l') ∨
      ∃ p a l' b k', l = p ++ a :: l' ∧ k = p ++ b :: k' ∧ a ≠ b := by
  induction l generalizing k with
  | nil => exact .inl ⟨k, rfl⟩
  | cons a l ih =>
    cases k with
    | nil => exact .inr (.inl ⟨a, l, rfl⟩)
    | cons b k =>
      by_cases hab : a = b
      · subst hab
        rcases ih k with ⟨r, rfl⟩ | ⟨x, l', rfl⟩ | ⟨p, x, l', y, k', rfl, rfl, hne⟩
        · exact .inl ⟨r, rfl⟩
        · exact .inr (.inl ⟨x, l', rfl⟩)
        · exact .inr (.inr ⟨a :: p, x, l', y, k', rfl, rfl, hne⟩)
      · exact .inr (.inr ⟨[], a, l, b, k, rfl, rfl, hab⟩)

omit [DecidableEq α] in
theorem not_append_cons_isPrefix (k : List α) (a : α) (l : List α) : ¬ k ++ a :: l <+: k := by
  intro h
  have := h.length_le
  simp at this

end lcp

/-! ## Tries and their maps -/

/-- A radix tree over the letters `α` with values in `β`. -/
inductive Trie (α β : Type) : Type where
  /-- No keys at all. -/
  | absent
  /-- The keys that begin with `label`. -/
  | node (label : List α) (value : Option β) (child : α → Trie α β)

namespace Trie

variable {α β : Type} [DecidableEq α]

/-- The value bound to a key. -/
def lookup : Trie α β → List α → Option β
  | absent, _ => none
  | node l v c, k =>
    if l <+: k then
      match k.drop l.length with
      | [] => v
      | a :: r => (c a).lookup (a :: r)
    else none

/-- A subtree that may stand under the letter `a`. -/
def Starts (a : α) : Trie α β → Prop
  | absent => True
  | node l _ _ => l.head? = some a

/-- Put `p` in front of every key. -/
def graft (p : List α) : Trie α β → Trie α β
  | absent => absent
  | node l v c => node (p ++ l) v c

omit [DecidableEq α] in
@[simp] theorem graft_nil (t : Trie α β) : graft [] t = t := by cases t <;> rfl

@[simp] theorem lookup_absent (k : List α) : (absent : Trie α β).lookup k = none := rfl

@[simp] theorem lookup_self (l : List α) (v : Option β) (c : α → Trie α β) :
    (node l v c).lookup l = v := by
  simp [lookup]

@[simp] theorem lookup_append_cons (l : List α) (v : Option β) (c : α → Trie α β) (a : α)
    (r : List α) : (node l v c).lookup (l ++ a :: r) = (c a).lookup (a :: r) := by
  simp [lookup]

theorem lookup_of_not {l k : List α} (h : ¬ l <+: k) (v : Option β) (c : α → Trie α β) :
    (node l v c).lookup k = none := by
  simp [lookup, h]

@[simp] theorem lookup_graft_append (p k : List α) (t : Trie α β) :
    (graft p t).lookup (p ++ k) = t.lookup k := by
  cases t with
  | absent => rfl
  | node l v c =>
    simp only [graft, lookup, List.prefix_append_right_inj, List.length_append]
    rw [← List.drop_drop, List.drop_left]

theorem lookup_graft_of_not {p k : List α} (h : ¬ p <+: k) (t : Trie α β) :
    (graft p t).lookup k = none := by
  cases t with
  | absent => rfl
  | node l v c => exact lookup_of_not (fun hl ↦ h ((List.prefix_append p l).trans hl)) v c

theorem Starts.lookup_eq_none {a : α} {t : Trie α β} (h : t.Starts a) {k : List α}
    (hk : k.head? ≠ some a) : t.lookup k = none := by
  cases t with
  | absent => rfl
  | node l v c =>
    refine lookup_of_not (fun hl ↦ hk ?_) v c
    obtain ⟨r, rfl⟩ := hl
    cases l with
    | nil => simp [Starts] at h
    | cons b l => exact h

/-! ## The canonical shape -/

/-- Every subtree stands under its own first letter, and an unbound node has at least two of
them. -/
def Canonical : Trie α β → Prop
  | absent => True
  | node _ v c => (∀ a, (c a).Canonical) ∧ (∀ a, (c a).Starts a) ∧
      (v = none → ∃ a b, a ≠ b ∧ c a ≠ absent ∧ c b ≠ absent)

omit [DecidableEq α] in
theorem Canonical.graft {p : List α} {t : Trie α β} (h : t.Canonical) : (graft p t).Canonical := by
  cases t with
  | absent => exact h
  | node l v c => exact h

/-- A canonical trie that is there at all has a key. -/
theorem Canonical.exists_lookup {t : Trie α β} (h : t.Canonical) (ht : t ≠ absent) :
    ∃ k v, t.lookup k = some v := by
  induction t with
  | absent => exact absurd rfl ht
  | node l v c ih =>
    cases v with
    | some d => exact ⟨l, d, by simp⟩
    | none =>
      obtain ⟨hc, hs, htwo⟩ := h
      obtain ⟨a, -, -, ha, -⟩ := htwo rfl
      obtain ⟨k, d, hk⟩ := ih a (hc a) ha
      have hhead : k.head? = some a := by
        by_contra hne
        rw [(hs a).lookup_eq_none hne] at hk
        cases hk
      obtain ⟨r, rfl⟩ : ∃ r, k = a :: r := by
        cases k with
        | nil => simp at hhead
        | cons b r => exact ⟨r, by simpa using hhead⟩
      exact ⟨l ++ a :: r, d, by simpa using hk⟩

/-- The key under a present child: it starts with the letter of the child. -/
theorem Canonical.exists_lookup_child {l : List α} {v : Option β} {c : α → Trie α β}
    (h : (node l v c).Canonical) {a : α} (ha : c a ≠ absent) :
    ∃ r d, (node l v c).lookup (l ++ a :: r) = some d := by
  obtain ⟨k, d, hk⟩ := (h.1 a).exists_lookup ha
  cases k with
  | nil => rw [(h.2.1 a).lookup_eq_none (by simp)] at hk; cases hk
  | cons b r =>
    by_cases hb : b = a
    · subst hb; exact ⟨r, d, by simpa using hk⟩
    · rw [(h.2.1 a).lookup_eq_none (by simpa using hb)] at hk; cases hk

/-- A letter that every key of a canonical node has after `p` belongs to the node's label. -/
theorem Canonical.label_le {l m : List α} {v w : Option β} {c e : α → Trie α β}
    (h : (node l v c).Canonical)
    (heq : ∀ k, (node l v c).lookup k = (node m w e).lookup k) : m <+: l := by
  cases v with
  | some d =>
    by_contra hm
    have := heq l
    rw [lookup_self, lookup_of_not hm] at this
    cases this
  | none =>
    -- two keys leave the label by different letters, and `m` is a prefix of both
    obtain ⟨a, b, hab, ha, hb⟩ := h.2.2 rfl
    have hpre : ∀ {x : α}, c x ≠ absent → ∃ r, m <+: l ++ x :: r := by
      intro x hx
      obtain ⟨r, d, hr⟩ := h.exists_lookup_child hx
      refine ⟨r, ?_⟩
      by_contra hm
      rw [heq, lookup_of_not hm] at hr
      cases hr
    obtain ⟨r, hr⟩ := hpre ha
    obtain ⟨s, hs⟩ := hpre hb
    rcases lcp_cases m l with ⟨t, rfl⟩ | ⟨x, m', rfl⟩ | ⟨p, x, m', y, l', rfl, rfl, hne⟩
    · exact List.prefix_append m t
    · rw [List.prefix_append_right_inj, List.cons_prefix_cons] at hr hs
      exact absurd (hr.1.symm.trans hs.1) hab
    · rw [List.append_assoc, List.prefix_append_right_inj, List.cons_append,
        List.cons_prefix_cons] at hr
      exact absurd hr.1 hne

/-- **A canonical trie is determined by the map it denotes.** -/
theorem Canonical.ext {t u : Trie α β} (ht : t.Canonical) (hu : u.Canonical)
    (h : ∀ k, t.lookup k = u.lookup k) : t = u := by
  induction t generalizing u with
  | absent =>
    by_contra hne
    obtain ⟨k, v, hk⟩ := hu.exists_lookup (Ne.symm hne)
    rw [← h k] at hk
    cases hk
  | node l v c ih =>
    cases u with
    | absent =>
      obtain ⟨k, d, hk⟩ := ht.exists_lookup (by simp)
      rw [h k] at hk
      cases hk
    | node m w e =>
      have hlm : l <+: m := hu.label_le fun k ↦ (h k).symm
      have hml : m <+: l := ht.label_le h
      obtain rfl : l = m := hlm.eq_of_length (le_antisymm hlm.length_le hml.length_le)
      have hvw : v = w := by simpa using h l
      have hce : c = e := by
        funext a
        refine ih a (ht.1 a) (hu.1 a) fun k ↦ ?_
        by_cases hk : k.head? = some a
        · obtain ⟨r, rfl⟩ : ∃ r, k = a :: r := by
            cases k with
            | nil => simp at hk
            | cons b r => exact ⟨r, by simpa using hk⟩
          simpa using h (l ++ a :: r)
        · rw [(ht.2.1 a).lookup_eq_none hk, (hu.2.1 a).lookup_eq_none hk]
      rw [hvw, hce]

/-! ## Restoring the shape -/

open Classical in
/-- The canonical trie of a node whose subtrees are canonical: an unbound node without subtrees
disappears, and one with a single subtree is merged with it. -/
noncomputable def compress (l : List α) (v : Option β) (c : α → Trie α β) : Trie α β :=
  if v = none then
    if h : ∃ a, c a ≠ absent then
      if ∀ b, b ≠ h.choose → c b = absent then graft l (c h.choose) else node l v c
    else absent
  else node l v c

section compress

omit [DecidableEq α]

variable {l : List α} {v : Option β} {c : α → Trie α β}

theorem compress_of_bound (hv : v ≠ none) : compress l v c = node l v c := by
  rw [compress, if_neg hv]

theorem compress_of_absent (hc : ∀ a, c a = absent) : compress l none c = absent := by
  rw [compress, if_pos rfl, dif_neg (by simpa using hc)]

theorem compress_of_only {a : α} (ha : c a ≠ absent) (hc : ∀ b, b ≠ a → c b = absent) :
    compress l none c = graft l (c a) := by
  have h : ∃ a, c a ≠ absent := ⟨a, ha⟩
  have hca : h.choose = a := by
    by_contra hne
    exact h.choose_spec (hc _ hne)
  rw [compress, if_pos rfl, dif_pos h, if_pos (by rwa [hca]), hca]

theorem compress_of_two {a b : α} (hab : a ≠ b) (ha : c a ≠ absent) (hb : c b ≠ absent) :
    compress l none c = node l none c := by
  have h : ∃ a, c a ≠ absent := ⟨a, ha⟩
  have htwo : ¬ ∀ b, b ≠ h.choose → c b = absent := by
    intro hall
    by_cases hac : a = h.choose
    · exact hb (hall b (hac ▸ Ne.symm hab))
    · exact ha (hall a hac)
  rw [compress, if_pos rfl, dif_pos h, if_neg htwo]

/-- The shapes a node can be in before it is compressed. -/
theorem children_cases (v : Option β) (c : α → Trie α β) :
    v ≠ none ∨ (v = none ∧ ∀ a, c a = absent) ∨
      (∃ a, v = none ∧ c a ≠ absent ∧ ∀ b, b ≠ a → c b = absent) ∨
      ∃ a b, v = none ∧ a ≠ b ∧ c a ≠ absent ∧ c b ≠ absent := by
  by_cases hv : v = none
  · by_cases h : ∃ a, c a ≠ absent
    · obtain ⟨a, ha⟩ := h
      by_cases hall : ∀ b, b ≠ a → c b = absent
      · exact .inr (.inr (.inl ⟨a, hv, ha, hall⟩))
      · push Not at hall
        obtain ⟨b, hba, hb⟩ := hall
        exact .inr (.inr (.inr ⟨a, b, hv, Ne.symm hba, ha, hb⟩))
    · exact .inr (.inl ⟨hv, by simpa using h⟩)
  · exact .inl hv

theorem compress_eq_self (h : (node l v c).Canonical) : compress l v c = node l v c := by
  by_cases hv : v = none
  · obtain ⟨a, b, hab, ha, hb⟩ := h.2.2 hv
    subst hv
    exact compress_of_two hab ha hb
  · exact compress_of_bound hv

theorem canonical_compress (hc : ∀ a, (c a).Canonical) (hs : ∀ a, (c a).Starts a) :
    (compress l v c).Canonical := by
  rcases children_cases v c with hv | ⟨rfl, hall⟩ | ⟨a, rfl, ha, hall⟩ | ⟨a, b, rfl, hab, ha, hb⟩
  · rw [compress_of_bound hv]
    exact ⟨hc, hs, fun h ↦ absurd h hv⟩
  · rw [compress_of_absent hall]
    trivial
  · rw [compress_of_only ha hall]
    exact (hc a).graft
  · rw [compress_of_two hab ha hb]
    exact ⟨hc, hs, fun _ ↦ ⟨a, b, hab, ha, hb⟩⟩

theorem starts_compress {a : α} (hl : l.head? = some a) : (compress l v c).Starts a := by
  rcases children_cases v c with hv | ⟨rfl, hall⟩ | ⟨b, rfl, hb, hall⟩ | ⟨b, b', rfl, hbb, hb, hb'⟩
  · rwa [compress_of_bound hv]
  · rw [compress_of_absent hall]
    trivial
  · rw [compress_of_only hb hall]
    cases hcb : c b with
    | absent => trivial
    | node m w e =>
      cases l with
      | nil => simp at hl
      | cons x l => exact hl
  · rwa [compress_of_two hbb hb hb']

end compress

/-- Compressing does not change the map. -/
theorem lookup_compress {l : List α} {v : Option β} {c : α → Trie α β}
    (hs : ∀ a, (c a).Starts a) (k : List α) :
    (compress l v c).lookup k = (node l v c).lookup k := by
  rcases children_cases v c with hv | ⟨rfl, hall⟩ | ⟨a, rfl, ha, hall⟩ | ⟨a, b, rfl, hab, ha, hb⟩
  · rw [compress_of_bound hv]
  · rw [compress_of_absent hall]
    by_cases hk : l <+: k
    · obtain ⟨r, rfl⟩ := hk
      cases r with
      | nil => simp
      | cons b r => simp [hall]
    · rw [lookup_of_not hk, lookup_absent]
  · rw [compress_of_only ha hall]
    by_cases hk : l <+: k
    · obtain ⟨r, rfl⟩ := hk
      rw [lookup_graft_append]
      cases r with
      | nil => rw [(hs a).lookup_eq_none (by simp)]; simp
      | cons b r =>
        rw [lookup_append_cons]
        by_cases hba : b = a
        · rw [hba]
        · rw [hall b hba, (hs a).lookup_eq_none (by simpa using hba), lookup_absent]
    · rw [lookup_graft_of_not hk, lookup_of_not hk]
  · rw [compress_of_two hab ha hb]

/-! ## Changing one key -/

/-- The trie of a single key. -/
def leaf (k : List α) (d : β) : Trie α β := node k (some d) fun _ ↦ absent

omit [DecidableEq α] in
theorem canonical_leaf (k : List α) (d : β) : (leaf k d).Canonical :=
  ⟨fun _ ↦ trivial, fun _ ↦ trivial, fun h ↦ by simp at h⟩

@[simp] theorem lookup_leaf (k k' : List α) (d : β) :
    (leaf k d).lookup k' = if k' = k then some d else none := by
  by_cases h : k' = k
  · subst h; simp [leaf]
  · rw [if_neg h]
    by_cases hp : k <+: k'
    · obtain ⟨r, rfl⟩ := hp
      cases r with
      | nil => simp at h
      | cons a r => simp [leaf]
    · exact lookup_of_not hp _ _

/-- One subtree and no other. -/
def only (a : α) (t : Trie α β) : α → Trie α β := Function.update (fun _ ↦ absent) a t

@[simp] theorem only_self (a : α) (t : Trie α β) : only a t a = t := by simp [only]

theorem only_of_ne {a b : α} (h : b ≠ a) (t : Trie α β) : only a t b = absent := by
  simp [only, h]

/-- Bind the key to a value, or unbind it. -/
noncomputable def set : Trie α β → List α → Option β → Trie α β
  | absent, k, v =>
    match v with
    | none => absent
    | some d => leaf k d
  | node l w c, k, v =>
    let p := lcp l k
    match l.drop p.length, k.drop p.length with
    | [], [] => compress l v c
    | [], b :: r => compress l w (Function.update c b ((c b).set (b :: r) v))
    | a :: l', [] =>
      match v with
      | none => node l w c
      | some d => node p (some d) (only a (node (a :: l') w c))
    | a :: l', b :: k' =>
      match v with
      | none => node l w c
      | some d => node p none (Function.update (only a (node (a :: l') w c)) b (leaf (b :: k') d))

section set

variable {l p k k' l' r : List α} {v w : Option β} {c : α → Trie α β} {a b : α} {d : β}

@[simp] theorem set_self : (node l w c).set l v = compress l v c := by
  have h : lcp l l = l := by simpa using lcp_append_append l [] []
  rw [set, h]
  simp

@[simp] theorem set_append_cons :
    (node l w c).set (l ++ b :: r) v =
      compress l w (Function.update c b ((c b).set (b :: r) v)) := by
  have h : lcp l (l ++ b :: r) = l := by simpa using lcp_append_append l [] (b :: r)
  rw [set, h]
  simp

theorem set_short : (node (k ++ a :: l') w c).set k (some d) =
    node k (some d) (only a (node (a :: l') w c)) := by
  have h : lcp (k ++ a :: l') k = k := by simpa using lcp_append_append k (a :: l') []
  rw [set, h]
  simp

theorem set_fork (hab : a ≠ b) : (node (p ++ a :: l') w c).set (p ++ b :: k') (some d) =
    node p none (Function.update (only a (node (a :: l') w c)) b (leaf (b :: k') d)) := by
  have h : lcp (p ++ a :: l') (p ++ b :: k') = p := by simp [lcp_cons_of_ne hab]
  rw [set, h]
  simp

/-- Unbinding a key that leaves the label changes nothing. -/
theorem set_none_of_not (h : ¬ l <+: k) : (node l w c).set k none = node l w c := by
  rcases lcp_cases l k with ⟨r, rfl⟩ | ⟨a, l', rfl⟩ | ⟨p, a, l', b, k', rfl, rfl, hab⟩
  · exact absurd (List.prefix_append l r) h
  · have h : lcp (k ++ a :: l') k = k := by simpa using lcp_append_append k (a :: l') []
    rw [set, h]
    simp
  · have h : lcp (p ++ a :: l') (p ++ b :: k') = p := by simp [lcp_cons_of_ne hab]
    rw [set, h]
    simp

end set

theorem starts_set {a : α} {t : Trie α β} (ht : t.Starts a) {k : List α} (hk : k.head? = some a)
    (v : Option β) : (t.set k v).Starts a := by
  cases t with
  | absent =>
    cases v with
    | none => trivial
    | some d => exact hk
  | node l w c =>
    rcases lcp_cases l k with ⟨r, rfl⟩ | ⟨b, l', rfl⟩ | ⟨p, b, l', b', k', rfl, rfl, hne⟩
    · cases r with
      | nil => rw [List.append_nil, set_self]; exact starts_compress ht
      | cons b r => rw [set_append_cons]; exact starts_compress ht
    · cases v with
      | none => rwa [set_none_of_not (not_append_cons_isPrefix k _ _)]
      | some d => rw [set_short]; exact hk
    · cases v with
      | none => rwa [set_none_of_not (by simp [hne])]
      | some d =>
        rw [set_fork hne]
        cases p with
        | nil =>
          have h1 : b = a := by simpa [Starts] using ht
          have h2 : b' = a := by simpa using hk
          exact absurd (h1.trans h2.symm) hne
        | cons x p => exact hk

/-- **`set` keeps tries canonical.** -/
theorem Canonical.set {t : Trie α β} (ht : t.Canonical) (k : List α) (v : Option β) :
    (t.set k v).Canonical := by
  induction t generalizing k with
  | absent =>
    cases v with
    | none => trivial
    | some d => exact canonical_leaf k d
  | node l w c ih =>
    rcases lcp_cases l k with ⟨r, rfl⟩ | ⟨a, l', rfl⟩ | ⟨p, a, l', b, k', rfl, rfl, hab⟩
    · cases r with
      | nil => rw [List.append_nil, set_self]; exact canonical_compress ht.1 ht.2.1
      | cons b r =>
        rw [set_append_cons]
        refine canonical_compress (fun a ↦ ?_) (fun a ↦ ?_)
        · by_cases hab : a = b
          · subst hab; rw [Function.update_self]; exact ih a (ht.1 a) _
          · rw [Function.update_of_ne hab]; exact ht.1 a
        · by_cases hab : a = b
          · subst hab; rw [Function.update_self]; exact starts_set (ht.2.1 a) (by simp) v
          · rw [Function.update_of_ne hab]; exact ht.2.1 a
    · cases v with
      | none => rwa [set_none_of_not (not_append_cons_isPrefix k _ _)]
      | some d =>
        rw [set_short]
        refine ⟨fun b ↦ ?_, fun b ↦ ?_, fun h ↦ by simp at h⟩ <;> by_cases hb : b = a
        · subst hb; rw [only_self]; exact ht
        · rw [only_of_ne hb]; trivial
        · subst hb; rw [only_self]; rfl
        · rw [only_of_ne hb]; trivial
    · cases v with
      | none => rwa [set_none_of_not (by simp [hab])]
      | some d =>
        rw [set_fork hab]
        refine ⟨fun x ↦ ?_, fun x ↦ ?_, fun _ ↦ ⟨a, b, hab, ?_, ?_⟩⟩
        · by_cases hxb : x = b
          · subst hxb; rw [Function.update_self]; exact canonical_leaf _ _
          · rw [Function.update_of_ne hxb]
            by_cases hxa : x = a
            · subst hxa; rw [only_self]; exact ht
            · rw [only_of_ne hxa]; trivial
        · by_cases hxb : x = b
          · subst hxb; rw [Function.update_self]; rfl
          · rw [Function.update_of_ne hxb]
            by_cases hxa : x = a
            · subst hxa; rw [only_self]; rfl
            · rw [only_of_ne hxa]; trivial
        · rw [Function.update_of_ne hab, only_self]; simp
        · rw [Function.update_self]; simp [leaf]

/-- The map of a node below its label, letter by letter. -/
theorem lookup_below {l : List α} {v : Option β} {c : α → Trie α β} (k : List α) :
    (node l v c).lookup (l ++ k) = match k with
      | [] => v
      | a :: r => (c a).lookup (a :: r) := by
  cases k <;> simp

/-- **`set` changes the map at one key.** -/
theorem Canonical.lookup_set {t : Trie α β} (ht : t.Canonical) (k : List α) (v : Option β)
    (q : List α) : (t.set k v).lookup q = if q = k then v else t.lookup q := by
  induction t generalizing k q with
  | absent => cases v <;> simp [Trie.set]
  | node l w c ih =>
    rcases lcp_cases l k with ⟨r, rfl⟩ | ⟨a, l', rfl⟩ | ⟨p, a, l', b, k', rfl, rfl, hab⟩
    · -- the label is matched in full: the change is at the node or below it
      by_cases hq : l <+: q
      · obtain ⟨q, rfl⟩ := hq
        cases r with
        | nil =>
          rw [List.append_nil, set_self, lookup_compress ht.2.1]
          cases q <;> simp
        | cons b r =>
          rw [set_append_cons, lookup_compress]
          · cases q with
            | nil => simp
            | cons x q =>
              rw [lookup_append_cons, lookup_append_cons]
              simp only [List.append_cancel_left_eq]
              by_cases hxb : x = b
              · subst hxb
                rw [Function.update_self]
                exact ih x (ht.1 x) _ _
              · rw [Function.update_of_ne hxb, if_neg (by simp [hxb])]
          · intro x
            by_cases hxb : x = b
            · subst hxb; rw [Function.update_self]; exact starts_set (ht.2.1 x) (by simp) v
            · rw [Function.update_of_ne hxb]; exact ht.2.1 x
      · have hne : q ≠ l ++ r := by rintro rfl; exact hq (List.prefix_append l r)
        rw [if_neg hne, lookup_of_not hq]
        cases r with
        | nil => rw [List.append_nil, set_self, lookup_compress ht.2.1, lookup_of_not hq]
        | cons b r =>
          rw [set_append_cons, lookup_compress, lookup_of_not hq]
          intro x
          by_cases hxb : x = b
          · subst hxb; rw [Function.update_self]; exact starts_set (ht.2.1 x) (by simp) v
          · rw [Function.update_of_ne hxb]; exact ht.2.1 x
    · -- the key ends inside the label
      have hk : (node (k ++ a :: l') w c).lookup k = none :=
        lookup_of_not (not_append_cons_isPrefix k a l') w c
      cases v with
      | none =>
        rw [set_none_of_not (not_append_cons_isPrefix k a l')]
        split
        · rename_i h; rw [h, hk]
        · rfl
      | some d =>
        rw [set_short]
        by_cases hq : k <+: q
        · obtain ⟨q, rfl⟩ := hq
          rw [show node (k ++ a :: l') w c = Trie.graft k (node (a :: l') w c) from rfl,
            lookup_graft_append]
          cases q with
          | nil => simp
          | cons x q =>
            rw [lookup_append_cons, if_neg (by simp)]
            by_cases hxa : x = a
            · rw [hxa, only_self]
            · rw [only_of_ne hxa, lookup_absent,
                lookup_of_not (show ¬ a :: l' <+: x :: q by simp [Ne.symm hxa])]
        · rw [lookup_of_not hq, if_neg (by rintro rfl; exact hq List.prefix_rfl),
            lookup_of_not fun h ↦ hq ((List.prefix_append _ _).trans h)]
    · -- the key leaves the label at the letter `b`
      have hk : ¬ p ++ a :: l' <+: p ++ b :: k' := by simp [hab]
      cases v with
      | none =>
        rw [set_none_of_not hk]
        split
        · rename_i h; rw [h, lookup_of_not hk]
        · rfl
      | some d =>
        rw [set_fork hab]
        by_cases hq : p <+: q
        · obtain ⟨q, rfl⟩ := hq
          rw [show node (p ++ a :: l') w c = Trie.graft p (node (a :: l') w c) from rfl,
            lookup_graft_append]
          simp only [List.append_cancel_left_eq]
          cases q with
          | nil => simp [lookup_of_not]
          | cons x q =>
            rw [lookup_append_cons]
            by_cases hxb : x = b
            · subst hxb
              rw [Function.update_self, lookup_leaf,
                lookup_of_not (show ¬ a :: l' <+: x :: q by simp [hab])]
            · rw [Function.update_of_ne hxb, if_neg (by simp [hxb])]
              by_cases hxa : x = a
              · rw [hxa, only_self]
              · rw [only_of_ne hxa, lookup_absent,
                  lookup_of_not (show ¬ a :: l' <+: x :: q by simp [Ne.symm hxa])]
        · rw [lookup_of_not hq, lookup_of_not fun h ↦ hq ((List.prefix_append _ _).trans h),
            if_neg (by rintro rfl; exact hq (List.prefix_append _ _))]

/-- Binding a key to the value it has changes nothing. -/
theorem Canonical.set_eq_self {t : Trie α β} (ht : t.Canonical) {k : List α} {v : Option β}
    (h : t.lookup k = v) : t.set k v = t := by
  refine (ht.set k v).ext ht fun q ↦ ?_
  rw [ht.lookup_set]
  split
  · rename_i hq; rw [hq, h]
  · rfl

/-! ## The node without keys -/

/-- A node that stands for the absent trie: no value and no subtree. -/
def hollow : Trie α β := node [] none fun _ ↦ absent

section hollow

variable (k : List α) (v : Option β)

theorem lookup_hollow : (hollow : Trie α β).lookup k = none := by
  cases k with
  | nil => exact lookup_self [] none _
  | cons a r => exact lookup_append_cons [] none _ a r

theorem set_hollow : (hollow : Trie α β).set k v = absent.set k v := by
  cases k with
  | nil =>
    rw [hollow, set_self]
    cases v with
    | none => exact compress_of_absent fun _ ↦ rfl
    | some d => exact compress_of_bound (by simp)
  | cons b r =>
    have h : (hollow : Trie α β).set (b :: r) v =
        compress [] none (Function.update (fun _ ↦ absent) b (absent.set (b :: r) v)) :=
      set_append_cons (l := [])
    rw [h]
    cases v with
    | none =>
      refine compress_of_absent fun a ↦ ?_
      by_cases hab : a = b
      · rw [hab, Function.update_self]; rfl
      · rw [Function.update_of_ne hab]
    | some d =>
      rw [compress_of_only (a := b), Function.update_self, graft_nil]
      · rw [Function.update_self]; simp [Trie.set, leaf]
      · exact fun a hab ↦ Function.update_of_ne hab _ _

end hollow

/-! ## The longest bound prefix -/

/-- The longest prefix of a key that is bound, with its value. -/
def longest : Trie α β → List α → Option (List α × β)
  | absent, _ => none
  | node l v c, k =>
    if l <+: k then
      match k.drop l.length with
      | [] => v.map (l, ·)
      | a :: r =>
        match (c a).longest (a :: r) with
        | some (q, d) => some (l ++ q, d)
        | none => v.map (l, ·)
    else none

@[simp] theorem longest_absent (k : List α) : (absent : Trie α β).longest k = none := rfl

@[simp] theorem longest_self (l : List α) (v : Option β) (c : α → Trie α β) :
    (node l v c).longest l = v.map (l, ·) := by
  simp [longest]

@[simp] theorem longest_append_cons (l : List α) (v : Option β) (c : α → Trie α β) (a : α)
    (r : List α) : (node l v c).longest (l ++ a :: r) =
      match (c a).longest (a :: r) with
      | some (q, d) => some (l ++ q, d)
      | none => v.map (l, ·) := by
  simp [longest]

theorem longest_of_not {l k : List α} (h : ¬ l <+: k) (v : Option β) (c : α → Trie α β) :
    (node l v c).longest k = none := by
  simp [longest, h]

theorem longest_hollow (k : List α) : (hollow : Trie α β).longest k = none := by
  cases k with
  | nil => exact longest_self [] none _
  | cons a r => exact longest_append_cons [] none _ a r

theorem longest_eq_none {t : Trie α β} {k : List α} :
    t.longest k = none → ∀ q, q <+: k → t.lookup q = none := by
  induction t generalizing k with
  | absent => simp
  | node l v c ih =>
    intro h q hq
    by_cases hl : l <+: q
    · obtain ⟨q, rfl⟩ := hl
      obtain ⟨k, rfl⟩ := (List.prefix_append l q).trans hq
      rw [List.prefix_append_right_inj] at hq
      rw [lookup_below]
      cases k with
      | nil =>
        obtain rfl : q = [] := List.prefix_nil.mp hq
        simpa using h
      | cons a r =>
        rw [longest_append_cons] at h
        split at h
        · cases h
        · rename_i hnone
          cases q with
          | nil => simpa using h
          | cons b q =>
            obtain rfl : b = a := (List.cons_prefix_cons.mp hq).1
            exact ih b hnone _ hq
    · exact lookup_of_not hl v c

/-- **The longest bound prefix**: it is a prefix, it is bound, and no longer one is. -/
theorem Canonical.longest_eq_some {t : Trie α β} (ht : t.Canonical) {k q : List α} {d : β}
    (h : t.longest k = some (q, d)) :
    q <+: k ∧ t.lookup q = some d ∧
      ∀ q', q' <+: k → q.length < q'.length → t.lookup q' = none := by
  induction t generalizing k q with
  | absent => simp [longest] at h
  | node l v c ih =>
    by_cases hl : l <+: k
    · obtain ⟨k, rfl⟩ := hl
      -- nothing longer than `l` is bound unless it lies below the letter the key goes on with
      have hlong : ∀ q', q' <+: l ++ k → l.length < q'.length →
          ∃ a r q'', k = a :: r ∧ q' = l ++ a :: q'' ∧ a :: q'' <+: a :: r := by
        intro q' hq' hlen
        obtain ⟨q'', rfl⟩ := List.prefix_of_prefix_length_le (List.prefix_append l k) hq' hlen.le
        rw [List.prefix_append_right_inj] at hq'
        cases q'' with
        | nil => simp at hlen
        | cons b q'' =>
          cases k with
          | nil => simp at hq'
          | cons a r =>
            obtain rfl : b = a := (List.cons_prefix_cons.mp hq').1
            exact ⟨b, r, q'', rfl, rfl, hq'⟩
      have hhere : ∀ (hrest : ∀ a r, k = a :: r → (c a).longest (a :: r) = none)
          (hv : v.map (l, ·) = some (q, d)), q <+: l ++ k ∧ (node l v c).lookup q = some d ∧
            ∀ q', q' <+: l ++ k → q.length < q'.length → (node l v c).lookup q' = none := by
        intro hrest hv
        obtain ⟨d', rfl, hd⟩ := Option.map_eq_some_iff.mp hv
        obtain ⟨rfl, rfl⟩ := Prod.mk.inj hd
        refine ⟨List.prefix_append l k, by simp, fun q' hq' hlen ↦ ?_⟩
        obtain ⟨a, r, q'', rfl, rfl, hq''⟩ := hlong q' hq' hlen
        rw [lookup_append_cons]
        exact longest_eq_none (hrest a r rfl) _ hq''
      cases k with
      | nil => exact hhere (by simp) (by simpa using h)
      | cons a r =>
        rw [longest_append_cons] at h
        split at h
        · rename_i q₁ d₁ h₁
          obtain ⟨rfl, rfl⟩ := Prod.mk.inj (Option.some.inj h)
          obtain ⟨hpre, hlook, hmax⟩ := ih a (ht.1 a) h₁
          cases q₁ with
          | nil =>
            rw [(ht.2.1 a).lookup_eq_none (by simp)] at hlook
            cases hlook
          | cons b q₁ =>
            obtain rfl : b = a := (List.cons_prefix_cons.mp hpre).1
            refine ⟨(List.prefix_append_right_inj l).mpr hpre, by simpa using hlook, ?_⟩
            intro q' hq' hlen
            obtain ⟨a, r', q'', hk, rfl, hq''⟩ := hlong q' hq' (by simp at hlen; omega)
            cases hk
            rw [lookup_append_cons]
            exact hmax _ hq'' (by simpa using hlen)
        · rename_i hnone
          refine hhere (fun a' r' hk ↦ ?_) h
          cases hk
          exact hnone
    · rw [longest_of_not hl] at h
      cases h

end Trie
