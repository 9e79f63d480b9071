import Mst2Codec.Library.Forks
import Mst2Codec.Library.Trie

/-!
# The nodes of a trie

A node stands at the key that ends with its label (`Trie.At`).  The keys of a canonical trie fork
there (`At.fork`) and no two nodes stand at the same place (`At.unique`), so a trie with keys has
fewer than twice as many nodes (`ncard_at_lt`).
-/

set_option autoImplicit false

open Lex

namespace Trie

variable {α β : Type} {t u u' : Trie α β} {l p : List α} {v : Option β} {c : α → Trie α β} {a : α}

/-- The node `u` stands at `p`. -/
inductive At : Trie α β → List α → Trie α β → Prop where
  /-- The root stands at its label. -/
  | here (l : List α) (v : Option β) (c : α → Trie α β) : At (node l v c) l (node l v c)
  /-- The others stand below a child. -/
  | child {l p : List α} {v : Option β} {c : α → Trie α β} {a : α} {u : Trie α β}
      (h : At (c a) p u) : At (node l v c) (l ++ p) u

theorem not_at_absent : ¬ At (absent : Trie α β) p u := nofun

/-- What stands in a trie: its root, and what stands in the children. -/
theorem at_node : At (node l v c) p u ↔
    p = l ∧ u = node l v c ∨ ∃ a q, p = l ++ q ∧ At (c a) q u := by
  constructor
  · intro h
    cases h with
    | here => exact .inl ⟨rfl, rfl⟩
    | child h => exact .inr ⟨_, _, rfl, h⟩
  · rintro (⟨rfl, rfl⟩ | ⟨a, q, rfl, h⟩)
    · exact .here p v c
    · exact .child h

/-- The letters of the children are met on the way. -/
theorem At.head?_eq (h : At t p u) (hs : t.Starts a) : p.head? = some a := by
  induction h with
  | here l v c => exact hs
  | child h ih =>
    rw [List.head?_append, show _ = some a from hs]
    rfl

theorem At.canonical (h : At t p u) (ht : t.Canonical) : u.Canonical := by
  induction h with
  | here l v c => exact ht
  | child h ih => exact ih (ht.1 _)

/-- Two nodes do not stand at the same place. -/
theorem At.unique (h : At t p u) (h' : At t p u') (ht : t.Canonical) : u = u' := by
  induction t generalizing p u u' with
  | absent => exact absurd h not_at_absent
  | node l v c ih =>
    -- a child stands behind the label
    have hne : ∀ {a q u}, At (c a) q u → l ≠ l ++ q := by
      intro a q u hq heq
      have hhead := hq.head?_eq (ht.2.1 a)
      rw [List.self_eq_append_right.mp heq] at hhead
      cases hhead
    rcases at_node.mp h with ⟨rfl, rfl⟩ | ⟨a, q, rfl, hq⟩
    · rcases at_node.mp h' with ⟨-, rfl⟩ | ⟨b, q', heq, hq'⟩
      · rfl
      · exact absurd heq (hne hq')
    · rcases at_node.mp h' with ⟨heq, -⟩ | ⟨b, q', heq, hq'⟩
      · exact absurd heq.symm (hne hq)
      · obtain rfl := List.append_cancel_left heq
        have hab := (hq.head?_eq (ht.2.1 a)).symm.trans (hq'.head?_eq (ht.2.1 b))
        obtain rfl := Option.some.inj hab
        exact ih a hq hq' (ht.1 a)

/-- The places of a trie with finitely many letters. -/
theorem finite_at [Finite α] (t : Trie α β) : {p | ∃ u, At t p u}.Finite := by
  induction t with
  | absent =>
    refine Set.finite_empty.subset ?_
    rintro p ⟨u, h⟩
    exact not_at_absent h
  | node l v c ih =>
    refine ((Set.finite_singleton l).union
      (Set.finite_iUnion fun a ↦ (ih a).image (l ++ ·))).subset ?_
    rintro p ⟨u, h⟩
    rcases at_node.mp h with ⟨rfl, -⟩ | ⟨a, q, rfl, hq⟩
    · exact .inl rfl
    · exact .inr (Set.mem_iUnion.mpr ⟨a, q, ⟨u, hq⟩, rfl⟩)

variable [DecidableEq α]

/-- The keys of a trie with finitely many letters. -/
theorem finite_keys [Finite α] (t : Trie α β) : {k | ∃ d, t.lookup k = some d}.Finite := by
  induction t with
  | absent =>
    refine Set.finite_empty.subset ?_
    rintro k ⟨d, h⟩
    cases h
  | node l v c ih =>
    refine ((Set.finite_singleton l).union
      (Set.finite_iUnion fun a ↦ (ih a).image (l ++ ·))).subset ?_
    rintro k ⟨d, h⟩
    by_cases hl : l <+: k
    · obtain ⟨r, rfl⟩ := hl
      cases r with
      | nil => exact .inl (List.append_nil l)
      | cons a r =>
        rw [lookup_append_cons] at h
        exact .inr (Set.mem_iUnion.mpr ⟨a, a :: r, ⟨d, h⟩, rfl⟩)
    · rw [lookup_of_not hl] at h
      cases h

/-- What is bound behind a place is bound in the node. -/
theorem At.exists_lookup (h : At t p u) (ht : t.Canonical) :
    ∃ l v c, u = node l v c ∧ ∀ r, t.lookup (p ++ r) = u.lookup (l ++ r) := by
  induction h with
  | here l v c => exact ⟨l, v, c, rfl, fun r ↦ rfl⟩
  | @child l p v c a u h ih =>
    obtain ⟨m, w, e, hu, hlookup⟩ := ih (ht.1 a)
    refine ⟨m, w, e, hu, fun r ↦ ?_⟩
    have hhead := h.head?_eq (ht.2.1 a)
    cases p with
    | nil => cases hhead
    | cons b p =>
      obtain rfl := Option.some.inj hhead
      rw [List.append_assoc, List.cons_append, lookup_append_cons]
      exact hlookup r

/-- **The keys fork at every node.** -/
theorem At.fork (h : At t p u) (ht : t.Canonical) {W : Finset (List α)}
    (hW : ∀ k d, t.lookup k = some d → k ∈ W) : Fork W p := by
  obtain ⟨l, v, c, rfl, hlookup⟩ := h.exists_lookup ht
  have hu := h.canonical ht
  cases v with
  | some d =>
    refine .inl (hW p d ?_)
    have hself := hlookup []
    rwa [List.append_nil, List.append_nil, lookup_self] at hself
  | none =>
    obtain ⟨a, b, hab, ha, hb⟩ := hu.2.2 rfl
    have hkey : ∀ {a}, c a ≠ absent → ∃ k ∈ W, p ++ [a] <+: k := by
      intro a ha
      obtain ⟨r, d, hr⟩ := hu.exists_lookup_child ha
      exact ⟨p ++ a :: r, hW _ d ((hlookup _).trans hr), r, by simp⟩
    exact .inr ⟨a, b, hab, hkey ha, hkey hb⟩

/-- **A canonical trie with keys has fewer than twice as many nodes.** -/
theorem ncard_at_lt [Finite α] (ht : t.Canonical) (hne : t ≠ absent) :
    {p | ∃ u, At t p u}.ncard < 2 * {k | ∃ d, t.lookup k = some d}.ncard := by
  rw [Set.ncard_eq_toFinset_card _ (finite_at t), Set.ncard_eq_toFinset_card _ (finite_keys t)]
  have hkeys : (finite_keys t).toFinset.Nonempty := by
    obtain ⟨k, d, hk⟩ := ht.exists_lookup hne
    exact ⟨k, (Set.Finite.mem_toFinset _).mpr ⟨d, hk⟩⟩
  refine card_lt_of_forks hkeys _ fun p hp ↦ ?_
  obtain ⟨u, hu⟩ := (Set.Finite.mem_toFinset _).mp hp
  exact hu.fork ht fun k d hk ↦ (Set.Finite.mem_toFinset _).mpr ⟨d, hk⟩

end Trie
