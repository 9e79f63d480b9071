import Mst2Codec.Namespace.Radix.FiniteMap

/-!
# Tamper evidence

A store that is not to be trusted may answer every call as it likes.  As every node is checked
against the digest it was asked for, and the root digest is not taken from the store, **the
operations either fail or return what an honest store would** (`tamper_evident`): a node that is
missing or corrupt is an error and never looks like an absent binding.
-/

set_option autoImplicit false

namespace Mst2

open Bytes Except

namespace RadixIndex

variable [Sha256]

/-- The strings of a call occur in the setting. -/
def OccursWithin (T : Setting) : StoreEvent → Prop
  | ⟨.read _, answer⟩ => ∀ b, answer = .ok b → b ∈ T.strings
  | ⟨.insert _ b, _⟩ => b ∈ T.strings

/-- The setting of a store that is not trusted: `held` is what an honest store holds. -/
def untrusted {K : Set Bytes} (hK : CollisionFree K) (hempty : RadixNode.empty.encode ∈ K)
    (held : Digest → Option Bytes) : Setting where
  strings := K
  free := hK
  empty_mem := hempty
  base := heldBytes held
  writable := True
  authentic := False
  reliable := False

section

variable {K : Set Bytes} {hK : CollisionFree K} {hempty : RadixNode.empty.encode ∈ K}
  {held : Digest → Option Bytes} {g : Ghost}

/-- Whatever a store answers is allowed for a store that is not trusted. -/
theorem exists_post_untrusted (r : Request) (a : Answer r)
    (hok : OccursWithin (untrusted hK hempty held) ⟨r, a⟩) :
    ∃ g', (untrusted hK hempty held).spec.post g r a g' := by
  cases r with
  | read id =>
    exact ⟨⟨g.log, g.failed ∨ ¬ Genuine id a⟩, rfl, Iff.rfl, fun b hb _ ↦ hok b hb,
      False.elim, False.elim⟩
  | insert id b =>
    cases a with
    | error e => exact ⟨⟨g.log, True⟩, fun h ↦ h, rfl, trivial⟩
    | ok u => exact ⟨⟨b :: g.log, g.failed⟩, hok, rfl, Iff.rfl⟩

/-- The strings a run over any store deals with. -/
def occurringIn (tr : List StoreEvent) : Set Bytes := insertedIn tr ∪ readIn tr

/-- A run over a store that is not trusted fails or returns a value with the postcondition. -/
theorem run_untrusted {α τ : Type} {p : IndexM α} {Q : α → Ghost → Prop}
    (hp : Gives (untrusted hK hempty held) p .init Q) (H : NodeStore τ) (s : τ)
    (hocc : occurringIn (p.trace H.env s) ⊆ K) :
    (∃ e, (p.run H.env s).1 = .error e) ∨ ∃ a g', (p.run H.env s).1 = .ok a ∧ Q a g' := by
  obtain ⟨g', ⟨-, hx⟩, -, -⟩ := Prog.Ensures.run (fun _ _ ↦ True)
    (OccursWithin (untrusted hK hempty held)) (s := s)
    (fun s g r _ _ hok ↦
      have ⟨g', hpost⟩ := exists_post_untrusted r (H.env.answer r s).1 hok
      ⟨g', hpost, trivial⟩) hp trivial (by
      rintro ⟨r, a⟩ he
      cases r with
      | read id =>
        rintro b rfl
        exact hocc (.inr ⟨id, he⟩)
      | insert id b => exact hocc (.inl ⟨id, a, he⟩))
  cases hrun : (p.run H.env s).1 with
  | error e => exact .inl ⟨e, rfl⟩
  | ok a =>
    rw [hrun] at hx
    exact .inr ⟨a, g', rfl, hx.2⟩

theorem Rooted.represents_untrusted {root : Digest} {t : Trie UInt8 Digest}
    (h : Rooted held root t) (hs : heldBytes held ⊆ K) :
    Represents (untrusted hK hempty held) .init root t :=
  ⟨⟨h.canonical, h.keyed, h.stored.mono fun _ hb ↦ ⟨hs hb, .inl hb⟩⟩, h.root_eq⟩

end

section operations

variable {τ : Type} {K : Set Bytes} {held : Digest → Option Bytes} {root : Digest}
  {t : Trie UInt8 Digest} {path : String}

theorem get_untrusted (hK : CollisionFree K) (hempty : RadixNode.empty.encode ∈ K)
    (hs : heldBytes held ⊆ K) (h : Rooted held root t) (hp : ValidPath path) (H : NodeStore τ)
    (t₀ : τ) (hocc : occurringIn ((get root path).trace H.env t₀) ⊆ K) :
    (∃ e, ((get root path).run H.env t₀).1 = .error e) ∨
      ((get root path).run H.env t₀).1 = .ok (t.lookup (keyOf path)) := by
  have hrep : Represents (untrusted hK hempty held) .init root t := h.represents_untrusted hs
  refine (run_untrusted (gives_get hrep hp) H t₀ hocc).imp_right ?_
  rintro ⟨o, g', ho, -, rfl⟩
  exact ho

theorem longestPrefix_untrusted (hK : CollisionFree K) (hempty : RadixNode.empty.encode ∈ K)
    (hs : heldBytes held ⊆ K) (h : Rooted held root t) (hp : ValidPath path) (H : NodeStore τ)
    (t₀ : τ) (hocc : occurringIn ((longestPrefix root path).trace H.env t₀) ⊆ K) :
    (∃ e, ((longestPrefix root path).run H.env t₀).1 = .error e) ∨
      ∃ o, ((longestPrefix root path).run H.env t₀).1 = .ok o ∧
        FoundAt [] (t.longest (keyOf path)) none o := by
  have hrep : Represents (untrusted hK hempty held) .init root t := h.represents_untrusted hs
  refine (run_untrusted (gives_longestPrefix hrep hp) H t₀ hocc).imp_right ?_
  rintro ⟨o, g', ho, -, hfound⟩
  exact ⟨o, ho, hfound⟩

theorem update_untrusted (hK : CollisionFree K) (hempty : RadixNode.empty.encode ∈ K)
    (hs : heldBytes held ⊆ K) (h : Rooted held root t) (hp : ValidPath path)
    (binding : Option Digest) (H : NodeStore τ) (t₀ : τ)
    (hocc : occurringIn ((update root path binding).trace H.env t₀) ⊆ K) :
    (∃ e, ((update root path binding).run H.env t₀).1 = .error e) ∨
      ((update root path binding).run H.env t₀).1 = .ok (rootId (t.set (keyOf path) binding)) := by
  have hrep : Represents (untrusted hK hempty held) .init root t := h.represents_untrusted hs
  refine (run_untrusted (gives_update trivial hrep hp binding) H t₀ hocc).imp_right ?_
  rintro ⟨r, g', hr, hset, -⟩
  rw [hr, hset.root_eq]

end operations

/-- **Tamper evidence.**  Over any store whatsoever, looking up a path below the root of a map
fails or returns the binding of that path; resolving it fails or returns its longest bound prefix;
and updating it fails or returns the root that the honest store returns. -/
theorem tamper_evident {σ τ : Type} {S : NodeStore σ} {contents : σ → Digest → Option Bytes}
    (hS : S.Honest contents) (s₀ : σ) (haddr : Addressed (contents s₀)) (ops : List Op)
    (hops : ∀ op ∈ ops, ValidPath op.1)
    (hfree : CollisionFree
      (hashedBytes (contents s₀) ((updateAll emptyRoot ops).trace S.env s₀))) :
    ∃ root s, (updateAll emptyRoot ops).run S.env s₀ = (.ok root, s) ∧
      ∀ (H : NodeStore τ) (t₀ : τ) (path : String) (binding : Option Digest), ValidPath path →
        (CollisionFree (hashedBytes (contents s₀) ((updateAll emptyRoot ops).trace S.env s₀) ∪
            occurringIn ((get root path).trace H.env t₀)) →
          (∃ e, ((get root path).run H.env t₀).1 = .error e) ∨
            ((get root path).run H.env t₀).1 = .ok (mapOf ops path)) ∧
        (CollisionFree (hashedBytes (contents s₀) ((updateAll emptyRoot ops).trace S.env s₀) ∪
            occurringIn ((longestPrefix root path).trace H.env t₀)) →
          (∃ e, ((longestPrefix root path).run H.env t₀).1 = .error e) ∨
            ∃ o, ((longestPrefix root path).run H.env t₀).1 = .ok o ∧
              IsLongestPrefix (mapOf ops) path o) ∧
        (CollisionFree (hashedBytes (contents s₀) ((updateAll emptyRoot ops).trace S.env s₀ ++
              (update root path binding).trace S.env s) ∪
            occurringIn ((update root path binding).trace H.env t₀)) →
          ∃ root' s', (update root path binding).run S.env s = (.ok root', s') ∧
            ((∃ e, ((update root path binding).run H.env t₀).1 = .error e) ∨
              ((update root path binding).run H.env t₀).1 = .ok root')) := by
  obtain ⟨root, s, t, hrun, hs, hroot, hM⟩ := updateAll_run hS hfree (empty_mem_hashedBytes _ _)
    hops (within_hashedBytes haddr _) (rooted_empty _) maps_absent
    (insertedIn_subset_hashedBytes _ _)
  refine ⟨root, s, hrun, fun H t₀ path binding hp ↦ ⟨fun hfree' ↦ ?_, fun hfree' ↦ ?_,
    fun hfree' ↦ ?_⟩⟩
  · rw [show mapOf ops path = t.lookup (keyOf path) from (hM.lookup_eq path hp).symm]
    exact get_untrusted hfree' (.inl (empty_mem_hashedBytes _ _))
      (hs.subset.trans Set.subset_union_left) hroot hp H t₀ Set.subset_union_right
  · refine (longestPrefix_untrusted hfree' (.inl (empty_mem_hashedBytes _ _))
      (hs.subset.trans Set.subset_union_left) hroot hp H t₀ Set.subset_union_right).imp_right ?_
    rintro ⟨o, ho, hfound⟩
    exact ⟨o, ho, hM.isLongestPrefix hroot.canonical hp hfound⟩
  · obtain ⟨root', s', hrun', -, hroot', -⟩ := update_eq_ok hS (hfree'.mono Set.subset_union_left)
      (empty_mem_hashedBytes _ _) (hs.mono (hashedBytes_mono _ _ _)) hroot hp binding
      (insertedIn_right_subset_hashedBytes _ _ _)
    refine ⟨root', s', hrun', ?_⟩
    rw [hroot'.root_eq]
    exact update_untrusted hfree' (.inl (empty_mem_hashedBytes _ _))
      ((hs.subset.trans (hashedBytes_mono _ _ _)).trans Set.subset_union_left) hroot hp binding H
      t₀ Set.subset_union_right

omit [Sha256] in
/-- A run over any store that reads and inserts only strings of the table. -/
theorem occurringIn_subset_library {tr : List StoreEvent}
    (hins : ∀ b ∈ inserts tr, b ∈ libraryStrings) (hread : ∀ b ∈ reads tr, b ∈ libraryStrings) :
    occurringIn tr ⊆ {b | b ∈ libraryStrings} := by
  rintro b (⟨id, a, hmem⟩ | ⟨id, hmem⟩)
  · exact hins b (List.mem_filterMap.mpr ⟨_, hmem, rfl⟩)
  · exact hread b (List.mem_filterMap.mpr ⟨_, hmem, rfl⟩)

omit [Sha256] in
/-- Over a store that has lost every node, `/x/lib` is not reported as unbound. -/
theorem tamper_evident_library :
    letI := librarySha256
    ∃ root s,
      (updateAll emptyRoot libraryOps).run (MemoryStore.store none).env .default = (.ok root, s) ∧
      ((get root "/x/lib").run (MemoryStore.store none).env .default).1 ≠ .ok none := by
  let _ := librarySha256
  obtain ⟨root, s, hrun, h⟩ := @tamper_evident _ _ MemoryStore _ _
    MemoryStore.honest .default (fun _ _ h ↦ by cases h) libraryOps (by decide)
    collisionFree_libraryOps
  obtain rfl := Except.ok.inj ((congrArg Prod.fst hrun).symm.trans updateAll_libraryOps)
  refine ⟨_, s, hrun, ?_⟩
  rcases (h (MemoryStore.store none) .default "/x/lib" none (by decide)).1
    (collisionFree_library.mono (Set.union_subset
      (hashedBytes_subset_library (by decide +kernel))
      (occurringIn_subset_library (by decide +kernel) (by decide +kernel)))) with ⟨e, he⟩ | hok
  · rw [he]
    simp
  · rw [hok]
    decide

end RadixIndex

end Mst2
