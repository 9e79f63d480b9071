import Mst2Codec.Namespace.Radix.Lookup

/-!
# Stores and what they guarantee

The trait `NodeStore` asks its implementations to insert immutable bytes.  For a store whose state
holds `contents`, `Immutable` says that a call succeeds as the contents say or fails and leaves
them; `Honest` adds that calls do not fail.  Both leave open what an insert does if the store
already holds other bytes under that digest, which a collision-free run never tries.

`update_run`, `get_run` and `longestPrefix_run` are the results of the previous modules in terms of
such stores: what a run returns, and what the store holds afterwards.  Collisions are excluded
among the strings of a set that the store stays within.
-/

set_option autoImplicit false

namespace Mst2

open Bytes Except

open Prog (Steps)

/-! ## Contents -/

variable {σ : Type}

/-- The contents have room for these bytes under this digest. -/
def Fits (held : Option Bytes) (bytes : Bytes) : Prop := held = none ∨ held = some bytes

/-- A content-addressed store whose calls take effect or fail. -/
structure NodeStore.Immutable (S : NodeStore σ) (contents : σ → Digest → Option Bytes) :
    Prop where
  /-- A read changes nothing. -/
  read_contents : ∀ s id, contents (S.read s id).2 = contents s
  /-- A read that succeeds returns what is held. -/
  read_ok : ∀ s id bytes, (S.read s id).1 = .ok bytes → contents s id = some bytes
  /-- An insert that succeeds adds the bytes. -/
  insert_ok : ∀ s id bytes, Fits (contents s id) bytes → (S.insert s id bytes).1 = .ok () →
    contents (S.insert s id bytes).2 = Function.update (contents s) id (some bytes)
  /-- An insert that fails changes nothing. -/
  insert_error : ∀ s id bytes e, (S.insert s id bytes).1 = .error e →
    contents (S.insert s id bytes).2 = contents s

/-- A store whose calls do not fail. -/
structure NodeStore.Honest (S : NodeStore σ) (contents : σ → Digest → Option Bytes) : Prop
    extends S.Immutable contents where
  /-- What is held can be read. -/
  read_held : ∀ s id bytes, contents s id = some bytes → (S.read s id).1 = .ok bytes
  /-- What fits can be inserted. -/
  insert_succeeds : ∀ s id bytes, Fits (contents s id) bytes → (S.insert s id bytes).1 = .ok ()

/-- The bytes a store holds. -/
def heldBytes (held : Digest → Option Bytes) : Set Bytes := {b | ∃ id, held id = some b}

/-- Everything is held under its digest. -/
def Addressed [Sha256] (held : Digest → Option Bytes) : Prop :=
  ∀ id b, held id = some b → sha256 b = id

/-! ## Traces -/

/-- A call of a store method, with what it returned. -/
abbrev StoreEvent := Event Request Answer

/-- The call returned an error. -/
def Failed : StoreEvent → Prop
  | ⟨.read _, answer⟩ => ∃ e, answer = .error e
  | ⟨.insert _ _, answer⟩ => ∃ e, answer = .error e

instance : DecidablePred Failed
  | ⟨.read _, .ok _⟩ => isFalse fun ⟨_, h⟩ ↦ by cases h
  | ⟨.read _, .error e⟩ => isTrue ⟨e, rfl⟩
  | ⟨.insert _ _, .ok _⟩ => isFalse fun ⟨_, h⟩ ↦ by cases h
  | ⟨.insert _ _, .error e⟩ => isTrue ⟨e, rfl⟩

/-- The bytes the calls tried to insert. -/
def insertedIn (tr : List StoreEvent) : Set Bytes := {b | ∃ id a, ⟨.insert id b, a⟩ ∈ tr}

/-- The bytes the calls have read. -/
def readIn (tr : List StoreEvent) : Set Bytes := {b | ∃ id, ⟨.read id, .ok b⟩ ∈ tr}

theorem insertedIn_append (tr tr' : List StoreEvent) :
    insertedIn (tr ++ tr') = insertedIn tr ∪ insertedIn tr' := by
  ext b
  simp only [insertedIn, List.mem_append, Set.mem_ofPred_eq, Set.mem_union]
  constructor
  · rintro ⟨id, a, h | h⟩
    · exact .inl ⟨id, a, h⟩
    · exact .inr ⟨id, a, h⟩
  · rintro (⟨id, a, h⟩ | ⟨id, a, h⟩)
    · exact ⟨id, a, .inl h⟩
    · exact ⟨id, a, .inr h⟩

namespace RadixIndex

/-- The strings that must not collide: those the store holds from the start, those that were
inserted, and the empty node. -/
def hashedBytes (held : Digest → Option Bytes) (tr : List StoreEvent) : Set Bytes :=
  insert RadixNode.empty.encode (heldBytes held ∪ insertedIn tr)

theorem empty_mem_hashedBytes (held : Digest → Option Bytes) (tr : List StoreEvent) :
    RadixNode.empty.encode ∈ hashedBytes held tr := .inl rfl

theorem insertedIn_subset_hashedBytes (held : Digest → Option Bytes) (tr : List StoreEvent) :
    insertedIn tr ⊆ hashedBytes held tr := fun _ hb ↦ .inr (.inr hb)

theorem hashedBytes_mono (held : Digest → Option Bytes) (tr tr' : List StoreEvent) :
    hashedBytes held tr ⊆ hashedBytes held (tr ++ tr') := by
  rw [hashedBytes, hashedBytes, insertedIn_append]
  exact Set.insert_subset_insert (Set.union_subset_union_right _ Set.subset_union_left)

theorem insertedIn_right_subset_hashedBytes (held : Digest → Option Bytes)
    (tr tr' : List StoreEvent) : insertedIn tr' ⊆ hashedBytes held (tr ++ tr') := by
  rw [hashedBytes, insertedIn_append]
  exact fun _ hb ↦ .inr (.inr (.inr hb))

variable [Sha256] {T : Setting} {contents : σ → Digest → Option Bytes} {s : σ} {g : Ghost}

/-- The store holds what the setting says, and nothing but strings of the setting. -/
structure Matches (T : Setting) (held : Digest → Option Bytes) (g : Ghost) : Prop where
  /-- Known strings are held. -/
  has : ∀ b, b ∈ T.base ∨ b ∈ g.log → held (sha256 b) = some b
  /-- Held strings are those of the setting, under their digests. -/
  mem : ∀ id b, held id = some b → b ∈ T.strings ∧ sha256 b = id

/-- Only strings of the setting are inserted. -/
def InsertsWithin (T : Setting) (e : StoreEvent) : Prop :=
  T.writable → ∀ id b a, e = ⟨.insert id b, a⟩ → b ∈ T.strings

/-- **A content-addressed store behaves as its setting says.** -/
theorem simulates {S : NodeStore σ} (hS : S.Immutable contents)
    (hrel : T.reliable → S.Honest contents) (r : Request) (hm : Matches T (contents s) g)
    (hpre : T.spec.pre g r) (hok : InsertsWithin T ⟨r, (S.env.answer r s).1⟩) :
    ∃ g', T.spec.post g r (S.env.answer r s).1 g' ∧
      Matches T (contents (S.env.answer r s).2) g' := by
  cases r with
  | read id =>
    refine ⟨⟨g.log, g.failed ∨ ¬ Genuine id (S.read s id).1⟩, ⟨rfl, Iff.rfl, ?_, ?_, ?_⟩, ?_⟩
    · exact fun b hb _ ↦ (hm.mem id b (hS.read_ok s id b hb)).1
    · exact fun _ b hb ↦ (hm.mem id b (hS.read_ok s id b hb)).2
    · rintro hreliable b hb rfl
      exact (hrel hreliable).read_held s _ b (hm.has b hb.2)
    · show Matches T (contents (S.read s id).2) _
      rw [hS.read_contents]
      exact ⟨hm.has, hm.mem⟩
  | insert id bytes =>
    obtain ⟨hw, rfl⟩ := hpre
    have hbytes : bytes ∈ T.strings := hok hw _ bytes _ rfl
    have hfits : Fits (contents s (sha256 bytes)) bytes := by
      cases hheld : contents s (sha256 bytes) with
      | none => exact .inl rfl
      | some b =>
        obtain ⟨hb, hdigest⟩ := hm.mem _ b hheld
        exact .inr (congrArg some (T.free hb hbytes hdigest))
    show ∃ g', T.spec.post g (.insert (sha256 bytes) bytes)
        (S.insert s (sha256 bytes) bytes).1 g' ∧
      Matches T (contents (S.insert s (sha256 bytes) bytes).2) g'
    cases hanswer : (S.insert s (sha256 bytes) bytes).1 with
    | error e =>
      refine ⟨⟨g.log, True⟩, ⟨fun hreliable ↦ ?_, rfl, trivial⟩, ?_⟩
      · rw [(hrel hreliable).insert_succeeds s _ bytes hfits] at hanswer
        cases hanswer
      · rw [hS.insert_error s _ bytes e hanswer]
        exact ⟨hm.has, hm.mem⟩
    | ok u =>
      refine ⟨⟨bytes :: g.log, g.failed⟩, ⟨hbytes, rfl, Iff.rfl⟩, ?_⟩
      rw [hS.insert_ok s _ bytes hfits hanswer]
      constructor
      · intro b hb
        by_cases hdigest : sha256 b = sha256 bytes
        · rcases hb with hb | hb
          · rw [T.free (hm.mem _ b (hm.has b (.inl hb))).1 hbytes hdigest, Function.update_self]
          · rcases List.mem_cons.mp hb with rfl | hb
            · rw [Function.update_self]
            · rw [T.free (hm.mem _ b (hm.has b (.inr hb))).1 hbytes hdigest, Function.update_self]
        · rw [Function.update_of_ne hdigest]
          refine hm.has b (hb.imp_right fun hb ↦ ?_)
          exact List.mem_of_ne_of_mem (fun h ↦ hdigest (congrArg sha256 h)) hb
      · intro id b hb
        by_cases hid : id = sha256 bytes
        · subst hid
          rw [Function.update_self, Option.some.injEq] at hb
          exact hb ▸ ⟨hbytes, rfl⟩
        · rw [Function.update_of_ne hid] at hb
          exact hm.mem id b hb

/-! ## What a list of calls amounts to -/

section steps

variable {g g' : Ghost} {tr : List StoreEvent}

theorem post_mono {r : Request} {a : Answer r} (h : T.spec.post g r a g') :
    g.log.length ≤ g'.log.length ∧ (g.failed → g'.failed) := by
  cases r with
  | read id =>
    obtain ⟨hlog, hfailed, -⟩ := h
    exact ⟨by rw [hlog], fun h ↦ hfailed.mpr (.inl h)⟩
  | insert id b =>
    cases a with
    | error e =>
      obtain ⟨-, hlog, hfailed⟩ := h
      exact ⟨by rw [hlog], fun _ ↦ hfailed⟩
    | ok u =>
      obtain ⟨-, hlog, hfailed⟩ := h
      exact ⟨by rw [hlog]; simp, hfailed.mpr⟩

theorem steps_mono (h : Steps T.spec g tr g') :
    g.log.length ≤ g'.log.length ∧ (g.failed → g'.failed) := by
  induction h with
  | nil => exact ⟨le_rfl, fun h ↦ h⟩
  | cons hstep _ ih => exact ⟨(post_mono hstep).1.trans ih.1, fun h ↦ ih.2 ((post_mono hstep).2 h)⟩

/-- In an authentic setting, a run has failed exactly if a call has returned an error. -/
theorem failed_of_steps (hauth : T.authentic) (h : Steps T.spec g tr g') :
    g'.failed ↔ g.failed ∨ ∃ e ∈ tr, Failed e := by
  induction h with
  | nil => simp
  | @cons g g₁ g' r a tr hstep _ ih =>
    simp only [ih, List.mem_cons, exists_eq_or_imp, ← or_assoc]
    refine or_congr_left ?_
    cases r with
    | read id =>
      obtain ⟨-, hfailed, -, hgenuine, -⟩ := hstep
      rw [hfailed]
      refine or_congr_right ?_
      cases a with
      | error e => simp [Failed, Genuine]
      | ok b => simpa [Failed, Genuine] using hgenuine hauth b rfl
    | insert id b =>
      cases a with
      | error e => simpa [Failed] using hstep.2.2
      | ok u => simpa [Failed] using hstep.2.2

/-- A run that has not failed and has inserted nothing has not tried to. -/
theorem insertedIn_of_steps (h : Steps T.spec g tr g') (hlog : g'.log = g.log)
    (hfailed : ¬ g'.failed) : insertedIn tr = ∅ := by
  rw [Set.eq_empty_iff_forall_notMem]
  rintro b ⟨id, answer, hmem⟩
  have hlen : g'.log.length = g.log.length := by rw [hlog]
  clear hlog
  induction h with
  | nil => cases hmem
  | @cons g g₁ g' r a tr hstep htail ih =>
    have hstep' := post_mono hstep
    have htail' := steps_mono htail
    rcases List.mem_cons.mp hmem with heq | hmem
    · cases heq
      cases answer with
      | error e => exact hfailed (htail'.2 hstep.2.2)
      | ok u =>
        have := congrArg List.length hstep.2.1
        rw [List.length_cons] at this
        omega
    · exact ih hfailed hmem (by omega)

end steps

/-! ## Runs over a content-addressed store -/

/-- The strings a store holds are held under their digests and belong to `K`. -/
structure Within (K : Set Bytes) (held : Digest → Option Bytes) : Prop where
  /-- Everything is held under its digest. -/
  addressed : Addressed held
  /-- The strings belong to `K`. -/
  subset : heldBytes held ⊆ K

theorem Within.mono {K K' : Set Bytes} {held : Digest → Option Bytes} (h : Within K held)
    (hK : K ⊆ K') : Within K' held := ⟨h.addressed, h.subset.trans hK⟩

theorem within_hashedBytes {held : Digest → Option Bytes} (haddr : Addressed held)
    (tr : List StoreEvent) : Within (hashedBytes held tr) held :=
  ⟨haddr, fun _ hb ↦ .inr (.inl hb)⟩

/-- The store holds the canonical trie `t`, and `root` is its root. -/
structure Rooted (held : Digest → Option Bytes) (root : Digest) (t : Trie UInt8 Digest) : Prop where
  /-- The trie is compressed. -/
  canonical : t.Canonical
  /-- Its keys are keys of valid paths. -/
  keyed : Keyed [] t
  /-- Its nodes are held. -/
  stored : Stored (heldBytes held) t
  /-- The root digest. -/
  root_eq : root = rootId t

theorem rooted_empty (held : Digest → Option Bytes) : Rooted held emptyRoot .absent :=
  ⟨trivial, fun _ _ h ↦ (by cases h), trivial, rfl⟩

theorem Rooted.mono {held held' : Digest → Option Bytes} {root : Digest} {t : Trie UInt8 Digest}
    (h : Rooted held root t) (hle : heldBytes held ⊆ heldBytes held') : Rooted held' root t :=
  ⟨h.canonical, h.keyed, h.stored.mono hle, h.root_eq⟩

section runs

variable {S : NodeStore σ} {K : Set Bytes} {root : Digest} {t : Trie UInt8 Digest} {path : String}

/-- The setting of a store that holds `held`, within `K`. -/
def settingFor (hK : CollisionFree K) (hempty : RadixNode.empty.encode ∈ K)
    (held : Digest → Option Bytes) (writable reliable : Prop) : Setting where
  strings := K
  free := hK
  empty_mem := hempty
  base := heldBytes held
  writable := writable
  authentic := True
  reliable := reliable

theorem matches_init (hK : CollisionFree K) (hempty : RadixNode.empty.encode ∈ K)
    {held : Digest → Option Bytes} (hs : Within K held) (w r : Prop) :
    Matches (settingFor hK hempty held w r) held .init := by
  refine ⟨?_, fun id b hb ↦ ⟨hs.subset ⟨id, hb⟩, hs.addressed id b hb⟩⟩
  rintro b (⟨id, hid⟩ | h)
  · rwa [hs.addressed id b hid]
  · cases h

theorem Rooted.represents (hK : CollisionFree K) (hempty : RadixNode.empty.encode ∈ K)
    {held : Digest → Option Bytes} (hs : Within K held) (h : Rooted held root t) (w r : Prop) :
    Represents (settingFor hK hempty held w r) .init root t :=
  ⟨⟨h.canonical, h.keyed, h.stored.mono fun _ hb ↦ ⟨hs.subset hb, .inl hb⟩⟩, h.root_eq⟩

/-- What a triple says about a run: the store stays within `K` and loses nothing; the run returns a
value with the postcondition, or a call has failed, which an honest store excludes. -/
theorem run_of_gives {α : Type} (hS : S.Immutable contents) (hK : CollisionFree K)
    (hempty : RadixNode.empty.encode ∈ K) (hs : Within K (contents s)) {w : Prop} {p : IndexM α}
    {Q : α → Ghost → Prop}
    (hp : Gives (settingFor hK hempty (contents s) w (S.Honest contents)) p .init Q)
    (hins : w → insertedIn (p.trace S.env s) ⊆ K) :
    Within K (contents (p.run S.env s).2) ∧
      heldBytes (contents s) ⊆ heldBytes (contents (p.run S.env s).2) ∧
      ∃ g', (settingFor hK hempty (contents s) w (S.Honest contents)).held g' ⊆
          heldBytes (contents (p.run S.env s).2) ∧
        (∀ e, (p.run S.env s).1 = .error e →
          ¬ S.Honest contents ∧ ∃ e ∈ p.trace S.env s, Failed e) ∧
        ∀ a, (p.run S.env s).1 = .ok a → (∀ e ∈ p.trace S.env s, ¬ Failed e) ∧ Q a g' ∧
          (g' = .init → insertedIn (p.trace S.env s) = ∅) := by
  obtain ⟨g', ⟨hle, hx⟩, hm, hsteps⟩ := Prog.Ensures.run
    (fun s g ↦ Matches (settingFor hK hempty (contents _) w (S.Honest contents))
      (contents s) g) (InsertsWithin (settingFor hK hempty (contents _) w _))
    (fun s g r hm hpre hok ↦ simulates hS id r hm hpre hok) hp
    (matches_init hK hempty hs w (S.Honest contents)) (by
      rintro e he hw id b a rfl
      exact hins hw ⟨id, a, he⟩)
  have hfailed := failed_of_steps trivial hsteps
  rw [show Ghost.init.failed = False from rfl, false_or] at hfailed
  have hheld : (settingFor hK hempty (contents s) w (S.Honest contents)).held g' ⊆
      heldBytes (contents (p.run S.env s).2) := fun b hb ↦ ⟨_, hm.has b hb.2⟩
  refine ⟨⟨fun id b hb ↦ (hm.mem id b hb).2, ?_⟩, ?_, g', hheld, ?_, ?_⟩
  · rintro b ⟨id, hid⟩
    exact (hm.mem id b hid).1
  · exact fun b hb ↦ hheld ⟨hs.subset hb, .inl hb⟩
  · intro e he
    rw [he] at hx
    exact ⟨hx.1, hfailed.mp hx.2⟩
  · intro a ha
    rw [ha] at hx
    have hno : ¬ g'.failed := fun h ↦ (hx.1.mp h).elim
    refine ⟨fun e he hfail ↦ hno (hfailed.mpr ⟨e, he, hfail⟩), hx.2, fun hinit ↦ ?_⟩
    exact insertedIn_of_steps hsteps (by rw [hinit]) hno

/-- **A run of `update`.** -/
theorem update_run (hS : S.Immutable contents) (hK : CollisionFree K)
    (hempty : RadixNode.empty.encode ∈ K) (hs : Within K (contents s))
    (h : Rooted (contents s) root t) (hp : ValidPath path) (binding : Option Digest)
    (hins : insertedIn ((update root path binding).trace S.env s) ⊆ K) :
    Within K (contents ((update root path binding).run S.env s).2) ∧
      heldBytes (contents s) ⊆ heldBytes (contents ((update root path binding).run S.env s).2) ∧
      (∀ e, ((update root path binding).run S.env s).1 = .error e →
        ¬ S.Honest contents ∧ ∃ e ∈ (update root path binding).trace S.env s, Failed e) ∧
      ∀ root', ((update root path binding).run S.env s).1 = .ok root' →
        (∀ e ∈ (update root path binding).trace S.env s, ¬ Failed e) ∧
        Rooted (contents ((update root path binding).run S.env s).2) root'
          (t.set (keyOf path) binding) ∧
        (t.lookup (keyOf path) = binding →
          root' = root ∧ insertedIn ((update root path binding).trace S.env s) = ∅) := by
  obtain ⟨hs', hle, g', hheld, herr, hok⟩ := run_of_gives (w := True) hS hK hempty hs
    (gives_update trivial (h.represents hK hempty hs True _) hp binding) fun _ ↦ hins
  refine ⟨hs', hle, herr, fun root' hroot' ↦ ?_⟩
  obtain ⟨hno, ⟨hrep, hsame⟩, hinserted⟩ := hok root' hroot'
  refine ⟨hno, ⟨hrep.canonical, hrep.keyed, hrep.stored.mono hheld, hrep.root_eq⟩, fun heq ↦ ?_⟩
  exact ⟨(hsame heq).1, hinserted (hsame heq).2⟩

/-- **A run of `get`.** -/
theorem get_run (hS : S.Immutable contents) (hK : CollisionFree K)
    (hempty : RadixNode.empty.encode ∈ K) (hs : Within K (contents s))
    (h : Rooted (contents s) root t) (hp : ValidPath path) :
    (∀ e, ((get root path).run S.env s).1 = .error e →
        ¬ S.Honest contents ∧ ∃ e ∈ (get root path).trace S.env s, Failed e) ∧
      ∀ o, ((get root path).run S.env s).1 = .ok o →
        (∀ e ∈ (get root path).trace S.env s, ¬ Failed e) ∧ o = t.lookup (keyOf path) := by
  obtain ⟨-, -, g', -, herr, hok⟩ := run_of_gives (w := False) hS hK hempty hs
    (gives_get (h.represents hK hempty hs False _) hp) False.elim
  exact ⟨herr, fun o ho ↦ ⟨(hok o ho).1, (hok o ho).2.1.2⟩⟩

/-- **A run of `longestPrefix`.** -/
theorem longestPrefix_run (hS : S.Immutable contents) (hK : CollisionFree K)
    (hempty : RadixNode.empty.encode ∈ K) (hs : Within K (contents s))
    (h : Rooted (contents s) root t) (hp : ValidPath path) :
    (∀ e, ((longestPrefix root path).run S.env s).1 = .error e →
        ¬ S.Honest contents ∧ ∃ e ∈ (longestPrefix root path).trace S.env s, Failed e) ∧
      ∀ o, ((longestPrefix root path).run S.env s).1 = .ok o →
        (∀ e ∈ (longestPrefix root path).trace S.env s, ¬ Failed e) ∧
        FoundAt [] (t.longest (keyOf path)) none o := by
  obtain ⟨-, -, g', -, herr, hok⟩ := run_of_gives (w := False) hS hK hempty hs
    (gives_longestPrefix (h.represents hK hempty hs False _) hp) False.elim
  exact ⟨herr, fun o ho ↦ ⟨(hok o ho).1, (hok o ho).2.1.2⟩⟩

end runs

end RadixIndex

end Mst2
