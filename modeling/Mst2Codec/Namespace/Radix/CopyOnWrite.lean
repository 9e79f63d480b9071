import Mst2Codec.Namespace.Radix.Bounds
import Mst2Codec.Namespace.Radix.FiniteMap
import Mst2Codec.Namespace.Radix.Sharing

/-!
# Copy on write

What an update inserts belongs to its saves (`insertions_update`), so there is one insert at most
for each of them, of a node that decodes again and stands at a prefix of the key.  Below the new
root no child digest occurs but those below the old root and those of the inserted nodes
(`childBelow_update`).  `update_copies_path` puts this together for the roots that updates reach
over an honest store.
-/

set_option autoImplicit false

namespace Mst2

open Bytes Except

open Prog (Steps)

namespace RadixIndex

variable [Sha256] {σ : Type}

/-! ## Inserts and saves -/

/-- The digest and the bytes of an insert. -/
def insertion : StoreEvent → Option (Digest × Bytes)
  | ⟨.insert id b, _⟩ => some (id, b)
  | ⟨.read _, _⟩ => none

/-- The inserts of a run. -/
def insertions (tr : List StoreEvent) : List (Digest × Bytes) := tr.filterMap insertion

/-- The insert that a call of the index is. -/
def callInsertion : CallEvent → Option (Digest × Bytes)
  | ⟨.store r, a⟩ => insertion ⟨r, a⟩
  | ⟨.load _ _ _, _⟩ => none
  | ⟨.save _ _, _⟩ => none

/-- `save` at this prefix makes the insert, after one load at most. -/
def InsertedAt (tr : List CallEvent) (pre : Bytes) (i : Digest × Bytes) : Prop :=
  ∃ node before loads after x, tr = before ++ ⟨.save node pre, ()⟩ ::
    (loads ++ ⟨.store (.insert i.1 i.2), x⟩ :: after) ∧ OneLoad loads

/-- The number of loads before the first save. -/
def descentLength (tr : List CallEvent) : ℕ :=
  (tr.takeWhile fun
    | ⟨.load _ _ _, _⟩ => true
    | ⟨.save _ _, _⟩ => false
    | ⟨.store _, _⟩ => false).length

omit [Sha256] in
theorem mem_insertions {tr : List StoreEvent} {i : Digest × Bytes} :
    i ∈ insertions tr ↔ ∃ a, (⟨.insert i.1 i.2, a⟩ : StoreEvent) ∈ tr := by
  rw [insertions, List.mem_filterMap]
  constructor
  · rintro ⟨⟨r, a⟩, hmem, hi⟩
    cases r with
    | read id => cases hi
    | insert id b =>
      obtain rfl := Option.some.inj hi
      exact ⟨a, hmem⟩
  · rintro ⟨a, hmem⟩
    exact ⟨_, hmem, rfl⟩

omit [Sha256] in
theorem insertions_eq_nil {tr : List StoreEvent} : insertions tr = [] ↔ insertedIn tr = ∅ := by
  rw [List.eq_nil_iff_forall_not_mem, Set.eq_empty_iff_forall_notMem]
  constructor
  · rintro h b ⟨id, a, hmem⟩
    exact h (id, b) (mem_insertions.mpr ⟨a, hmem⟩)
  · intro h i hi
    obtain ⟨a, hmem⟩ := mem_insertions.mp hi
    exact h i.2 ⟨i.1, a, hmem⟩

omit [Sha256] in
theorem Quiet.trace_eq_nil {α : Type} {p : IndexM α} (hp : Quiet p) (S : NodeStore σ) (s : σ) :
    p.trace S.env s = [] := by
  obtain ⟨x, rfl⟩ := hp
  cases x <;> rfl

omit [Sha256] in
theorem trace_bind_quiet {α β : Type} (p : IndexM α) {f : α → IndexM β} (hf : ∀ a, Quiet (f a))
    (S : NodeStore σ) (s : σ) : (p >>= f).trace S.env s = p.trace S.env s := by
  rw [Prog.trace_bind]
  split
  · rw [(hf _).trace_eq_nil, List.append_nil]
  · rw [List.append_nil]

/-- A load inserts nothing. -/
theorem insertions_load (S : NodeStore σ) (s : σ) (id : Digest) (edge : Option UInt8)
    (pre : Bytes) : insertions ((load id edge pre).trace S.env s) = [] := by
  rw [load_eq, trace_bind_quiet _ (quiet_checkLoaded edge pre)]
  split
  · rfl
  · rw [loadStored, trace_bind_quiet]
    · show insertions (⟨.read id, (S.read s id).1⟩ :: Prog.trace S.env (.ofExcept _) _) = []
      rw [Quiet.trace_eq_nil ⟨_, rfl⟩]
      rfl
    · exact fun b ↦ (quiet_ofCodec _).bind fun _ ↦ (quiet_ofCodec _).bind fun _ ↦ quiet_ofCodec _

/-- **The inserts of an update are those of its calls.** -/
theorem insertions_update (S : NodeStore σ) (s : σ) (root : Digest) (path : String)
    (binding : Option Digest) : insertions ((update root path binding).trace S.env s) =
      ((Calls.update root path binding).trace (calls S) s).filterMap callInsertion := by
  rw [← Calls.handle_update]
  refine Prog.filterMap_trace_handle (handles_body S) (fun c s ↦ ?_) _ s
  cases c with
  | load id edge pre =>
    show insertions ((load id edge pre).attempt.trace S.env s) = []
    rw [Prog.trace_attempt, insertions_load]
  | save node pre => rfl
  | store r =>
    show List.filterMap insertion [_] = _
    rw [List.filterMap_cons]
    show _ = (insertion _).toList
    cases r <;> rfl

section saves

variable {key pre : Bytes} {tr : List CallEvent} {i : Digest × Bytes}

omit [Sha256] in
theorem InsertedAt.append (h : InsertedAt tr pre i) (before after : List CallEvent) :
    InsertedAt (before ++ (tr ++ after)) pre i := by
  obtain ⟨node, before', loads, after', x, rfl, hloads⟩ := h
  exact ⟨node, before ++ before', loads, after' ++ after, x, by simp, hloads⟩

/-- A copy of a node on the path of the key: an insert under the digest of the bytes, which decode
again, made by the save at a prefix of the key. -/
structure IsCopy (key : Bytes) (tr : List CallEvent) (i : Digest × Bytes) : Prop where
  /-- `id = SHA-256(bytes)` -/
  digest : i.1 = sha256 i.2
  /-- The bytes are those of a node. -/
  decodes : ∃ node, RadixNode.decode i.2 = .ok node
  /-- It stands at a prefix of the key. -/
  stands : ∃ pre, InsertedAt tr pre i ∧ pre <+: key

omit [Sha256] in
theorem OneLoad.insertions (h : OneLoad tr) : tr.filterMap callInsertion = [] := by
  obtain rfl | ⟨id, edge, pre, x, rfl⟩ := h <;> rfl

/-- A save makes one insert at most, of a copy. -/
theorem IsSave.insertions (h : IsSave key tr) : (tr.filterMap callInsertion).length ≤ 1 ∧
    ∀ i ∈ tr.filterMap callInsertion, IsCopy key tr i := by
  obtain ⟨node, pre, loads, inserts, rfl, hpre, hloads, hinserts⟩ := h
  have heq : (⟨.save node pre, ()⟩ :: (loads ++ inserts) : List CallEvent).filterMap callInsertion =
      inserts.filterMap callInsertion := by
    show (loads ++ inserts).filterMap callInsertion = _
    rw [List.filterMap_append, hloads.insertions, List.nil_append]
  rw [heq]
  obtain rfl | ⟨n, hshaped, x, rfl⟩ := hinserts
  · exact ⟨Nat.zero_le 1, fun i hi ↦ by cases hi⟩
  · refine ⟨Nat.le_refl 1, fun i hi ↦ ?_⟩
    obtain rfl : i = (n.id, n.encode) := List.mem_singleton.mp hi
    have hat : InsertedAt (⟨.save node pre, ()⟩ :: (loads ++
        [⟨.store (.insert n.id n.encode), x⟩])) pre (n.id, n.encode) :=
      ⟨node, [], loads, [], x, rfl, hloads⟩
    exact ⟨rfl, ⟨n, RadixNode.decode_encode hshaped⟩, pre, hat, hpre⟩

/-- Saves make as many inserts at most as they are. -/
theorem length_insertions_le {saves : List (List CallEvent)} (h : ∀ b ∈ saves, IsSave key b) :
    (saves.flatten.filterMap callInsertion).length ≤ saves.length := by
  induction saves with
  | nil => exact Nat.le_refl 0
  | cons b saves ih =>
    obtain ⟨hb, hsaves⟩ := List.forall_mem_cons.mp h
    have := hb.insertions.1
    have := ih hsaves
    rw [List.flatten_cons, List.filterMap_append, List.length_append, List.length_cons]
    omega

/-- The saves of an update begin where its descent ends. -/
theorem descentLength_append {down : List CallEvent} {saves : List (List CallEvent)}
    (hdown : IsDescent key down) (hsaves : ∀ b ∈ saves, IsSave key b) :
    descentLength (down ++ saves.flatten) = down.length := by
  rw [descentLength, List.takeWhile_append_of_pos, List.length_append]
  · cases saves with
    | nil => rfl
    | cons b saves =>
      obtain ⟨node, pre, loads, inserts, rfl, -⟩ := hsaves b (.head _)
      rfl
  · intro e he
    obtain ⟨id, edge, pre, x, rfl, -⟩ := hdown.loads e he
    rfl

/-- **The inserts of an update are copies**, two more than it has loaded nodes at most, and no more
than those if it deletes. -/
theorem IsUpdate.insertions {binding : Option Digest} (h : IsUpdate binding key tr) :
    (tr.filterMap callInsertion).length ≤ descentLength tr + (if binding.isSome then 2 else 0) ∧
      ∀ i ∈ tr.filterMap callInsertion, IsCopy key tr i := by
  obtain ⟨down, _, rfl, hdown, saves, rfl, hlen, hsaves⟩ := h
  have hnone : down.filterMap callInsertion = [] := by
    refine List.filterMap_eq_nil_iff.mpr fun e he ↦ ?_
    obtain ⟨id, edge, pre, x, rfl, -⟩ := hdown.loads e he
    rfl
  rw [List.filterMap_append, hnone, List.nil_append, descentLength_append hdown hsaves]
  refine ⟨(length_insertions_le hsaves).trans hlen, fun i hi ↦ ?_⟩
  obtain ⟨e, he, hie⟩ := List.mem_filterMap.mp hi
  obtain ⟨block, hblock, he⟩ := List.mem_flatten.mp he
  obtain ⟨hdigest, hdecodes, pre, hat, hpre⟩ :=
    (hsaves block hblock).insertions.2 i (List.mem_filterMap.mpr ⟨e, he, hie⟩)
  obtain ⟨before, after, rfl⟩ := List.append_of_mem hblock
  refine ⟨hdigest, hdecodes, pre, ?_, hpre⟩
  have := hat.append (down ++ before.flatten) after.flatten
  rwa [List.append_assoc, ← List.flatten_cons, ← List.flatten_append] at this

end saves

/-! ## The graph below the new root -/

section graph

variable {contents : σ → Digest → Option Bytes} {K : Set Bytes} {held held' : Digest → Option Bytes}
  {root : Digest} {log : List Bytes}

/-- A store that held `held` has since inserted the strings `log`, of nodes that are linked. -/
structure Extends (K : Set Bytes) (held : Digest → Option Bytes) (root : Digest)
    (held' : Digest → Option Bytes) (log : List Bytes) : Prop where
  /-- The strings do not collide. -/
  within : Within K held'
  /-- The inserted strings are among them. -/
  log_mem : ∀ b ∈ log, b ∈ K
  /-- Nothing else is held. -/
  held_or : ∀ id b, held' id = some b → held id = some b ∨ b ∈ log
  /-- What has been inserted is linked. -/
  linked : ∀ b ∈ log, ∀ node, RadixNode.decode b = .ok node → Linked held root log node

/-- **A node held under a known digest is linked.** -/
theorem Extends.linked_of_known (hK : CollisionFree K) (h : Extends K held root held' log)
    {id : Digest} (hid : id = root ∨ Known held root log id) {b : Bytes} (hb : held' id = some b)
    {node : RadixNode} (hnode : RadixNode.decode b = .ok node) : Linked held root log node := by
  rcases h.held_or id b hb with hold | hmem
  · rcases hid with rfl | hbelow | ⟨b', hb', hdigest⟩
    · exact fun child hchild ↦ .inl (.single ⟨b, node, child, hold, hnode, hchild, rfl⟩)
    · exact fun child hchild ↦ .inl (hbelow.tail ⟨b, node, child, hold, hnode, hchild, rfl⟩)
    · -- the string held under the digest is the one that was inserted
      obtain rfl : b' = b := hK (h.log_mem b' hb') (h.within.subset ⟨id, hb⟩)
        (hdigest.trans (h.within.addressed id b hb).symm)
      exact h.linked b' hb' node hnode
  · exact h.linked b hmem node hnode

/-- A content-addressed store answers within `sharing`. -/
theorem extends_step {S : NodeStore σ} (hS : S.Immutable contents) (hK : CollisionFree K) {s : σ}
    (h : Extends K held root (contents s) log) (r : Request) (hpre : (sharing held root).pre log r)
    (hok : ∀ id b, r = .insert id b → b ∈ K) :
    ∃ log', (sharing held root).post log r (S.env.answer r s).1 log' ∧
      Extends K held root (contents (S.env.answer r s).2) log' := by
  cases r with
  | read id =>
    refine ⟨log, ⟨rfl, fun b hb _ hid node hnode ↦ ?_⟩, ?_⟩
    · exact h.linked_of_known hK hid (hS.read_ok s id b hb) hnode
    · show Extends K held root (contents (S.read s id).2) log
      rwa [hS.read_contents]
  | insert id b =>
    obtain ⟨rfl, node, hshaped, rfl, hlinked⟩ := hpre
    have hmem : node.encode ∈ K := hok _ _ rfl
    have hfits : Fits (contents s (sha256 node.encode)) node.encode := by
      cases hheld : contents s (sha256 node.encode) with
      | none => exact .inl rfl
      | some b =>
        exact .inr (congrArg some (hK (h.within.subset ⟨_, hheld⟩) hmem
          (h.within.addressed _ b hheld)))
    show ∃ log', (sharing held root).post log (.insert (sha256 node.encode) node.encode)
        (S.insert s (sha256 node.encode) node.encode).1 log' ∧
      Extends K held root (contents (S.insert s (sha256 node.encode) node.encode).2) log'
    cases hanswer : (S.insert s (sha256 node.encode) node.encode).1 with
    | error e =>
      refine ⟨log, rfl, ?_⟩
      rwa [hS.insert_error s _ _ e hanswer]
    | ok u =>
      refine ⟨node.encode :: log, rfl, ?_⟩
      rw [hS.insert_ok s _ _ hfits hanswer]
      have hle : log ⊆ node.encode :: log := List.subset_cons_self _ _
      have hheld : ∀ id b, Function.update (contents s) (sha256 node.encode)
          (some node.encode) id = some b →
          id = sha256 node.encode ∧ b = node.encode ∨ contents s id = some b := by
        intro id b hb
        by_cases hid : id = sha256 node.encode
        · subst hid
          rw [Function.update_self, Option.some.injEq] at hb
          exact .inl ⟨rfl, hb.symm⟩
        · rw [Function.update_of_ne hid] at hb
          exact .inr hb
      refine ⟨⟨fun id b hb ↦ ?_, ?_⟩, List.forall_mem_cons.mpr ⟨hmem, h.log_mem⟩,
        fun id b hb ↦ ?_, List.forall_mem_cons.mpr ⟨fun node' hnode' ↦ ?_, fun b hb n hn ↦ ?_⟩⟩
      · obtain ⟨rfl, rfl⟩ | hb := hheld id b hb
        · rfl
        · exact h.within.addressed id b hb
      · rintro b ⟨id, hb⟩
        obtain ⟨rfl, rfl⟩ | hb := hheld id b hb
        · exact hmem
        · exact h.within.subset ⟨id, hb⟩
      · obtain ⟨rfl, rfl⟩ | hb := hheld id b hb
        · exact .inr (.head _)
        · exact (h.held_or id b hb).imp_right fun hb ↦ hle hb
      · rw [RadixNode.decode_encode hshaped] at hnode'
        exact ok.inj hnode' ▸ hlinked.mono hle
      · exact (h.linked b hb n hn).mono hle

/-- What has been inserted has been in a call. -/
theorem mem_of_steps {tr : List StoreEvent} {log' : List Bytes}
    (h : Steps (sharing held root) log tr log') {b : Bytes} (hb : b ∈ log') :
    b ∈ log ∨ b ∈ insertedIn tr := by
  induction h with
  | nil => exact .inl hb
  | @cons log log₁ log' r a tr hstep _ ih =>
    rcases ih hb with hb | ⟨id, a', hmem⟩
    · cases r with
      | read id =>
        obtain rfl : log₁ = log := hstep.1
        exact .inl hb
      | insert id b' =>
        cases a with
        | error e =>
          obtain rfl : log₁ = log := hstep
          exact .inl hb
        | ok u =>
          obtain rfl : log₁ = b' :: log := hstep
          rcases List.mem_cons.mp hb with rfl | hb
          · exact .inr ⟨id, .ok u, .head _⟩
          · exact .inl hb
    · exact .inr ⟨id, a', .tail _ hmem⟩

/-- **Below the new root of an update, every child digest is one from below the old root or that of
a node the update has inserted.** -/
theorem childBelow_update {S : NodeStore σ} (hS : S.Immutable contents) (hK : CollisionFree K)
    (hempty : RadixNode.empty.encode ∈ K) {s : σ} (hs : Within K (contents s)) {path : String}
    {binding : Option Digest} (hins : insertedIn ((update root path binding).trace S.env s) ⊆ K)
    {root' : Digest} (hroot' : ((update root path binding).run S.env s).1 = .ok root') {d : Digest}
    (hd : ChildBelow (contents ((update root path binding).run S.env s).2) root' d) :
    ChildBelow (contents s) root d ∨
      ∃ b ∈ insertedIn ((update root path binding).trace S.env s), sha256 b = d := by
  have hinit : Extends K (contents s) root (contents s) [] :=
    ⟨hs, by simp, fun _ _ ↦ .inl, by simp⟩
  obtain ⟨log, ⟨-, hx⟩, hext, hsteps⟩ := Prog.Ensures.run (E := S.env)
    (fun s' log ↦ Extends K (contents s) root (contents s') log)
    (fun e ↦ ∀ id b, e.1 = .insert id b → b ∈ K)
    (fun s' log r h hpre hok ↦ extends_step hS hK h r hpre hok) shares_update hinit (by
      rintro ⟨r, a⟩ he id b rfl
      exact hins ⟨id, a, he⟩)
  have hstart : ∀ d, ChildOf (contents ((update root path binding).run S.env s).2) root' d →
      Known (contents s) root log d := by
    rintro d ⟨b, node, child, hb, hnode, hchild, rfl⟩
    rcases hx root' hroot' with rfl | rfl | hadded
    · exact hext.linked_of_known hK (.inl rfl) hb hnode child hchild
    · obtain rfl : b = RadixNode.empty.encode :=
        hK (hext.within.subset ⟨_, hb⟩) hempty (hext.within.addressed _ b hb)
      rw [RadixNode.decode_encode RadixNode.shaped_empty] at hnode
      obtain rfl := ok.inj hnode
      cases hchild
    · exact hext.linked_of_known hK (.inr (.inr hadded)) hb hnode child hchild
  have hknown : Known (contents s) root log d := by
    induction hd with
    | single h => exact hstart _ h
    | tail _ h ih =>
      obtain ⟨b, node, child, hb, hnode, hchild, rfl⟩ := h
      exact hext.linked_of_known hK (.inr ih) hb hnode child hchild
  refine hknown.imp_right fun h ↦ ?_
  obtain ⟨b, hb, hdigest⟩ := h
  exact ⟨b, (mem_of_steps hsteps hb).resolve_left (by simp), hdigest⟩

end graph

/-! ## Copy on write -/

section runs

variable {S : NodeStore σ} {contents : σ → Digest → Option Bytes}

/-- **An update copies the path of its key.**  At any root that updates have reached over an honest
store, an update makes two inserts more than its descent has loads at most, no more than those if
it deletes, and none if nothing changes.  Each inserts a copy of a node on the path, and the new
trie shares all others with the old one. -/
theorem update_copies_path (hS : S.Honest contents) (s₀ : σ) (haddr : Addressed (contents s₀))
    (ops : List Op) (hops : ∀ op ∈ ops, ValidPath op.1)
    (hfree : CollisionFree
      (hashedBytes (contents s₀) ((updateAll emptyRoot ops).trace S.env s₀))) :
    ∃ root s, (updateAll emptyRoot ops).run S.env s₀ = (.ok root, s) ∧
      ∀ path binding, ValidPath path →
        CollisionFree (hashedBytes (contents s₀) ((updateAll emptyRoot ops).trace S.env s₀ ++
          (update root path binding).trace S.env s)) →
        ∃ root' s', (update root path binding).run S.env s = (.ok root', s') ∧
          (insertions ((update root path binding).trace S.env s)).length ≤
            descentLength ((Calls.update root path binding).trace (calls S) s) +
              (if binding.isSome then 2 else 0) ∧
          (mapOf ops path = binding →
            insertions ((update root path binding).trace S.env s) = []) ∧
          (∀ i ∈ insertions ((update root path binding).trace S.env s),
            IsCopy (keyOf path) ((Calls.update root path binding).trace (calls S) s) i) ∧
          ∀ d, ChildBelow (contents s') root' d → ChildBelow (contents s) root d ∨
            ∃ i ∈ insertions ((update root path binding).trace S.env s), i.1 = d := by
  obtain ⟨root, s, t, hrun, hs, hroot, hM⟩ := updateAll_run hS hfree (empty_mem_hashedBytes _ _)
    hops (within_hashedBytes haddr _) (rooted_empty _) maps_absent
    (insertedIn_subset_hashedBytes _ _)
  refine ⟨root, s, hrun, fun path binding hp hfree' ↦ ?_⟩
  have hempty := empty_mem_hashedBytes (contents s₀)
    ((updateAll emptyRoot ops).trace S.env s₀ ++ (update root path binding).trace S.env s)
  have hs₁ := hs.mono (hashedBytes_mono _ _ ((update root path binding).trace S.env s))
  have hins := insertedIn_right_subset_hashedBytes (contents s₀)
    ((updateAll emptyRoot ops).trace S.env s₀) ((update root path binding).trace S.env s)
  obtain ⟨root', s', hrun', -, -, hsame⟩ := update_eq_ok hS hfree' hempty hs₁ hroot hp binding hins
  obtain ⟨hcount, hcopies⟩ := (makes_update (encodeKey_eq_ok.mpr ⟨hp, rfl⟩)
    (Prog.makes_trace (calls S) (Calls.update root path binding) s)).insertions
  rw [← insertions_update] at hcount hcopies
  refine ⟨root', s', hrun', hcount, fun hmap ↦ ?_, hcopies, fun d hd ↦ ?_⟩
  · rw [insertions_eq_nil]
    exact (hsame ((hM.lookup_eq path hp).trans hmap)).2
  · have hroot' := congrArg Prod.fst hrun'
    have hs' : ((update root path binding).run S.env s).2 = s' := congrArg Prod.snd hrun'
    rw [← hs'] at hd
    refine (childBelow_update hS.toImmutable hfree' hempty hs₁ hins hroot' hd).imp_right ?_
    rintro ⟨b, ⟨id, a, hmem⟩, hdigest⟩
    have hi : (id, b) ∈ insertions ((update root path binding).trace S.env s) :=
      mem_insertions.mpr ⟨a, hmem⟩
    exact ⟨_, hi, (hcopies _ hi).digest.trans hdigest⟩

omit [Sha256] in
/-- Unbinding `/x/lib` makes the node of `/x/library` again, and nothing else. -/
theorem update_copies_path_library :
    letI := librarySha256
    ∃ root s root' s',
      (updateAll emptyRoot libraryOps).run (MemoryStore.store none).env .default = (.ok root, s) ∧
      (update root "/x/lib" none).run (MemoryStore.store none).env s = (.ok root', s') ∧
      (insertions ((update root "/x/lib" none).trace (MemoryStore.store none).env s)).length ≤
        descentLength ((Calls.update root "/x/lib" none).trace (calls (MemoryStore.store none)) s) ∧
      ∀ d, ChildBelow s'.contents root' d → ChildBelow s.contents root d ∨
        ∃ i ∈ insertions ((update root "/x/lib" none).trace (MemoryStore.store none).env s),
          i.1 = d := by
  let _ := librarySha256
  obtain ⟨root, s, hrun, h⟩ := update_copies_path MemoryStore.honest .default
    (fun _ _ h ↦ by cases h) libraryOps (by decide) collisionFree_libraryOps
  obtain rfl := congrArg Prod.snd hrun
  obtain rfl := Except.ok.inj ((congrArg Prod.fst hrun).symm.trans updateAll_libraryOps)
  obtain ⟨root', s', hupdate, hcount, -, -, hbelow⟩ := h "/x/lib" none (by decide)
    collisionFree_unbind
  exact ⟨_, _, root', s', hrun, hupdate, hcount, hbelow⟩

end runs

end RadixIndex

end Mst2
