import Mst2Codec.Namespace.Radix.Calls

/-!
# The loops of the index end

What the calls of the index look like over any store at all, one that fails or makes up its answers
included.  A loop goes down from a node only through its whole label to a child under the next byte
of the key, and a child that `load` returns has a label that begins with that byte.  So the loads of
a loop advance along the key (`LoadsDown`, `IsDescent`), and there is at most one for each byte of
the key and one for the root.

Whatever `update` does after its descent are saves, each with one load and one insert at most
(`Saves`), two more than it loaded nodes at most (`makes_update`).
-/

set_option autoImplicit false

namespace Mst2

open Bytes Except

open Prog (Makes makes_bind)

namespace RadixIndex

variable [Sha256] {α β : Type} {tr : List CallEvent}

/-! ## Programs that make no calls -/

omit [Sha256] in
/-- The program makes no calls. -/
def Quiet (p : IndexM α) : Prop := ∃ x, p = .ofExcept x

omit [Sha256] in
theorem quiet_ofCodec (x : CodecResult α) : Quiet (ofCodec x) := ⟨_, rfl⟩

omit [Sha256] in
theorem ofCodec_eq_pure {x : CodecResult α} {a : α} : ofCodec x = pure a ↔ x = .ok a := by
  constructor
  · intro h
    cases x with
    | error e => cases h
    | ok b => rw [show b = a from Prog.pure.inj h]
  · rintro rfl
    rfl

omit [Sha256] in
theorem Quiet.bind {p : IndexM α} {f : α → IndexM β} (hp : Quiet p) (hf : ∀ a, Quiet (f a)) :
    Quiet (p >>= f) := by
  obtain ⟨x, rfl⟩ := hp
  cases x with
  | error e => exact ⟨.error e, rfl⟩
  | ok a => exact hf a

omit [Sha256] in
theorem quiet_joinedKey (pre label : Bytes) : Quiet (joinedKey pre label) :=
  (quiet_ofCodec _).bind fun _ ↦ ⟨.ok _, rfl⟩

omit [Sha256] in
theorem quiet_validatePosition (pre : Bytes) (node : RadixNode) :
    Quiet (validatePosition pre node) := by
  refine (quiet_joinedKey _ _).bind fun assembled ↦ ?_
  split
  · exact (quiet_ofCodec _).bind fun _ ↦ ⟨.ok _, rfl⟩
  · exact ⟨.ok _, rfl⟩

omit [Sha256] in
theorem quiet_remember (key : Bytes) (binding : Option Digest) (found : Option (String × Digest)) :
    Quiet (remember key binding found) := by
  cases binding with
  | none => exact ⟨.ok _, rfl⟩
  | some d => exact (quiet_ofCodec _).bind fun _ ↦ ⟨.ok _, rfl⟩

/-- What `load` checks of a node it has read. -/
def checkLoaded (edge : Option UInt8) (pre : Bytes) (node : RadixNode) :
    IndexM { node : RadixNode // EdgeOk edge node } :=
  if h : EdgeOk edge node then do
    validatePosition pre node
    pure ⟨node, h⟩
  else ofCodec (.error (.badOrdering "radix incoming child label"))

theorem load_eq (id : Digest) (edge : Option UInt8) (pre : Bytes) : load id edge pre =
    (if id = emptyRoot then pure RadixNode.empty else loadStored id) >>= checkLoaded edge pre := by
  rw [load]
  split <;> rfl

omit [Sha256] in
theorem quiet_checkLoaded (edge : Option UInt8) (pre : Bytes) (node : RadixNode) :
    Quiet (checkLoaded edge pre node) := by
  rw [checkLoaded]
  split
  · exact (quiet_validatePosition _ _).bind fun _ ↦ ⟨.ok _, rfl⟩
  · exact quiet_ofCodec _

omit [Sha256] in
/-- Such a program fails or returns a value, without calls. -/
theorem makes_direct_bind {p : IndexM α} (hp : Quiet p) {f : α → CallM β} {y : IndexResult β} :
    Makes (direct p >>= f) tr y ↔ (∃ e, p = .fail e ∧ tr = [] ∧ y = .error e) ∨
      ∃ a, p = pure a ∧ Makes (f a) tr y := by
  obtain ⟨x, rfl⟩ := hp
  cases x with
  | error e =>
    constructor
    · rintro ⟨rfl, rfl⟩
      exact .inl ⟨e, rfl, rfl, rfl⟩
    · rintro (⟨e', h, rfl, rfl⟩ | ⟨a, h, -⟩)
      · obtain rfl := Prog.fail.inj h
        exact ⟨rfl, rfl⟩
      · cases h
  | ok a =>
    constructor
    · exact fun h ↦ .inr ⟨a, rfl, h⟩
    · rintro (⟨e, h, -⟩ | ⟨a', h, h'⟩)
      · cases h
      · obtain rfl := Prog.pure.inj h
        exact h'

omit [Sha256] in
/-- A load is one call. -/
theorem makes_load_bind {id : Digest} {edge : Option UInt8} {pre : Bytes}
    {f : { node : RadixNode // EdgeOk edge node } → CallM β} {y : IndexResult β} :
    Makes (Calls.load id edge pre >>= f) tr y ↔
      (∃ e, tr = [⟨.load id edge pre, .error e⟩] ∧ y = .error e) ∨
      ∃ node tr', tr = ⟨.load id edge pre, .ok node⟩ :: tr' ∧ Makes (f node) tr' y := by
  constructor
  · rintro ⟨x, tr', rfl, h⟩
    cases x with
    | error e =>
      obtain ⟨rfl, rfl⟩ := h
      exact .inl ⟨e, rfl, rfl⟩
    | ok node => exact .inr ⟨node, tr', rfl, h⟩
  · rintro (⟨e, rfl, rfl⟩ | ⟨node, tr', rfl, h⟩)
    · exact ⟨.error e, [], rfl, rfl, rfl⟩
    · exact ⟨.ok node, tr', rfl, h⟩

/-! ## Saves -/

/-- At most one load. -/
def OneLoad (tr : List CallEvent) : Prop :=
  tr = [] ∨ ∃ id edge pre x, tr = [⟨.load id edge pre, x⟩]

/-- At most one insert, of a node in canonical shape under its digest. -/
def OneInsert (tr : List CallEvent) : Prop :=
  tr = [] ∨ ∃ node : RadixNode, node.Shaped ∧ ∃ x, tr = [⟨.store (.insert node.id node.encode), x⟩]

/-- The calls of one `save` at a prefix of the key. -/
def IsSave (key : Bytes) (tr : List CallEvent) : Prop :=
  ∃ node pre loads inserts, tr = ⟨.save node pre, ()⟩ :: (loads ++ inserts) ∧ pre <+: key ∧
    OneLoad loads ∧ OneInsert inserts

/-- The calls of at most `n` saves at prefixes of the key, one after the other. -/
def Saves (key : Bytes) (n : ℕ) (tr : List CallEvent) : Prop :=
  ∃ saves : List (List CallEvent), tr = saves.flatten ∧ saves.length ≤ n ∧
    ∀ b ∈ saves, IsSave key b

omit [Sha256] in
theorem makes_absorb {node : RadixNode} {pre : Bytes} {x : IndexResult RadixNode}
    (h : Makes (Calls.absorb node pre) tr x) : OneLoad tr := by
  rw [Calls.absorb] at h
  split at h
  · rcases (makes_direct_bind (quiet_joinedKey _ _)).mp h with ⟨e, -, rfl, -⟩ | ⟨p, -, h⟩
    · exact .inl rfl
    · rcases makes_load_bind.mp h with ⟨e, rfl, -⟩ | ⟨child, tr', rfl, rfl, -⟩
      · exact .inr ⟨_, _, _, _, rfl⟩
      · exact .inr ⟨_, _, _, _, rfl⟩
  · obtain ⟨rfl, -⟩ := h
    exact .inl rfl

/-- **A save loads one node and inserts one node at most.** -/
theorem makes_save {node : RadixNode} {pre : Bytes} {x : IndexResult (Option Digest)}
    (h : Makes (Calls.save node pre) tr x) {key : Bytes} (hpre : pre <+: key) : IsSave key tr := by
  obtain ⟨⟨⟩, tr', rfl, h⟩ := h
  suffices h' : ∃ loads inserts, tr' = loads ++ inserts ∧ OneLoad loads ∧ OneInsert inserts by
    obtain ⟨loads, inserts, rfl, hloads, hinserts⟩ := h'
    exact ⟨node, pre, loads, inserts, rfl, hpre, hloads, hinserts⟩
  replace h : Makes (if _ then _ else _) tr' x := h
  split at h
  · obtain ⟨rfl, -⟩ := h
    exact ⟨[], [], rfl, .inl rfl, .inl rfl⟩
  · rcases makes_bind.mp h with ⟨e, -, h⟩ | ⟨node', loads, tr'', rfl, hload, h⟩
    · exact ⟨tr', [], by simp, makes_absorb h, .inl rfl⟩
    · refine ⟨loads, tr'', rfl, makes_absorb hload, ?_⟩
      rcases (makes_direct_bind (quiet_validatePosition _ _)).mp h with ⟨e, -, rfl, -⟩ | ⟨_, -, h⟩
      · exact .inl rfl
      rcases (makes_direct_bind (quiet_ofCodec _)).mp h with ⟨e, -, rfl, -⟩ | ⟨n, hn, h⟩
      · exact .inl rfl
      obtain ⟨rfl, hshaped⟩ := RadixNode.new_eq_ok.mp (ofCodec_eq_pure.mp hn)
      obtain ⟨answer, rest, rfl, hend⟩ := h
      have hrest : rest = [] := by cases answer <;> exact hend.1
      exact .inr ⟨_, hshaped, answer, by rw [hrest]; rfl⟩

section saves

variable {key : Bytes} {n m : ℕ} {tr₁ tr₂ : List CallEvent}

theorem saves_nil : Saves key n [] := ⟨[], rfl, Nat.zero_le n, by simp⟩

theorem Saves.mono (h : Saves key n tr) (hnm : n ≤ m) : Saves key m tr := by
  obtain ⟨saves, rfl, hlen, hsaves⟩ := h
  exact ⟨saves, rfl, hlen.trans hnm, hsaves⟩

theorem Saves.append (h₁ : Saves key n tr₁) (h₂ : Saves key m tr₂) :
    Saves key (n + m) (tr₁ ++ tr₂) := by
  obtain ⟨saves₁, rfl, hlen₁, hsaves₁⟩ := h₁
  obtain ⟨saves₂, rfl, hlen₂, hsaves₂⟩ := h₂
  refine ⟨saves₁ ++ saves₂, List.flatten_append.symm, ?_,
    List.forall_mem_append.mpr ⟨hsaves₁, hsaves₂⟩⟩
  rw [List.length_append]
  omega

theorem saves_of_isSave (h : IsSave key tr) : Saves key 1 tr :=
  ⟨[tr], by simp, Nat.le_refl 1, by simpa using h⟩

/-- A save, and what is done with the digest it returns. -/
theorem makes_save_bind {node : RadixNode} {pre : Bytes} {f : Option Digest → CallM β}
    {x : IndexResult β} (h : Makes (Calls.save node pre >>= f) tr x) (hpre : pre <+: key)
    (hf : ∀ d tr', Makes (f d) tr' x → Saves key n tr') : Saves key (n + 1) tr := by
  rcases makes_bind.mp h with ⟨e, -, h⟩ | ⟨d, tr₁, tr₂, rfl, h₁, h₂⟩
  · exact (saves_of_isSave (makes_save h hpre)).mono (Nat.le_add_left 1 n)
  · exact Nat.add_comm 1 n ▸ (saves_of_isSave (makes_save h₁ hpre)).append (hf d tr₂ h₂)

theorem makes_quiet_bind {p : IndexM α} (hp : Quiet p) {f : α → CallM β} {x : IndexResult β}
    (h : Makes (direct p >>= f) tr x) (hf : ∀ a, p = pure a → Makes (f a) tr x → Saves key n tr) :
    Saves key n tr := by
  rcases (makes_direct_bind hp).mp h with ⟨e, -, rfl, -⟩ | ⟨a, ha, h⟩
  · exact saves_nil
  · exact hf a ha h

end saves

/-! ## The branches of an update -/

section branches

variable {done rest : Bytes} {node : RadixNode} {x : IndexResult (Option Digest)}

omit [Sha256] in
/-- The bytes that a label shares with the key. -/
theorem take_commonLen (rest label : Bytes) :
    label.take (commonLen rest label) = rest.take (commonLen rest label) := by
  induction rest generalizing label with
  | nil => simp [commonLen]
  | cons a rest ih =>
    cases label with
    | nil => simp [commonLen]
    | cons b label =>
      by_cases hab : a = b
      · subst hab
        have hcommon : commonLen (a :: rest) (a :: label) = commonLen rest label + 1 := by
          simp [commonLen]
        rw [hcommon, List.take_succ_cons, List.take_succ_cons, ih]
      · have hcommon : commonLen (a :: rest) (b :: label) = 0 := by simp [commonLen, hab]
        rw [hcommon, List.take_zero, List.take_zero]

omit [Sha256] in
theorem joinedKey_eq_pure_iff {pre label joined : Bytes} (h : joinedKey pre label = pure joined) :
    joined = pre ++ label := by
  rw [joinedKey, reject] at h
  split at h
  · cases h
  · exact (Prog.pure.inj h).symm

/-- A split makes three saves at most. -/
theorem makes_splitNode {d : Digest}
    (h : Makes (Calls.splitNode node (commonLen rest node.label) done rest d) tr x) :
    Saves (done ++ rest) 3 tr := by
  have hdone : done <+: done ++ rest := List.prefix_append _ _
  refine makes_quiet_bind (quiet_joinedKey _ _) h fun p hp h ↦ ?_
  have hp : p <+: done ++ rest := by
    rw [joinedKey_eq_pure_iff hp, take_commonLen, List.prefix_append_right_inj]
    exact List.take_prefix _ _
  refine makes_save_bind h hp fun childId tr h ↦ ?_
  refine makes_quiet_bind (quiet_ofCodec _) h fun childId _ h ↦ ?_
  split at h
  · exact (saves_of_isSave (makes_save h hdone)).mono (by decide)
  · refine makes_quiet_bind (quiet_ofCodec _) h fun leaf _ h ↦ ?_
    refine makes_save_bind h hp fun leafId tr h ↦ ?_
    refine makes_quiet_bind (quiet_ofCodec _) h fun leafId _ h ↦ ?_
    exact saves_of_isSave (makes_save h hdone)

/-- A new leaf makes two. -/
theorem makes_addLeaf {edge : UInt8} {suffix : Bytes} {d : Digest}
    (h : Makes (Calls.addLeaf node done edge suffix d) tr x)
    (hrest : done ++ node.label <+: done ++ rest) : Saves (done ++ rest) 2 tr := by
  refine makes_quiet_bind (quiet_ofCodec _) h fun leaf _ h ↦ ?_
  refine makes_save_bind h hrest fun leafId tr h ↦ ?_
  refine makes_quiet_bind (quiet_ofCodec _) h fun leafId _ h ↦ ?_
  exact saves_of_isSave (makes_save h (List.prefix_append _ _))

end branches

/-! ## Descents -/

/-- The loads of a loop from the offset after `done` on, down along the key. -/
inductive LoadsDown (key : Bytes) : Bytes → Option UInt8 → List CallEvent → Prop
  /-- The last load. -/
  | last {done : Bytes} {edge : Option UInt8} (id : Digest)
      (x : IndexResult { node : RadixNode // EdgeOk edge node }) :
      LoadsDown key done edge [⟨.load id edge done, x⟩]
  /-- A load that gives a node, and those below it. -/
  | next {done : Bytes} {edge : Option UInt8} (id : Digest)
      (node : { node : RadixNode // EdgeOk edge node }) {e : UInt8} {tr : List CallEvent}
      (hkey : done ++ node.val.label ++ [e] <+: key)
      (htail : LoadsDown key (done ++ node.val.label) (some e) tr) :
      LoadsDown key done edge (⟨.load id edge done, .ok node⟩ :: tr)

/-- A load with the offset after the label of the node that the load before it gave. -/
def Follows (e e' : CallEvent) : Prop :=
  ∃ id edge pre node id' edge' x, e = ⟨.load id edge pre, .ok node⟩ ∧
    e' = ⟨.load id' (some edge') (pre ++ node.val.label), x⟩

/-- The loads of a loop that goes down along `key` from the root. -/
structure IsDescent (key : Bytes) (tr : List CallEvent) : Prop where
  /-- There are no other calls, and no load is off the key. -/
  loads : ∀ e ∈ tr, ∃ id edge pre x, e = ⟨.load id edge pre, x⟩ ∧ pre <+: key
  /-- The loop goes on below a node with the offset after its label. -/
  advances : tr.IsChain Follows
  /-- Below the root no label is empty. -/
  label_ne : ∀ e ∈ tr.tail, ∀ id edge pre node, e = ⟨.load id edge pre, .ok node⟩ →
    node.val.label ≠ []
  /-- There is one load for the root, and at most one for each byte of the key. -/
  length_le : tr.length ≤ key.length + 1

section descents

omit [Sha256]

variable {key done : Bytes} {edge : Option UInt8}

theorem label_ne_of_edgeOk {node : RadixNode} {e : UInt8} (h : EdgeOk (some e) node) :
    node.label ≠ [] := by
  intro hnil
  have := h e rfl
  rw [hnil] at this
  cases this

/-- **There are no more loads than bytes are left.** -/
theorem LoadsDown.length_le (h : LoadsDown key done edge tr) (hdone : done <+: key)
    (hedge : ∀ e, edge = some e → done ++ [e] <+: key) :
    tr.length + done.length ≤ key.length + if edge.isSome then 0 else 1 := by
  induction h with
  | @last done edge id x =>
    cases edge with
    | none =>
      have := hdone.length_le
      simp
      omega
    | some e =>
      have := (hedge e rfl).length_le
      simp at this ⊢
      omega
  | @next done edge id node e tr hkey htail ih =>
    have hlen := ih ((List.prefix_append _ _).trans hkey) fun e' he' ↦ Option.some.inj he' ▸ hkey
    rw [List.length_append] at hlen
    cases edge with
    | none =>
      simp at hlen ⊢
      omega
    | some e' =>
      have := List.length_pos_iff.mpr (label_ne_of_edgeOk node.property)
      simp at hlen ⊢
      omega

theorem LoadsDown.loads (h : LoadsDown key done edge tr) (hdone : done <+: key) :
    ∀ e ∈ tr, ∃ id edge pre x, e = ⟨.load id edge pre, x⟩ ∧ pre <+: key := by
  induction h with
  | last id x => exact List.forall_mem_singleton.mpr ⟨_, _, _, _, rfl, hdone⟩
  | next id node hkey htail ih =>
    have htail := ih ((List.prefix_append _ _).trans hkey)
    exact List.forall_mem_cons.mpr ⟨⟨_, _, _, _, rfl, hdone⟩, htail⟩

theorem LoadsDown.head (h : LoadsDown key done edge tr) :
    ∃ id x tr', tr = ⟨.load id edge done, x⟩ :: tr' := by
  cases h with
  | last id x => exact ⟨_, _, _, rfl⟩
  | next id node hkey htail => exact ⟨_, _, _, rfl⟩

theorem LoadsDown.advances (h : LoadsDown key done edge tr) : tr.IsChain Follows := by
  induction h with
  | last id x => exact .singleton _
  | next id node hkey htail ih =>
    obtain ⟨id', x, tr', rfl⟩ := htail.head
    exact .cons_cons ⟨_, _, _, node, _, _, _, rfl, rfl⟩ ih

/-- Below the root every load is under an edge. -/
theorem LoadsDown.edges (h : LoadsDown key done edge tr) (hedge : edge.isSome) :
    ∀ e ∈ tr, ∃ id a pre x, e = ⟨.load id (some a) pre, x⟩ := by
  induction h with
  | @last done edge id x =>
    obtain ⟨a, rfl⟩ := Option.isSome_iff_exists.mp hedge
    exact List.forall_mem_singleton.mpr ⟨_, _, _, _, rfl⟩
  | @next done edge id node e tr hkey htail ih =>
    obtain ⟨a, rfl⟩ := Option.isSome_iff_exists.mp hedge
    exact List.forall_mem_cons.mpr ⟨⟨_, _, _, _, rfl⟩, ih rfl⟩

theorem LoadsDown.label_ne (h : LoadsDown key done edge tr) : ∀ e ∈ tr.tail, ∀ id edge pre node,
    e = ⟨.load id edge pre, .ok node⟩ → node.val.label ≠ [] := by
  rintro e he id edge pre node rfl
  cases h with
  | last => cases he
  | next id' node' hkey htail =>
    obtain ⟨_, a, _, _, heq⟩ := htail.edges rfl _ he
    obtain rfl : edge = some a := by
      have := congrArg Sigma.fst heq
      rw [Call.load.injEq] at this
      exact this.2.1
    exact label_ne_of_edgeOk node.property

theorem LoadsDown.isDescent (h : LoadsDown key [] none tr) : IsDescent key tr :=
  ⟨h.loads List.nil_prefix, h.advances, h.label_ne,
    by simpa using h.length_le List.nil_prefix (by simp)⟩

end descents

/-! ## The loops -/

omit [Sha256] in
/-- The bytes left, if the label and one more byte of the key match. -/
theorem key_eq_of_drop {done rest suffix label : Bytes} {e : UInt8}
    (hlabel : label <+: rest) (h : rest.drop label.length = e :: suffix) :
    done ++ rest = done ++ label ++ (e :: suffix) := by
  obtain ⟨r, rfl⟩ := hlabel
  rw [List.drop_left] at h
  rw [h, List.append_assoc]

omit [Sha256] in
/-- **The loop of `walk`** makes no calls but its loads. -/
theorem makes_walkLoop {path : String} {ancestors : Bool} {done rest : Bytes} {id : Digest}
    {edge : Option UInt8} {found : Option (String × Digest)}
    {x : IndexResult (Option (String × Digest))}
    (h : Makes (Calls.walkLoop path ancestors done rest id edge found) tr x) :
    LoadsDown (done ++ rest) done edge tr := by
  induction hn : rest.length + (if edge.isSome then 0 else 1) using Nat.strong_induction_on
    generalizing done rest id edge found tr with
  | _ n ih =>
    subst hn
    rw [Calls.walkLoop] at h
    rcases makes_load_bind.mp h with ⟨e, rfl, -⟩ | ⟨⟨node, hnode⟩, tr, rfl, hgoes⟩
    · exact .last id _
    clear h
    dsimp only at hgoes
    by_cases hlabel : node.label <+: rest
    · rw [if_pos hlabel] at hgoes
      rcases (makes_direct_bind (quiet_remember _ _ _)).mp hgoes with
        ⟨e, -, rfl, -⟩ | ⟨found', -, hgoes⟩
      · exact .last id _
      revert hgoes
      rcases hrest : rest.drop node.label.length with _ | ⟨nextEdge, suffix⟩
      · rintro ⟨rfl, -⟩
        exact .last id _
      dsimp only
      have hkey : done ++ rest = done ++ node.label ++ nextEdge :: suffix :=
        key_eq_of_drop hlabel hrest
      have hlen := length_lt_of_edgeOk hnode hrest
      cases node.children.find? fun child ↦ child.edge = nextEdge with
      | none =>
        intro hgoes
        obtain ⟨rfl, -⟩ : tr = [] ∧ _ := hgoes
        exact .last id _
      | some child =>
        intro hgoes
        have htail := ih _ hlen hgoes rfl
        rw [← hkey] at htail
        refine .next id ⟨node, hnode⟩ ?_ htail
        rw [hkey, List.prefix_append_right_inj]
        exact List.prefix_append [nextEdge] suffix
    · rw [if_neg hlabel] at hgoes
      obtain ⟨rfl, -⟩ := hgoes
      exact .last id _

omit [Sha256] in
theorem isPrefix_of_le_commonLen {rest label : Bytes}
    (h : label.length ≤ commonLen rest label) : label <+: rest := by
  have htake := take_commonLen rest label
  rw [List.take_of_length_le h] at htake
  exact htake ▸ List.take_prefix _ _

/-- What the loop of an update has done: a descent, and up to `n` saves if it ends with a node to
put in the place of the last one. -/
def DescentCalls (n : ℕ) (key done : Bytes) (edge : Option UInt8) (ancestors : List Ancestor)
    (tr : List CallEvent) (x : IndexResult Descent) : Prop :=
  ∃ down saves, tr = down ++ saves ∧ LoadsDown key done edge down ∧ Saves key n saves ∧
    (x = .ok .unchanged → saves = []) ∧
    ∀ replacement ancestors', x = .ok (.rebuilt replacement ancestors') →
      ancestors'.length + 1 = ancestors.length + down.length ∧ ∀ a ∈ ancestors', a.pre <+: key

/-- The loop ends at the node it has loaded. -/
theorem descentCalls_last {n : ℕ} {key done : Bytes} {edge : Option UInt8}
    {ancestors : List Ancestor} {x : IndexResult Descent} (id : Digest)
    (y : IndexResult { node : RadixNode // EdgeOk edge node }) (hsaves : Saves key n tr)
    (hancestors : ∀ a ∈ ancestors, a.pre <+: key) (hunchanged : x = .ok .unchanged → tr = [])
    (hrebuilt : ∀ replacement ancestors', x = .ok (.rebuilt replacement ancestors') →
      ancestors' = ancestors) :
    DescentCalls n key done edge ancestors (⟨.load id edge done, y⟩ :: tr) x := by
  refine ⟨_, tr, rfl, .last id y, hsaves, hunchanged, fun replacement ancestors' hx ↦ ?_⟩
  obtain rfl := hrebuilt _ _ hx
  exact ⟨rfl, hancestors⟩

/-- The replacement of the last node is made with saves. -/
theorem makes_rebuilt {n : ℕ} {key : Bytes} {p : CallM (Option Digest)} {ancestors : List Ancestor}
    {x : IndexResult Descent}
    (h : Makes (p >>= fun replacement ↦ pure (.rebuilt replacement ancestors)) tr x)
    (hp : ∀ tr y, Makes p tr y → Saves key n tr) : Saves key n tr ∧ x ≠ .ok .unchanged ∧
      ∀ replacement ancestors', x = .ok (.rebuilt replacement ancestors') →
        ancestors' = ancestors := by
  rcases makes_bind.mp h with ⟨e, rfl, h₁⟩ | ⟨replacement, tr₁, tr₂, rfl, h₁, rfl, rfl⟩
  · exact ⟨hp _ _ h₁, by simp, by simp⟩
  · refine ⟨by simpa using hp _ _ h₁, by simp, fun replacement' ancestors' heq ↦ ?_⟩
    simp only [ok.injEq, Descent.rebuilt.injEq] at heq
    exact heq.2.symm

/-- **The loop of `update`** makes three saves at most after its descent, and one if it deletes. -/
theorem makes_descend {binding : Option Digest} {done rest : Bytes} {id : Digest}
    {edge : Option UInt8} {ancestors : List Ancestor} {x : IndexResult Descent}
    (h : Makes (Calls.descend binding done rest id edge ancestors) tr x)
    (hancestors : ∀ a ∈ ancestors, a.pre <+: done ++ rest) :
    DescentCalls (if binding.isSome then 3 else 1) (done ++ rest) done edge ancestors tr x := by
  induction hn : rest.length + (if edge.isSome then 0 else 1) using Nat.strong_induction_on
    generalizing done rest id edge ancestors tr with
  | _ n ih =>
    subst hn
    rw [Calls.descend] at h
    rcases makes_load_bind.mp h with ⟨e, rfl, rfl⟩ | ⟨⟨node, hnode⟩, tr, rfl, hgoes⟩
    · exact descentCalls_last id _ saves_nil hancestors (by simp) (by simp)
    clear h
    dsimp only at hgoes
    by_cases hlabel : commonLen rest node.label < node.label.length
    · rw [if_pos hlabel] at hgoes
      cases binding with
      | none =>
        obtain ⟨rfl, rfl⟩ := hgoes
        exact descentCalls_last id _ saves_nil hancestors (by simp) (by simp)
      | some d =>
        obtain ⟨hsaves, hx, hrebuilt⟩ := makes_rebuilt hgoes fun tr y h ↦ makes_splitNode h
        exact descentCalls_last id _ hsaves hancestors (absurd · hx) hrebuilt
    rw [if_neg hlabel] at hgoes
    replace hlabel := isPrefix_of_le_commonLen (Nat.le_of_not_lt hlabel)
    revert hgoes
    rcases hrest : rest.drop node.label.length with _ | ⟨nextEdge, suffix⟩ <;> dsimp only
    · split
      · rintro ⟨rfl, rfl⟩
        exact descentCalls_last id _ saves_nil hancestors (by simp) (by simp)
      · intro hgoes
        obtain ⟨hsaves, hx, hrebuilt⟩ := makes_rebuilt hgoes fun tr y h ↦
          saves_of_isSave (makes_save h (List.prefix_append done rest))
        refine descentCalls_last id _ (hsaves.mono ?_) hancestors (absurd · hx) hrebuilt
        split <;> decide
    have hkey : done ++ rest = done ++ node.label ++ nextEdge :: suffix :=
      key_eq_of_drop hlabel hrest
    have hlen := length_lt_of_edgeOk hnode hrest
    cases node.children.find? fun child ↦ child.edge = nextEdge with
    | none =>
      cases binding with
      | none =>
        rintro ⟨rfl, rfl⟩
        exact descentCalls_last id _ saves_nil hancestors (by simp) (by simp)
      | some d =>
        intro hgoes
        obtain ⟨hsaves, hx, hrebuilt⟩ := makes_rebuilt hgoes fun tr y h ↦
          makes_addLeaf h ((List.prefix_append_right_inj done).mpr hlabel)
        exact descentCalls_last id _ (hsaves.mono (Nat.le_succ 2)) hancestors (absurd · hx) hrebuilt
    | some child =>
      intro hgoes
      have hpre : ∀ a ∈ (⟨node, nextEdge, done⟩ : Ancestor) :: ancestors,
          a.pre <+: done ++ node.label ++ nextEdge :: suffix :=
        hkey ▸ List.forall_mem_cons.mpr ⟨List.prefix_append done rest, hancestors⟩
      obtain ⟨down, saves, rfl, hdown, hsaves, hunchanged, hrebuilt⟩ := ih _ hlen hgoes hpre rfl
      rw [← hkey] at hdown hsaves hrebuilt
      refine ⟨_ :: down, saves, rfl, .next id ⟨node, hnode⟩ ?_ hdown, hsaves, hunchanged, ?_⟩
      · rw [hkey, List.prefix_append_right_inj]
        exact List.prefix_append [nextEdge] suffix
      · intro replacement ancestors' hx
        obtain ⟨hcount, hpres⟩ := hrebuilt replacement ancestors' hx
        refine ⟨?_, hpres⟩
        simp only [List.length_cons] at hcount ⊢
        omega

/-- **The second loop of `update`** makes one save for each ancestor. -/
theorem makes_ascend {key : Bytes} {ancestors : List Ancestor} {replacement : Option Digest}
    {x : IndexResult (Option Digest)} (h : Makes (Calls.ascend ancestors replacement) tr x)
    (hancestors : ∀ a ∈ ancestors, a.pre <+: key) : Saves key ancestors.length tr := by
  induction ancestors generalizing replacement tr with
  | nil =>
    obtain ⟨rfl, -⟩ := h
    exact saves_nil
  | cons a ancestors ih =>
    obtain ⟨ha, hancestors⟩ := List.forall_mem_cons.mp hancestors
    exact makes_save_bind h ha fun d tr h ↦ ih h hancestors

/-- The calls of an update along `key`: a descent, and then saves. -/
def IsUpdate (binding : Option Digest) (key : Bytes) (tr : List CallEvent) : Prop :=
  ∃ down saves, tr = down ++ saves ∧ IsDescent key down ∧
    Saves key (down.length + if binding.isSome then 2 else 0) saves

/-- **An update goes down along its key and saves its way up.** -/
theorem makes_update {root : Digest} {path : String} {binding : Option Digest} {key : Bytes}
    {x : IndexResult Digest} (hkey : encodeKey path = .ok key)
    (h : Makes (Calls.update root path binding) tr x) : IsUpdate binding key tr := by
  rw [Calls.update, hkey] at h
  replace h : Makes (Calls.descend binding [] key root none [] >>= fun _ ↦ _) tr x := h
  have hlast : ∀ {down : List CallEvent}, LoadsDown key [] none down →
      (if binding.isSome then 3 else 1) ≤ down.length + if binding.isSome then 2 else 0 := by
    intro down hdown
    obtain ⟨id, x, tr', rfl⟩ := hdown.head
    rw [List.length_cons]
    split <;> omega
  rcases makes_bind.mp h with ⟨e, rfl, h₁⟩ | ⟨descent, tr₁, tr₂, rfl, h₁, h₂⟩
  · obtain ⟨down, saves, rfl, hdown, hsaves, -⟩ := makes_descend h₁ (by simp)
    exact ⟨down, saves, rfl, hdown.isDescent, hsaves.mono (hlast hdown)⟩
  obtain ⟨down, saves, rfl, hdown, hsaves, -, hrebuilt⟩ := makes_descend h₁ (by simp)
  cases descent with
  | unchanged =>
    obtain ⟨rfl, -⟩ := h₂
    exact ⟨down, saves, by rw [List.append_nil], hdown.isDescent, hsaves.mono (hlast hdown)⟩
  | rebuilt replacement ancestors =>
    obtain ⟨hcount, hpres⟩ := hrebuilt _ _ rfl
    have hup : Saves key ancestors.length tr₂ := by
      rcases makes_bind.mp h₂ with ⟨e, -, h₃⟩ | ⟨replacement', tr₃, tr₄, rfl, h₃, rfl, -⟩
      · exact makes_ascend h₃ hpres
      · rw [List.append_nil]
        exact makes_ascend h₃ hpres
    refine ⟨down, saves ++ tr₂, by rw [List.append_assoc], hdown.isDescent,
      (hsaves.append hup).mono ?_⟩
    simp only [List.length_nil] at hcount
    split <;> omega

omit [Sha256] in
/-- `walk` with either filter goes down along its key. -/
theorem makes_walk {root : Digest} {path : String} {ancestors : Bool} {key : Bytes}
    {x : IndexResult (Option (String × Digest))} (hkey : encodeKey path = .ok key)
    (h : Makes (Calls.walk root path ancestors) tr x) : IsDescent key tr := by
  rw [Calls.walk, hkey] at h
  have hdown : LoadsDown ([] ++ key) [] none tr := makes_walkLoop h
  exact hdown.isDescent

omit [Sha256] in
theorem makes_get {root : Digest} {path : String} {key : Bytes} {x : IndexResult (Option Digest)}
    (hkey : encodeKey path = .ok key) (h : Makes (Calls.get root path) tr x) :
    IsDescent key tr := by
  rcases makes_bind.mp h with ⟨e, -, h₁⟩ | ⟨found, tr₁, tr₂, rfl, h₁, rfl, -⟩
  · exact makes_walk hkey h₁
  · rw [List.append_nil]
    exact makes_walk hkey h₁

/-- **Over any store `get`, `longest_prefix` and `update` return**, after one load for the root and
one at most for each byte of the key; `update` then makes its saves, each with one load at most. -/
theorem index_loops_end {σ : Type} (S : NodeStore σ) (s : σ) (root : Digest) (path : String)
    (binding : Option Digest) :
    (Calls.get root path).run (calls S) s = (get root path).run S.env s ∧
      (Calls.longestPrefix root path).run (calls S) s = (longestPrefix root path).run S.env s ∧
      (Calls.update root path binding).run (calls S) s = (update root path binding).run S.env s ∧
      match encodeKey path with
      | .ok key => IsDescent key ((Calls.get root path).trace (calls S) s) ∧
          IsDescent key ((Calls.longestPrefix root path).trace (calls S) s) ∧
          IsUpdate binding key ((Calls.update root path binding).trace (calls S) s)
      | .error _ => (Calls.get root path).trace (calls S) s = [] ∧
          (Calls.longestPrefix root path).trace (calls S) s = [] ∧
          (Calls.update root path binding).trace (calls S) s = [] := by
  refine ⟨Calls.run_get S root path s, Calls.run_longestPrefix S root path s,
    Calls.run_update S root path binding s, ?_⟩
  cases hkey : encodeKey path with
  | ok key =>
    exact ⟨makes_get hkey (Prog.makes_trace _ _ _), makes_walk hkey (Prog.makes_trace _ _ _),
      makes_update hkey (Prog.makes_trace _ _ _)⟩
  | error e =>
    rw [Calls.get, Calls.longestPrefix, Calls.walk, Calls.walk, Calls.update, hkey]
    exact ⟨rfl, rfl, rfl⟩

end RadixIndex

end Mst2
