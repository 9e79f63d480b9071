import Mst2Codec.Namespace.Radix.Bounds
import Mst2Codec.Namespace.Radix.FiniteMap

/-!
# Updates share what they do not change

An update copies the nodes on the path of its key and refers to all others by the digests they have
already.  `ChildBelow held root` are the child digests that occur in the graph below a root.  Every
node an update inserts has only children that occur below the old root or that it has inserted
itself (`sharing`, `shares_update`).
-/

set_option autoImplicit false

namespace Mst2

open Bytes Except

open Prog (Ensures ensures_bind)

namespace RadixIndex

/-! ## The graph below a root -/

/-- The node held under `id` has a child with the digest `d`. -/
def ChildOf (held : Digest → Option Bytes) (id d : Digest) : Prop :=
  ∃ b node child, held id = some b ∧ RadixNode.decode b = .ok node ∧ child ∈ node.children ∧
    child.digest = d

/-- `d` occurs below `root` as the digest of a child. -/
def ChildBelow (held : Digest → Option Bytes) : Digest → Digest → Prop :=
  Relation.TransGen (ChildOf held)

variable [Sha256] {held : Digest → Option Bytes} {root d : Digest} {log log' : List Bytes}

/-- One of the strings has the digest `d`. -/
def Added (log : List Bytes) (d : Digest) : Prop := ∃ b ∈ log, sha256 b = d

/-- `d` occurs below the old root, or has been inserted. -/
def Known (held : Digest → Option Bytes) (root : Digest) (log : List Bytes) (d : Digest) : Prop :=
  ChildBelow held root d ∨ Added log d

/-- All children of the node are known. -/
def Linked (held : Digest → Option Bytes) (root : Digest) (log : List Bytes)
    (node : RadixNode) : Prop := ∀ child ∈ node.children, Known held root log child.digest

theorem Added.mono (h : Added log d) (hle : log ⊆ log') : Added log' d := by
  obtain ⟨b, hb, rfl⟩ := h
  exact ⟨b, hle hb, rfl⟩

theorem Known.mono (h : Known held root log d) (hle : log ⊆ log') : Known held root log' d :=
  h.imp_right fun h ↦ h.mono hle

theorem Linked.mono {node : RadixNode} (h : Linked held root log node) (hle : log ⊆ log') :
    Linked held root log' node := fun child hchild ↦ (h child hchild).mono hle

theorem linked_nil {label : Bytes} {binding : Option Digest} :
    Linked held root log ⟨label, binding, []⟩ := fun child hchild ↦ by cases hchild

/-- Replacing a child of a node. -/
theorem linked_setChild {node : RadixNode} {edge : UInt8} {replacement : Option Digest}
    (h : Linked held root log node) (hd : ∀ d, replacement = some d → Known held root log d) :
    Linked held root log { node with children := setChild node.children edge replacement } := by
  intro child hchild
  replace hchild : child ∈ setChild node.children edge replacement := hchild
  unfold setChild at hchild
  split at hchild
  · rename_i index d _
    rw [List.mem_iff_getElem?] at hchild
    obtain ⟨i, hi⟩ := hchild
    rw [List.getElem?_modify] at hi
    obtain ⟨child', hchild', rfl⟩ := Option.map_eq_some_iff.mp hi
    split
    · exact hd d rfl
    · exact h child' (List.mem_of_getElem? hchild')
  · exact h child (List.mem_of_mem_eraseIdx hchild)
  · rename_i index d _
    rcases List.eq_or_mem_of_mem_insertIdx hchild with rfl | hchild
    · exact hd d rfl
    · exact h child hchild
  · exact h child hchild

/-! ## What is inserted is linked -/

/-- Inserts of nodes whose children are known, where a node read under a known digest is one, too.
The ghost state is what has been inserted. -/
def sharing (held : Digest → Option Bytes) (root : Digest) :
    Prog.Spec Request Answer (List Bytes) where
  pre
    | _, .read _ => True
    | log, .insert id b => sha256 b = id ∧ ∃ node : RadixNode, node.Shaped ∧ b = node.encode ∧
        Linked held root log node
  post
    | log, .read id, answer, log' => log' = log ∧ ∀ b, answer = .ok b → sha256 b = id →
        id = root ∨ Known held root log id →
        ∀ node, RadixNode.decode b = .ok node → Linked held root log node
    | log, .insert _ b, .ok (), log' => log' = b :: log
    | log, .insert _ _, .error _, log' => log' = log

/-- The program inserts only such nodes, and a value it returns satisfies `Q`. -/
def Shares {α : Type} (held : Digest → Option Bytes) (root : Digest) (p : IndexM α)
    (log : List Bytes) (Q : α → List Bytes → Prop) : Prop :=
  p.Ensures (sharing held root) log fun x log' ↦ log ⊆ log' ∧ ∀ a, x = .ok a → Q a log'

section rules

variable {α β : Type} {Q : α → List Bytes → Prop} {R : β → List Bytes → Prop}

theorem shares_pure {a : α} (h : Q a log) : Shares held root (pure a) log Q :=
  ⟨List.Subset.refl _, fun _ ha ↦ ok.inj ha ▸ h⟩

theorem shares_ofCodec {x : CodecResult α} (h : ∀ a, x = .ok a → Q a log) :
    Shares held root (ofCodec x) log Q := by
  cases x with
  | error e => exact ⟨List.Subset.refl _, fun a ha ↦ by cases ha⟩
  | ok a => exact shares_pure (h a rfl)

/-- A program without calls, and what follows it. -/
theorem shares_quiet_bind {p : IndexM α} (hp : Quiet p) {f : α → IndexM β}
    (hf : ∀ a, p = pure a → Shares held root (f a) log R) : Shares held root (p >>= f) log R := by
  obtain ⟨x, rfl⟩ := hp
  cases x with
  | error e => exact ⟨List.Subset.refl _, fun a ha ↦ by cases ha⟩
  | ok a => exact hf a rfl

theorem Shares.bind {p : IndexM α} {f : α → IndexM β} (hp : Shares held root p log Q)
    (hf : ∀ a log', log ⊆ log' → Q a log' → Shares held root (f a) log' R) :
    Shares held root (p >>= f) log R := by
  refine ensures_bind.mpr (hp.mono fun x log' ⟨hle, hx⟩ ↦ ?_)
  cases x with
  | error e => exact ⟨hle, fun b hb ↦ by cases hb⟩
  | ok a =>
    exact (hf a log' hle (hx a rfl)).mono fun y log'' ⟨hle', hy⟩ ↦
      ⟨List.Subset.trans hle hle', hy⟩

/-- A node that is read under a known digest is linked. -/
theorem shares_loadStored {id : Digest} (hid : id = root ∨ Known held root log id) :
    Shares held root (loadStored id) log fun node log' ↦
      Linked held root log node ∧ log' = log := by
  refine ⟨trivial, ?_⟩
  rintro answer log' ⟨rfl, hanswer⟩
  cases answer with
  | error e => exact ⟨List.Subset.refl _, fun a ha ↦ by cases ha⟩
  | ok b =>
    show Shares held root (ofCodec _ >>= fun _ ↦ ofCodec _ >>= fun _ ↦ ofCodec _) log' _
    refine shares_quiet_bind (quiet_ofCodec _) fun _ _ ↦ ?_
    refine shares_quiet_bind (quiet_ofCodec _) fun _ hreject ↦ ?_
    have hdigest : sha256 b = id := by simpa using ofCodec_eq_pure.mp hreject
    exact shares_ofCodec fun node hnode ↦ ⟨hanswer b rfl hdigest hid node hnode, rfl⟩

/-- A node that is loaded by a known digest is linked. -/
theorem shares_load {id : Digest} {edge : Option UInt8} {pre : Bytes}
    (hid : id = root ∨ Known held root log id) :
    Shares held root (load id edge pre) log fun node log' ↦
      Linked held root log node.val ∧ log' = log := by
  have hnode : Shares held root (if id = emptyRoot then pure RadixNode.empty else loadStored id) log
      fun node log' ↦ Linked held root log node ∧ log' = log := by
    split
    · exact shares_pure ⟨linked_nil, rfl⟩
    · exact shares_loadStored hid
  rw [load_eq]
  refine hnode.bind ?_
  rintro node log - ⟨hnode, rfl⟩
  rw [checkLoaded]
  split
  · exact shares_quiet_bind (quiet_validatePosition _ _) fun _ _ ↦ shares_pure ⟨hnode, rfl⟩
  · exact shares_ofCodec fun _ h ↦ by cases h

end rules

/-! ## The methods share -/

section methods

variable {node : RadixNode} {done rest pre : Bytes}

theorem shares_insertNode (hshaped : node.Shaped) (hnode : Linked held root log node) :
    Shares held root (insertNode (sha256 node.encode) node.encode) log fun _ log' ↦
      Added log' node.id := by
  refine ⟨⟨rfl, node, hshaped, rfl, hnode⟩, fun answer log' hlog ↦ ?_⟩
  cases answer with
  | error e =>
    obtain rfl : log' = log := hlog
    exact ⟨List.Subset.refl _, fun a ha ↦ by cases ha⟩
  | ok u =>
    obtain rfl : log' = node.encode :: log := hlog
    exact ⟨List.subset_cons_self _ _, fun _ _ ↦ ⟨_, .head _, rfl⟩⟩

/-- Absorbing a child takes over its children. -/
theorem shares_absorb (hnode : Linked held root log node) :
    Shares held root (absorb node pre) log fun node' log' ↦
      Linked held root log node' ∧ log' = log := by
  rw [absorb]
  split
  · rename_i childRef _ hchildren
    refine shares_quiet_bind (quiet_joinedKey _ _) fun _ _ ↦ ?_
    refine (shares_load (.inr (hnode childRef (by simp [hchildren])))).bind ?_
    rintro child _ - ⟨hchild, rfl⟩
    exact shares_pure ⟨hchild, rfl⟩
  · exact shares_pure ⟨hnode, rfl⟩

/-- **A save inserts a linked node**, if it leaves one. -/
theorem shares_save (hnode : Linked held root log node) :
    Shares held root (save node pre) log fun replacement log' ↦
      ∀ d, replacement = some d → Added log' d := by
  rw [save]
  split
  · exact shares_pure fun d hd ↦ by cases hd
  refine (shares_absorb hnode).bind ?_
  rintro node' log - ⟨hnode', rfl⟩
  refine shares_quiet_bind (quiet_validatePosition _ _) fun _ _ ↦ ?_
  refine shares_quiet_bind (quiet_ofCodec _) fun n hn ↦ ?_
  obtain ⟨rfl, hshaped⟩ := RadixNode.new_eq_ok.mp (ofCodec_eq_pure.mp hn)
  refine (shares_insertNode hshaped hnode').bind fun _ log' _ hadded ↦ shares_pure ?_
  rintro d ⟨⟩
  exact hadded

/-- Saving a node that has to be left. -/
theorem shares_saveRequired {α : Type} {f : Digest → IndexM α} {Q : α → List Bytes → Prop}
    (hnode : Linked held root log node)
    (hf : ∀ d log', log ⊆ log' → Added log' d → Shares held root (f d) log' Q) :
    Shares held root (save node pre >>= fun id ↦ requiredId id >>= f) log Q := by
  refine (shares_save hnode).bind fun replacement log' hle hadded ↦ ?_
  refine shares_quiet_bind (quiet_ofCodec _) fun d hd ↦ ?_
  exact hf d log' hle (hadded d (okOr_eq_ok.mp (ofCodec_eq_pure.mp hd)))

/-- Saving a new leaf. -/
theorem shares_saveLeaf {α : Type} {label : Bytes} {d : Digest} {f : Digest → IndexM α}
    {Q : α → List Bytes → Prop}
    (hf : ∀ d log', log ⊆ log' → Added log' d → Shares held root (f d) log' Q) :
    Shares held root (do
      let leaf ← ofCodec (RadixNode.new label (some d) [])
      let leafId ← requiredId (← save leaf pre)
      f leafId) log Q := by
  refine shares_quiet_bind (quiet_ofCodec _) fun leaf hleaf ↦ ?_
  obtain ⟨rfl, -⟩ := RadixNode.new_eq_ok.mp (ofCodec_eq_pure.mp hleaf)
  exact shares_saveRequired linked_nil hf

theorem shares_splitNode {common : ℕ} {d : Digest} (hnode : Linked held root log node) :
    Shares held root (splitNode node common done rest d) log fun replacement log' ↦
      ∀ d, replacement = some d → Added log' d := by
  rw [splitNode]
  refine shares_quiet_bind (quiet_joinedKey _ _) fun childPrefix _ ↦ ?_
  have hlower : Linked held root log { node with label := node.label.drop common } := hnode
  refine shares_saveRequired hlower fun childId log₁ _ hchild ↦ ?_
  have hlinked : ∀ {label : Bytes} {binding : Option Digest} {edge : UInt8},
      Linked held root log₁ ⟨label, binding, setChild [] edge (some childId)⟩ := by
    intro label binding edge
    have hnil : Linked held root log₁ ⟨label, binding, []⟩ := linked_nil
    refine linked_setChild hnil ?_
    rintro _ ⟨⟩
    exact .inr hchild
  split
  · exact shares_save hlinked
  · refine shares_saveLeaf fun leafId log₂ hle hleaf ↦ shares_save ?_
    refine linked_setChild (hlinked.mono hle) ?_
    rintro _ ⟨⟩
    exact .inr hleaf

theorem shares_addLeaf {edge : UInt8} {suffix : Bytes} {d : Digest}
    (hnode : Linked held root log node) :
    Shares held root (addLeaf node done edge suffix d) log fun replacement log' ↦
      ∀ d, replacement = some d → Added log' d := by
  rw [addLeaf]
  refine shares_saveLeaf fun leafId log' hle hleaf ↦ shares_save ?_
  refine linked_setChild (hnode.mono hle) ?_
  rintro _ ⟨⟩
  exact .inr hleaf

/-- A descent leaves a digest it has inserted and ancestors it has loaded. -/
def DescentLinked (held : Digest → Option Bytes) (root : Digest) : Descent → List Bytes → Prop
  | .unchanged, _ => True
  | .rebuilt replacement ancestors, log => (∀ d, replacement = some d → Added log d) ∧
      ∀ a ∈ ancestors, Linked held root log a.node

theorem shares_rebuilt {p : IndexM (Option Digest)} {ancestors : List Ancestor}
    (hp : Shares held root p log fun replacement log' ↦ ∀ d, replacement = some d → Added log' d)
    (hancestors : ∀ a ∈ ancestors, Linked held root log a.node) :
    Shares held root (p >>= fun replacement ↦ pure (.rebuilt replacement ancestors)) log
      (DescentLinked held root) :=
  hp.bind fun _ _ hle hadded ↦ shares_pure ⟨hadded, fun a ha ↦ (hancestors a ha).mono hle⟩

/-- **The loop of `update`.** -/
theorem shares_descend {binding : Option Digest} {id : Digest} {edge : Option UInt8}
    {ancestors : List Ancestor} (hid : id = root ∨ Known held root log id)
    (hancestors : ∀ a ∈ ancestors, Linked held root log a.node) :
    Shares held root (descend binding done rest id edge ancestors) log
      (DescentLinked held root) := by
  induction hn : rest.length + (if edge.isSome then 0 else 1) using Nat.strong_induction_on
    generalizing done rest id edge ancestors with
  | _ n ih =>
    subst hn
    rw [descend]
    refine (shares_load hid).bind ?_
    rintro ⟨node, hnode⟩ log - ⟨hlinked, rfl⟩
    dsimp only at hlinked ⊢
    split
    · cases binding with
      | none => exact shares_pure trivial
      | some d => exact shares_rebuilt (shares_splitNode hlinked) hancestors
    rcases hrest : rest.drop node.label.length with _ | ⟨nextEdge, suffix⟩ <;> dsimp only
    · split
      · exact shares_pure trivial
      · have hbound : Linked held root log { node with binding := binding } := hlinked
        exact shares_rebuilt (shares_save hbound) hancestors
    cases hfind : node.children.find? fun child ↦ child.edge = nextEdge with
    | none =>
      cases binding with
      | none => exact shares_pure trivial
      | some d => exact shares_rebuilt (shares_addLeaf hlinked) hancestors
    | some child =>
      exact ih _ (length_lt_of_edgeOk hnode hrest)
        (.inr (hlinked child (List.mem_of_find?_eq_some hfind)))
        (List.forall_mem_cons.mpr ⟨hlinked, hancestors⟩) rfl

/-- The second loop of `update`. -/
theorem shares_ascend {ancestors : List Ancestor} {replacement : Option Digest}
    (hadded : ∀ d, replacement = some d → Added log d)
    (hancestors : ∀ a ∈ ancestors, Linked held root log a.node) :
    Shares held root (ascend ancestors replacement) log fun replacement' log' ↦
      ∀ d, replacement' = some d → Added log' d := by
  induction ancestors generalizing log replacement with
  | nil => exact shares_pure hadded
  | cons a ancestors ih =>
    obtain ⟨ha, hancestors⟩ := List.forall_mem_cons.mp hancestors
    refine (shares_save (linked_setChild ha fun d hd ↦ .inr (hadded d hd))).bind ?_
    exact fun _ _ hle hadded ↦ ih hadded fun a ha ↦ (hancestors a ha).mono hle

/-- **Every node an update inserts has children that occur below the old root or that it has
inserted.** -/
theorem shares_update {path : String} {binding : Option Digest} :
    Shares held root (update root path binding) log fun root' log' ↦
      root' = root ∨ root' = emptyRoot ∨ Added log' root' := by
  refine shares_quiet_bind (quiet_ofCodec _) fun key _ ↦ ?_
  refine (shares_descend (.inl rfl) (by simp)).bind fun descent log₂ _ hdescent ↦ ?_
  cases descent with
  | unchanged => exact shares_pure (.inl rfl)
  | rebuilt replacement ancestors =>
    refine (shares_ascend hdescent.1 hdescent.2).bind fun replacement' log₃ _ hadded ↦ ?_
    refine shares_pure (.inr ?_)
    cases replacement' with
    | none => exact .inl rfl
    | some d => exact .inr (hadded d rfl)

end methods

end RadixIndex

end Mst2
