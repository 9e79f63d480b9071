import Mst2Codec.Library.Handler
import Mst2Codec.Namespace.Radix.Index

/-!
# The index, call by call

A store sees the reads and inserts of the index, but not which of its methods they come from: a
load of the empty root reads nothing, and a save that leaves nothing behind inserts nothing.  Here
the methods of `Index` stand once more, over requests that show them: every call of `load` is one
request, and every call of `save` shows its arguments before it goes on.

`Call.body` says what these requests stand for.  Put in their place they give back the programs of
`Index` (`handle_update`, `handle_walk`), so a run over the calls of a store is a run over the store
(`run_update`, `run_get`, `run_longestPrefix`).
-/

set_option autoImplicit false

namespace Mst2

open Bytes Except

open Prog (Handles handle_bind handle_pure handle_ofExcept)

/-! ## Calls -/

/-- A call of a method of the index or of the store. -/
inductive Call where
  /-- `self.load(id, edge, prefix)` -/
  | load (id : Digest) (edge : Option UInt8) (pre : Bytes)
  /-- `self.save(node, prefix)` begins. -/
  | save (node : RadixNode) (pre : Bytes)
  /-- A call of the store. -/
  | store (r : Request)

namespace RadixIndex

/-- What a call returns; `save` goes on with calls of its own. -/
@[reducible] def Return : Call → Type
  | .load _ edge _ => IndexResult { node : RadixNode // EdgeOk edge node }
  | .save _ _ => Unit
  | .store r => Answer r

/-- Programs over calls. -/
abbrev CallM := Prog IndexError Call Return

/-- A call with what it returned. -/
abbrev CallEvent := Event Call Return

variable [Sha256] {α β σ : Type}

/-- What a call stands for. -/
def body : (c : Call) → Prog IndexError Request Answer (Return c)
  | .load id edge pre => (load id edge pre).attempt
  | .save _ _ => .pure ()
  | .store r => .call r .pure

/-- The calls of an index over a store. -/
def calls (S : NodeStore σ) : Env Call Return σ where
  answer
    | .load id edge pre, s => (load id edge pre).run S.env s
    | .save _ _, s => ((), s)
    | .store r, s => S.env.answer r s

theorem handles_body (S : NodeStore σ) : Handles body (calls S) S.env := by
  intro c s
  cases c with
  | load id edge pre => exact Prog.run_attempt _ _ _
  | save node pre => rfl
  | store r => rfl

omit [Sha256] in
/-- A program that makes no calls but those of the store. -/
def direct : IndexM α → CallM α
  | .pure a => .pure a
  | .fail e => .fail e
  | .call r k => .call (.store r) fun a ↦ direct (k a)

@[simp] theorem handle_direct (p : IndexM α) : (direct p).handle body = p := by
  induction p with
  | pure a => rfl
  | fail e => rfl
  | call r k ih => exact congrArg (Prog.call r) (funext ih)

/-! ## The methods -/

namespace Calls

omit [Sha256] in
/-- A call of `load`. -/
def load (id : Digest) (edge : Option UInt8) (pre : Bytes) :
    CallM { node : RadixNode // EdgeOk edge node } := .call (.load id edge pre) .ofExcept

omit [Sha256] in
/-- The compression step of `save`. -/
def absorb (node : RadixNode) (pre : Bytes) : CallM RadixNode :=
  match node.binding, node.children with
  | none, [childRef] => do
    let childPrefix ← direct (joinedKey pre node.label)
    let child ← load childRef.digest (some childRef.edge) childPrefix
    pure ⟨node.label ++ child.val.label, child.val.binding, child.val.children⟩
  | _, _ => pure node

/-- `save` -/
def save (node : RadixNode) (pre : Bytes) : CallM (Option Digest) := do
  .call (.save node pre) .pure
  if node.binding = none ∧ node.children = [] then pure none
  else do
    let node ← absorb node pre
    direct (validatePosition pre node)
    let node ← direct (ofCodec (RadixNode.new node.label node.binding node.children))
    let bytes := node.encode
    let id := sha256 bytes
    direct (insertNode id bytes)
    pure (some id)

/-- The split branch of `update`. -/
def splitNode (node : RadixNode) (common : ℕ) (done rest : Bytes) (binding : Digest) :
    CallM (Option Digest) := do
  let label := node.label.take common
  let lower := { node with label := node.label.drop common }
  let childPrefix ← direct (joinedKey done label)
  let childEdge := lower.label.headD 0
  let childId ← direct (requiredId (← save lower childPrefix))
  let children := setChild [] childEdge (some childId)
  match rest.drop common with
  | [] => save ⟨label, some binding, children⟩ done
  | edge :: suffix => do
    let leaf ← direct (ofCodec (RadixNode.new (edge :: suffix) (some binding) []))
    let leafId ← direct (requiredId (← save leaf childPrefix))
    save ⟨label, none, setChild children edge (some leafId)⟩ done

/-- The new-leaf branch of `update`. -/
def addLeaf (node : RadixNode) (done : Bytes) (edge : UInt8) (suffix : Bytes) (binding : Digest) :
    CallM (Option Digest) := do
  let leaf ← direct (ofCodec (RadixNode.new (edge :: suffix) (some binding) []))
  let leafId ← direct (requiredId (← save leaf (done ++ node.label)))
  save { node with children := setChild node.children edge (some leafId) } done

/-- The descent loop of `update`. -/
def descend (binding : Option Digest) (done rest : Bytes) (id : Digest) (edge : Option UInt8)
    (ancestors : List Ancestor) : CallM Descent := do
  let ⟨node, _hnode⟩ ← load id edge done
  let common := commonLen rest node.label
  if common < node.label.length then
    match binding with
    | none => pure .unchanged
    | some binding => do
      let replacement ← splitNode node common done rest binding
      pure (.rebuilt replacement ancestors)
  else
    match _hrest : rest.drop node.label.length with
    | [] =>
      if node.binding = binding then pure .unchanged
      else do
        let replacement ← save { node with binding := binding } done
        pure (.rebuilt replacement ancestors)
    | nextEdge :: suffix =>
      match node.children.find? fun child ↦ child.edge = nextEdge with
      | some child =>
        descend binding (done ++ node.label) (nextEdge :: suffix) child.digest (some nextEdge)
          (⟨node, nextEdge, done⟩ :: ancestors)
      | none =>
        match binding with
        | none => pure .unchanged
        | some binding => do
          let replacement ← addLeaf node done nextEdge suffix binding
          pure (.rebuilt replacement ancestors)
termination_by rest.length + if edge.isSome then 0 else 1
decreasing_by exact length_lt_of_edgeOk _hnode _hrest

/-- The second loop of `update`. -/
def ascend : List Ancestor → Option Digest → CallM (Option Digest)
  | [], replacement => pure replacement
  | a :: ancestors, replacement => do
    let replacement ←
      save { a.node with children := setChild a.node.children a.edge replacement } a.pre
    ascend ancestors replacement

/-- `update` -/
def update (root : Digest) (path : String) (binding : Option Digest) : CallM Digest := do
  let key ← direct (ofCodec (encodeKey path))
  match ← descend binding [] key root none [] with
  | .unchanged => pure root
  | .rebuilt replacement ancestors => do
    let replacement ← ascend ancestors replacement
    pure (replacement.getD emptyRoot)

omit [Sha256] in
/-- The loop of `walk`. -/
def walkLoop (path : String) (ancestors : Bool) (done rest : Bytes) (id : Digest)
    (edge : Option UInt8) (found : Option (String × Digest)) :
    CallM (Option (String × Digest)) := do
  let ⟨node, _hnode⟩ ← load id edge done
  if node.label <+: rest then do
    let found ← direct (remember (done ++ node.label) node.binding found)
    match _hrest : rest.drop node.label.length with
    | [] => pure (found.filter fun f ↦ ancestors || f.1 = path)
    | nextEdge :: suffix =>
      match node.children.find? fun child ↦ child.edge = nextEdge with
      | some child =>
        walkLoop path ancestors (done ++ node.label) (nextEdge :: suffix) child.digest
          (some nextEdge) found
      | none => pure (if ancestors then found else none)
  else pure (if ancestors then found else none)
termination_by rest.length + if edge.isSome then 0 else 1
decreasing_by exact length_lt_of_edgeOk _hnode _hrest

omit [Sha256] in
/-- `walk` -/
def walk (root : Digest) (path : String) (ancestors : Bool) :
    CallM (Option (String × Digest)) := do
  let key ← direct (ofCodec (encodeKey path))
  walkLoop path ancestors [] key root none none

omit [Sha256] in
/-- `get` -/
def get (root : Digest) (path : String) : CallM (Option Digest) := do
  let found ← walk root path false
  pure (found.map Prod.snd)

omit [Sha256] in
/-- `longest_prefix` -/
def longestPrefix (root : Digest) (path : String) : CallM (Option (String × Digest)) :=
  walk root path true

/-! ## They are those of the index -/

@[simp] theorem handle_load (id : Digest) (edge : Option UInt8) (pre : Bytes) :
    (load id edge pre).handle body = RadixIndex.load id edge pre := by
  refine Eq.trans ?_ (bind_pure (RadixIndex.load id edge pre))
  rw [← Prog.attempt_bind_ofExcept]
  show Prog.bind _ _ = Prog.bind _ _
  refine congrArg _ (funext fun x ↦ ?_)
  rw [bind_pure]
  exact handle_ofExcept x

@[simp] theorem handle_absorb (node : RadixNode) (pre : Bytes) :
    (absorb node pre).handle body = RadixIndex.absorb node pre := by
  obtain ⟨label, binding, children⟩ := node
  rcases binding with _ | d
  · rcases children with _ | ⟨childRef, _ | ⟨childRef', children⟩⟩
    · rfl
    · simp only [absorb, RadixIndex.absorb, handle_bind, handle_direct, handle_load, handle_pure]
    · rfl
  · rfl

@[simp] theorem handle_save (node : RadixNode) (pre : Bytes) :
    (save node pre).handle body = RadixIndex.save node pre := by
  rw [save, RadixIndex.save]
  show Prog.handle body (if _ then _ else _) = _
  split
  · rfl
  · simp only [handle_bind, handle_direct, handle_absorb, handle_pure]

@[simp] theorem handle_splitNode (node : RadixNode) (common : ℕ) (done rest : Bytes)
    (binding : Digest) : (splitNode node common done rest binding).handle body =
      RadixIndex.splitNode node common done rest binding := by
  rw [splitNode, RadixIndex.splitNode]
  simp only [handle_bind, handle_direct, handle_save]
  refine bind_congr fun childPrefix ↦ bind_congr fun child ↦ bind_congr fun childId ↦ ?_
  cases rest.drop common with
  | nil => exact handle_save _ _
  | cons edge suffix => simp only [handle_bind, handle_direct, handle_save]

@[simp] theorem handle_addLeaf (node : RadixNode) (done : Bytes) (edge : UInt8) (suffix : Bytes)
    (binding : Digest) : (addLeaf node done edge suffix binding).handle body =
      RadixIndex.addLeaf node done edge suffix binding := by
  simp only [addLeaf, RadixIndex.addLeaf, handle_bind, handle_direct, handle_save]

@[simp] theorem handle_descend (binding : Option Digest) (done rest : Bytes) (id : Digest)
    (edge : Option UInt8) (ancestors : List Ancestor) :
    (descend binding done rest id edge ancestors).handle body =
      RadixIndex.descend binding done rest id edge ancestors := by
  induction hn : rest.length + (if edge.isSome then 0 else 1) using Nat.strong_induction_on
    generalizing done rest id edge ancestors with
  | _ n ih =>
    subst hn
    rw [descend, RadixIndex.descend, handle_bind, handle_load]
    refine bind_congr fun loaded ↦ ?_
    obtain ⟨node, hnode⟩ := loaded
    dsimp only
    split
    · cases binding with
      | none => rfl
      | some d => simp only [handle_bind, handle_splitNode, handle_pure]
    · rcases hrest : rest.drop node.label.length with _ | ⟨nextEdge, suffix⟩
      · dsimp only
        split
        · rfl
        · simp only [handle_bind, handle_save, handle_pure]
      · dsimp only
        cases node.children.find? fun child ↦ child.edge = nextEdge with
        | some child =>
          exact ih _ (length_lt_of_edgeOk hnode hrest) _ _ _ _ _ rfl
        | none =>
          cases binding with
          | none => rfl
          | some d => simp only [handle_bind, handle_addLeaf, handle_pure]

@[simp] theorem handle_ascend (ancestors : List Ancestor) (replacement : Option Digest) :
    (ascend ancestors replacement).handle body = RadixIndex.ascend ancestors replacement := by
  induction ancestors generalizing replacement with
  | nil => rfl
  | cons a ancestors ih =>
    rw [ascend, RadixIndex.ascend, handle_bind, handle_save]
    exact bind_congr fun _ ↦ ih _

/-- **`update`, call by call.** -/
theorem handle_update (root : Digest) (path : String) (binding : Option Digest) :
    (update root path binding).handle body = RadixIndex.update root path binding := by
  rw [update, RadixIndex.update, handle_bind, handle_direct]
  refine bind_congr fun key ↦ ?_
  rw [handle_bind, handle_descend]
  refine bind_congr fun descent ↦ ?_
  cases descent with
  | unchanged => rfl
  | rebuilt replacement ancestors => simp only [handle_bind, handle_ascend, handle_pure]

@[simp] theorem handle_walkLoop (path : String) (ancestors : Bool) (done rest : Bytes) (id : Digest)
    (edge : Option UInt8) (found : Option (String × Digest)) :
    (walkLoop path ancestors done rest id edge found).handle body =
      RadixIndex.walkLoop path ancestors done rest id edge found := by
  induction hn : rest.length + (if edge.isSome then 0 else 1) using Nat.strong_induction_on
    generalizing done rest id edge found with
  | _ n ih =>
    subst hn
    rw [walkLoop, RadixIndex.walkLoop, handle_bind, handle_load]
    refine bind_congr fun loaded ↦ ?_
    obtain ⟨node, hnode⟩ := loaded
    dsimp only
    split
    · rw [handle_bind, handle_direct]
      refine bind_congr fun found ↦ ?_
      rcases hrest : rest.drop node.label.length with _ | ⟨nextEdge, suffix⟩
      · rfl
      · dsimp only
        cases node.children.find? fun child ↦ child.edge = nextEdge with
        | some child => exact ih _ (length_lt_of_edgeOk hnode hrest) _ _ _ _ _ rfl
        | none => rfl
    · rfl

/-- **`walk`, call by call.** -/
theorem handle_walk (root : Digest) (path : String) (ancestors : Bool) :
    (walk root path ancestors).handle body = RadixIndex.walk root path ancestors := by
  simp only [walk, RadixIndex.walk, handle_bind, handle_direct, handle_walkLoop]

/-- A run of `update` over the calls. -/
theorem run_update (S : NodeStore σ) (root : Digest) (path : String) (binding : Option Digest)
    (s : σ) : (update root path binding).run (calls S) s =
      (RadixIndex.update root path binding).run S.env s := by
  rw [← handle_update, Prog.run_handle (handles_body S)]

/-- A run of `get` over the calls. -/
theorem run_get (S : NodeStore σ) (root : Digest) (path : String) (s : σ) :
    (get root path).run (calls S) s = (RadixIndex.get root path).run S.env s := by
  rw [← Prog.run_handle (handles_body S), get, RadixIndex.get, handle_bind, handle_walk]
  rfl

/-- A run of `longest_prefix` over the calls. -/
theorem run_longestPrefix (S : NodeStore σ) (root : Digest) (path : String) (s : σ) :
    (longestPrefix root path).run (calls S) s =
      (RadixIndex.longestPrefix root path).run S.env s := by
  rw [← Prog.run_handle (handles_body S), longestPrefix, RadixIndex.longestPrefix, handle_walk]

end Calls

end RadixIndex

end Mst2
