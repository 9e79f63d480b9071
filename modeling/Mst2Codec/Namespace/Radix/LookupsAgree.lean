import Mst2Codec.Library.Eval
import Mst2Codec.Namespace.Radix.Bounds
import Mst2Codec.Namespace.Radix.FiniteMap

/-!
# The two lookups agree on any graph

Over a store that answers each read in the same way whenever it is asked, with bytes or with an
error, a lookup is a function of the root and the path.  `Met` are the bindings a lookup meets on
its way down, whatever the graph looks like: each under the key of a valid path that the key goes
on from, and each with a longer key than the one before.  `longest_prefix` returns the last of them
and `get` that of its own path, and a lookup of an ancestor meets those of the path that are not
below the ancestor (`Met.ancestor`).  So `longest_prefix` returns what `get` finds
(`lookups_agree`).
-/

set_option autoImplicit false

namespace Mst2

open Bytes Except

open Prog (eval_bind eval_ofExcept run_of_only only_ofExcept)

/-! ## Fixed contents -/

/-- Reads give the same answer whenever they are made. -/
def NodeStore.Fixed {σ : Type} (S : NodeStore σ) (contents : Digest → IndexResult Bytes) : Prop :=
  ∀ s id, (S.read s id).1 = contents id

/-- The answers of such a store; lookups make no inserts. -/
def fixedAnswer (contents : Digest → IndexResult Bytes) : (r : Request) → Answer r
  | .read id => contents id
  | .insert _ _ => .ok ()

/-- The request is a read. -/
def IsRead : Request → Prop
  | .read _ => True
  | .insert _ _ => False

namespace RadixIndex

variable [Sha256] {σ : Type} {contents : Digest → IndexResult Bytes}

omit [Sha256] in
theorem Quiet.only {α : Type} {p : IndexM α} (hp : Quiet p) : p.Only IsRead := by
  obtain ⟨x, rfl⟩ := hp
  exact only_ofExcept x

theorem only_load (id : Digest) (edge : Option UInt8) (pre : Bytes) :
    (load id edge pre).Only IsRead := by
  rw [load_eq]
  refine Prog.Only.bind ?_ fun node ↦ (quiet_checkLoaded _ _ node).only
  split
  · exact trivial
  · have hread : (readNode id).Only IsRead := ⟨trivial, fun _ ↦ only_ofExcept _⟩
    refine hread.bind fun b ↦ Quiet.only ?_
    exact (quiet_ofCodec _).bind fun _ ↦ (quiet_ofCodec _).bind fun _ ↦ quiet_ofCodec _

theorem only_walkLoop (path : String) (ancestors : Bool) (done rest : Bytes) (id : Digest)
    (edge : Option UInt8) (found : Option (String × Digest)) :
    (walkLoop path ancestors done rest id edge found).Only IsRead := by
  induction hn : rest.length + (if edge.isSome then 0 else 1) using Nat.strong_induction_on
    generalizing done rest id edge found with
  | _ n ih =>
    subst hn
    rw [walkLoop]
    refine (only_load _ _ _).bind fun loaded ↦ ?_
    obtain ⟨node, hnode⟩ := loaded
    dsimp only
    split
    · refine (quiet_remember _ _ _).only.bind fun found ↦ ?_
      rcases hrest : rest.drop node.label.length with _ | ⟨nextEdge, suffix⟩
      · exact trivial
      · dsimp only
        cases node.children.find? fun child ↦ child.edge = nextEdge with
        | some child => exact ih _ (length_lt_of_edgeOk hnode hrest) _ _ _ _ _ rfl
        | none => exact trivial
    · exact trivial

/-- Over a store with fixed contents, `walk` is a function. -/
theorem run_walk {S : NodeStore σ} (hS : S.Fixed contents) (root : Digest) (path : String)
    (ancestors : Bool) (s : σ) : ((walk root path ancestors).run S.env s).1 =
      (walk root path ancestors).eval (fixedAnswer contents) := by
  refine run_of_only (P := IsRead) (fun r s hr ↦ ?_)
    ((quiet_ofCodec _).only.bind fun _ ↦ only_walkLoop _ _ _ _ _ _ _) s
  cases r with
  | read id => exact hS s id
  | insert id b => exact hr.elim

/-! ## The bindings a lookup meets -/

/-- The binding of a node, with the path whose key ends there. -/
def Entry (key : Bytes) : Option Digest → List (String × Digest) → Prop
  | none, here => here = []
  | some d, here => ∃ path, ValidPath path ∧ key = keyOf path ∧ here = [(path, d)]

/-- The bindings that a lookup meets from the offset after `done` on, if all its loads succeed. -/
inductive Met (contents : Digest → IndexResult Bytes) :
    Bytes → Bytes → Digest → Option UInt8 → List (String × Digest) → Prop
  /-- The key leaves the label. -/
  | off {done rest : Bytes} {id : Digest} {edge : Option UInt8}
      (node : { node : RadixNode // EdgeOk edge node })
      (hload : (load id edge done).eval (fixedAnswer contents) = .ok node)
      (hlabel : ¬ node.val.label <+: rest) : Met contents done rest id edge []
  /-- The key ends at the node. -/
  | full {done : Bytes} {id : Digest} {edge : Option UInt8}
      (node : { node : RadixNode // EdgeOk edge node }) {here : List (String × Digest)}
      (hload : (load id edge done).eval (fixedAnswer contents) = .ok node)
      (hhere : Entry (done ++ node.val.label) node.val.binding here) :
      Met contents done node.val.label id edge here
  /-- The key goes on where the node has no child. -/
  | leaf {done : Bytes} {id : Digest} {edge : Option UInt8}
      (node : { node : RadixNode // EdgeOk edge node }) {here : List (String × Digest)} {e : UInt8}
      {suffix : Bytes} (hload : (load id edge done).eval (fixedAnswer contents) = .ok node)
      (hhere : Entry (done ++ node.val.label) node.val.binding here)
      (hfind : (node.val.children.find? fun child ↦ child.edge = e) = none) :
      Met contents done (node.val.label ++ e :: suffix) id edge here
  /-- The key goes on in a child. -/
  | next {done : Bytes} {id : Digest} {edge : Option UInt8}
      (node : { node : RadixNode // EdgeOk edge node }) {here below : List (String × Digest)}
      {e : UInt8} {suffix : Bytes} {child : RadixChild}
      (hload : (load id edge done).eval (fixedAnswer contents) = .ok node)
      (hhere : Entry (done ++ node.val.label) node.val.binding here)
      (hfind : (node.val.children.find? fun child ↦ child.edge = e) = some child)
      (htail : Met contents (done ++ node.val.label) (e :: suffix) child.digest (some e) below) :
      Met contents done (node.val.label ++ e :: suffix) id edge (here ++ below)

omit [Sha256] in
theorem eval_ofCodec_eq_ok {α : Type} {f : (r : Request) → Answer r} {x : CodecResult α} {a : α} :
    (ofCodec x).eval f = .ok a ↔ x = .ok a := by
  rw [ofCodec, eval_ofExcept]
  cases x with
  | error e => exact ⟨fun h ↦ (by cases h), fun h ↦ (by cases h)⟩
  | ok b => exact ⟨fun h ↦ congrArg _ (ok.inj h), fun h ↦ congrArg _ (ok.inj h)⟩

omit [Sha256] in
theorem eval_remember {f : (r : Request) → Answer r} {key : Bytes} {binding : Option Digest}
    {found found' : Option (String × Digest)} :
    (remember key binding found).eval f = .ok found' ↔
      ∃ here, Entry key binding here ∧ found' = here.getLast?.or found := by
  cases binding with
  | none =>
    constructor
    · intro h
      exact ⟨[], rfl, (ok.inj h).symm⟩
    · rintro ⟨_, rfl, rfl⟩
      rfl
  | some d =>
    show (ofCodec (decodeKey key) >>= fun matched ↦ pure (some (matched, d))).eval f = _ ↔ _
    rw [eval_bind, bind_eq_ok]
    constructor
    · rintro ⟨path, hpath, h⟩
      obtain ⟨hvalid, hkey⟩ := decodeKey_eq_ok.mp (eval_ofCodec_eq_ok.mp hpath)
      exact ⟨_, ⟨path, hvalid, hkey, rfl⟩, (ok.inj h).symm⟩
    · rintro ⟨_, ⟨path, hvalid, hkey, rfl⟩, rfl⟩
      exact ⟨path, eval_ofCodec_eq_ok.mpr (decodeKey_eq_ok.mpr ⟨hvalid, hkey⟩), rfl⟩

/-- One turn of the loop of `walk`. -/
theorem eval_walkLoop (f : (r : Request) → Answer r) (path : String) (ancestors : Bool)
    (done rest : Bytes) (id : Digest) (edge : Option UInt8) (found : Option (String × Digest)) :
    (walkLoop path ancestors done rest id edge found).eval f =
      (load id edge done).eval f >>= fun node ↦
        if node.val.label <+: rest then
          (remember (done ++ node.val.label) node.val.binding found).eval f >>= fun found ↦
            match rest.drop node.val.label.length with
            | [] => .ok (found.filter fun f ↦ ancestors || f.1 = path)
            | nextEdge :: suffix =>
              match node.val.children.find? fun child ↦ child.edge = nextEdge with
              | some child =>
                (walkLoop path ancestors (done ++ node.val.label) (nextEdge :: suffix)
                  child.digest (some nextEdge) found).eval f
              | none => .ok (if ancestors then found else none)
        else .ok (if ancestors then found else none) := by
  rw [walkLoop, eval_bind]
  refine bind_congr fun loaded ↦ ?_
  obtain ⟨node, hnode⟩ := loaded
  dsimp only
  split
  · rw [eval_bind]
    refine bind_congr fun found ↦ ?_
    rcases rest.drop node.label.length with _ | ⟨nextEdge, suffix⟩
    · rfl
    · dsimp only
      cases node.children.find? fun child ↦ child.edge = nextEdge <;> rfl
  · rfl

section walks

variable {path : String} {done rest : Bytes} {id : Digest} {edge : Option UInt8}
  {found : Option (String × Digest)} {l : List (String × Digest)}

/-- **`longest_prefix` returns the last binding it meets.** -/
theorem met_of_walkLoop {r : Option (String × Digest)}
    (h : (walkLoop path true done rest id edge found).eval (fixedAnswer contents) = .ok r) :
    ∃ l, Met contents done rest id edge l ∧ r = l.getLast?.or found := by
  induction hn : rest.length + (if edge.isSome then 0 else 1) using Nat.strong_induction_on
    generalizing done rest id edge found with
  | _ n ih =>
    subst hn
    rw [eval_walkLoop, bind_eq_ok] at h
    obtain ⟨node, hload, hgoes⟩ := h
    by_cases hlabel : node.val.label <+: rest
    · rw [if_pos hlabel, bind_eq_ok] at hgoes
      obtain ⟨_, hremember, hgoes⟩ := hgoes
      obtain ⟨here, hhere, rfl⟩ := eval_remember.mp hremember
      obtain ⟨rest, rfl⟩ := hlabel
      rw [List.drop_left] at hgoes
      rcases rest with _ | ⟨e, suffix⟩
      · refine ⟨here, ?_, ?_⟩
        · rw [List.append_nil]
          exact .full node hload hhere
        · rw [← ok.inj hgoes]
          cases here.getLast?.or found <;> rfl
      · dsimp only at hgoes
        cases hfind : node.val.children.find? fun child ↦ child.edge = e with
        | none =>
          rw [hfind] at hgoes
          exact ⟨here, .leaf node hload hhere hfind, (ok.inj hgoes).symm⟩
        | some child =>
          rw [hfind] at hgoes
          obtain ⟨below, hbelow, rfl⟩ := ih _ (length_lt_of_edgeOk node.property List.drop_left)
            hgoes rfl
          refine ⟨here ++ below, .next node hload hhere hfind hbelow, ?_⟩
          rw [List.getLast?_append, Option.or_assoc]
    · rw [if_neg hlabel] at hgoes
      exact ⟨[], .off node hload hlabel, (ok.inj hgoes).symm⟩

omit [Sha256] in
theorem Entry.mem {key : Bytes} {binding : Option Digest} {here : List (String × Digest)}
    (h : Entry key binding here) : ∀ f ∈ here, ValidPath f.1 ∧ keyOf f.1 = key := by
  cases binding with
  | none =>
    obtain rfl : here = [] := h
    simp
  | some d =>
    obtain ⟨q, hq, rfl, rfl⟩ := h
    exact List.forall_mem_singleton.mpr ⟨hq, rfl⟩

omit [Sha256] in
/-- The binding of a node is not that of the path if the key does not end there. -/
theorem Entry.find?_eq_none {key : Bytes} {binding : Option Digest} {here : List (String × Digest)}
    (h : Entry key binding here) (hne : key ≠ keyOf path) :
    here.find? (fun f ↦ f.1 = path) = none := by
  refine List.find?_eq_none.mpr fun f hf hpath ↦ hne ?_
  rw [← (h.mem f hf).2, of_decide_eq_true hpath]

/-- A turn of the loop at a node whose label matches. -/
theorem eval_walkLoop_append {ancestors : Bool} {node : { node : RadixNode // EdgeOk edge node }}
    {here : List (String × Digest)}
    (hload : (load id edge done).eval (fixedAnswer contents) = .ok node)
    (hhere : Entry (done ++ node.val.label) node.val.binding here) :
    (walkLoop path ancestors done (node.val.label ++ rest) id edge found).eval
        (fixedAnswer contents) = match rest with
      | [] => .ok ((here.getLast?.or found).filter fun f ↦ ancestors || f.1 = path)
      | e :: suffix =>
        match node.val.children.find? fun child ↦ child.edge = e with
        | some child => (walkLoop path ancestors (done ++ node.val.label) (e :: suffix) child.digest
            (some e) (here.getLast?.or found)).eval (fixedAnswer contents)
        | none => .ok (if ancestors then here.getLast?.or found else none) := by
  rw [eval_walkLoop, hload, ok_bind, if_pos (List.prefix_append _ _),
    eval_remember.mpr ⟨here, hhere, rfl⟩, ok_bind, List.drop_left]
  cases rest <;> rfl

/-- **`get` returns the binding of its own path**, if it is met. -/
theorem Met.eval_walkLoop (h : Met contents done rest id edge l) (hp : ValidPath path)
    (hkey : keyOf path = done ++ rest) (hfound : ∀ f, found = some f → f.1 ≠ path) :
    (walkLoop path false done rest id edge found).eval (fixedAnswer contents) =
      .ok (l.find? fun f ↦ f.1 = path) := by
  induction h generalizing found with
  | off node hload hlabel =>
    rw [RadixIndex.eval_walkLoop, hload, ok_bind, if_neg hlabel]
    rfl
  | @full done id edge node here hload hhere =>
    have hturn : (walkLoop path false done (node.val.label ++ []) id edge found).eval
        (fixedAnswer contents) =
          .ok ((here.getLast?.or found).filter fun f ↦ false || f.1 = path) :=
      eval_walkLoop_append hload hhere
    rw [List.append_nil] at hturn
    rw [hturn]
    cases hbinding : node.val.binding with
    | none =>
      rw [hbinding] at hhere
      obtain rfl : here = [] := hhere
      cases found with
      | none => rfl
      | some f => simp [hfound f rfl]
    | some d =>
      rw [hbinding] at hhere
      obtain ⟨q, hq, hqkey, rfl⟩ := hhere
      obtain rfl := keyOf_injective hp hq (hkey.trans hqkey)
      simp
  | @leaf done id edge node here e suffix hload hhere hfind =>
    have hne : done ++ node.val.label ≠ keyOf path := by
      rw [hkey]
      simp
    rw [eval_walkLoop_append hload hhere]
    dsimp only
    rw [hfind, hhere.find?_eq_none hne]
    rfl
  | @next done id edge node here below e suffix child hload hhere hfind htail ih =>
    have hne : done ++ node.val.label ≠ keyOf path := by
      rw [hkey]
      simp
    rw [eval_walkLoop_append hload hhere]
    dsimp only
    rw [hfind, List.find?_append, hhere.find?_eq_none hne, Option.none_or]
    refine ih (by rw [hkey, List.append_assoc]) fun f hf ↦ ?_
    rcases Option.or_eq_some_iff.mp hf with hlast | ⟨-, hf⟩
    · rintro rfl
      exact hne (hhere.mem f (List.mem_of_getLast? hlast)).2.symm
    · exact hfound f hf

/-! ## The keys of the bindings -/

theorem Met.mem (h : Met contents done rest id edge l) :
    ∀ f ∈ l, ValidPath f.1 ∧ keyOf f.1 <+: done ++ rest := by
  induction h with
  | off node hload hlabel => simp
  | full node hload hhere =>
    exact fun f hf ↦ ⟨(hhere.mem f hf).1, (hhere.mem f hf).2 ▸ List.prefix_rfl⟩
  | leaf node hload hhere hfind =>
    refine fun f hf ↦ ⟨(hhere.mem f hf).1, ?_⟩
    rw [(hhere.mem f hf).2, ← List.append_assoc]
    exact List.prefix_append _ _
  | next node hload hhere hfind htail ih =>
    rw [← List.append_assoc]
    refine List.forall_mem_append.mpr ⟨fun f hf ↦ ⟨(hhere.mem f hf).1, ?_⟩, ih⟩
    rw [(hhere.mem f hf).2]
    exact List.prefix_append _ _

omit [Sha256] in
/-- Below an edge there is at least one more byte. -/
theorem length_le_of_edgeOk {edge : Option UInt8} {node : RadixNode} (h : EdgeOk edge node) :
    (if edge.isSome then 1 else 0) ≤ node.label.length := by
  cases edge with
  | none => exact Nat.zero_le _
  | some e => exact List.length_pos_iff.mpr (label_ne_of_edgeOk h)

theorem Met.length_le (h : Met contents done rest id edge l) :
    ∀ f ∈ l, done.length + (if edge.isSome then 1 else 0) ≤ (keyOf f.1).length := by
  have hentry : ∀ {done : Bytes} {edge : Option UInt8}
      (node : { node : RadixNode // EdgeOk edge node }) {here : List (String × Digest)},
      Entry (done ++ node.val.label) node.val.binding here →
      ∀ f ∈ here, done.length + (if edge.isSome then 1 else 0) ≤ (keyOf f.1).length := by
    intro done edge node here hhere f hf
    rw [(hhere.mem f hf).2, List.length_append]
    exact Nat.add_le_add_left (length_le_of_edgeOk node.property) _
  induction h with
  | off node hload hlabel => simp
  | full node hload hhere => exact hentry node hhere
  | leaf node hload hhere hfind => exact hentry node hhere
  | next node hload hhere hfind htail ih =>
    refine List.forall_mem_append.mpr ⟨hentry node hhere, fun f hf ↦ ?_⟩
    have hbelow := ih f hf
    have := length_le_of_edgeOk node.property
    rw [List.length_append] at hbelow
    omega

/-- **Each binding has a longer key than those before it.** -/
theorem Met.pairwise (h : Met contents done rest id edge l) :
    l.Pairwise fun f g ↦ (keyOf f.1).length < (keyOf g.1).length := by
  have hentry : ∀ {key : Bytes} {binding : Option Digest} {here : List (String × Digest)},
      Entry key binding here →
      here.Pairwise fun f g ↦ (keyOf f.1).length < (keyOf g.1).length := by
    intro key binding here hhere
    cases binding with
    | none =>
      obtain rfl : here = [] := hhere
      exact .nil
    | some d =>
      obtain ⟨q, -, -, rfl⟩ := hhere
      exact List.pairwise_singleton _ _
  induction h with
  | off node hload hlabel => exact .nil
  | full node hload hhere => exact hentry hhere
  | leaf node hload hhere hfind => exact hentry hhere
  | next node hload hhere hfind htail ih =>
    refine List.pairwise_append.mpr ⟨hentry hhere, ih, fun f hf g hg ↦ ?_⟩
    rw [(hhere.mem f hf).2]
    exact htail.length_le g hg

/-- The bindings whose keys are not longer than `n` bytes. -/
def upTo (n : ℕ) (l : List (String × Digest)) : List (String × Digest) :=
  l.filter fun f ↦ (keyOf f.1).length ≤ n

omit [Sha256] in
theorem upTo_eq_nil {n : ℕ} (h : ∀ f ∈ l, n < (keyOf f.1).length) : upTo n l = [] := by
  refine List.filter_eq_nil_iff.mpr fun f hf ↦ ?_
  simpa using h f hf

omit [Sha256] in
theorem upTo_eq_self {n : ℕ} (h : ∀ f ∈ l, (keyOf f.1).length ≤ n) : upTo n l = l :=
  List.filter_eq_self.mpr fun f hf ↦ decide_eq_true (h f hf)

omit [Sha256] in
/-- A prefix of a key ends in the label or goes on after it. -/
theorem isPrefix_append_cases {rest' label r : Bytes} (h : rest' <+: label ++ r) :
    rest'.length < label.length ∨ ∃ r', rest' = label ++ r' ∧ r' <+: r := by
  by_cases hlen : rest'.length < label.length
  · exact .inl hlen
  · obtain ⟨r', rfl⟩ :=
      List.prefix_of_prefix_length_le (List.prefix_append label r) h (Nat.le_of_not_lt hlen)
    exact .inr ⟨r', rfl, (List.prefix_append_right_inj label).mp h⟩

omit [Sha256] in
/-- The binding of a node is met if the key goes on from there. -/
theorem Entry.upTo_eq_self {label r : Bytes} {binding : Option Digest}
    {here : List (String × Digest)} (h : Entry (done ++ label) binding here) :
    upTo (done ++ (label ++ r)).length here = here := by
  refine RadixIndex.upTo_eq_self fun f hf ↦ ?_
  rw [(h.mem f hf).2, ← List.append_assoc]
  exact (List.prefix_append _ r).length_le

/-- A key that ends in the label of a node meets nothing there. -/
theorem met_of_length_lt {node : { node : RadixNode // EdgeOk edge node }}
    (hload : (load id edge done).eval (fixedAnswer contents) = .ok node)
    (hlen : rest.length < node.val.label.length)
    (hl : ∀ f ∈ l, (done ++ node.val.label).length ≤ (keyOf f.1).length) :
    Met contents done rest id edge (upTo (done ++ rest).length l) := by
  rw [upTo_eq_nil fun f hf ↦ lt_of_lt_of_le (by simpa using hlen) (hl f hf)]
  exact .off node hload fun h ↦ absurd h.length_le (Nat.not_le_of_lt hlen)

/-- **A lookup of a shorter key** meets the bindings that are not below it. -/
theorem Met.ancestor (h : Met contents done rest id edge l) {rest' : Bytes}
    (hpre : rest' <+: rest) : Met contents done rest' id edge (upTo (done ++ rest').length l) := by
  induction h generalizing rest' with
  | off node hload hlabel => exact .off node hload fun h ↦ hlabel (h.trans hpre)
  | full node hload hentry =>
    rw [← List.append_nil node.val.label] at hpre
    rcases isPrefix_append_cases hpre with hlen | ⟨r', rfl, hr'⟩
    · exact met_of_length_lt hload hlen fun f hf ↦ ((hentry.mem f hf).2 ▸ Nat.le_refl _)
    · rw [hentry.upTo_eq_self, List.prefix_nil.mp hr', List.append_nil]
      exact .full node hload hentry
  | leaf node hload hentry hfind =>
    rcases isPrefix_append_cases hpre with hlen | ⟨r', rfl, hr'⟩
    · exact met_of_length_lt hload hlen fun f hf ↦ ((hentry.mem f hf).2 ▸ Nat.le_refl _)
    · rw [hentry.upTo_eq_self]
      rcases List.prefix_cons_iff.mp hr' with rfl | ⟨r'', rfl, -⟩
      · rw [List.append_nil]
        exact .full node hload hentry
      · exact .leaf node hload hentry hfind
  | next node hload hentry hfind htail ih =>
    have hbelow := htail.length_le
    rcases isPrefix_append_cases hpre with hlen | ⟨r', rfl, hr'⟩
    · refine met_of_length_lt hload hlen (List.forall_mem_append.mpr ⟨fun f hf ↦ ?_, fun f hf ↦ ?_⟩)
      · exact (hentry.mem f hf).2 ▸ Nat.le_refl _
      · exact (Nat.le_add_right _ _).trans (hbelow f hf)
    · rw [upTo, List.filter_append, ← upTo, ← upTo, hentry.upTo_eq_self]
      rcases List.prefix_cons_iff.mp hr' with rfl | ⟨r'', rfl, hr''⟩
      · rw [List.append_nil, upTo_eq_nil fun f hf ↦ hbelow f hf, List.append_nil]
        exact .full node hload hentry
      · have htail' := ih hr'
        rw [List.append_assoc] at htail'
        exact .next node hload hentry hfind htail'

end walks

/-! ## The two lookups -/

section lookups

variable {S : NodeStore σ} {root : Digest} {path p q : String} {l : List (String × Digest)}
  {r : Option (String × Digest)} {o : Option Digest}

/-- What `get` returns for a path. -/
def getMap (S : NodeStore σ) (s : σ) (root : Digest) (path : String) : Option Digest :=
  ((get root path).run S.env s).1.toOption.join

omit [Sha256] in
theorem find?_upTo : (upTo (keyOf q).length l).find? (fun f ↦ f.1 = q) =
    l.find? fun f ↦ f.1 = q := by
  rw [upTo, List.find?_filter]
  congr 1
  funext f
  simp only [decide_eq_true_eq, decide_eq_decide, and_iff_right_iff_imp]
  rintro rfl
  exact Nat.le_refl _

theorem eval_walk (hp : ValidPath path) (ancestors : Bool) (f : (r : Request) → Answer r) :
    (walk root path ancestors).eval f =
      (walkLoop path ancestors [] (keyOf path) root none none).eval f := by
  rw [walk, ofCodec_ok (encodeKey_eq_ok.mpr ⟨hp, rfl⟩), pure_bind]

theorem run_get_eq (hS : S.Fixed contents) (s : σ) : ((get root path).run S.env s).1 =
    (walk root path false).eval (fixedAnswer contents) >>= fun found ↦
      .ok (found.map Prod.snd) := by
  rw [get, Prog.run_bind]
  have hwalk := run_walk hS root path false s
  rcases hrun : (walk root path false).run S.env s with ⟨x, s'⟩
  rw [← hwalk, hrun]
  cases x <;> rfl

/-- A path that `get` accepts is valid. -/
theorem validPath_of_run_get (hS : S.Fixed contents) {s : σ}
    (h : ((get root path).run S.env s).1 = .ok o) : ValidPath path := by
  rw [run_get_eq hS, walk, eval_bind, bind_eq_ok] at h
  obtain ⟨found, hfound, -⟩ := h
  obtain ⟨key, hkey, -⟩ := bind_eq_ok.mp hfound
  exact (encodeKey_eq_ok.mp (eval_ofCodec_eq_ok.mp hkey)).1

/-- `longest_prefix` returns the last binding it meets. -/
theorem met_of_run_longestPrefix (hS : S.Fixed contents) {s : σ} (hp : ValidPath p)
    (h : ((longestPrefix root p).run S.env s).1 = .ok r) :
    ∃ l, Met contents [] (keyOf p) root none l ∧ r = l.getLast? := by
  rw [longestPrefix, run_walk hS, eval_walk hp] at h
  obtain ⟨l, hl, rfl⟩ := met_of_walkLoop h
  exact ⟨l, hl, Option.or_none⟩

/-- `get` of an ancestor returns the binding that is met under its name. -/
theorem Met.run_get (hS : S.Fixed contents) (hp : ValidPath p)
    (h : Met contents [] (keyOf p) root none l) (hq : ValidPath q)
    (hpre : components q <+: components p) (s : σ) : ((get root q).run S.env s).1 =
      .ok ((l.find? fun f ↦ f.1 = q).map Prod.snd) := by
  have hq' : (walkLoop q false [] (keyOf q) root none none).eval (fixedAnswer contents) = .ok _ :=
    (h.ancestor ((keyOf_isPrefix_iff hq hp).mpr hpre)).eval_walkLoop hq rfl (by simp)
  rw [run_get_eq hS, eval_walk hq, hq', List.nil_append, find?_upTo]
  rfl

/-- The last binding has the longest key. -/
theorem Met.eq_or_length_lt {done rest : Bytes} {id : Digest} {edge : Option UInt8}
    (h : Met contents done rest id edge l) {g : String × Digest} (hlast : l.getLast? = some g) :
    ∀ f ∈ l, f = g ∨ (keyOf f.1).length < (keyOf g.1).length := by
  obtain ⟨l, rfl⟩ := List.getLast?_eq_some_iff.mp hlast
  have hlt := (List.pairwise_append.mp h.pairwise).2.2
  intro f hf
  rcases List.mem_append.mp hf with hf | hf
  · exact .inr (hlt f hf g (.head _))
  · exact .inl (List.mem_singleton.mp hf)

/-- It is the only one under its name. -/
theorem Met.find?_last {done rest : Bytes} {id : Digest} {edge : Option UInt8} {d : Digest}
    (h : Met contents done rest id edge l) (hlast : l.getLast? = some (q, d)) :
    (l.find? fun f ↦ f.1 = q) = some (q, d) := by
  cases hfind : l.find? fun f ↦ f.1 = q with
  | none =>
    have := List.find?_eq_none.mp hfind _ (List.mem_of_getLast? hlast)
    simp at this
  | some f =>
    have hq : f.1 = q := by simpa using List.find?_some hfind
    rcases h.eq_or_length_lt hlast f (List.mem_of_find?_eq_some hfind) with heq | hlt
    · rw [heq]
    · rw [hq] at hlt
      exact absurd hlt (lt_irrefl _)

/-- **`longest_prefix` returns what `get` finds.**  On any graph, if `longest_prefix` succeeds then
so does `get` on the path and on all its ancestors, and the result is the longest of these that
`get` finds bound, with its binding. -/
theorem lookups_agree (hS : S.Fixed contents) (root : Digest) (hp : ValidPath p) (s : σ)
    (h : ((longestPrefix root p).run S.env s).1 = .ok r) :
    (∀ q, ValidPath q → components q <+: components p →
        ∃ o, ∀ s', ((get root q).run S.env s').1 = .ok o) ∧
      (∀ s', IsLongestPrefix (getMap S s' root) p r) ∧
      ∀ b, r = some (p, b) → ∀ s', ((get root p).run S.env s').1 = .ok (some b) := by
  obtain ⟨l, hl, rfl⟩ := met_of_run_longestPrefix hS hp h
  have hmap : ∀ q, ValidPath q → components q <+: components p → ∀ s',
      getMap S s' root q = (l.find? fun f ↦ f.1 = q).map Prod.snd := by
    intro q hq hpre s'
    rw [getMap, hl.run_get hS hp hq hpre s']
    rfl
  have hvalid : ∀ q s', getMap S s' root q ≠ none → ValidPath q := by
    intro q s' hne
    rw [getMap] at hne
    cases hget : ((get root q).run S.env s').1 with
    | error e =>
      rw [hget] at hne
      exact absurd rfl hne
    | ok o => exact validPath_of_run_get hS hget
  refine ⟨fun q hq hpre ↦ ⟨_, hl.run_get hS hp hq hpre⟩, fun s' ↦ ?_, fun b hb s' ↦ ?_⟩
  · cases hr : l.getLast? with
    | none =>
      obtain rfl := List.getLast?_eq_none_iff.mp hr
      intro q hne hpre
      exact hne (hmap q (hvalid q s' hne) hpre s')
    | some f =>
      obtain ⟨q, b⟩ := f
      obtain ⟨hq, hpre⟩ := hl.mem (q, b) (List.mem_of_getLast? hr)
      rw [List.nil_append, keyOf_isPrefix_iff hq hp] at hpre
      refine ⟨hq, by rw [hmap q hq hpre, hl.find?_last hr]; rfl, hpre, fun q' hne hpre' hq' ↦ ?_⟩
      rw [hmap q' (hvalid q' s' hne) hpre', Ne, Option.map_eq_none_iff] at hne
      obtain ⟨f, hfind⟩ := Option.ne_none_iff_exists'.mp hne
      obtain rfl : f.1 = q' := by simpa using List.find?_some hfind
      rcases hl.eq_or_length_lt hr f (List.mem_of_find?_eq_some hfind) with rfl | hlt
      · exact absurd rfl hq'
      · exact (length_keyOf_lt hpre' hpre).mp hlt
  · rw [hl.run_get hS hp hp List.prefix_rfl s', hl.find?_last hb]
    rfl

/-- A store with fixed contents that takes no inserts. -/
def readOnly (contents : Digest → IndexResult Bytes) : NodeStore Unit where
  read s id := (contents id, s)
  insert s _ _ := (.error (.store "read-only store"), s)

/-- The graph of the two libraries, without the leaf of `/x/library`. -/
def danglingContents (id : Digest) : IndexResult Bytes :=
  okOr (((libraryTable.eraseIdx 3).find? fun e ↦ e.2 = id).map Prod.fst) (.store "missing node")

omit [Sha256] in
/-- The missing leaf does not show below `/x/lib`. -/
theorem lookups_agree_dangling :
    letI := librarySha256
    let root := Digest.ofNat 0xebdc130963fbc77b5179bcb50e187b18ca2ce8083cb8976cb20ce7d2deac13b6
    ((longestPrefix root "/x/lib/b").run (readOnly danglingContents).env ()).1 =
        .ok (some ("/x/lib", value 1)) ∧
      (∃ o, ∀ s, ((get root "/x/lib").run (readOnly danglingContents).env s).1 = .ok o) ∧
      IsLongestPrefix (getMap (readOnly danglingContents) () root) "/x/lib/b"
        (some ("/x/lib", value 1)) := by
  let _ := librarySha256
  intro root
  have hrun : ((longestPrefix root "/x/lib/b").run (readOnly danglingContents).env ()).1 =
      .ok (some ("/x/lib", value 1)) := by decide +kernel
  obtain ⟨hget, hlongest, -⟩ := lookups_agree (fun _ _ ↦ rfl) root (by decide) () hrun
  exact ⟨hrun, hget "/x/lib" (by decide) (by decide), hlongest ()⟩

end lookups

end RadixIndex

end Mst2
