import Mst2Codec.MetaPage

/-!
# The page codec is canonical

`Entry.decode` and `Page.decode` accept exactly what `encode` writes: `Entry.decode_eq_ok` and
`Page.decode_eq_ok` say which bytes decode to which value, from right to left as a round trip and
from left to right as canonicity.

The kinds of an entry share one record, so a decoded entry has zeros in the fields its kind does
not have (`Entry.Shaped`), and `Entry.wire` is what is read back of an entry that has something
else there.
-/

set_option autoImplicit false

namespace Mst2

open Bytes Except

/-! ## Entries -/

theorem EntryKind.fromU8_eq_ok {v : UInt8} {kind : EntryKind} :
    EntryKind.fromU8 v = .ok kind ↔ v = kind.toU8 := by
  rw [EntryKind.fromU8]
  constructor
  · intro h
    split at h
    · cases h; assumption
    split at h
    · cases h; assumption
    split at h
    · cases h; assumption
    split at h
    · cases h; assumption
    · cases h
  · rintro rfl
    cases kind <;> rfl

namespace Entry

/-- The fields the kind does not have are zero. -/
structure Shaped (e : Entry) : Prop where
  /-- Directories have no size. -/
  size_eq : e.isDir = true → e.size = 0
  /-- Directories have no content. -/
  contentId_eq : e.isDir = true → e.contentId = .zero
  /-- Files have no child page. -/
  childRoot_eq : e.isDir = false → e.childRoot = .zero

/-- What is read back of an entry. -/
def wire (e : Entry) : Entry :=
  if e.isDir then dir e.name e.childRoot else file e.kind e.name e.size e.contentId

/-- The bytes of an entry. -/
def bytes (e : Entry) : Bytes :=
  e.kind.toU8 :: writeU16 (UInt16.ofNat e.name.length) ++ e.name ++ e.body

theorem encode_eq_ok {e : Entry} {b : Bytes} :
    e.encode = .ok b ↔ e.validate = .ok () ∧ b = e.bytes := by
  rw [encode, bind_eq_ok]
  constructor
  · rintro ⟨⟨⟩, hv, hb⟩
    exact ⟨hv, (Except.ok.inj hb).symm⟩
  · rintro ⟨hv, rfl⟩
    exact ⟨(), hv, rfl⟩

theorem validateName_of_validate {e : Entry} (h : e.validate = .ok ()) :
    validateName e.name = .ok () := by
  rw [validate, bind_eq_ok] at h
  obtain ⟨⟨⟩, h, -⟩ := h
  exact h

theorem length_name_le {e : Entry} (h : e.validate = .ok ()) : e.name.length ≤ 255 :=
  (validateName_eq_ok.mp (validateName_of_validate h)).2.1

theorem length_bytes (e : Entry) : e.bytes.length = e.encodedLen := by
  simp only [bytes, body, encodedLen]
  cases e.isDir <;> simp <;> omega

theorem wire_of_shaped {e : Entry} (h : e.Shaped) : e.wire = e := by
  rw [wire]
  cases hdir : e.isDir with
  | true =>
    have hkind : e.kind = .directory := by simpa [isDir] using hdir
    exact Entry.ext hkind.symm rfl (h.size_eq hdir).symm (h.contentId_eq hdir).symm rfl
  | false => exact Entry.ext rfl rfl rfl rfl (h.childRoot_eq hdir).symm

theorem name_wire (e : Entry) : e.wire.name = e.name := by
  rw [wire]
  split <;> rfl

theorem shaped_wire (e : Entry) : e.wire.Shaped := by
  rw [wire]
  split
  · exact ⟨fun _ ↦ rfl, fun _ ↦ rfl, fun h ↦ by simp [dir, isDir] at h⟩
  · rename_i hdir
    have hfile : (file e.kind e.name e.size e.contentId).isDir = e.isDir := rfl
    exact ⟨fun h ↦ absurd (hfile ▸ h) hdir, fun h ↦ absurd (hfile ▸ h) hdir, fun _ ↦ rfl⟩

theorem bytes_wire (e : Entry) : e.wire.bytes = e.bytes := by
  rw [wire]
  split
  · rename_i h
    have hkind : e.kind = .directory := by simpa [isDir] using h
    simp only [bytes, body, dir, hkind, isDir, decide_true, if_true]
  · rename_i h
    have hfile : (file e.kind e.name e.size e.contentId).isDir = e.isDir := rfl
    simp only [bytes, body, hfile, h]
    rfl

theorem validate_wire (e : Entry) : e.wire.validate = e.validate := by
  rw [wire]
  split
  · rename_i h
    have hkind : e.kind = .directory := by simpa [isDir] using h
    simp only [validate, dir, hkind, isDir, decide_true, if_true]
    rfl
  · rename_i h
    have hfile : (file e.kind e.name e.size e.contentId).isDir = e.isDir := rfl
    simp only [validate, hfile, h]
    rfl

/-- What is read as the body of an entry. -/
theorem decodeBody_eq_ok {kind : EntryKind} {name buf : Bytes} {off off' : ℕ} {e : Entry} :
    decodeBody kind name buf off = .ok (e, off') ↔
      e.kind = kind ∧ e.name = name ∧ e.Shaped ∧ off' = off + e.body.length ∧
        slice? buf off e.body.length = some e.body := by
  rw [decodeBody]
  split
  · rename_i hkind
    subst hkind
    simp only [bind_eq_ok, readDigestAt_eq_ok, pure, Except.pure, Except.ok.injEq, Prod.mk.injEq]
    constructor
    · rintro ⟨childRoot, hslice, rfl, rfl⟩
      have hbody : (dir name childRoot).body = childRoot.bytes := rfl
      refine ⟨rfl, rfl, ⟨fun _ ↦ rfl, fun _ ↦ rfl, fun h ↦ by simp [isDir] at h⟩, ?_, ?_⟩
      · show _ = off + (dir name childRoot).body.length
        rw [hbody, childRoot.length_eq]
      · show slice? buf off (dir name childRoot).body.length = some (dir name childRoot).body
        rwa [hbody, childRoot.length_eq]
    · rintro ⟨hkind, rfl, hshaped, rfl, hslice⟩
      have hdir : e.isDir = true := by simp [isDir, hkind]
      have hbody : e.body = e.childRoot.bytes := by rw [body, hdir, if_pos rfl]
      rw [hbody, Digest.length_eq] at hslice ⊢
      exact ⟨e.childRoot, hslice, Entry.ext hkind.symm rfl (hshaped.size_eq hdir).symm
        (hshaped.contentId_eq hdir).symm rfl, rfl⟩
  · rename_i hkind
    simp only [bind_eq_ok, readDigestAt_eq_ok, readU64_eq_ok, pure, Except.pure, Except.ok.injEq,
      Prod.mk.injEq]
    constructor
    · rintro ⟨size, hsize, contentId, hcontent, rfl, rfl⟩
      have hdir : (file kind name size contentId).isDir = false := by simp [file, isDir, hkind]
      have hbody : (file kind name size contentId).body = writeU64 size ++ contentId.bytes := by
        rw [body, hdir, if_neg (by simp)]
        rfl
      refine ⟨rfl, rfl, ⟨fun h ↦ ?_, fun h ↦ ?_, fun _ ↦ rfl⟩, ?_, ?_⟩
      · exact absurd (hdir.symm.trans h) (by simp)
      · exact absurd (hdir.symm.trans h) (by simp)
      · show _ = off + (file kind name size contentId).body.length
        rw [hbody]
        simp
      · show slice? buf off (file kind name size contentId).body.length =
          some (file kind name size contentId).body
        rw [hbody, List.length_append, length_writeU64, contentId.length_eq]
        exact (slice?_append_eq_some (length_writeU64 _)).mpr ⟨hsize, hcontent⟩
    · rintro ⟨rfl, rfl, hshaped, rfl, hslice⟩
      have hdir : e.isDir = false := by simp [isDir, hkind]
      have hbody : e.body = writeU64 e.size ++ e.contentId.bytes := by
        rw [body, hdir, if_neg (by simp)]
      rw [hbody, List.length_append, length_writeU64, Digest.length_eq] at hslice ⊢
      obtain ⟨hsize, hcontent⟩ := (slice?_append_eq_some (length_writeU64 _)).mp hslice
      exact ⟨e.size, hsize, e.contentId, hcontent,
        Entry.ext rfl rfl rfl rfl (hshaped.childRoot_eq hdir).symm, rfl⟩

/-- **An entry is read exactly where its bytes stand.** -/
theorem decode_eq_ok {buf : Bytes} {off off' : ℕ} {e : Entry} :
    decode buf off = .ok (e, off') ↔ e.validate = .ok () ∧ e.Shaped ∧
      off' = off + e.encodedLen ∧ slice? buf off e.encodedLen = some e.bytes := by
  -- the bytes of an entry, field by field
  have hfields : ∀ e : Entry, e.encodedLen = 1 + (2 + (e.name.length + e.body.length)) := by
    intro e
    rw [← length_bytes, bytes]
    simp
    omega
  have hslices : ∀ e : Entry, slice? buf off e.encodedLen = some e.bytes ↔
      buf[off]? = some e.kind.toU8 ∧
      slice? buf (off + 1) 2 = some (writeU16 (UInt16.ofNat e.name.length)) ∧
      slice? buf (off + 3) e.name.length = some e.name ∧
      slice? buf (off + 3 + e.name.length) e.body.length = some e.body := by
    intro e
    have hbytes : e.bytes = [e.kind.toU8] ++ (writeU16 (UInt16.ofNat e.name.length) ++
        (e.name ++ e.body)) := by simp [bytes]
    rw [hfields, hbytes, slice?_append_eq_some (n := 1) (x := [e.kind.toU8]) rfl,
      slice?_append_eq_some (length_writeU16 _), slice?_append_eq_some rfl, slice?_singleton]
  rw [hslices, decode]
  simp only [okOr_bind_eq_ok]
  constructor
  · rintro ⟨v, hv, h⟩
    rw [bind_eq_ok] at h
    obtain ⟨kind, hkind, h⟩ := h
    rw [bind_eq_ok] at h
    obtain ⟨nameLen, hnameLen, h⟩ := h
    rw [okOr_bind_eq_ok] at h
    obtain ⟨name, hname, h⟩ := h
    rw [bind_eq_ok] at h
    obtain ⟨⟨⟩, -, h⟩ := h
    rw [bind_eq_ok] at h
    obtain ⟨⟨e', off₁⟩, hbody, h⟩ := h
    rw [bind_eq_ok] at h
    obtain ⟨⟨⟩, hvalid, h⟩ := h
    simp only [pure, Except.pure, Except.ok.injEq, Prod.mk.injEq] at h
    obtain ⟨rfl, rfl⟩ := h
    obtain ⟨rfl, rfl, hshaped, rfl, hslice⟩ := decodeBody_eq_ok.mp hbody
    have hlen := length_of_slice? hname
    rw [readU16_eq_ok] at hnameLen
    rw [← hlen] at hname hslice ⊢
    refine ⟨hvalid, hshaped, by rw [hfields]; omega, ?_, ?_, hname, hslice⟩
    · rw [hv, EntryKind.fromU8_eq_ok.mp hkind]
    · rw [hnameLen, hlen, UInt16.ofNat_toNat]
  · rintro ⟨hvalid, hshaped, rfl, hv, hnameLen, hname, hslice⟩
    have hle := length_name_le hvalid
    have hnat : (UInt16.ofNat e.name.length).toNat = e.name.length :=
      toNat_ofNat_u16 (by omega)
    refine ⟨_, hv, ?_⟩
    rw [EntryKind.fromU8_eq_ok.mpr rfl, ok_bind, readU16_eq_ok.mpr hnameLen, ok_bind, hnat,
      hname, okOr_some, ok_bind, validateName_of_validate hvalid, ok_bind,
      decodeBody_eq_ok.mpr ⟨rfl, rfl, hshaped, rfl, hslice⟩, ok_bind]
    simp only [hvalid, ok_bind, pure, Except.pure, Except.ok.injEq, Prod.mk.injEq, true_and]
    rw [hfields]
    omega

end Entry

/-! ## Ascending lists -/

section ascends

variable {α β : Type} [LT β] {f : α → β} {prev : Option β} {a : α} {l : List α}

/-- The keys of a list ascend strictly, starting above `prev`. -/
def Ascends (f : α → β) (prev : Option β) (l : List α) : Prop :=
  (∀ p, prev = some p → ∀ a ∈ l, p < f a) ∧ l.Pairwise fun a b ↦ f a < f b

theorem ascends_nil : Ascends f prev [] := ⟨by simp, .nil⟩

theorem ascends_none : Ascends f none l ↔ l.Pairwise fun a b ↦ f a < f b := by simp [Ascends]

theorem ascends_cons (htrans : ∀ x y z : β, x < y → y < z → x < z) :
    Ascends f prev (a :: l) ↔ (∀ p, prev = some p → p < f a) ∧ Ascends f (some (f a)) l := by
  simp only [Ascends, List.pairwise_cons, List.forall_mem_cons, Option.some.injEq]
  constructor
  · rintro ⟨hprev, ha, hl⟩
    exact ⟨fun p hp ↦ (hprev p hp).1, fun p hp b hb ↦ hp ▸ ha b hb, hl⟩
  · rintro ⟨hprev, ha, hl⟩
    refine ⟨fun p hp ↦ ⟨hprev p hp, fun b hb ↦ ?_⟩, ha _ rfl, hl⟩
    exact htrans p (f a) (f b) (hprev p hp) (ha _ rfl b hb)

end ascends

theorem bytes_lt_trans (x y z : Bytes) (h : x < y) (h' : y < z) : x < z := List.lt_trans h h'

theorem u8_lt_trans (x y z : UInt8) (h : x < y) (h' : y < z) : x < z := UInt8.lt_trans h h'

namespace Page

/-- A check against the previous name or label. -/
theorem any_eq_false {β : Type} {prev : Option β} {P : β → Prop} [DecidablePred P] :
    ¬ (prev.any fun p ↦ ¬ P p) = true ↔ ∀ p, prev = some p → P p := by
  cases prev <;> simp

/-! ## What encoders and decoders check -/

/-- The number of entries below a page. -/
def total : Page → ℕ
  | .leaf entries => entries.length
  | .branch _ terminal children =>
    (children.map fun c ↦ c.subtreeEntries.toNat).sum + terminal.toList.length

/-- A leaf is a short ascending list of valid entries; a branch has a terminal of its own name,
ascending labels, no empty group, at least two groups and not too many entries. -/
def Valid : Page → Prop
  | .leaf entries => entries.length ≤ leafMaxEntries ∧ (∀ e ∈ entries, e.validate = .ok ()) ∧
      entries.Pairwise fun a b ↦ a.name < b.name
  | .branch pre terminal children => pre.length ≤ maxDepth ∧
      children.length ≤ branchMaxChildren ∧
      (∀ t, terminal = some t → t.validate = .ok () ∧ t.name = pre) ∧
      (children.Pairwise fun a b ↦ a.label < b.label) ∧
      (∀ c ∈ children, c.subtreeEntries ≠ 0) ∧ 2 ≤ children.length + terminal.toList.length ∧
      total (.branch pre terminal children) ≤ maxTotalEntries

/-- The entries have no data their kind does not have. -/
def Shaped : Page → Prop
  | .leaf entries => ∀ e ∈ entries, e.Shaped
  | .branch _ terminal _ => ∀ t, terminal = some t → t.Shaped

/-- What is read back of a page. -/
def wire : Page → Page
  | .leaf entries => .leaf (entries.map Entry.wire)
  | .branch pre terminal children => .branch pre (terminal.map Entry.wire) children

/-- The terminal behind its presence byte. -/
def terminalBytes : Option Entry → Bytes
  | none => [0]
  | some t => 1 :: t.bytes

/-- The bytes after the header. -/
def payload : Page → Bytes
  | .leaf entries => entries.flatMap Entry.bytes
  | .branch pre terminal children => writeU16 (UInt16.ofNat pre.length) ++ pre ++
      terminalBytes terminal ++ children.flatMap encodeChild

/-- The kind byte. -/
def kindByte : Page → UInt8
  | .leaf _ => 0
  | .branch _ _ _ => 1

/-- The number of rows of the page. -/
def rows : Page → ℕ
  | .leaf entries => entries.length
  | .branch _ _ children => children.length

/-- The bytes of a page. -/
def bytes (p : Page) : Bytes := frame p.kindByte p.rows (UInt64.ofNat p.total) p.payload

/-! ## Encoding -/

theorem encodeEntries_eq_ok {prev : Option Bytes} {entries : List Entry} {b : Bytes} :
    encodeEntries prev entries = .ok b ↔ (∀ e ∈ entries, e.validate = .ok ()) ∧
      Ascends Entry.name prev entries ∧ b = entries.flatMap Entry.bytes := by
  induction entries generalizing prev b with
  | nil => simp [encodeEntries, ascends_nil, pure, Except.pure, eq_comm]
  | cons e entries ih =>
    rw [encodeEntries, bind_eq_ok, ascends_cons bytes_lt_trans, List.forall_mem_cons]
    constructor
    · rintro ⟨⟨⟩, hvalid, h⟩
      rw [reject_bind_eq_ok, any_eq_false, bind_eq_ok] at h
      obtain ⟨hprev, bytes, hbytes, h⟩ := h
      rw [bind_eq_ok] at h
      obtain ⟨rest, hrest, h⟩ := h
      obtain ⟨hall, hascends, rfl⟩ := ih.mp hrest
      obtain ⟨-, rfl⟩ := Entry.encode_eq_ok.mp hbytes
      exact ⟨⟨hvalid, hall⟩, ⟨hprev, hascends⟩, (Except.ok.inj h).symm⟩
    · rintro ⟨⟨hvalid, hall⟩, ⟨hprev, hascends⟩, rfl⟩
      refine ⟨(), hvalid, ?_⟩
      rw [reject_bind_eq_ok, any_eq_false]
      refine ⟨hprev, ?_⟩
      rw [Entry.encode_eq_ok.mpr ⟨hvalid, rfl⟩, ok_bind, ih.mpr ⟨hall, hascends, rfl⟩]
      rfl

theorem encodeTerminal_eq_ok {pre : Bytes} {terminal : Option Entry} {b : Bytes} :
    encodeTerminal pre terminal = .ok b ↔
      (∀ t, terminal = some t → t.validate = .ok () ∧ t.name = pre) ∧
      b = terminalBytes terminal := by
  cases terminal with
  | none => simp [encodeTerminal, terminalBytes, pure, Except.pure, eq_comm]
  | some t =>
    simp only [encodeTerminal, terminalBytes, bind_eq_ok, Entry.encode_eq_ok, pure, Except.pure,
      Except.ok.injEq, Option.some.injEq, reject_eq_ok, not_not]
    constructor
    · rintro ⟨⟨⟩, hvalid, ⟨⟩, hname, bytes, ⟨-, rfl⟩, rfl⟩
      exact ⟨fun u hu ↦ hu ▸ ⟨hvalid, hname⟩, rfl⟩
    · rintro ⟨h, rfl⟩
      obtain ⟨hvalid, hname⟩ := h t rfl
      exact ⟨(), hvalid, (), hname, t.bytes, ⟨hvalid, rfl⟩, rfl⟩

theorem checkedAdd_eq_ok {a b c : UInt64} {what : String} :
    checkedAdd a b what = .ok c ↔ c.toNat = a.toNat + b.toNat := by
  rw [checkedAdd]
  have hc := c.toNat_lt
  split
  · rename_i h
    have hab : (a + b).toNat = a.toNat + b.toNat := by rw [UInt64.toNat_add]; omega
    rw [Except.ok.injEq, ← UInt64.toNat_inj, hab, eq_comm]
  · rename_i h
    simp only [reduceCtorEq, false_iff]
    omega

theorem encodeChildren_eq_ok {prev : Option UInt8} {sum sum' : UInt64}
    {children : List BranchChild} {b : Bytes} :
    encodeChildren prev sum children = .ok (b, sum') ↔
      Ascends BranchChild.label prev children ∧ (∀ c ∈ children, c.subtreeEntries ≠ 0) ∧
      b = children.flatMap encodeChild ∧
      sum'.toNat = sum.toNat + (children.map fun c ↦ c.subtreeEntries.toNat).sum := by
  induction children generalizing prev sum sum' b with
  | nil =>
    simp only [encodeChildren, pure, Except.pure, Except.ok.injEq, Prod.mk.injEq, ascends_nil,
      List.not_mem_nil, false_implies, implies_true, true_and, List.flatMap_nil, List.map_nil,
      List.sum_nil, Nat.add_zero, UInt64.toNat_inj]
    exact and_congr eq_comm eq_comm
  | cons c children ih =>
    have hle : ∀ p : UInt8, c.label ≤ p ↔ ¬ p < c.label := fun p ↦ UInt8.not_lt.symm
    simp only [encodeChildren, hle, reject_bind_eq_ok, any_eq_false, List.forall_mem_cons,
      ascends_cons u8_lt_trans]
    rw [bind_eq_ok]
    simp only [checkedAdd_eq_ok]
    constructor
    · rintro ⟨hprev, hne, sum₁, hsum₁, h⟩
      rw [bind_eq_ok] at h
      obtain ⟨⟨rest, sum₂⟩, hrest, h⟩ := h
      obtain ⟨hascends, hall, rfl, hsum⟩ := ih.mp hrest
      simp only [pure, Except.pure, Except.ok.injEq, Prod.mk.injEq] at h
      obtain ⟨rfl, rfl⟩ := h
      refine ⟨⟨hprev, hascends⟩, ⟨hne, hall⟩, rfl, ?_⟩
      rw [hsum, hsum₁, List.map_cons, List.sum_cons, Nat.add_assoc]
    · rintro ⟨⟨hprev, hascends⟩, ⟨hne, hall⟩, rfl, hsum⟩
      rw [List.map_cons, List.sum_cons] at hsum
      have hlt := sum'.toNat_lt
      have hsum₁ : (UInt64.ofNat (sum.toNat + c.subtreeEntries.toNat)).toNat =
          sum.toNat + c.subtreeEntries.toNat := toNat_ofNat_u64 (by omega)
      refine ⟨hprev, hne, _, hsum₁, ?_⟩
      rw [ih.mpr ⟨hascends, hall, rfl, by rw [hsum, hsum₁, Nat.add_assoc]⟩]
      rfl

theorem finish_eq_ok {kind : UInt8} {n : ℕ} {t : UInt64} {body b : Bytes} :
    finish kind n t body = .ok b ↔ b = frame kind n t body ∧ b.length ≤ pageMaxBytes := by
  rw [finish, reject_bind_eq_ok, not_lt]
  constructor
  · rintro ⟨hlen, h⟩
    obtain rfl := Except.ok.inj h
    exact ⟨rfl, hlen⟩
  · rintro ⟨rfl, hlen⟩
    exact ⟨hlen, rfl⟩

theorem toNat_terminalCount (terminal : Option Entry) :
    (terminalCount terminal).toNat = terminal.toList.length := by
  cases terminal <;> rfl

/-- **What `encode` accepts, and what it writes.** -/
theorem encode_eq_ok {p : Page} {b : Bytes} :
    encode p = .ok b ↔ p.Valid ∧ b = p.bytes ∧ b.length ≤ pageMaxBytes := by
  cases p with
  | leaf entries =>
    rw [encode, reject_bind_eq_ok, not_lt, bind_eq_ok]
    simp only [encodeEntries_eq_ok, ascends_none, finish_eq_ok, Valid]
    constructor
    · rintro ⟨hlen, body, ⟨hvalid, hascends, rfl⟩, hb, hmax⟩
      exact ⟨⟨hlen, hvalid, hascends⟩, hb, hmax⟩
    · rintro ⟨⟨hlen, hvalid, hascends⟩, hb, hmax⟩
      exact ⟨hlen, _, ⟨hvalid, hascends, rfl⟩, hb, hmax⟩
  | branch pre terminal children =>
    simp only [encode, reject_bind_eq_ok, not_lt, Valid]
    rw [bind_eq_ok]
    simp only [encodeTerminal_eq_ok]
    constructor
    · rintro ⟨hpre, hchildren, body, ⟨hterminal, rfl⟩, h⟩
      rw [bind_eq_ok] at h
      obtain ⟨⟨childBytes, sum⟩, hrows, h⟩ := h
      obtain ⟨hascends, hne, rfl, hsum⟩ := encodeChildren_eq_ok.mp hrows
      rw [reject_bind_eq_ok, bind_eq_ok] at h
      obtain ⟨htwo, t, ht, h⟩ := h
      rw [checkedAdd_eq_ok, toNat_terminalCount, hsum] at ht
      rw [reject_bind_eq_ok, finish_eq_ok] at h
      obtain ⟨hmax, rfl, hlen⟩ := h
      rw [toNat_terminalCount] at htwo
      have htotal : t.toNat = total (.branch pre terminal children) := by
        rw [ht, total]
        simp
      have ht' : t = UInt64.ofNat (total (.branch pre terminal children)) := by
        rw [← htotal, UInt64.ofNat_toNat]
      refine ⟨⟨hpre, hchildren, hterminal, ascends_none.mp hascends, hne, not_lt.mp htwo, ?_⟩,
        ?_, hlen⟩
      · rw [← htotal]
        exact not_lt.mp hmax
      · rw [bytes, ← ht']
        rfl
    · rintro ⟨⟨hpre, hchildren, hterminal, hascends, hne, htwo, hmax⟩, rfl, hlen⟩
      refine ⟨hpre, hchildren, _, ⟨hterminal, rfl⟩, ?_⟩
      have htotal : (UInt64.ofNat (total (.branch pre terminal children))).toNat =
          total (.branch pre terminal children) := by
        refine toNat_ofNat_u64 ?_
        simp only [maxTotalEntries] at hmax
        omega
      have hsum : (UInt64.ofNat (children.map fun c ↦ c.subtreeEntries.toNat).sum).toNat =
          (children.map fun c ↦ c.subtreeEntries.toNat).sum := by
        refine toNat_ofNat_u64 ?_
        simp only [maxTotalEntries, total] at hmax
        omega
      rw [encodeChildren_eq_ok.mpr ⟨ascends_none.mpr hascends, hne, rfl, by
        rw [hsum]; simp⟩, ok_bind]
      simp only
      rw [reject_bind_eq_ok, toNat_terminalCount]
      refine ⟨not_lt.mpr htwo, ?_⟩
      rw [(checkedAdd_eq_ok (c := UInt64.ofNat (total (.branch pre terminal children)))).mpr
        (by rw [htotal, hsum, toNat_terminalCount, total]), ok_bind, reject_bind_eq_ok, htotal,
        finish_eq_ok]
      exact ⟨not_lt.mpr hmax, rfl, hlen⟩

/-! ## Decoding -/

theorem decodeEntries_eq_ok {buf : Bytes} {n off off' : ℕ} {prev : Option Bytes}
    {entries : List Entry} (hoff : off ≤ buf.length) :
    decodeEntries buf n off prev = .ok (entries, off') ↔ entries.length = n ∧
      (∀ e ∈ entries, e.validate = .ok ()) ∧ (∀ e ∈ entries, e.Shaped) ∧
      Ascends Entry.name prev entries ∧ off' = off + (entries.flatMap Entry.bytes).length ∧
      slice? buf off (entries.flatMap Entry.bytes).length = some (entries.flatMap Entry.bytes) := by
  induction n generalizing off prev entries with
  | zero =>
    simp only [decodeEntries, pure, Except.pure, Except.ok.injEq, Prod.mk.injEq,
      List.length_eq_zero_iff]
    constructor
    · rintro ⟨rfl, rfl⟩
      simp [ascends_nil, slice?, hoff]
    · rintro ⟨rfl, -, -, -, rfl, -⟩
      simp
  | succ n ih =>
    rw [decodeEntries, bind_eq_ok]
    constructor
    · rintro ⟨⟨e, off₁⟩, he, h⟩
      obtain ⟨hvalid, hshaped, rfl, hslice⟩ := Entry.decode_eq_ok.mp he
      rw [reject_bind_eq_ok, any_eq_false, bind_eq_ok] at h
      obtain ⟨hprev, ⟨rest, off₂⟩, hrest, h⟩ := h
      simp only [pure, Except.pure, Except.ok.injEq, Prod.mk.injEq] at h
      obtain ⟨rfl, rfl⟩ := h
      obtain ⟨rfl, hvalids, hshapeds, hascends, rfl, hslices⟩ :=
        (ih (le_of_slice? hslice)).mp hrest
      refine ⟨rfl, List.forall_mem_cons.mpr ⟨hvalid, hvalids⟩,
        List.forall_mem_cons.mpr ⟨hshaped, hshapeds⟩,
        (ascends_cons bytes_lt_trans).mpr ⟨hprev, hascends⟩, ?_, ?_⟩
      · rw [List.flatMap_cons, List.length_append, Entry.length_bytes]
        omega
      · rw [List.flatMap_cons, List.length_append, Entry.length_bytes,
          slice?_append_eq_some (Entry.length_bytes e)]
        exact ⟨hslice, hslices⟩
    · rintro ⟨hlen, hvalid, hshaped, hascends, hoff', hslice⟩
      cases entries with
      | nil => cases hlen
      | cons e rest =>
        obtain ⟨hvalid, hvalids⟩ := List.forall_mem_cons.mp hvalid
        obtain ⟨hshaped, hshapeds⟩ := List.forall_mem_cons.mp hshaped
        obtain ⟨hprev, hascends⟩ := (ascends_cons bytes_lt_trans).mp hascends
        rw [List.flatMap_cons, List.length_append, Entry.length_bytes] at hoff'
        rw [List.flatMap_cons, List.length_append, Entry.length_bytes,
          slice?_append_eq_some (Entry.length_bytes e)] at hslice
        refine ⟨(e, off + e.encodedLen),
          Entry.decode_eq_ok.mpr ⟨hvalid, hshaped, rfl, hslice.1⟩, ?_⟩
        rw [reject_bind_eq_ok, any_eq_false]
        refine ⟨hprev, ?_⟩
        rw [(ih (le_of_slice? hslice.1)).mpr
          ⟨by simpa using hlen, hvalids, hshapeds, hascends,
            by rw [hoff', Nat.add_assoc], hslice.2⟩]
        rfl

theorem length_encodeChild (c : BranchChild) : (encodeChild c).length = 1 + (8 + 32) := by
  simp [encodeChild]

theorem slice?_encodeChild {buf : Bytes} {off : ℕ} {c : BranchChild} :
    slice? buf off (1 + (8 + 32)) = some (encodeChild c) ↔ buf[off]? = some c.label ∧
      slice? buf (off + 1) 8 = some (writeU64 c.subtreeEntries) ∧
      slice? buf (off + 1 + 8) 32 = some c.childPageId.bytes := by
  rw [show encodeChild c = [c.label] ++ (writeU64 c.subtreeEntries ++ c.childPageId.bytes) from
    by simp [encodeChild], slice?_append_eq_some (n := 1) (x := [c.label]) rfl,
    slice?_append_eq_some (length_writeU64 _), slice?_singleton]

theorem decodeChildren_eq_ok {buf : Bytes} {n off off' : ℕ} {prev : Option UInt8}
    {children : List BranchChild} (hoff : off ≤ buf.length) :
    decodeChildren buf n off prev = .ok (children, off') ↔ children.length = n ∧
      Ascends BranchChild.label prev children ∧ (∀ c ∈ children, c.subtreeEntries ≠ 0) ∧
      off' = off + (children.flatMap encodeChild).length ∧
      slice? buf off (children.flatMap encodeChild).length =
        some (children.flatMap encodeChild) := by
  have hle : ∀ p label : UInt8, label ≤ p ↔ ¬ p < label := fun p label ↦ UInt8.not_lt.symm
  induction n generalizing off prev children with
  | zero =>
    simp only [decodeChildren, pure, Except.pure, Except.ok.injEq, Prod.mk.injEq,
      List.length_eq_zero_iff]
    constructor
    · rintro ⟨rfl, rfl⟩
      simp [ascends_nil, slice?, hoff]
    · rintro ⟨rfl, -, -, rfl, -⟩
      simp
  | succ n ih =>
    simp only [decodeChildren, hle]
    rw [okOr_bind_eq_ok]
    constructor
    · rintro ⟨label, hlabel, h⟩
      rw [reject_bind_eq_ok, any_eq_false, bind_eq_ok] at h
      obtain ⟨hprev, count, hcount, h⟩ := h
      rw [reject_bind_eq_ok, bind_eq_ok] at h
      obtain ⟨hne, id, hid, h⟩ := h
      rw [bind_eq_ok] at h
      obtain ⟨⟨rest, off₂⟩, hrest, h⟩ := h
      simp only [pure, Except.pure, Except.ok.injEq, Prod.mk.injEq] at h
      obtain ⟨rfl, rfl⟩ := h
      rw [readU64_eq_ok] at hcount
      rw [readDigestAt_eq_ok] at hid
      have hslice := slice?_encodeChild (c := ⟨label, count, id⟩).mpr ⟨hlabel, hcount, hid⟩
      obtain ⟨rfl, hascends, hnes, rfl, hslices⟩ := (ih (le_of_slice? hid)).mp hrest
      refine ⟨rfl, (ascends_cons u8_lt_trans).mpr ⟨hprev, hascends⟩,
        List.forall_mem_cons.mpr ⟨hne, hnes⟩, ?_, ?_⟩
      · rw [List.flatMap_cons, List.length_append, length_encodeChild]
        omega
      · rw [List.flatMap_cons, List.length_append, length_encodeChild,
          slice?_append_eq_some (length_encodeChild _)]
        exact ⟨hslice, hslices⟩
    · rintro ⟨hlen, hascends, hne, hoff', hslice⟩
      cases children with
      | nil => cases hlen
      | cons c rest =>
        obtain ⟨hprev, hascends⟩ := (ascends_cons u8_lt_trans).mp hascends
        obtain ⟨hne, hnes⟩ := List.forall_mem_cons.mp hne
        rw [List.flatMap_cons, List.length_append, length_encodeChild] at hoff'
        rw [List.flatMap_cons, List.length_append, length_encodeChild,
          slice?_append_eq_some (length_encodeChild _), slice?_encodeChild] at hslice
        obtain ⟨⟨hlabel, hcount, hid⟩, hslices⟩ := hslice
        refine ⟨c.label, hlabel, ?_⟩
        rw [reject_bind_eq_ok, any_eq_false]
        refine ⟨hprev, ?_⟩
        rw [readU64_eq_ok.mpr hcount, ok_bind, reject_bind_eq_ok]
        refine ⟨hne, ?_⟩
        rw [readDigestAt_eq_ok.mpr hid, ok_bind, (ih (le_of_slice? hid)).mpr
          ⟨by simpa using hlen, hascends, hnes, by omega,
            by simpa only [Nat.add_assoc] using hslices⟩]
        rfl

theorem sumCounts_eq_ok {what : String} {sum sum' : UInt64} {children : List BranchChild} :
    sumCounts what sum children = .ok sum' ↔
      sum'.toNat = sum.toNat + (children.map fun c ↦ c.subtreeEntries.toNat).sum := by
  induction children generalizing sum with
  | nil =>
    simp only [sumCounts, pure, Except.pure, Except.ok.injEq, List.map_nil, List.sum_nil,
      Nat.add_zero, UInt64.toNat_inj]
    exact eq_comm
  | cons c children ih =>
    simp only [sumCounts, bind_eq_ok, checkedAdd_eq_ok, ih, List.map_cons, List.sum_cons]
    constructor
    · rintro ⟨sum₁, h₁, h⟩
      rw [h, h₁, Nat.add_assoc]
    · intro h
      have hlt := sum'.toNat_lt
      have h₁ : (UInt64.ofNat (sum.toNat + c.subtreeEntries.toNat)).toNat =
          sum.toNat + c.subtreeEntries.toNat := toNat_ofNat_u64 (by omega)
      exact ⟨_, h₁, by rw [h, h₁, Nat.add_assoc]⟩

/-- **A leaf payload is read exactly if it is that of the leaf.** -/
theorem decodeLeaf_eq_ok {n : ℕ} {t t' : UInt64} {body : Bytes} {p : Page} :
    decodeLeaf n t body = .ok (p, t') ↔ p.Valid ∧ p.Shaped ∧ p.kindByte = 0 ∧ p.rows = n ∧
      t.toNat = p.total ∧ body = p.payload ∧ t' = t := by
  rw [decodeLeaf, reject_bind_eq_ok, reject_bind_eq_ok, bind_eq_ok, not_lt, not_not]
  constructor
  · rintro ⟨hn, ht, ⟨entries, off⟩, hentries, h⟩
    obtain ⟨rfl, hvalid, hshaped, hascends, rfl, hslice⟩ :=
      (decodeEntries_eq_ok (Nat.zero_le _)).mp hentries
    rw [reject_bind_eq_ok, not_not, Nat.zero_add] at h
    obtain ⟨hlen, h⟩ := h
    simp only [pure, Except.pure, Except.ok.injEq, Prod.mk.injEq] at h
    obtain ⟨rfl, rfl⟩ := h
    exact ⟨⟨hn, hvalid, ascends_none.mp hascends⟩, hshaped, rfl, rfl, ht,
      (slice?_length_eq_some hlen.symm).mp hslice, rfl⟩
  · rintro ⟨hvalid, hshaped, hkind, rfl, ht, rfl, rfl⟩
    cases p with
    | branch pre terminal children => cases hkind
    | leaf entries =>
      obtain ⟨hn, hvalid, hascends⟩ := hvalid
      refine ⟨hn, ht, (entries, (entries.flatMap Entry.bytes).length),
        (decodeEntries_eq_ok (Nat.zero_le _)).mpr ⟨rfl, hvalid, hshaped,
          ascends_none.mpr hascends, (Nat.zero_add _).symm,
          (slice?_length_eq_some rfl).mpr rfl⟩, ?_⟩
      rw [reject_bind_eq_ok]
      exact ⟨fun h ↦ h rfl, rfl⟩

theorem decodeTerminal_eq_ok {buf pre : Bytes} {off off' : ℕ} {flag : UInt8}
    {terminal : Option Entry} (hflag : ¬ flag > 1) (hbuf : buf[off]? = some flag) :
    decodeTerminal buf (off + 1) flag pre = .ok (terminal, off') ↔
      (∀ t, terminal = some t → t.validate = .ok () ∧ t.name = pre) ∧
      (∀ t, terminal = some t → t.Shaped) ∧ flag.toNat = terminal.toList.length ∧
      off' = off + (terminalBytes terminal).length ∧
      slice? buf off (terminalBytes terminal).length = some (terminalBytes terminal) := by
  rw [decodeTerminal]
  split
  · rename_i h
    subst h
    rw [bind_eq_ok]
    constructor
    · rintro ⟨⟨t, off₁⟩, ht, h⟩
      obtain ⟨hvalid, hshaped, rfl, hslice⟩ := Entry.decode_eq_ok.mp ht
      rw [reject_bind_eq_ok, not_not] at h
      obtain ⟨hname, h⟩ := h
      simp only [pure, Except.pure, Except.ok.injEq, Prod.mk.injEq] at h
      obtain ⟨rfl, rfl⟩ := h
      refine ⟨fun u hu ↦ Option.some.inj hu ▸ ⟨hvalid, hname⟩,
        fun u hu ↦ Option.some.inj hu ▸ hshaped, rfl, ?_, ?_⟩
      · simp only [terminalBytes, List.length_cons, Entry.length_bytes]
        omega
      · rw [terminalBytes, ← List.singleton_append, List.length_append, Entry.length_bytes]
        exact (slice?_append_eq_some rfl).mpr ⟨slice?_singleton.mpr hbuf, hslice⟩
    · rintro ⟨hvalid, hshaped, hcount, rfl, hslice⟩
      cases terminal with
      | none => cases hcount
      | some t =>
        obtain ⟨hvalid, hname⟩ := hvalid t rfl
        rw [terminalBytes, ← List.singleton_append, List.length_append,
          Entry.length_bytes] at hslice
        have hslice := ((slice?_append_eq_some rfl).mp hslice).2
        refine ⟨_, Entry.decode_eq_ok.mpr ⟨hvalid, hshaped t rfl, rfl, hslice⟩, ?_⟩
        rw [reject_bind_eq_ok, not_not]
        refine ⟨hname, ?_⟩
        simp only [pure, Except.pure, terminalBytes, List.length_cons, Entry.length_bytes]
        rw [Nat.add_assoc, Nat.add_comm 1]
  · rename_i h
    have hzero : flag = 0 := by
      rw [gt_iff_lt, UInt8.lt_iff_toNat_lt] at hflag
      have h1 : flag.toNat ≠ 1 := fun h' ↦ h (UInt8.toNat_inj.mp h')
      have h2 : ¬ 1 < flag.toNat := hflag
      exact UInt8.toNat_inj.mp (show flag.toNat = 0 by omega)
    subst hzero
    simp only [pure, Except.pure, Except.ok.injEq, Prod.mk.injEq]
    constructor
    · rintro ⟨rfl, rfl⟩
      exact ⟨by simp, by simp, rfl, rfl, slice?_singleton.mpr hbuf⟩
    · rintro ⟨-, -, hcount, rfl, -⟩
      cases terminal with
      | none => exact ⟨rfl, rfl⟩
      | some t => cases hcount

/-- **A branch payload is read exactly if it is that of the branch.** -/
theorem decodeBranch_eq_ok {n : ℕ} {t t' : UInt64} {body : Bytes} {p : Page}
    (ht : t.toNat ≤ maxTotalEntries) :
    decodeBranch n t body = .ok (p, t') ↔ p.Valid ∧ p.Shaped ∧ p.kindByte = 1 ∧ p.rows = n ∧
      t.toNat = p.total ∧ body = p.payload ∧ t' = t := by
  -- the payload of a branch, field by field
  have hslices : ∀ (pre : Bytes) (terminal : Option Entry) (children : List BranchChild),
      body = payload (.branch pre terminal children) ↔
        slice? body 0 2 = some (writeU16 (UInt16.ofNat pre.length)) ∧
        slice? body 2 pre.length = some pre ∧
        slice? body (2 + pre.length) (terminalBytes terminal).length =
          some (terminalBytes terminal) ∧
        slice? body (2 + pre.length + (terminalBytes terminal).length)
          (children.flatMap encodeChild).length = some (children.flatMap encodeChild) ∧
        body.length = 2 + pre.length + (terminalBytes terminal).length +
          (children.flatMap encodeChild).length := by
    intro pre terminal children
    have hpayload : payload (.branch pre terminal children) =
        writeU16 (UInt16.ofNat pre.length) ++
          (pre ++ (terminalBytes terminal ++ children.flatMap encodeChild)) := by
      simp [payload]
    have hsplit : slice? body 0 (2 + (pre.length + ((terminalBytes terminal).length +
        (children.flatMap encodeChild).length))) = some (payload (.branch pre terminal children)) ↔
        slice? body 0 2 = some (writeU16 (UInt16.ofNat pre.length)) ∧
        slice? body 2 pre.length = some pre ∧
        slice? body (2 + pre.length) (terminalBytes terminal).length =
          some (terminalBytes terminal) ∧
        slice? body (2 + pre.length + (terminalBytes terminal).length)
          (children.flatMap encodeChild).length = some (children.flatMap encodeChild) := by
      rw [hpayload, slice?_append_eq_some (length_writeU16 _), slice?_append_eq_some rfl,
        slice?_append_eq_some rfl, Nat.zero_add]
    constructor
    · intro h
      have hlen : body.length = 2 + (pre.length + ((terminalBytes terminal).length +
          (children.flatMap encodeChild).length)) := by
        rw [h, hpayload]
        simp
      obtain ⟨h₁, h₂, h₃, h₄⟩ := hsplit.mp ((slice?_length_eq_some hlen).mpr h)
      exact ⟨h₁, h₂, h₃, h₄, by omega⟩
    · rintro ⟨h₁, h₂, h₃, h₄, hlen⟩
      exact (slice?_length_eq_some (by omega)).mp (hsplit.mpr ⟨h₁, h₂, h₃, h₄⟩)
  rw [decodeBranch, bind_eq_ok]
  constructor
  · rintro ⟨prefixLen, hprefixLen, h⟩
    rw [reject_bind_eq_ok, okOr_bind_eq_ok] at h
    obtain ⟨hpre, pre, hpreSlice, h⟩ := h
    rw [okOr_bind_eq_ok] at h
    obtain ⟨flag, hflag, h⟩ := h
    rw [reject_bind_eq_ok, bind_eq_ok] at h
    obtain ⟨hflag1, ⟨terminal, off⟩, hterminal, h⟩ := h
    rw [reject_bind_eq_ok, bind_eq_ok] at h
    obtain ⟨hn, ⟨children, off'⟩, hchildren, h⟩ := h
    rw [reject_bind_eq_ok, reject_bind_eq_ok, bind_eq_ok] at h
    obtain ⟨hend, htwo, sum, hsum, h⟩ := h
    rw [bind_eq_ok] at h
    obtain ⟨expected, hexpected, h⟩ := h
    rw [reject_bind_eq_ok, not_not] at h
    obtain ⟨rfl, h⟩ := h
    simp only [pure, Except.pure, Except.ok.injEq, Prod.mk.injEq] at h
    obtain ⟨rfl, rfl⟩ := h
    obtain ⟨hvalid, hshaped, hcount, rfl, hterminalSlice⟩ :=
      (decodeTerminal_eq_ok hflag1 hflag).mp hterminal
    obtain ⟨rfl, hascends, hne, rfl, hchildrenSlice⟩ :=
      (decodeChildren_eq_ok (le_of_slice? hterminalSlice)).mp hchildren
    have hlen := length_of_slice? hpreSlice
    rw [sumCounts_eq_ok] at hsum
    rw [checkedAdd_eq_ok] at hexpected
    have htotal : expected.toNat = total (.branch pre terminal children) := by
      rw [hexpected, hsum, total, ← hcount]
      simp
    rw [readU16_eq_ok] at hprefixLen
    rw [← hlen] at hpreSlice hterminalSlice hchildrenSlice hend
    refine ⟨⟨?_, not_lt.mp hn, hvalid, ascends_none.mp hascends, hne, ?_, ?_⟩, hshaped, rfl, rfl,
      htotal, (hslices pre terminal children).mpr ⟨?_, hpreSlice, hterminalSlice, hchildrenSlice,
        (not_not.mp hend).symm⟩, rfl⟩
    · rw [hlen]
      exact not_lt.mp hpre
    · rw [← hcount]
      exact not_lt.mp htwo
    · rwa [← htotal]
    · rw [hprefixLen, hlen, UInt16.ofNat_toNat]
  · rintro ⟨hvalid, hshaped, hkind, rfl, htotal, hbody, rfl⟩
    cases p with
    | leaf entries => cases hkind
    | branch pre terminal children =>
      obtain ⟨hpre, hn, hvalid, hascends, hne, htwo, hmax⟩ := hvalid
      obtain ⟨hprefixLen, hpreSlice, hterminalSlice, hchildrenSlice, hlen⟩ :=
        (hslices pre terminal children).mp hbody
      have hnat : (UInt16.ofNat pre.length).toNat = pre.length :=
        toNat_ofNat_u16 (by rw [maxDepth] at hpre; omega)
      -- the presence byte
      obtain ⟨flag, hflag1, hflag, hcount⟩ : ∃ flag : UInt8, ¬ flag > 1 ∧
          body[2 + pre.length]? = some flag ∧ flag.toNat = terminal.toList.length := by
        cases terminal with
        | none => exact ⟨0, by decide, slice?_singleton.mp hterminalSlice, rfl⟩
        | some e =>
          rw [terminalBytes, ← List.singleton_append, List.length_append] at hterminalSlice
          exact ⟨1, by decide,
            slice?_singleton.mp ((slice?_append_eq_some rfl).mp hterminalSlice).1, rfl⟩
      refine ⟨_, readU16_eq_ok.mpr hprefixLen, ?_⟩
      rw [hnat, reject_bind_eq_ok, okOr_bind_eq_ok]
      refine ⟨not_lt.mpr hpre, pre, hpreSlice, ?_⟩
      rw [okOr_bind_eq_ok]
      refine ⟨flag, hflag, ?_⟩
      rw [reject_bind_eq_ok, (decodeTerminal_eq_ok hflag1 hflag).mpr
        ⟨hvalid, hshaped, hcount, rfl, hterminalSlice⟩, ok_bind]
      refine ⟨hflag1, ?_⟩
      rw [rows, reject_bind_eq_ok, (decodeChildren_eq_ok (le_of_slice? hterminalSlice)).mpr
        ⟨rfl, ascends_none.mpr hascends, hne, rfl, hchildrenSlice⟩, ok_bind]
      refine ⟨not_lt.mpr hn, ?_⟩
      have hsum : (UInt64.ofNat (children.map fun c ↦ c.subtreeEntries.toNat).sum).toNat =
          (children.map fun c ↦ c.subtreeEntries.toNat).sum := by
        refine toNat_ofNat_u64 ?_
        simp only [maxTotalEntries, total] at hmax
        omega
      rw [reject_bind_eq_ok, reject_bind_eq_ok,
        sumCounts_eq_ok.mpr (by rw [hsum]; exact (Nat.zero_add _).symm), ok_bind]
      refine ⟨not_not.mpr hlen.symm, ?_, ?_⟩
      · rw [hcount]
        exact not_lt.mpr htwo
      · rw [(checkedAdd_eq_ok (c := t')).mpr (by rw [htotal, hsum, total, ← hcount]; simp), ok_bind,
          reject_bind_eq_ok]
        exact ⟨not_not.mpr rfl, rfl⟩

/-- The header, field by field. -/
theorem header_eq_ok {b : Bytes} {kind : UInt8} {n : UInt16} {t : UInt64} {len : UInt32}
    (hb : headerLen ≤ b.length) :
    (b.take 4 = pageMagic ∧ b.getD 4 0 = kind ∧ b.getD 5 0 = 0 ∧ readU16 b 6 = .ok n ∧
      readU64 b 8 = .ok t ∧ readU32 b 16 = .ok len) ↔
      b = pageMagic ++ [kind, 0] ++ writeU16 n ++ writeU64 t ++ writeU32 len ++
        b.drop headerLen := by
  rw [headerLen] at hb ⊢
  have hmagic : b.take 4 = pageMagic ↔ slice? b 0 4 = some pageMagic := by
    rw [slice?, if_pos (by omega), List.drop_zero, Option.some.injEq]
  have hbyte : ∀ (i : ℕ) (v : UInt8), i < 20 → (b.getD i 0 = v ↔ slice? b i 1 = some [v]) := by
    intro i v hi
    rw [slice?_singleton, List.getD_eq_getElem?_getD, List.getElem?_eq_getElem (by omega)]
    simp
  rw [hmagic, hbyte 4 _ (by omega), hbyte 5 _ (by omega), readU16_eq_ok, readU64_eq_ok,
    readU32_eq_ok]
  have hsplit : slice? b 0 (4 + (1 + (1 + (2 + (8 + 4))))) = some (pageMagic ++ ([kind] ++ ([0] ++
      (writeU16 n ++ (writeU64 t ++ writeU32 len))))) ↔ _ :=
    (slice?_append_eq_some (n := 4) (x := pageMagic) rfl).trans <| and_congr_right' <|
    (slice?_append_eq_some (n := 1) (x := [kind]) rfl).trans <| and_congr_right' <|
    (slice?_append_eq_some (n := 1) (x := [0]) rfl).trans <| and_congr_right' <|
    (slice?_append_eq_some (length_writeU16 _)).trans <| and_congr_right' <|
    slice?_append_eq_some (length_writeU64 _)
  have hlength : pageMagic.length = 4 := rfl
  refine hsplit.symm.trans ?_
  rw [slice?_eq_some]
  simp [hlength]

theorem decodePayload_eq_ok {kind : UInt8} {n : ℕ} {t t' : UInt64} {body : Bytes} {p : Page}
    (ht : t.toNat ≤ maxTotalEntries) :
    (if kind = 0 then decodeLeaf n t body
      else if kind = 1 then decodeBranch n t body
      else .error (.badConstant "page_kind")) = .ok (p, t') ↔
      p.Valid ∧ p.Shaped ∧ p.kindByte = kind ∧ p.rows = n ∧ t.toNat = p.total ∧
        body = p.payload ∧ t' = t := by
  split
  · rename_i hkind
    rw [hkind, decodeLeaf_eq_ok]
  split
  · rename_i hkind
    rw [hkind, decodeBranch_eq_ok ht]
  · rename_i hleaf hbranch
    constructor
    · rintro ⟨⟩
    · rintro ⟨-, -, hkind, -⟩
      cases p with
      | leaf entries => exact absurd hkind.symm hleaf
      | branch pre terminal children => exact absurd hkind.symm hbranch

theorem rows_lt {p : Page} (h : p.Valid) : p.rows < 65536 := by
  cases p with
  | leaf entries => exact lt_of_le_of_lt h.1 (by decide)
  | branch pre terminal children => exact lt_of_le_of_lt h.2.1 (by decide)

theorem total_le {p : Page} (h : p.Valid) : p.total ≤ maxTotalEntries := by
  cases p with
  | leaf entries => exact h.1.trans (by decide)
  | branch pre terminal children => exact h.2.2.2.2.2.2

theorem length_bytes (p : Page) : p.bytes.length = headerLen + p.payload.length := by
  have hlength : pageMagic.length = 4 := rfl
  simp only [bytes, frame, hlength, headerLen, List.length_append, length_writeU16,
    length_writeU64, length_writeU32, List.length_cons, List.length_nil]

/-- **The decoder reads exactly the bytes of a page**: `b` is read as `p` if and only if `p` is
valid, nothing in it is lost on the wire, and `b` is `p.bytes` and short enough. -/
theorem decode_eq_ok {b : Bytes} {p : Page} {t : UInt64} :
    decode b = .ok (p, t) ↔ p.Valid ∧ p.Shaped ∧ b = p.bytes ∧ b.length ≤ pageMaxBytes ∧
      t.toNat = p.total := by
  rw [decode]
  simp only [reject_bind_eq_ok, not_lt, not_not]
  constructor
  · rintro ⟨hlen, hmax, hmagic, hflags, h⟩
    rw [bind_eq_ok] at h
    obtain ⟨n, hn, h⟩ := h
    rw [bind_eq_ok] at h
    obtain ⟨t', ht', h⟩ := h
    rw [reject_bind_eq_ok, not_lt, bind_eq_ok] at h
    obtain ⟨htotal, len, hpayloadLen, h⟩ := h
    rw [reject_bind_eq_ok, not_not, decodePayload_eq_ok htotal] at h
    obtain ⟨hexact, hvalid, hshaped, hkind, hrows, hcount, hpayload, rfl⟩ := h
    have hb := (header_eq_ok hlen).mp ⟨hmagic, rfl, hflags, hn, ht', hpayloadLen⟩
    refine ⟨hvalid, hshaped, ?_, hmax, hcount⟩
    have hn' : UInt16.ofNat p.rows = n := by rw [hrows, UInt16.ofNat_toNat]
    have ht : UInt64.ofNat p.total = t := by rw [← hcount, UInt64.ofNat_toNat]
    have hlen' : UInt32.ofNat p.payload.length = len := by
      rw [← hpayload, List.length_drop, hexact, Nat.add_sub_cancel_left, UInt32.ofNat_toNat]
    rw [bytes, frame, hkind, hn', ht, hlen', ← hpayload]
    exact hb
  · rintro ⟨hvalid, hshaped, rfl, hmax, htotal⟩
    have hlength := length_bytes p
    have hlen : headerLen ≤ p.bytes.length := by omega
    have hmaxTotal := total_le hvalid
    rw [pageMaxBytes] at hmax
    have hrows : (UInt16.ofNat p.rows).toNat = p.rows := toNat_ofNat_u16 (rows_lt hvalid)
    have hpayloadLen : (UInt32.ofNat p.payload.length).toNat = p.payload.length :=
      toNat_ofNat_u32 (by omega)
    have ht : t = UInt64.ofNat p.total := by rw [← htotal, UInt64.ofNat_toNat]
    have hdrop : p.bytes.drop headerLen = p.payload := by
      rw [bytes, frame]
      exact List.drop_left' (by simp [headerLen, show pageMagic.length = 4 from rfl])
    obtain ⟨hmagic, hkind, hflags, hn, ht', hpayload⟩ := (header_eq_ok hlen).mpr
      (show p.bytes = _ by rw [hdrop]; rfl)
    refine ⟨hlen, hmax, hmagic, hflags, ?_⟩
    rw [hn, ok_bind, ht', ok_bind, reject_bind_eq_ok, not_lt, ← ht, htotal, hpayload, ok_bind,
      reject_bind_eq_ok, not_not, hpayloadLen, hrows, hdrop]
    refine ⟨hmaxTotal, hlength, ?_⟩
    rw [hkind, decodePayload_eq_ok (by rwa [htotal])]
    exact ⟨hvalid, hshaped, rfl, rfl, htotal, rfl, rfl⟩

/-! ## What is read back of a page -/

theorem total_wire (p : Page) : p.wire.total = p.total := by
  cases p with
  | leaf entries => simp [wire, total]
  | branch pre terminal children => cases terminal <;> rfl

theorem bytes_wire (p : Page) : p.wire.bytes = p.bytes := by
  have hpayload : p.wire.payload = p.payload := by
    cases p with
    | leaf entries => simp only [wire, payload, List.flatMap_map, Entry.bytes_wire]
    | branch pre terminal children =>
      cases terminal with
      | none => rfl
      | some t =>
        simp only [wire, payload, terminalBytes, Option.map_some, Entry.bytes_wire]
  have hrows : p.wire.rows = p.rows := by
    cases p with
    | leaf entries => simp [wire, rows]
    | branch pre terminal children => rfl
  have hkind : p.wire.kindByte = p.kindByte := by cases p <;> rfl
  rw [bytes, bytes, hpayload, hrows, hkind, total_wire]

theorem shaped_wire (p : Page) : p.wire.Shaped := by
  cases p with
  | leaf entries =>
    intro e he
    obtain ⟨e', -, rfl⟩ := List.mem_map.mp he
    exact e'.shaped_wire
  | branch pre terminal children =>
    intro t ht
    obtain ⟨t', -, rfl⟩ := Option.map_eq_some_iff.mp ht
    exact t'.shaped_wire

theorem wire_of_shaped {p : Page} (h : p.Shaped) : p.wire = p := by
  cases p with
  | leaf entries =>
    rw [wire, List.map_congr_left fun e he ↦ Entry.wire_of_shaped (h e he), List.map_id']
  | branch pre terminal children =>
    cases terminal with
    | none => rfl
    | some t => rw [wire, Option.map_some, Entry.wire_of_shaped (h t rfl)]

theorem Valid.wire {p : Page} (h : p.Valid) : p.wire.Valid := by
  cases p with
  | leaf entries =>
    obtain ⟨hlen, hvalid, hascends⟩ := h
    refine ⟨by simpa using hlen, fun e he ↦ ?_, List.pairwise_map.mpr ?_⟩
    · obtain ⟨e', he', rfl⟩ := List.mem_map.mp he
      rw [Entry.validate_wire]
      exact hvalid e' he'
    · simpa only [Entry.name_wire] using hascends
  | branch pre terminal children =>
    obtain ⟨hpre, hchildren, hterminal, hascends, hne, htwo, hmax⟩ := h
    refine ⟨hpre, hchildren, fun t ht ↦ ?_, hascends, hne, ?_, ?_⟩
    · obtain ⟨t', ht', rfl⟩ := Option.map_eq_some_iff.mp ht
      rw [Entry.validate_wire, Entry.name_wire]
      exact hterminal t' ht'
    · cases terminal <;> exact htwo
    · cases terminal <;> exact hmax

/-- Reading back what `encode` has written. -/
theorem decode_bytes {p : Page} (h : p.Valid) (hlen : p.bytes.length ≤ pageMaxBytes) :
    decode p.bytes = .ok (p.wire, UInt64.ofNat p.total) := by
  have hmax := total_le h
  rw [maxTotalEntries] at hmax
  refine decode_eq_ok.mpr ⟨h.wire, shaped_wire p, (bytes_wire p).symm, hlen, ?_⟩
  rw [total_wire]
  exact toNat_ofNat_u64 (by omega)

end Page

end Mst2
