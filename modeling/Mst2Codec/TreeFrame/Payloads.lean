import Mst2Codec.TreeFrame

/-!
# The payloads of frames

Every payload has one byte string, `rawPayload`.  For each kind `encode_eq_ok` says which payloads
are encoded, and `decode_eq_ok` that the decoder accepts exactly the byte strings of the payloads
that pass its checks.  The checks of the decoders of META and OBJECT payloads are more than those of
the encoders (`MetaPayload.Readable`, and the distinct identities of the objects).
-/

set_option autoImplicit false

namespace Mst2

open Bytes Except TreeFrame

variable [Sha256]

/-! ## META -/

namespace MetaPayload

/-- A page behind its identity and its length. -/
def pageBytes (x : Digest × Bytes) : Bytes :=
  x.1.bytes ++ (writeU32 (UInt32.ofNat x.2.length) ++ x.2)

/-- The bytes of a payload. -/
def rawPayload (p : MetaPayload) : Bytes :=
  writeU16 (UInt16.ofNat p.pages.length) ++ writeU16 0 ++ p.pages.flatMap pageBytes

omit [Sha256] in
theorem length_pageBytes (x : Digest × Bytes) : (pageBytes x).length = 32 + (4 + x.2.length) := by
  simp [pageBytes]

omit [Sha256] in
theorem slice?_pageBytes {buf : Bytes} {off : ℕ} {x : Digest × Bytes} :
    slice? buf off (pageBytes x).length = some (pageBytes x) ↔
      slice? buf off 32 = some x.1.bytes ∧
      slice? buf (off + 32) 4 = some (writeU32 (UInt32.ofNat x.2.length)) ∧
      slice? buf (off + 32 + 4) x.2.length = some x.2 := by
  rw [length_pageBytes, pageBytes, slice?_append_eq_some (by simp),
    slice?_append_eq_some (by simp)]

/-- The payloads that `encode` accepts. -/
structure Encodable (p : MetaPayload) : Prop where
  /-- There is a page. -/
  ne_nil : p.pages ≠ []
  /-- There are at most 64. -/
  length_le : p.pages.length ≤ metaMaxPages
  /-- Every page has its identity. -/
  pageId_eq : ∀ x ∈ p.pages, pageId x.2 = x.1
  /-- The payload has at most 1 MiB. -/
  length_rawPayload_le : p.rawPayload.length ≤ metaMaxRaw

/-- The checks that only the decoder makes. -/
structure Readable (p : MetaPayload) : Prop where
  /-- No page occurs twice. -/
  nodup : (p.pages.map Prod.fst).Nodup
  /-- Every page has at most 16 KiB. -/
  length_page_le : ∀ x ∈ p.pages, x.2.length ≤ pageMaxBytes

theorem encodePages_eq_ok {pages : List (Digest × Bytes)} {b : Bytes} :
    encodePages pages = .ok b ↔ (∀ x ∈ pages, pageId x.2 = x.1) ∧ b = pages.flatMap pageBytes := by
  induction pages generalizing b with
  | nil => simp [encodePages, pure, Except.pure, eq_comm]
  | cons x pages ih =>
    obtain ⟨pid, page⟩ := x
    rw [encodePages, reject_bind_eq_ok, not_not, bind_eq_ok, List.forall_mem_cons, and_assoc]
    refine and_congr_right fun _ ↦ ?_
    simp only [ih, pure, Except.pure, Except.ok.injEq]
    constructor
    · rintro ⟨_, ⟨hpages, rfl⟩, rfl⟩
      exact ⟨hpages, by simp [pageBytes]⟩
    · rintro ⟨hpages, rfl⟩
      exact ⟨_, ⟨hpages, rfl⟩, by simp [pageBytes]⟩

theorem encode_eq_ok {p : MetaPayload} {streamId : UInt32} {sequence : UInt64} {b : Bytes} :
    p.encode streamId sequence = .ok b ↔
      p.Encodable ∧ b = frameBytes kindMeta p.rawPayload streamId sequence := by
  rw [encode, reject_bind_eq_ok, not_or, not_lt, bind_eq_ok]
  constructor
  · rintro ⟨⟨hne, hlen⟩, pages, hpages, h⟩
    obtain ⟨hids, rfl⟩ := encodePages_eq_ok.mp hpages
    rw [reject_bind_eq_ok, not_lt] at h
    exact ⟨⟨hne, hlen, hids, h.1⟩, (Except.ok.inj h.2).symm⟩
  · rintro ⟨h, rfl⟩
    refine ⟨⟨h.ne_nil, h.length_le⟩, _, encodePages_eq_ok.mpr ⟨h.pageId_eq, rfl⟩, ?_⟩
    rw [reject_bind_eq_ok, not_lt]
    exact ⟨h.length_rawPayload_le, rfl⟩

theorem decodePages_eq_ok {buf : Bytes} {n off off' : ℕ} {seen : List Digest}
    {pages : List (Digest × Bytes)} (hoff : off ≤ buf.length) :
    decodePages buf n off seen = .ok (pages, off') ↔ pages.length = n ∧
      (∀ x ∈ pages, pageId x.2 = x.1) ∧ (∀ x ∈ pages, x.2.length ≤ pageMaxBytes) ∧
      (pages.map Prod.fst).Nodup ∧ (∀ x ∈ pages, x.1 ∉ seen) ∧
      off' = off + (pages.flatMap pageBytes).length ∧
      slice? buf off (pages.flatMap pageBytes).length = some (pages.flatMap pageBytes) := by
  induction n generalizing off seen pages with
  | zero =>
    simp only [decodePages, pure, Except.pure, Except.ok.injEq, Prod.mk.injEq,
      List.length_eq_zero_iff]
    constructor
    · rintro ⟨rfl, rfl⟩
      simp [slice?, hoff]
    · rintro ⟨rfl, -, -, -, -, rfl, -⟩
      simp
  | succ n ih =>
    rw [decodePages, bind_eq_ok]
    constructor
    · rintro ⟨pid, hpid, h⟩
      dsimp only at h
      rw [bind_eq_ok] at h
      obtain ⟨len, hlen, h⟩ := h
      rw [reject_bind_eq_ok, not_lt, okOr_bind_eq_ok] at h
      obtain ⟨hmax, page, hpage, h⟩ := h
      rw [reject_bind_eq_ok, not_not, reject_bind_eq_ok, bind_eq_ok] at h
      obtain ⟨hid, hseen, ⟨rest, off₂⟩, hrest, h⟩ := h
      simp only [pure, Except.pure, Except.ok.injEq, Prod.mk.injEq] at h
      obtain ⟨rfl, rfl⟩ := h
      rw [readDigestAt_eq_ok] at hpid
      rw [readU32_eq_ok] at hlen
      have hpageLen := length_of_slice? hpage
      obtain ⟨rfl, hids, hlens, hnodup, hnew, rfl, hslices⟩ := (ih (le_of_slice? hpage)).mp hrest
      rw [← hpageLen] at hmax hslices hpage
      have hslice := slice?_pageBytes (x := ⟨pid, page⟩).mpr
        ⟨hpid, by rwa [hpageLen, UInt32.ofNat_toNat], hpage⟩
      refine ⟨rfl, List.forall_mem_cons.mpr ⟨hid, hids⟩, List.forall_mem_cons.mpr ⟨hmax, hlens⟩,
        ?_, ?_, ?_, ?_⟩
      · rw [List.map_cons, List.nodup_cons, List.mem_map]
        refine ⟨fun h ↦ ?_, hnodup⟩
        obtain ⟨x, hx, hxp⟩ := h
        exact hnew x hx (hxp ▸ List.mem_cons_self)
      · exact List.forall_mem_cons.mpr
          ⟨hseen, fun x hx h ↦ hnew x hx (List.mem_cons_of_mem _ h)⟩
      · rw [List.flatMap_cons, List.length_append, length_pageBytes]
        dsimp only
        omega
      · rw [List.flatMap_cons, List.length_append, slice?_append_eq_some rfl]
        refine ⟨hslice, ?_⟩
        rwa [length_pageBytes, ← Nat.add_assoc, ← Nat.add_assoc]
    · rintro ⟨hlength, hids, hlens, hnodup, hnew, hoff', hslice⟩
      obtain ⟨⟨pid, page⟩, rest, rfl⟩ := List.exists_cons_of_length_eq_add_one hlength
      obtain ⟨hid, hids⟩ := List.forall_mem_cons.mp hids
      obtain ⟨hlen, hlens⟩ := List.forall_mem_cons.mp hlens
      obtain ⟨hseen, hnew⟩ := List.forall_mem_cons.mp hnew
      rw [List.map_cons, List.nodup_cons, List.mem_map] at hnodup
      rw [List.flatMap_cons, List.length_append] at hoff' hslice
      rw [slice?_append_eq_some rfl, slice?_pageBytes, length_pageBytes] at hslice
      rw [length_pageBytes] at hoff'
      obtain ⟨⟨hpid, hpageLen, hpage⟩, hslices⟩ := hslice
      dsimp only at hpid hpageLen hpage hslices hid hlen hseen hoff' hnodup
      have hnat : (UInt32.ofNat page.length).toNat = page.length :=
        toNat_ofNat_u32 (by rw [pageMaxBytes] at hlen; omega)
      refine ⟨pid, readDigestAt_eq_ok.mpr hpid, ?_⟩
      dsimp only
      rw [readU32_eq_ok.mpr hpageLen, ok_bind, hnat, reject_of_not (not_lt.mpr hlen), ok_bind,
        hpage, okOr_some, ok_bind, reject_of_not (not_not.mpr hid), ok_bind, reject_of_not hseen,
        ok_bind, (ih (le_of_slice? hpage)).mpr ⟨Nat.succ.inj hlength, hids, hlens, hnodup.2, ?_, ?_,
          ?_⟩]
      · rfl
      · refine fun x hx h ↦ (List.mem_cons.mp h).elim (fun heq ↦ ?_) (hnew x hx)
        exact hnodup.1 ⟨x, hx, heq⟩
      · omega
      · rwa [← Nat.add_assoc, ← Nat.add_assoc] at hslices

/-- What `decode_meta` accepts. -/
theorem decode_eq_ok {payload : Bytes} {p : MetaPayload} :
    decode payload = .ok p ↔ p.Encodable ∧ p.Readable ∧ payload = p.rawPayload := by
  rw [decode, reject_bind_eq_ok, reject_bind_eq_ok, not_lt, not_lt, bind_eq_ok]
  constructor
  · rintro ⟨hmax, hmin, count, hcount, h⟩
    rw [reject_bind_eq_ok, not_not, bind_eq_ok] at h
    obtain ⟨⟨hpos, hcountLe⟩, reserved, hreserved, h⟩ := h
    rw [reject_bind_eq_ok, not_not, bind_eq_ok] at h
    obtain ⟨rfl, ⟨pages, off⟩, hpages, h⟩ := h
    dsimp only at h
    rw [reject_bind_eq_ok, not_not] at h
    obtain ⟨rfl, h⟩ := h
    obtain rfl := Except.ok.inj h
    obtain ⟨hlength, hids, hlens, hnodup, -, hlen, hslices⟩ := (decodePages_eq_ok hmin).mp hpages
    rw [readU16_eq_ok] at hcount hreserved
    have hbytes : payload = rawPayload ⟨pages⟩ := by
      refine (slice?_length_eq_some (n := 4 + (pages.flatMap pageBytes).length) hlen).mp ?_
      rw [rawPayload, slice?_append_eq_some (by simp),
        slice?_append_eq_some (n := 2) (m := 2) (by simp), hlength, UInt16.ofNat_toNat]
      exact ⟨⟨hcount, hreserved⟩, hslices⟩
    refine ⟨⟨?_, ?_, hids, ?_⟩, ⟨hnodup, hlens⟩, hbytes⟩
    · exact List.ne_nil_of_length_pos (by dsimp only; omega)
    · rwa [hlength]
    · rwa [← hbytes]
  · rintro ⟨hp, hr, rfl⟩
    have hlen : p.rawPayload.length = 4 + (p.pages.flatMap pageBytes).length := by
      simp [rawPayload]
      omega
    have hpages : slice? p.rawPayload 0 (4 + (p.pages.flatMap pageBytes).length) =
        some p.rawPayload := (slice?_length_eq_some hlen).mpr rfl
    nth_rewrite 2 [rawPayload] at hpages
    rw [slice?_append_eq_some (by simp),
      slice?_append_eq_some (n := 2) (m := 2) (by simp)] at hpages
    obtain ⟨⟨hcount, hreserved⟩, hslices⟩ := hpages
    have hpos := List.length_pos_iff.mpr hp.ne_nil
    have hle := hp.length_le
    have hcountNat : (UInt16.ofNat p.pages.length).toNat = p.pages.length :=
      toNat_ofNat_u16 (by rw [metaMaxPages] at hle; omega)
    refine ⟨hp.length_rawPayload_le, by omega, _, readU16_eq_ok.mpr hcount, ?_⟩
    rw [hcountNat, reject_of_not (not_not.mpr ⟨hpos, hle⟩), ok_bind, readU16_eq_ok.mpr hreserved,
      ok_bind, reject_of_not (not_not.mpr rfl), ok_bind, (decodePages_eq_ok (by omega)).mpr
        ⟨rfl, hp.pageId_eq, hr.length_page_le, hr.nodup, fun _ _ ↦ List.not_mem_nil, hlen, hslices⟩,
      ok_bind]
    dsimp only
    rw [reject_of_not (not_not.mpr rfl)]
    rfl

end MetaPayload

/-! ## OBJECT -/

namespace ObjectPayload

/-- The rows of a table whose data starts at `off`. -/
def tableBytes : UInt32 → List (Digest × Bytes) → Bytes
  | _, [] => []
  | off, x :: objects => x.1.bytes ++ (writeU32 (UInt32.ofNat x.2.length) ++ writeU32 off) ++
      tableBytes (off + UInt32.ofNat x.2.length) objects

/-- The bytes of a payload. -/
def rawPayload (p : ObjectPayload) : Bytes :=
  writeU16 (UInt16.ofNat p.objects.length) ++ writeU16 0 ++ tableBytes 0 p.objects ++
    dataArea p.objects

omit [Sha256] in
theorem length_tableBytes (off : UInt32) (objects : List (Digest × Bytes)) :
    (tableBytes off objects).length = objects.length * 40 := by
  induction objects generalizing off with
  | nil => rfl
  | cons x objects ih =>
    rw [tableBytes, List.length_append, ih]
    simp
    omega

/-- The payloads that `encode` accepts. -/
structure Encodable (p : ObjectPayload) : Prop where
  /-- There is an object. -/
  ne_nil : p.objects ≠ []
  /-- There are at most 128. -/
  length_le : p.objects.length ≤ objectMaxCount
  /-- Every object has its identity. -/
  sha256_eq : ∀ x ∈ p.objects, sha256 x.2 = x.1
  /-- Every object has at most 256 KiB. -/
  length_object_le : ∀ x ∈ p.objects, x.2.length ≤ objectMaxLen
  /-- The payload has at most 1 MiB. -/
  length_rawPayload_le : p.rawPayload.length ≤ objectMaxRaw

omit [Sha256] in
theorem checkedAddU32_eq_ok {a b c : UInt32} {what : String} :
    checkedAddU32 a b what = .ok c ↔ c.toNat = a.toNat + b.toNat := by
  rw [checkedAddU32]
  split
  · rename_i h
    rw [Except.ok.injEq, ← UInt32.toNat_inj, UInt32.toNat_add, Nat.mod_eq_of_lt h]
    exact eq_comm
  · rename_i h
    simp only [reduceCtorEq, false_iff]
    intro hc
    exact h (hc ▸ c.toNat_lt)

omit [Sha256] in
/-- The offset behind an object that fits. -/
theorem toNat_add_ofNat {off : UInt32} {n : ℕ} (h : off.toNat + n < 2 ^ 32) :
    (off + UInt32.ofNat n).toNat = off.toNat + n := by
  rw [UInt32.toNat_add, toNat_ofNat_u32 (by omega), Nat.mod_eq_of_lt h]

theorem encodeTable_eq_ok {off : UInt32} {objects : List (Digest × Bytes)} {b : Bytes} :
    encodeTable off objects = .ok b ↔ (∀ x ∈ objects, sha256 x.2 = x.1) ∧
      (∀ x ∈ objects, x.2.length ≤ objectMaxLen) ∧
      off.toNat + (dataArea objects).length < 2 ^ 32 ∧ b = tableBytes off objects := by
  induction objects generalizing off b with
  | nil =>
    have := off.toNat_lt
    simp only [encodeTable, pure, Except.pure, Except.ok.injEq, tableBytes, dataArea]
    simp [eq_comm]
    omega
  | cons x objects ih =>
    obtain ⟨cid, data⟩ := x
    rw [encodeTable, reject_bind_eq_ok, not_not, reject_bind_eq_ok, not_lt, bind_eq_ok,
      List.forall_mem_cons, List.forall_mem_cons]
    have harea : (dataArea ((cid, data) :: objects)).length =
        data.length + (dataArea objects).length := by
      rw [dataArea, List.flatMap_cons, List.length_append, ← dataArea]
    rw [harea]
    constructor
    · rintro ⟨hid, hlen, next, hnext, h⟩
      rw [checkedAddU32_eq_ok, toNat_ofNat_u32 (by rw [objectMaxLen] at hlen; omega)] at hnext
      rw [bind_eq_ok] at h
      obtain ⟨rest, hrest, h⟩ := h
      obtain rfl := Except.ok.inj h
      obtain ⟨hids, hlens, hlt, rfl⟩ := ih.mp hrest
      rw [hnext] at hlt
      have hadd : next = off + UInt32.ofNat data.length :=
        UInt32.toNat_inj.mp (hnext.trans (toNat_add_ofNat (by omega)).symm)
      exact ⟨⟨hid, hids⟩, ⟨hlen, hlens⟩, by omega, by simp [tableBytes, hadd]⟩
    · rintro ⟨⟨hid, hids⟩, ⟨hlen, hlens⟩, hlt, rfl⟩
      have hadd : (off + UInt32.ofNat data.length).toNat = off.toNat + data.length :=
        toNat_add_ofNat (by omega)
      refine ⟨hid, hlen, off + UInt32.ofNat data.length, ?_, ?_⟩
      · rw [checkedAddU32_eq_ok, hadd, toNat_ofNat_u32 (by omega)]
      · rw [ih.mpr ⟨hids, hlens, by omega, rfl⟩, ok_bind]
        simp [tableBytes, pure, Except.pure]

omit [Sha256] in
theorem length_rawPayload (p : ObjectPayload) :
    p.rawPayload.length = 4 + p.objects.length * 40 + (dataArea p.objects).length := by
  simp [rawPayload, length_tableBytes]
  omega

theorem encode_eq_ok {p : ObjectPayload} {streamId : UInt32} {sequence : UInt64} {b : Bytes} :
    p.encode streamId sequence = .ok b ↔
      p.Encodable ∧ b = frameBytes kindObject p.rawPayload streamId sequence := by
  rw [encode, reject_bind_eq_ok, not_or, not_lt, bind_eq_ok]
  constructor
  · rintro ⟨⟨hne, hlen⟩, table, htable, h⟩
    obtain ⟨hids, hlens, -, rfl⟩ := encodeTable_eq_ok.mp htable
    rw [reject_bind_eq_ok, not_lt] at h
    exact ⟨⟨hne, hlen, hids, hlens, h.1⟩, (Except.ok.inj h.2).symm⟩
  · rintro ⟨h, rfl⟩
    have hle := h.length_rawPayload_le
    have hlength := length_rawPayload p
    rw [objectMaxRaw] at hle
    refine ⟨⟨h.ne_nil, h.length_le⟩, _, encodeTable_eq_ok.mpr
      ⟨h.sha256_eq, h.length_object_le, by simp; omega, rfl⟩, ?_⟩
    rw [reject_bind_eq_ok, not_lt]
    exact ⟨h.length_rawPayload_le, rfl⟩

omit [Sha256] in
/-- One row of the table. -/
theorem slice?_row {buf : Bytes} {i : ℕ} {cid : Digest} {len off : UInt32}
    (h : 4 + (i + 1) * 40 ≤ buf.length) :
    slice? buf (4 + i * 40) 40 = some (cid.bytes ++ (writeU32 len ++ writeU32 off)) ↔
      digestAt ((buf.drop (4 + i * 40)).take 40) 0 = cid ∧
      readU32 ((buf.drop (4 + i * 40)).take 40) 32 = .ok len ∧
      readU32 ((buf.drop (4 + i * 40)).take 40) 36 = .ok off := by
  have hrow : slice? buf (4 + i * 40) 40 = some ((buf.drop (4 + i * 40)).take 40) := by
    rw [slice?, if_pos (by omega)]
  have hlen : ((buf.drop (4 + i * 40)).take 40).length = 32 + (4 + 4) := length_of_slice? hrow
  rw [hrow, Option.some.injEq, ← slice?_length_eq_some hlen, slice?_append_eq_some (by simp),
    slice?_append_eq_some (by simp), readU32_eq_ok, readU32_eq_ok]
  refine and_congr_left fun _ ↦ ⟨digestAt_of_slice?, ?_⟩
  rintro rfl
  exact slice?_digestAt (by omega)

theorem decodeObjects_eq_ok {payload data : Bytes} {n i : ℕ} {off off' : UInt32}
    {seen : List Digest} {objects : List (Digest × Bytes)}
    (htable : 4 + (i + n) * 40 ≤ payload.length) (hoff : off.toNat ≤ data.length) :
    decodeObjects payload data n i off seen = .ok (objects, off') ↔ objects.length = n ∧
      (∀ x ∈ objects, sha256 x.2 = x.1) ∧ (∀ x ∈ objects, x.2.length ≤ objectMaxLen) ∧
      (objects.map Prod.fst).Nodup ∧ (∀ x ∈ objects, x.1 ∉ seen) ∧
      off'.toNat = off.toNat + (dataArea objects).length ∧
      slice? payload (4 + i * 40) (n * 40) = some (tableBytes off objects) ∧
      slice? data off.toNat (dataArea objects).length = some (dataArea objects) := by
  induction n generalizing i off seen objects with
  | zero =>
    simp only [decodeObjects, pure, Except.pure, Except.ok.injEq, Prod.mk.injEq,
      List.length_eq_zero_iff]
    constructor
    · rintro ⟨rfl, rfl⟩
      simp only [Nat.add_zero] at htable
      simp [slice?, hoff, tableBytes, dataArea, htable]
    · rintro ⟨rfl, -, -, -, -, h, -⟩
      exact ⟨rfl, UInt32.toNat_inj.mp h.symm⟩
  | succ n ih =>
    have hrow : 4 + (i + 1) * 40 ≤ payload.length := by omega
    have hrows : 4 + (i + 1 + n) * 40 ≤ payload.length := by omega
    have harea : ∀ (x : Digest × Bytes) (l : List (Digest × Bytes)),
        dataArea (x :: l) = x.2 ++ dataArea l := fun x l ↦ List.flatMap_cons
    have hnext : ∀ k, 4 + (k + 1) * 40 = 4 + k * 40 + 40 := by omega
    rw [decodeObjects]
    dsimp only
    rw [bind_eq_ok]
    constructor
    · rintro ⟨len, hlen, h⟩
      rw [bind_eq_ok] at h
      obtain ⟨dataOffset, hdataOffset, h⟩ := h
      rw [reject_bind_eq_ok, not_lt, reject_bind_eq_ok, not_not, bind_eq_ok] at h
      obtain ⟨hmax, rfl, next, hadd, h⟩ := h
      rw [checkedAddU32_eq_ok] at hadd
      rw [reject_bind_eq_ok, okOr_bind_eq_ok] at h
      obtain ⟨hseen, bytes, hbytes, h⟩ := h
      rw [reject_bind_eq_ok, not_not, bind_eq_ok] at h
      obtain ⟨hid, ⟨rest, off₂⟩, hrest, h⟩ := h
      simp only [pure, Except.pure, Except.ok.injEq, Prod.mk.injEq] at h
      obtain ⟨rfl, rfl⟩ := h
      have hbytesLen := length_of_slice? hbytes
      have hnextLe : next.toNat ≤ data.length := hadd ▸ le_of_slice? hbytes
      obtain ⟨rfl, hids, hlens, hnodup, hnew, hoff', htab, hdat⟩ := (ih hrows hnextLe).mp hrest
      rw [hadd] at hoff' hdat
      have hlenNat : UInt32.ofNat bytes.length = len := by rw [hbytesLen, UInt32.ofNat_toNat]
      have hnextEq : next = dataOffset + UInt32.ofNat bytes.length := by
        refine UInt32.toNat_inj.mp (hadd.trans ?_)
        rw [toNat_add_ofNat (by have := next.toNat_lt; omega), hbytesLen]
      refine ⟨rfl, List.forall_mem_cons.mpr ⟨hid, hids⟩,
        List.forall_mem_cons.mpr ⟨hbytesLen.trans_le hmax, hlens⟩, ?_, ?_, ?_, ?_, ?_⟩
      · rw [List.map_cons, List.nodup_cons, List.mem_map]
        refine ⟨fun h ↦ ?_, hnodup⟩
        obtain ⟨x, hx, hxp⟩ := h
        exact hnew x hx (hxp ▸ List.mem_cons_self)
      · exact List.forall_mem_cons.mpr
          ⟨hseen, fun x hx h ↦ hnew x hx (List.mem_cons_of_mem _ h)⟩
      · rw [hoff', harea, List.length_append, hbytesLen]
        omega
      · rw [tableBytes, Nat.succ_mul, Nat.add_comm (rest.length * 40),
          slice?_append_eq_some (by simp)]
        refine ⟨(slice?_row hrow).mpr ⟨rfl, hlenNat ▸ hlen, hdataOffset⟩, ?_⟩
        rw [← hnextEq, ← hnext]
        exact htab
      · rw [harea, List.length_append, slice?_append_eq_some rfl, hbytesLen]
        exact ⟨hbytes, hdat⟩
    · rintro ⟨hlength, hids, hlens, hnodup, hnew, hoff', htab, hdat⟩
      obtain ⟨⟨cid, bytes⟩, rest, rfl⟩ := List.exists_cons_of_length_eq_add_one hlength
      obtain ⟨hid, hids⟩ := List.forall_mem_cons.mp hids
      obtain ⟨hmax, hlens⟩ := List.forall_mem_cons.mp hlens
      obtain ⟨hseen, hnew⟩ := List.forall_mem_cons.mp hnew
      rw [List.map_cons, List.nodup_cons, List.mem_map] at hnodup
      rw [tableBytes, Nat.succ_mul, Nat.add_comm (n * 40), slice?_append_eq_some (by simp),
        slice?_row hrow, ← hnext] at htab
      rw [harea, List.length_append, slice?_append_eq_some rfl] at hdat
      rw [harea, List.length_append] at hoff'
      dsimp only at hid hmax hseen hnodup htab hdat hoff'
      obtain ⟨⟨hcid, hlen, hdataOffset⟩, htab⟩ := htab
      obtain ⟨hbytes, hdat⟩ := hdat
      have hnat : (UInt32.ofNat bytes.length).toNat = bytes.length :=
        toNat_ofNat_u32 (by rw [objectMaxLen] at hmax; omega)
      have hlt := off'.toNat_lt
      have hadd : (off + UInt32.ofNat bytes.length).toNat = off.toNat + bytes.length :=
        toNat_add_ofNat (by omega)
      have hnextLe : (off + UInt32.ofNat bytes.length).toNat ≤ data.length :=
        hadd ▸ le_of_slice? hbytes
      refine ⟨_, hlen, ?_⟩
      rw [hdataOffset, ok_bind, hnat, reject_of_not (not_lt.mpr hmax), ok_bind,
        reject_of_not (not_not.mpr rfl), ok_bind,
        checkedAddU32_eq_ok.mpr (hadd.trans (by rw [hnat])), ok_bind, hcid, reject_of_not hseen,
        ok_bind, hbytes, okOr_some, ok_bind, reject_of_not (not_not.mpr hid), ok_bind,
        (ih hrows hnextLe).mpr ⟨Nat.succ.inj hlength, hids, hlens, hnodup.2, ?_, ?_, htab, ?_⟩]
      · rfl
      · refine fun x hx h ↦ (List.mem_cons.mp h).elim (fun heq ↦ ?_) (hnew x hx)
        exact hnodup.1 ⟨x, hx, heq⟩
      · rw [hadd]
        omega
      · rw [hadd]
        exact hdat

/-- What `decode_object` accepts. -/
theorem decode_eq_ok {payload : Bytes} {p : ObjectPayload} :
    decode payload = .ok p ↔
      p.Encodable ∧ (p.objects.map Prod.fst).Nodup ∧ payload = p.rawPayload := by
  rw [decode, reject_bind_eq_ok, reject_bind_eq_ok, not_lt, not_lt, bind_eq_ok]
  constructor
  · rintro ⟨hmax, hmin, count, hcount, h⟩
    rw [reject_bind_eq_ok, not_not, bind_eq_ok] at h
    obtain ⟨⟨hpos, hcountLe⟩, reserved, hreserved, h⟩ := h
    rw [reject_bind_eq_ok, not_not] at h
    obtain ⟨rfl, h⟩ := h
    dsimp only at h
    rw [reject_bind_eq_ok, not_lt, bind_eq_ok] at h
    obtain ⟨htable, ⟨objects, off⟩, hobjects, h⟩ := h
    dsimp only at h
    rw [reject_bind_eq_ok, not_not] at h
    obtain ⟨hdata, h⟩ := h
    obtain rfl := Except.ok.inj h
    obtain ⟨hlength, hids, hlens, hnodup, -, hoff, htab, hdat⟩ :=
      (decodeObjects_eq_ok (by omega) (Nat.zero_le _)).mp hobjects
    rw [readU16_eq_ok] at hcount hreserved
    rw [UInt32.toNat_zero, Nat.zero_add] at hoff
    rw [hoff] at hdata
    rw [UInt32.toNat_zero, slice?_length_eq_some hdata] at hdat
    have hlen : payload.length = 4 + count.toNat * 40 + (dataArea objects).length := by
      rw [List.length_drop] at hdata
      omega
    have hbytes : payload = rawPayload ⟨objects⟩ := by
      refine (slice?_length_eq_some hlen).mp ?_
      rw [rawPayload, slice?_append_eq_some (by simp [length_tableBytes, hlength]; omega),
        slice?_append_eq_some (by simp), slice?_append_eq_some (n := 2) (m := 2) (by simp), hlength,
        UInt16.ofNat_toNat]
      refine ⟨⟨⟨hcount, hreserved⟩, htab⟩, ?_⟩
      rw [Nat.zero_add]
      exact slice?_of_drop (by omega) (by rw [hdat, List.append_nil]) rfl
    refine ⟨⟨?_, ?_, hids, hlens, ?_⟩, hnodup, hbytes⟩
    · exact List.ne_nil_of_length_pos (by dsimp only; omega)
    · rwa [hlength]
    · rwa [← hbytes]
  · rintro ⟨hp, hnodup, rfl⟩
    have hlen := length_rawPayload p
    have hslice : slice? p.rawPayload 0 (4 + p.objects.length * 40 +
        (dataArea p.objects).length) = some p.rawPayload := (slice?_length_eq_some hlen).mpr rfl
    nth_rewrite 2 [rawPayload] at hslice
    rw [slice?_append_eq_some (by simp [length_tableBytes]; omega),
      slice?_append_eq_some (by simp), slice?_append_eq_some (n := 2) (m := 2) (by simp),
      Nat.zero_add, Nat.zero_add] at hslice
    obtain ⟨⟨⟨hcount, hreserved⟩, htab⟩, hdat⟩ := hslice
    have hdrop : p.rawPayload.drop (4 + p.objects.length * 40) = dataArea p.objects := by
      rw [rawPayload]
      exact List.drop_left' (by simp [length_tableBytes]; omega)
    have hpos := List.length_pos_iff.mpr hp.ne_nil
    have hle := hp.length_le
    have hmax := hp.length_rawPayload_le
    have hcountNat : (UInt16.ofNat p.objects.length).toNat = p.objects.length :=
      toNat_ofNat_u16 (by rw [objectMaxCount] at hle; omega)
    have hoff : (UInt32.ofNat (dataArea p.objects).length).toNat = (dataArea p.objects).length :=
      toNat_ofNat_u32 (by rw [objectMaxRaw] at hmax; omega)
    refine ⟨hmax, by omega, _, readU16_eq_ok.mpr hcount, ?_⟩
    rw [hcountNat, reject_of_not (not_not.mpr ⟨hpos, hle⟩), ok_bind, readU16_eq_ok.mpr hreserved,
      ok_bind, reject_of_not (not_not.mpr rfl), ok_bind]
    dsimp only
    rw [reject_of_not (by omega), ok_bind, hdrop, (decodeObjects_eq_ok (by omega)
      (Nat.zero_le _)).mpr ⟨rfl, hp.sha256_eq, hp.length_object_le, hnodup,
        fun _ _ ↦ List.not_mem_nil, by rw [hoff]; simp, htab,
        (slice?_length_eq_some rfl).mpr rfl⟩, ok_bind]
    dsimp only
    rw [reject_of_not (not_not.mpr hoff.symm)]
    rfl

end ObjectPayload

/-! ## CHUNK and END -/

omit [Sha256] in
theorem ChunkPayload.length_rawPayload (p : ChunkPayload) :
    p.rawPayload.length = 76 + p.chunkBytes.length := by
  simp [rawPayload]
  omega

omit [Sha256] in
/-- What `decode_chunk` accepts. -/
theorem ChunkPayload.decode_eq_ok {payload : Bytes} {rawLen : UInt32} {p : ChunkPayload} :
    decode payload rawLen = .ok p ↔
      rawLen.toNat = payload.length ∧ p.chunkBytes.length ≤ chunkMaxLen ∧
        payload = p.rawPayload := by
  -- the fields in their places
  have hfields : ∀ {buf : Bytes}, buf.length = 76 + p.chunkBytes.length →
      (buf = p.rawPayload ↔ slice? buf 0 32 = some p.mapId.bytes ∧
        slice? buf 32 32 = some p.fileContentId.bytes ∧
        slice? buf 64 8 = some (writeU64 p.chunkIndex) ∧
        slice? buf 72 4 = some (writeU32 (UInt32.ofNat p.chunkBytes.length)) ∧
        slice? buf 76 p.chunkBytes.length = some p.chunkBytes) := by
    intro buf hlen
    rw [← slice?_length_eq_some hlen, rawPayload, slice?_append_eq_some (by simp),
      slice?_append_eq_some (n := 72) (m := 4) (by simp),
      slice?_append_eq_some (n := 64) (m := 8) (by simp),
      slice?_append_eq_some (n := 32) (m := 32) (by simp)]
    simp only [and_assoc, Nat.zero_add]
  rw [decode, reject_bind_eq_ok, reject_bind_eq_ok, not_lt, not_not, bind_eq_ok]
  constructor
  · rintro ⟨hmin, hraw, len, hlen, h⟩
    rw [reject_bind_eq_ok, not_not, reject_bind_eq_ok, not_lt, bind_eq_ok] at h
    obtain ⟨hexact, hmax, index, hindex, h⟩ := h
    obtain rfl := Except.ok.inj h
    rw [readU32_eq_ok] at hlen
    rw [readU64_eq_ok] at hindex
    have hdrop : (payload.drop 76).length = len.toNat := by rw [List.length_drop, hexact]
    refine ⟨hraw, hdrop.trans_le hmax, (hfields (by dsimp only; omega)).mpr
      ⟨slice?_digestAt (by omega), slice?_digestAt (by omega), hindex, ?_, ?_⟩⟩
    · rw [hlen, hdrop, UInt32.ofNat_toNat]
    · exact slice?_of_drop (by omega) (List.append_nil _).symm rfl
  · rintro ⟨hraw, hmax, rfl⟩
    have hlength := length_rawPayload p
    obtain ⟨hmap, hfile, hindex, hlen, hbytes⟩ := (hfields hlength).mp rfl
    have hnat : (UInt32.ofNat p.chunkBytes.length).toNat = p.chunkBytes.length :=
      toNat_ofNat_u32 (by rw [chunkMaxLen] at hmax; omega)
    have hdrop : p.rawPayload.drop 76 = p.chunkBytes := by
      rw [rawPayload]
      exact List.drop_left' (by simp)
    refine ⟨by omega, hraw, _, readU32_eq_ok.mpr hlen, ?_⟩
    rw [hnat, reject_of_not (by omega), ok_bind, reject_of_not (not_lt.mpr hmax), ok_bind,
      readU64_eq_ok.mpr hindex, ok_bind, digestAt_of_slice? hmap, digestAt_of_slice? hfile, hdrop]
    rfl

theorem ChunkPayload.encode_eq_ok {p : ChunkPayload} {streamId : UInt32} {sequence : UInt64}
    {b : Bytes} : p.encode streamId sequence = .ok b ↔
      p.chunkBytes.length ≤ chunkMaxLen ∧
        b = frameBytes kindChunk p.rawPayload streamId sequence := by
  rw [encode, reject_bind_eq_ok, not_lt]
  simp only [pure, Except.pure, Except.ok.injEq]
  exact and_congr_right fun _ ↦ eq_comm

omit [Sha256] in
theorem EndPayload.length_rawPayload (p : EndPayload) : p.rawPayload.length = 48 := by
  simp [rawPayload]

omit [Sha256] in
/-- What `decode_end` accepts. -/
theorem EndPayload.decode_eq_ok {payload : Bytes} {p : EndPayload} :
    decode payload = .ok p ↔ payload = p.rawPayload := by
  have hfields : ∀ {buf : Bytes}, buf.length = 48 → (buf = p.rawPayload ↔
      readU32 buf 0 = .ok p.requestItemCount ∧ readU32 buf 4 = .ok p.uniqueUnitCount ∧
      readU64 buf 8 = .ok p.logicalBytes ∧
      slice? buf 16 32 = some p.requestBodySha256.bytes) := by
    intro buf hlen
    rw [← slice?_length_eq_some hlen, rawPayload,
      slice?_append_eq_some (n := 16) (m := 32) (by simp),
      slice?_append_eq_some (n := 8) (m := 8) (by simp),
      slice?_append_eq_some (n := 4) (m := 4) (by simp)]
    simp only [and_assoc, Nat.zero_add, readU32_eq_ok, readU64_eq_ok]
  rw [decode, reject_bind_eq_ok, not_not, bind_eq_ok]
  constructor
  · rintro ⟨hlen, items, hitems, h⟩
    rw [bind_eq_ok] at h
    obtain ⟨units, hunits, h⟩ := h
    rw [bind_eq_ok] at h
    obtain ⟨logical, hlogical, h⟩ := h
    obtain rfl := Except.ok.inj h
    exact (hfields hlen).mpr ⟨hitems, hunits, hlogical, slice?_digestAt (by omega)⟩
  · rintro rfl
    obtain ⟨hitems, hunits, hlogical, hsha⟩ := (hfields (length_rawPayload p)).mp rfl
    refine ⟨length_rawPayload p, _, hitems, ?_⟩
    rw [hunits, ok_bind, hlogical, ok_bind, digestAt_of_slice? hsha]
    rfl

end Mst2
