import Mst2Codec.Namespace.Radix.Stores

/-!
# A store in memory

The `MemoryStore` of the tests of `src/namespace/radix/index`: a map from digests to bytes that
counts its calls and can be told to fail at one write.  It is a content-addressed store in the
sense of `NodeStore.Immutable`, and an honest one if it is not told to fail.
-/

set_option autoImplicit false

namespace Mst2

open Bytes Except

/-- `MemoryStore` -/
structure MemoryStore where
  /-- The nodes by their digest; the first entry of a digest counts. -/
  nodes : List (Digest × Bytes)
  /-- The number of reads. -/
  reads : ℕ
  /-- The number of writes. -/
  writes : ℕ
deriving DecidableEq

namespace MemoryStore

/-- `MemoryStore::default()` -/
def default : MemoryStore := ⟨[], 0, 0⟩

/-- The bytes held under a digest. -/
def contents (s : MemoryStore) (id : Digest) : Option Bytes := s.nodes.lookup id

/-- `read` -/
def read (s : MemoryStore) (id : Digest) : IndexResult Bytes × MemoryStore :=
  (okOr (s.contents id) (.store "missing node"), { s with reads := s.reads + 1 })

/-- `insert`, where `fail_write_at` is `failWriteAt`. -/
def insert (failWriteAt : Option ℕ) (s : MemoryStore) (id : Digest) (bytes : Bytes) :
    IndexResult Unit × MemoryStore :=
  let s := { s with writes := s.writes + 1 }
  if failWriteAt = some s.writes then (.error (.store "injected insertion failure"), s)
  else if (s.contents id).any fun existing ↦ existing ≠ bytes then
    (.error (.store "conflicting immutable bytes"), s)
  else (.ok (), { s with nodes := (id, bytes) :: s.nodes })

/-- The store as an implementation of `NodeStore`. -/
def store (failWriteAt : Option ℕ) : NodeStore MemoryStore where
  read := read
  insert := insert failWriteAt

theorem immutable (failWriteAt : Option ℕ) : (store failWriteAt).Immutable contents where
  read_contents _ _ := rfl
  read_ok _ _ _ h := okOr_eq_ok.mp h
  insert_ok s id bytes _ hok := by
    simp only [store, insert] at hok ⊢
    split at hok
    · cases hok
    · rename_i hfail
      split at hok
      · cases hok
      · rename_i hconflict
        rw [if_neg hfail, if_neg hconflict]
        funext x
        by_cases hx : x = id
        · simp [contents, hx]
        · simp [contents, hx, List.lookup_cons, beq_false_of_ne hx]
  insert_error s id bytes e herror := by
    simp only [store, insert] at herror ⊢
    split at herror
    · rename_i hfail
      rw [if_pos hfail]
      rfl
    · rename_i hfail
      split at herror
      · rename_i hconflict
        rw [if_neg hfail, if_pos hconflict]
        rfl
      · cases herror

theorem honest : (store none).Honest contents where
  toImmutable := immutable none
  read_held s id bytes h := by
    simp only [store, read, h, okOr_some]
  insert_succeeds s id bytes hfits := by
    simp only [store, insert, reduceCtorEq, if_false]
    rw [if_neg]
    rcases hfits with h | h
    · have h' : s.nodes.lookup id = none := h
      simp [contents, h']
    · have h' : s.nodes.lookup id = some bytes := h
      simp [contents, h']

end MemoryStore

/-! ## Two libraries

The nodes that come up when `/x/lib` and `/x/library` are bound and `/x/lib` is removed again, with
their SHA-256 digests. -/

namespace RadixIndex

/-- `value` -/
def value (id : UInt8) : Digest := .fill id

/-- Bind `/x/lib` and `/x/library`. -/
def libraryOps : List (String × Option Digest) :=
  [("/x/lib", some (value 1)), ("/x/library", some (value 2))]

/-- The bytes of the nodes with their digests: the empty node, `/x/lib` alone, the two leaves below
the common label `x/lib`, the node above them, and `/x/library` alone. -/
def libraryTable : List (Bytes × Digest) :=
  let endId : Digest := .ofNat 0xa00eb336079d05e3894c0649524ef7fb0d4d996b3ed70ad40799052691adba83
  let raryId : Digest := .ofNat 0x990cf307277df4551df4a056408db91a8c2fc1b4b38733b5c6d93a8139196d8e
  [(RadixNode.empty.encode,
      .ofNat 0x18946486089198dfa8eeb70fa90e04b137c579dc08ae1e6f8bceafc0d35ef677),
    (RadixNode.encode ⟨"x\x00lib\x00".asBytes, some (value 1), []⟩,
      .ofNat 0xe9934adce1c5a18af14e8cdf9e7f95384ed112b5b61b0115027a4553bef35ea7),
    (RadixNode.encode ⟨[0], some (value 1), []⟩, endId),
    (RadixNode.encode ⟨"rary\x00".asBytes, some (value 2), []⟩, raryId),
    (RadixNode.encode ⟨"x\x00lib".asBytes, none, [⟨0, endId⟩, ⟨0x72, raryId⟩]⟩,
      .ofNat 0xebdc130963fbc77b5179bcb50e187b18ca2ce8083cb8976cb20ce7d2deac13b6),
    (RadixNode.encode ⟨"x\x00library\x00".asBytes, some (value 2), []⟩,
      .ofNat 0xe6b6bbbb82513bf5b3fbd428b844bda3fed25722867af3b77e191ef473d50fb9)]

/-- SHA-256 on the strings of the table. -/
@[reducible] def librarySha256 : Sha256 := .ofTable libraryTable

/-- The strings of the table. -/
def libraryStrings : List Bytes := libraryTable.map Prod.fst

theorem collisionFree_library :
    @CollisionFree librarySha256 {b | b ∈ libraryStrings} := by
  have h : ∀ a ∈ libraryStrings, ∀ b ∈ libraryStrings,
      librarySha256.sha256 a = librarySha256.sha256 b → a = b := by decide +kernel
  exact fun a ha b hb hab ↦ h a ha b hb hab

/-- The bytes the calls tried to insert, as a list. -/
def inserts (tr : List StoreEvent) : List Bytes :=
  tr.filterMap fun
    | ⟨.insert _ b, _⟩ => some b
    | ⟨.read _, _⟩ => none

/-- The bytes the calls have read, as a list. -/
def reads (tr : List StoreEvent) : List Bytes :=
  tr.filterMap fun
    | ⟨.read _, answer⟩ => answer.toOption
    | ⟨.insert _ _, _⟩ => none

/-- A run from the empty store that inserts only strings of the table deals only with them. -/
theorem hashedBytes_subset_library {tr : List StoreEvent}
    (h : ∀ b ∈ inserts tr, b ∈ libraryStrings) :
    hashedBytes MemoryStore.default.contents tr ⊆ {b | b ∈ libraryStrings} := by
  rintro b (rfl | ⟨id, hid⟩ | ⟨id, a, hmem⟩)
  · decide
  · cases hid
  · exact h b (List.mem_filterMap.mpr ⟨_, hmem, rfl⟩)

end RadixIndex

end Mst2
