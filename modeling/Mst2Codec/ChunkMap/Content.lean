import Mst2Codec.ChunkMap.Proof
import Mst2Codec.ChunkMap.Tiling

/-!
# Files that are read through their chunk maps

A file is cut into chunks, the digests of the chunks stand on leaf pages, and the map of the file
has the root of the tree over the pages (`ChunkMap.ofFile`).  Whoever has the map checks a chunk
against it with the page that the chunk is on and the proof of that page (`ChunkMap.Verified`).

For every chunk there is exactly one answer that is verified, which has the chunk of the file
(`ChunkMap.verified_iff`).  So the chunks that `rangeChunks` asks for have the bytes of the range,
and the identity of the map, which determines the map, is all that has to be known beforehand
(`ChunkMap.read_range`).
-/

set_option autoImplicit false

namespace Mst2

open Bytes Except Tiling Merkle

variable [Sha256]

namespace Merkle

/-- The proof of a leaf is verified against the root of its tree. -/
theorem verifyLeaf_proofDescent {hashes : List Digest} (hlen : hashes.length < 2 ^ 63)
    {n i : UInt64} (hn : n.toNat = hashes.length) {leaf : Digest}
    (hleaf : hashes[i.toNat]? = some leaf) :
    verifyLeaf n i leaf (proofDescent hashes i.toNat).reverse (buildSubtree hashes).1 = .ok () := by
  have hi := (List.getElem?_eq_some_iff.mp hleaf).1
  refine verifyLeaf_eq_ok.mpr ⟨hn ▸ hi, ?_, (buildSubtree hashes).2, ?_⟩
  · rw [List.length_reverse, length_proofDescent, hn]
  · rw [hn]
    exact foldlM_proofDescent hlen hleaf

end Merkle

namespace ChunkMap

/-! ## The map of a file -/

omit [Sha256] in
/-- A chunk of a file. -/
def chunkAt (file : Bytes) (i : ℕ) : Bytes := block chunkSize.toNat file i

/-- The digests of the chunks. -/
def chunkDigests (file : Bytes) : List Digest :=
  (List.range (file.length ⌈/⌉ chunkSize.toNat)).map fun i ↦ sha256 (chunkAt file i)

/-- The pages they stand on. -/
def leafPages (file : Bytes) : List ChunkLeaf :=
  (List.range ((chunkDigests file).length ⌈/⌉ chunksPerPage)).map fun j ↦
    ⟨UInt64.ofNat j, block chunksPerPage (chunkDigests file) j⟩

/-- The map of a file. -/
def ofFile (file : Bytes) : CodecResult ChunkMap := do
  let hashes ← (leafPages file).mapM ChunkLeaf.leafHash
  let pagesRoot ← merkleRoot hashes
  ChunkMap.new (sha256 file) (UInt64.ofNat file.length) pagesRoot

/-- The hashes of the pages. -/
def pageHashes (file : Bytes) : List Digest :=
  (leafPages file).map fun leaf ↦ sha256 (ChunkLeaf.hashInput leaf.bytes)

variable {file : Bytes} {m : ChunkMap}

@[simp] theorem length_chunkDigests (file : Bytes) :
    (chunkDigests file).length = file.length ⌈/⌉ chunkSize.toNat := by simp [chunkDigests]

@[simp] theorem length_leafPages (file : Bytes) :
    (leafPages file).length = file.length ⌈/⌉ chunkSize.toNat ⌈/⌉ chunksPerPage := by
  simp [leafPages]

theorem length_leafPages_lt (hlen : file.length < 2 ^ 63) : (leafPages file).length < 2 ^ 63 := by
  rw [length_leafPages]
  exact (ceilDiv_le_self (by decide)).trans_lt ((ceilDiv_le_self (by decide)).trans_lt hlen)

@[simp] theorem length_pageHashes (file : Bytes) :
    (pageHashes file).length = (leafPages file).length := List.length_map _

theorem getElem?_chunkDigests {i : ℕ} {d : Digest} : (chunkDigests file)[i]? = some d ↔
    i < file.length ⌈/⌉ chunkSize.toNat ∧ d = sha256 (chunkAt file i) := by
  rw [chunkDigests, List.getElem?_eq_some_iff]
  simp [eq_comm]

theorem getElem?_leafPages {j : ℕ} {leaf : ChunkLeaf} : (leafPages file)[j]? = some leaf ↔
    j < (leafPages file).length ∧
      leaf = ⟨UInt64.ofNat j, block chunksPerPage (chunkDigests file) j⟩ := by
  rw [leafPages, List.getElem?_eq_some_iff]
  simp [eq_comm]

/-- A page is within the limit of a leaf. -/
theorem encodable_of_mem_leafPages {leaf : ChunkLeaf} (h : leaf ∈ leafPages file) :
    1 ≤ leaf.chunkSha256.length ∧ leaf.chunkSha256.length ≤ chunksPerPage := by
  obtain ⟨j, hj, rfl⟩ := List.mem_map.mp h
  rw [length_block]
  exact ⟨tileLen_pos (by decide) (List.mem_range.mp hj), tileLen_le⟩

theorem leafHash_of_mem_leafPages {leaf : ChunkLeaf} (h : leaf ∈ leafPages file) :
    leaf.leafHash = .ok (sha256 (ChunkLeaf.hashInput leaf.bytes)) :=
  ChunkLeaf.leafHash_eq_ok.mpr
    ⟨_, ChunkLeaf.encode_eq_ok.mpr ⟨encodable_of_mem_leafPages h, rfl⟩, rfl⟩

theorem mapM_leafHash (file : Bytes) :
    (leafPages file).mapM ChunkLeaf.leafHash = .ok (pageHashes file) :=
  mapM_eq_ok fun _ h ↦ leafHash_of_mem_leafPages h

/-- What the map of a file has. -/
structure IsOfFile (file : Bytes) (m : ChunkMap) : Prop where
  /-- It is returned by `new`. -/
  made : m.Made
  /-- The digest of the file. -/
  fileContentId_eq : m.fileContentId = sha256 file
  /-- Its length. -/
  fileSize_eq : m.fileSize.toNat = file.length
  /-- The root of the tree over its pages. -/
  pagesRoot_eq : m.pagesRoot = (buildSubtree (pageHashes file)).1

theorem IsOfFile.chunkCount_eq (h : IsOfFile file m) :
    m.chunkCount.toNat = file.length ⌈/⌉ chunkSize.toNat := by
  rw [h.made.toNat_chunkCount, h.fileSize_eq]

theorem IsOfFile.pageCount_eq (h : IsOfFile file m) :
    m.pageCount.toNat = (leafPages file).length := by
  rw [h.made.toNat_pageCount, h.chunkCount_eq, length_leafPages]

theorem isOfFile_of_ofFile (hlen : file.length < 2 ^ 63) (h : ofFile file = .ok m) :
    IsOfFile file m := by
  rw [ofFile, mapM_leafHash, ok_bind, bind_eq_ok] at h
  obtain ⟨root, hroot, h⟩ := h
  rw [merkleRoot, reject_bind_eq_ok] at hroot
  have hsize : (UInt64.ofNat file.length).toNat = file.length := toNat_ofNat_u64 (by omega)
  obtain ⟨-, rfl⟩ := new_eq_ok.mp h
  exact ⟨.new h, rfl, hsize, (Except.ok.inj hroot.2).symm⟩

/-! ## Verified chunks -/

/-- What is checked of a chunk: the proof of its page and its digest, which is on the page. -/
def Verified (m : ChunkMap) (i : UInt64) (page : Bytes) (proof : List ProofStep) (chunk : Bytes) :
    Prop :=
  ∃ leaf hash, ChunkLeaf.decode page = .ok leaf ∧ leaf.leafHash = .ok hash ∧
    verifyLeaf m.pageCount (i / UInt64.ofNat chunksPerPage) hash proof m.pagesRoot = .ok () ∧
    leaf.chunkSha256[i.toNat % chunksPerPage]? = some (sha256 chunk)

/-- The strings that are hashed for a file. -/
def fileStrings (file : Bytes) : List Bytes :=
  (List.range (file.length ⌈/⌉ chunkSize.toNat)).map (chunkAt file) ++
    (leafPages file).map (fun leaf ↦ ChunkLeaf.hashInput leaf.bytes) ++
    subtreeInputs (pageHashes file)

/-- The strings that are hashed while a chunk is verified. -/
def verifiedStrings (m : ChunkMap) (i : UInt64) (page : Bytes) (proof : List ProofStep)
    (chunk : Bytes) : List Bytes :=
  chunk :: ChunkLeaf.hashInput page :: verifyInputs (sha256 (ChunkLeaf.hashInput page), 1)
    (proof.zip (shapeDescent m.pageCount.toNat (i.toNat / chunksPerPage)).reverse)

omit [Sha256] in
theorem toNat_div_chunksPerPage (i : UInt64) :
    (i / UInt64.ofNat chunksPerPage).toNat = i.toNat / chunksPerPage := by
  rw [UInt64.toNat_div]
  rfl

/-- A page that is decoded is hashed as it was received. -/
theorem leafHash_of_decode {page : Bytes} {leaf : ChunkLeaf} {hash : Digest}
    (h : ChunkLeaf.decode page = .ok leaf) (hhash : leaf.leafHash = .ok hash) :
    hash = sha256 (ChunkLeaf.hashInput page) := by
  obtain ⟨b, hb, rfl⟩ := ChunkLeaf.leafHash_eq_ok.mp hhash
  rw [Except.ok.inj (hb.symm.trans (ChunkLeaf.decode_eq_ok_iff_encode.mp h))]

/-- **What is verified is the page of the file with its proof, and the chunk of the file.** -/
theorem Verified.eq_of_collisionFree {K : Set Bytes} (hK : CollisionFree K) (hm : IsOfFile file m)
    (hlen : file.length < 2 ^ 63) (hfile : ∀ x ∈ fileStrings file, x ∈ K) {i : UInt64}
    {page chunk : Bytes} {proof : List ProofStep}
    (hstrings : ∀ x ∈ verifiedStrings m i page proof chunk, x ∈ K)
    (h : m.Verified i page proof chunk) :
    ∃ leaf, i < m.chunkCount ∧ (leafPages file)[i.toNat / chunksPerPage]? = some leaf ∧
      leaf.encode = .ok page ∧
      leafProof (pageHashes file) (i / UInt64.ofNat chunksPerPage) = .ok proof ∧
      chunk = chunkAt file i.toNat := by
  obtain ⟨leaf, hash, hdecode, hhash, hverify, hdigest⟩ := h
  obtain rfl := leafHash_of_decode hdecode hhash
  obtain ⟨hi, hproof, count, hfold⟩ := verifyLeaf_eq_ok.mp hverify
  rw [toNat_div_chunksPerPage] at hi hproof hfold
  have hcount := hm.pageCount_eq
  have hpage : ChunkLeaf.hashInput page ∈ K := hstrings _ (by simp [verifiedStrings])
  have hleaves : ∀ leaf ∈ leafPages file, ChunkLeaf.hashInput leaf.bytes ∈ K := fun leaf hl ↦
    hfile _ (List.mem_append_left _ (List.mem_append_right _ (List.mem_map_of_mem hl)))
  have hhashes : ∀ d ∈ pageHashes file, IsLeafHash K d := by
    intro d hd
    obtain ⟨leaf, hl, rfl⟩ := List.mem_map.mp hd
    exact ⟨_, hleaves leaf hl, rfl⟩
  have hpos : 0 < (leafPages file).length := (Nat.zero_le _).trans_lt (hcount ▸ hi)
  have hpages := length_leafPages_lt hlen
  rw [← List.length_reverse] at hproof
  rw [← List.reverse_reverse proof] at hfold
  obtain ⟨-, hget, hproof⟩ := eq_of_foldlM hK m.pageCount.toNat_lt hi
    (List.ne_nil_of_length_pos (by simpa using hpos)) (by simpa using hpages) ⟨_, hpage, rfl⟩
    hhashes (fun x hx ↦ hfile x (List.mem_append_right _ hx)) hproof (fun x hx ↦ hstrings x (by
      rw [List.reverse_reverse] at hx
      exact List.mem_cons_of_mem _ (List.mem_cons_of_mem _ hx))) hfold hm.pagesRoot_eq
  -- the page is the one of the file
  rw [pageHashes, List.getElem?_map, Option.map_eq_some_iff] at hget
  obtain ⟨leaf', hleaf', hbytes⟩ := hget
  have hmem := List.mem_of_getElem? hleaf'
  obtain rfl : leaf'.bytes = page :=
    List.append_cancel_left (hK (hleaves leaf' hmem) hpage hbytes)
  have hencode := ChunkLeaf.encode_eq_ok.mpr ⟨encodable_of_mem_leafPages hmem, rfl⟩
  obtain rfl : leaf' = leaf :=
    ChunkLeaf.encode_inj hencode (ChunkLeaf.decode_eq_ok_iff_encode.mp hdecode)
  -- and so is the digest in its place
  obtain ⟨-, hleaf⟩ := getElem?_leafPages.mp hleaf'
  rw [hleaf, getElem?_block_div (by decide), getElem?_chunkDigests] at hdigest
  obtain ⟨hcount', hchunk⟩ := hdigest
  refine ⟨leaf', ?_, hleaf', hencode, leafProof_eq_ok.mpr ⟨?_, ?_⟩, ?_⟩
  · rwa [UInt64.lt_iff_toNat_lt, hm.chunkCount_eq]
  · rwa [toNat_div_chunksPerPage, length_pageHashes, ← hcount]
  · rw [toNat_div_chunksPerPage, ← hproof, List.reverse_reverse]
  · refine hK (hstrings _ List.mem_cons_self) (hfile _ ?_) hchunk
    exact List.mem_append_left _ (List.mem_append_left _
      (List.mem_map_of_mem (List.mem_range.mpr hcount')))

/-- **The page of a chunk with its proof and the chunk are verified**, whatever the hash
function. -/
theorem verified_chunkAt (hm : IsOfFile file m) (hlen : file.length < 2 ^ 63) {i : UInt64}
    (hi : i < m.chunkCount) {leaf : ChunkLeaf} {page : Bytes} {proof : List ProofStep}
    (hleaf : (leafPages file)[i.toNat / chunksPerPage]? = some leaf)
    (hpage : leaf.encode = .ok page)
    (hproof : leafProof (pageHashes file) (i / UInt64.ofNat chunksPerPage) = .ok proof) :
    m.Verified i page proof (chunkAt file i.toNat) := by
  have hpages := length_leafPages_lt hlen
  have hmem := List.mem_of_getElem? hleaf
  obtain ⟨-, heq⟩ := getElem?_leafPages.mp hleaf
  obtain ⟨-, rfl⟩ := leafProof_eq_ok.mp hproof
  refine ⟨leaf, _, ChunkLeaf.decode_eq_ok_iff_encode.mpr hpage, leafHash_of_mem_leafPages hmem,
    ?_, ?_⟩
  · rw [hm.pagesRoot_eq]
    refine verifyLeaf_proofDescent (by rwa [length_pageHashes])
      (by rw [length_pageHashes, hm.pageCount_eq]) ?_
    rw [toNat_div_chunksPerPage, pageHashes, List.getElem?_map, hleaf, Option.map_some]
  · rw [UInt64.lt_iff_toNat_lt, hm.chunkCount_eq] at hi
    rw [heq, getElem?_block_div (by decide)]
    exact getElem?_chunkDigests.mpr ⟨hi, rfl⟩

/-- **There is exactly one answer for a chunk**: its page, the proof of the page, and the chunk. -/
theorem verified_iff (file : Slice UInt8) (m : ChunkMap) (hm : ofFile file.toList = .ok m)
    (i : UInt64) (page : Bytes) (proof : List ProofStep) (chunk : Bytes)
    (hfree : CollisionFree
      {x | x ∈ fileStrings file.toList ++ verifiedStrings m i page proof chunk}) :
    m.Verified i page proof chunk ↔
      ∃ leaf, i < m.chunkCount ∧ (leafPages file.toList)[i.toNat / chunksPerPage]? = some leaf ∧
        leaf.encode = .ok page ∧
        leafProof (pageHashes file.toList) (i / UInt64.ofNat chunksPerPage) = .ok proof ∧
        chunk = chunkAt file.toList i.toNat := by
  have hm' := isOfFile_of_ofFile file.length_lt hm
  constructor
  · exact fun h ↦ h.eq_of_collisionFree hfree hm' file.length_lt
      (fun x hx ↦ List.mem_append_left _ hx) (fun x hx ↦ List.mem_append_right _ hx)
  · rintro ⟨leaf, hi, hleaf, hpage, hproof, rfl⟩
    exact verified_chunkAt hm' file.length_lt hi hleaf hpage hproof

/-! ### A file of three bytes -/

/-- A file of one chunk. -/
def smallFile : Slice UInt8 := ⟨"abc".asBytes, by decide +kernel⟩

/-- Its digest. -/
def smallId : Digest := .ofNat 0xba7816bf8f01cfea414140de5dae2223b00361a396177a9cb410ff61f20015ad

/-- Its page. -/
def smallPage : Bytes := (⟨0, [smallId]⟩ : ChunkLeaf).bytes

/-- Its map. -/
def smallMap : ChunkMap :=
  ⟨smallId, 3, 1, 1, .ofNat 0x80b61f4f2bca530b5842f80e503b13d34fcbabc8cbc5243ff75e5dfefe1865f5⟩

/-- SHA-256 on the strings that are hashed for the file. -/
@[reducible] def smallSha256 : Sha256 := .ofTable
  [(smallFile.toList, smallId), (ChunkLeaf.hashInput smallPage, smallMap.pagesRoot),
    (mapDomain ++ smallMap.encode,
      .ofNat 0x744f22c85d46248e27b683ac2ebc6b3aa6f535e248a1833838cf42ea9037db37)]

omit [Sha256] in
theorem ofFile_smallFile :
    letI := smallSha256
    ofFile smallFile.toList = .ok smallMap := by
  decide +kernel

omit [Sha256] in
/-- No two of its strings collide. -/
theorem collisionFree_smallStrings :
    letI := smallSha256
    CollisionFree {x | x ∈ fileStrings smallFile.toList ++
      verifiedStrings smallMap 0 smallPage [] smallFile.toList ++
        [mapDomain ++ smallMap.encode]} := by
  let _ := smallSha256
  have h : ∀ x ∈ fileStrings smallFile.toList ++
        verifiedStrings smallMap 0 smallPage [] smallFile.toList ++ [mapDomain ++ smallMap.encode],
      ∀ y ∈ fileStrings smallFile.toList ++
        verifiedStrings smallMap 0 smallPage [] smallFile.toList ++ [mapDomain ++ smallMap.encode],
      sha256 x = sha256 y → x = y := by
    decide +kernel
  exact fun x hx y hy ↦ h x hx y hy

omit [Sha256] in
theorem verified_smallFile :
    letI := smallSha256
    smallMap.Verified 0 smallPage [] smallFile.toList := by
  let _ := smallSha256
  exact ⟨⟨0, [smallId]⟩, smallMap.pagesRoot, by decide +kernel, by decide +kernel,
    by decide +kernel, by decide +kernel⟩

omit [Sha256] in
/-- The only chunk. -/
theorem verified_iff_small :
    letI := smallSha256
    leafProof (pageHashes smallFile.toList) 0 = .ok [] ∧
      smallFile.toList = chunkAt smallFile.toList 0 := by
  let _ := smallSha256
  obtain ⟨leaf, -, -, -, hproof, hchunk⟩ := (verified_iff smallFile smallMap ofFile_smallFile 0
    smallPage [] smallFile.toList (collisionFree_smallStrings.mono fun x hx ↦
      List.mem_append_left _ hx)).mp verified_smallFile
  exact ⟨hproof, hchunk⟩

/-! ## Ranges -/

omit [Sha256] in
theorem encode_injective : Function.Injective ChunkMap.encode := by
  intro m m' h
  have hslice : slice? m.encode 0 mapLen = some m.encode :=
    (slice?_length_eq_some m.length_encode).mpr rfl
  obtain ⟨-, -, -, hid, hsize, -, hcount, hpages, hroot⟩ := slice?_encode.mp hslice
  obtain ⟨-, -, -, hid', hsize', -, hcount', hpages', hroot'⟩ :=
    slice?_encode.mp (hslice.trans (congrArg some h))
  exact ChunkMap.ext (Except.ok.inj (hid.symm.trans hid')) (Except.ok.inj (hsize.symm.trans hsize'))
    (Except.ok.inj (hcount.symm.trans hcount')) (Except.ok.inj (hpages.symm.trans hpages'))
    (Except.ok.inj (hroot.symm.trans hroot'))

/-- A map has the identity that its bytes have. -/
theorem eq_of_mapId_eq {K : Set Bytes} (hK : CollisionFree K) {m m' : ChunkMap}
    (hm : mapDomain ++ m.encode ∈ K) (hm' : mapDomain ++ m'.encode ∈ K) (h : m.mapId = m'.mapId) :
    m = m' :=
  encode_injective (List.append_cancel_left (hK hm hm' h))

/-- The strings that are hashed for a file, for a map that is received, and while the chunks from
`s` to `e` are verified. -/
def readStrings (file : Bytes) (m received : ChunkMap) (s e : UInt64) (pages : UInt64 → Bytes)
    (proofs : UInt64 → List ProofStep) (chunks : UInt64 → Bytes) : Set Bytes :=
  {x | x ∈ fileStrings file ∨ x = mapDomain ++ m.encode ∨ x = mapDomain ++ received.encode ∨
    ∃ i, s ≤ i ∧ i ≤ e ∧ x ∈ verifiedStrings received i (pages i) (proofs i) (chunks i)}

/-- **Whoever knows the identity of the map reads the bytes of the file.**  A map with this identity
is the map of the file, before any chunk is asked for; if the chunks that are needed for a range are
verified against it, they are as long as the map says, and the range is read from them as it is in
the file. -/
theorem read_range (file : Slice UInt8) (m received : ChunkMap) (hm : ofFile file.toList = .ok m)
    (hid : received.mapId = m.mapId)
    (hmaps : CollisionFree {x | x = mapDomain ++ m.encode ∨ x = mapDomain ++ received.encode}) :
    received = m ∧ ∀ (offset length s e : UInt64),
      rangeChunks offset length received.fileSize = .ok (s, e) →
      ∀ (pages : UInt64 → Bytes) (proofs : UInt64 → List ProofStep) (chunks : UInt64 → Bytes),
        (∀ i, s ≤ i → i ≤ e → received.Verified i (pages i) (proofs i) (chunks i)) →
        CollisionFree (readStrings file.toList m received s e pages proofs chunks) →
        (∀ i, s ≤ i → i ≤ e → received.chunkLen i = .ok (UInt64.ofNat (chunks i).length)) ∧
          (((List.range' s.toNat (e.toNat + 1 - s.toNat)).flatMap fun i ↦
              chunks (UInt64.ofNat i)).drop (offset.toNat - s.toNat * chunkSize.toNat)).take
            length.toNat = (file.toList.drop offset.toNat).take length.toNat := by
  obtain rfl := eq_of_mapId_eq hmaps (.inr rfl) (.inl rfl) hid
  refine ⟨rfl, fun offset length s e hrange pages proofs chunks hverified hfree ↦ ?_⟩
  have hfile := isOfFile_of_ofFile file.length_lt hm
  have hchunks : ∀ i, s ≤ i → i ≤ e → i < received.chunkCount ∧
      chunks i = chunkAt file.toList i.toNat := by
    intro i hs he
    obtain ⟨leaf, hi, -, -, -, hchunk⟩ := (hverified i hs he).eq_of_collisionFree hfree hfile
      file.length_lt (fun x hx ↦ .inl hx) (fun x hx ↦ .inr (.inr (.inr ⟨i, hs, he, hx⟩)))
    exact ⟨hi, hchunk⟩
  refine ⟨fun i hs he ↦ ?_, ?_⟩
  · obtain ⟨hi, hchunk⟩ := hchunks i hs he
    rw [hfile.made.chunkLen_eq_ok hi, hchunk, chunkAt, length_block, hfile.fileSize_eq]
  · obtain ⟨hlength, hoffset, hs, he⟩ := rangeChunks_eq_ok.mp hrange
    rw [UInt64.lt_iff_toNat_lt, hfile.fileSize_eq] at hoffset
    have hpos : 0 < length.toNat := Nat.pos_of_ne_zero fun h ↦ hlength (UInt64.toNat_inj.mp h)
    have hmap : ∀ i ∈ List.range' s.toNat (e.toNat + 1 - s.toNat),
        chunks (UInt64.ofNat i) = block chunkSize.toNat file.toList i := by
      intro i hi
      rw [List.mem_range'_1] at hi
      have hnat : (UInt64.ofNat i).toNat = i := toNat_ofNat_u64 (by
        have := e.toNat_lt
        omega)
      rw [(hchunks _ _ _).2, hnat]
      · rfl
      · rw [UInt64.le_iff_toNat_le]
        omega
      · rw [UInt64.le_iff_toNat_le]
        omega
    rw [List.flatMap_congr hmap, hs, he, hfile.fileSize_eq]
    exact take_drop_flatMap_block (by decide) file.toList hpos hoffset

omit [Sha256] in
/-- The last two of three bytes, where five are asked for. -/
theorem read_range_small :
    letI := smallSha256
    (((List.range' 0 1).flatMap fun _ ↦ smallFile.toList).drop 1).take 5 = "bc".asBytes := by
  let _ := smallSha256
  have hfree : CollisionFree (readStrings smallFile.toList smallMap smallMap 0 0
      (fun _ ↦ smallPage) (fun _ ↦ []) fun _ ↦ smallFile.toList) := by
    refine collisionFree_smallStrings.mono fun x hx ↦ ?_
    rcases hx with hx | rfl | rfl | ⟨i, -, hi, hx⟩
    · exact List.mem_append_left _ (List.mem_append_left _ hx)
    · exact List.mem_append_right _ (by simp)
    · exact List.mem_append_right _ (by simp)
    · obtain rfl : i = 0 := UInt64.le_zero_iff.mp hi
      exact List.mem_append_left _ (List.mem_append_right _ hx)
  have hmaps : CollisionFree {x | x = mapDomain ++ smallMap.encode ∨
      x = mapDomain ++ smallMap.encode} := hfree.mono fun x hx ↦ .inr (.inl (or_self_iff.mp hx))
  have hread := (read_range smallFile smallMap smallMap ofFile_smallFile rfl hmaps).2 1 5 0 0
    (by decide) (fun _ ↦ smallPage) (fun _ ↦ []) (fun _ ↦ smallFile.toList) (fun i _ hi ↦ by
      obtain rfl : i = 0 := UInt64.le_zero_iff.mp hi
      exact verified_smallFile) hfree
  exact hread.2.trans (by decide)

end ChunkMap

end Mst2
