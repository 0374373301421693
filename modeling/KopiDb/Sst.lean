import KopiDb.Block
import KopiDb.BloomFilter

/-!
# Sorted tables

A table file is a run of blocks with one meta entry for each, a filter and the
range of its keys.  The builder cuts the incoming records into blocks without
separating the versions of a key.  Values are stored inline.
-/

namespace KopiDb

structure BlockMeta where
  firstKey : Bytes
  lastKey : Bytes
  deriving DecidableEq, Repr

/-- The first key of a run that is not empty, or the empty key. -/
def firstUserKey (entries : List Entry) : Bytes :=
  ((entries.map Version.key).find? fun key => key ≠ []).getD []

/-- The key of the last record of a run, or the empty key. -/
def finalKey (entries : List Entry) : Bytes :=
  (entries.getLast?.map Version.key).getD []

/-- The meta entries that the builder writes for a run of blocks in front of
`following`.  The builder takes the first key of a block again as long as it is
empty, so commit markers are passed over, into the next block if need be. -/
def Described : List (BlockMeta × Block) → List Entry → Prop
  | [], _ => True
  | (info, block) :: rest, following =>
      info.firstKey = firstUserKey (block.entries ++
        ((rest.flatMap fun block => block.2.entries) ++ following)) ∧
      info.lastKey = finalKey block.entries ∧ Described rest following

/-- `SST`: the meta entries with the blocks they stand for.  The offsets of the blocks and the
32-bit end of the last one follow from these, `blockOffset` and `metaBlockOffset`. -/
structure SST where
  sstId : ℕ
  blocks : List (BlockMeta × Block)
  firstKey : Bytes
  lastKey : Bytes
  bloomFilter : Option BloomFilter
  minTrancId : ℕ
  maxTrancId : ℕ

/-- Every key of `left` is smaller than every key of `right`. -/
def KeysBefore (left right : List Entry) : Prop :=
  ∀ first ∈ left, ∀ second ∈ right, first.key < second.key

namespace SST

def numBlocks (sst : SST) : ℕ := sst.blocks.length

/-- All records of the file, in file order. -/
def records (sst : SST) : List Entry := sst.blocks.flatMap fun block => block.2.entries

/-- `bloom_filter && !bloom_filter->possibly_contains(key)` -/
def bloomExcludes (sst : SST) (key : Bytes) : Bool :=
  match sst.bloomFilter with
  | none => false
  | some filter => !filter.possiblyContains key

/-- The position of a block relative to the key, by its meta entry. -/
def compareMeta (sst : SST) (key : Bytes) (idx : ℕ) : Ordering :=
  match sst.blocks[idx]? with
  | none => .gt
  | some block =>
      if key < block.1.firstKey then .gt
      else if key > block.1.lastKey then .lt else .eq

/-- `find_block_idx`: the block that may hold the key, `none` for `-1`. -/
def findBlockIdx (sst : SST) (key : Bytes) : Option ℕ :=
  if sst.bloomExcludes key then none
  else match BinarySearch.binarySearch (sst.compareMeta key) sst.numBlocks with
    | .hit mid => some mid
    | .miss left => if left ≥ sst.numBlocks then none else some left

/-! ### Where the blocks are -/

/-- `data.size()` behind the blocks: the length of the block section. -/
def dataLength (sst : SST) : ℕ := (sst.blocks.map fun block => block.2.encodedLength).sum

/-- The `offset` of a block in a table that was just built, a `size_t`. -/
def blockOffset (sst : SST) (idx : ℕ) : ℕ :=
  ((sst.blocks.take idx).map fun block => block.2.encodedLength).sum

/-- `meta_block_offset`, which `build` casts to `uint32_t`. -/
def metaBlockOffset (sst : SST) : ℕ := sst.dataLength % 2 ^ 32

/-- The block section of a file that 32-bit offsets reach. -/
def Addressable (sst : SST) : Prop := sst.dataLength < 2 ^ 32

/-- Blocks below 2^32 bytes, as the limits of `add_entry` leave them. -/
def BlocksShort (sst : SST) : Prop :=
  ∀ block ∈ sst.blocks, block.2.encodedLength < 2 ^ 32

/-- `block_end` of `read_block`: the last block ends where the meta section starts. -/
def blockEnd (sst : SST) (idx : ℕ) : ℕ :=
  if idx + 1 < sst.numBlocks then sst.blockOffset (idx + 1) else sst.metaBlockOffset

/-- `read_block` of a block that is not cached.  Where the end lies in front of the block,
the `size_t` length is nearly 2^64: it passes the test of `read_to_slice`, whose sum wraps
back, and the allocation of the vector throws. -/
def loadBlock (sst : SST) (idx : ℕ) : Except Err Block :=
  match sst.blocks[idx]? with
  | none => .error (.runtimeError "SST::read_block: block_idx out of range")
  | some (_, block) =>
      if sst.blockEnd idx < sst.blockOffset idx then
        .error (.lengthError "cannot create std::vector larger than max_size()")
      else .ok block

/-- A file as the builder leaves it. -/
structure WellFormed (sst : SST) : Prop where
  nonempty : sst.blocks ≠ []
  blocks_nonempty : ∀ block ∈ sst.blocks, block.2.entries ≠ []
  described : Described sst.blocks []
  sorted : Versions.Sorted sst.records
  separated : (sst.blocks.map fun block => block.2.entries).Pairwise KeysBefore
  firstKey_eq : sst.firstKey = firstUserKey sst.records
  lastKey_eq : sst.lastKey = finalKey sst.records
  bloom : ∀ entry ∈ sst.records, sst.bloomExcludes entry.key = false

end SST

/-! ## Reading blocks -/

namespace SST

variable {sst : SST} {idx : ℕ}

theorem blockOffset_succ (hidx : idx < sst.blocks.length) :
    sst.blockOffset (idx + 1) = sst.blockOffset idx + sst.blocks[idx].2.encodedLength := by
  rw [blockOffset, List.take_succ_eq_append_getElem hidx, List.map_append, List.sum_append,
    List.map_singleton, List.sum_singleton, blockOffset]

theorem blockOffset_length : sst.blockOffset sst.blocks.length = sst.dataLength := by
  rw [blockOffset, List.take_length, dataLength]

theorem blockOffset_le_dataLength (sst : SST) (idx : ℕ) :
    sst.blockOffset idx ≤ sst.dataLength :=
  List.Sublist.sum_le_sum ((List.take_sublist idx sst.blocks).map _) fun _ _ => Nat.zero_le _

/-- Every block takes six bytes and more. -/
theorem length_blocks_le_dataLength (sst : SST) : sst.blocks.length ≤ sst.dataLength := by
  have hsum := List.card_nsmul_le_sum (sst.blocks.map fun block => block.2.encodedLength) 1 (by
    rw [List.forall_mem_map]
    intro block _
    rw [Block.encodedLength]
    omega)
  rwa [List.length_map, smul_eq_mul, Nat.mul_one] at hsum

/-- The block section has at least the bytes of its records. -/
theorem records_le_dataLength (sst : SST) : (sst.records.map entrySize).sum ≤ sst.dataLength := by
  rw [records, List.flatMap_def, List.map_flatten, List.sum_flatten, List.map_map, List.map_map,
    dataLength]
  refine List.sum_le_sum fun block _ => ?_
  change block.2.dataSize ≤ block.2.encodedLength
  rw [Block.encodedLength]
  omega

theorem loadBlock_eq (hidx : idx < sst.blocks.length) :
    sst.loadBlock idx = if sst.blockEnd idx < sst.blockOffset idx then
      .error (.lengthError "cannot create std::vector larger than max_size()")
    else .ok sst.blocks[idx].2 := by
  rw [loadBlock, List.getElem?_eq_getElem hidx]

/-- All blocks but the last are read, however long the block section is. -/
theorem loadBlock_of_lt (hidx : idx < sst.blocks.length) (hnext : idx + 1 < sst.blocks.length) :
    sst.loadBlock idx = .ok sst.blocks[idx].2 := by
  rw [loadBlock_eq hidx, blockEnd, numBlocks, if_pos hnext, blockOffset_succ hidx,
    if_neg (Nat.le_add_right _ _).not_gt]

/-- A block section below 2^32 bytes is read to its end. -/
theorem Addressable.loadBlock (hsst : sst.Addressable) (hidx : idx < sst.blocks.length) :
    sst.loadBlock idx = .ok sst.blocks[idx].2 := by
  rcases Nat.lt_or_ge (idx + 1) sst.blocks.length with hlt | hge
  · exact loadBlock_of_lt hidx hlt
  · have hmeta : sst.metaBlockOffset = sst.dataLength := Nat.mod_eq_of_lt hsst
    rw [loadBlock_eq hidx, blockEnd, numBlocks, if_neg hge.not_gt, hmeta,
      if_neg (sst.blockOffset_le_dataLength idx).not_gt]

theorem Addressable.blocksShort (hsst : sst.Addressable) : sst.BlocksShort := by
  intro block hmem
  exact (List.single_le_sum (fun _ _ => Nat.zero_le _) _ (List.mem_map_of_mem hmem)).trans_lt hsst

/-- A block that does not end in front of its begin ends behind its bytes. -/
theorem blockEnd_of_le (hidx : idx < sst.blocks.length) (hshort : sst.BlocksShort)
    (hend : ¬sst.blockEnd idx < sst.blockOffset idx) :
    sst.blockEnd idx = sst.blockOffset idx + sst.blocks[idx].2.encodedLength := by
  have hwhole := blockOffset_succ hidx
  rw [blockEnd, numBlocks] at hend ⊢
  split_ifs at hend ⊢ with hnext
  · exact hwhole
  · have hblock := hshort _ (List.getElem_mem hidx)
    rw [show idx + 1 = sst.blocks.length by omega, blockOffset_length] at hwhole
    rw [metaBlockOffset] at hend ⊢
    omega

/-- Blocks have bytes, so there are fewer of them. -/
theorem Addressable.idx_lt (hsst : sst.Addressable) (hidx : idx < sst.blocks.length) :
    idx < 2 ^ 32 :=
  (hidx.trans_le sst.length_blocks_le_dataLength).trans hsst

/-- From 2^32 bytes on the last block is not read any more. -/
theorem loadBlock_last (hsst : ¬sst.Addressable) (hidx : idx + 1 = sst.blocks.length)
    (hshort : sst.BlocksShort) :
    sst.loadBlock idx =
      .error (.lengthError "cannot create std::vector larger than max_size()") := by
  have hlt : idx < sst.blocks.length := by omega
  have hlast := hshort _ (List.getElem_mem hlt)
  have hwhole : sst.dataLength = sst.blockOffset idx + sst.blocks[idx].2.encodedLength := by
    rw [← blockOffset_length, ← hidx, blockOffset_succ hlt]
  have hlarge : 2 ^ 32 ≤ sst.dataLength := not_lt.mp hsst
  have hend : sst.metaBlockOffset < sst.blockOffset idx := by
    rw [metaBlockOffset]
    omega
  rw [loadBlock_eq hlt, blockEnd, numBlocks, if_neg hidx.not_lt, if_pos hend]

end SST

/-! ## First and last keys of a run -/

theorem firstUserKey_mem {entries : List Entry} (hne : firstUserKey entries ≠ []) :
    ∃ entry ∈ entries, entry.key = firstUserKey entries := by
  unfold firstUserKey at hne ⊢
  cases hfind : (entries.map Version.key).find? fun key => key ≠ [] with
  | none =>
      rw [hfind] at hne
      exact absurd rfl hne
  | some key =>
      have hmem := List.mem_of_find?_eq_some hfind
      simpa using hmem

/-- In storage order the first user key is below every user key. -/
theorem firstUserKey_le {entries : List Entry} (hsorted : Versions.Sorted entries)
    {entry : Entry} (hmem : entry ∈ entries) (hkey : entry.key ≠ []) :
    firstUserKey entries ≤ entry.key := by
  unfold firstUserKey
  induction entries with
  | nil => simp at hmem
  | cons head tail ih =>
      rw [List.map_cons]
      by_cases hhead : head.key = []
      · rw [List.find?_cons_of_neg (by simpa using hhead)]
        rcases List.mem_cons.mp hmem with rfl | hmem
        · exact absurd hhead hkey
        · exact ih hsorted.tail hmem
      · rw [List.find?_cons_of_pos (by simpa using hhead), Option.getD_some]
        rcases List.mem_cons.mp hmem with rfl | hmem
        · exact le_rfl
        · exact hsorted.key_le hmem

/-- Only a run without user keys has no first user key. -/
theorem firstUserKey_ne_nil {entries : List Entry} {entry : Entry}
    (hmem : entry ∈ entries) (hkey : entry.key ≠ []) : firstUserKey entries ≠ [] := by
  unfold firstUserKey
  cases hfind : (entries.map Version.key).find? fun key => key ≠ [] with
  | none =>
      have hall := List.find?_eq_none.mp hfind entry.key (List.mem_map_of_mem hmem)
      exact absurd hkey (by simpa using hall)
  | some key => simpa using List.find?_some hfind

theorem le_finalKey {entries : List Entry} (hsorted : Versions.Sorted entries)
    {entry : Entry} (hmem : entry ∈ entries) : entry.key ≤ finalKey entries := by
  obtain ⟨front, last, rfl⟩ : ∃ front last, entries = front ++ [last] :=
    ⟨_, _, (List.dropLast_append_getLast (List.ne_nil_of_mem hmem)).symm⟩
  rw [finalKey, List.getLast?_append, List.getLast?_singleton]
  rcases List.mem_append.mp hmem with hmem | hmem
  · exact ((List.pairwise_append.mp hsorted).2.2 entry hmem last
      List.mem_cons_self).key_le
  · rw [List.mem_singleton.mp hmem]
    exact le_rfl

theorem finalKey_mem {entries : List Entry} (hne : entries ≠ []) :
    ∃ entry ∈ entries, entry.key = finalKey entries := by
  refine ⟨entries.getLast hne, List.getLast_mem hne, ?_⟩
  rw [finalKey, List.getLast?_eq_some_getLast hne]
  rfl

theorem firstUserKey_append (left right : List Entry) :
    firstUserKey (left ++ right) =
      if firstUserKey left = [] then firstUserKey right else firstUserKey left := by
  unfold firstUserKey
  rw [List.map_append, List.find?_append]
  cases hfind : (left.map Version.key).find? fun key => key ≠ [] with
  | none => simp
  | some key =>
      have hkey : key ≠ [] := by simpa using List.find?_some hfind
      simp [hkey]

theorem firstUserKey_singleton (entry : Entry) : firstUserKey [entry] = entry.key := by
  by_cases hkey : entry.key = [] <;> simp [firstUserKey, hkey]

theorem finalKey_append (entries : List Entry) (entry : Entry) :
    finalKey (entries ++ [entry]) = entry.key := by
  rw [finalKey, List.getLast?_append, List.getLast?_singleton]
  rfl

/-- Records behind a user key do not change the meta entries before it. -/
theorem Described.append {blocks : List (BlockMeta × Block)} {following : List Entry}
    (hdescribed : Described blocks following) (hkey : firstUserKey following ≠ [])
    (more : List Entry) : Described blocks (following ++ more) := by
  induction blocks with
  | nil => trivial
  | cons block rest ih =>
      obtain ⟨hfirst, hlast, hrest⟩ := hdescribed
      refine ⟨?_, hlast, ih hrest⟩
      have hne : firstUserKey (block.2.entries ++
          ((rest.flatMap fun block => block.2.entries) ++ following)) ≠ [] := by
        rw [← List.append_assoc, firstUserKey_append]
        split_ifs with hempty
        · exact hkey
        · exact hempty
      rw [hfirst, ← List.append_assoc _ following, ← List.append_assoc _ _ more,
        firstUserKey_append (block.2.entries ++ _) more, if_neg hne]

theorem Described.head {blocks : List (BlockMeta × Block)} {front : BlockMeta × Block}
    (hdescribed : Described blocks []) (hfront : blocks.head? = some front) :
    front.1.firstKey = firstUserKey (blocks.flatMap fun block => block.2.entries) := by
  obtain ⟨rest, rfl⟩ := List.head?_eq_some_iff.mp hfront
  rw [hdescribed.1, List.append_nil, List.flatMap_cons]

/-- The meta entry of one block. -/
theorem Described.getElem {blocks : List (BlockMeta × Block)}
    (hdescribed : Described blocks []) {idx : ℕ} (hidx : idx < blocks.length) :
    blocks[idx].1.firstKey =
        firstUserKey ((blocks.drop idx).flatMap fun block => block.2.entries) ∧
      blocks[idx].1.lastKey = finalKey blocks[idx].2.entries := by
  induction blocks generalizing idx with
  | nil => cases hidx
  | cons block rest ih =>
      cases idx with
      | zero =>
          refine ⟨?_, hdescribed.2.1⟩
          rw [List.drop_zero]
          exact hdescribed.head rfl
      | succ idx => exact ih hdescribed.2.2 (Nat.lt_of_succ_lt_succ hidx)

theorem described_append_singleton {blocks : List (BlockMeta × Block)}
    {info : BlockMeta} {block : Block} {following : List Entry} :
    Described (blocks ++ [(info, block)]) following ↔
      Described blocks (block.entries ++ following) ∧
        info.firstKey = firstUserKey (block.entries ++ following) ∧
        info.lastKey = finalKey block.entries := by
  induction blocks with
  | nil => simp [Described]
  | cons head rest ih =>
      simp only [List.cons_append, Described, ih, List.flatMap_append,
        List.flatMap_singleton, List.append_assoc]
      tauto

/-! ## The builder -/

structure SSTBuilder where
  block : Block
  blocks : List (BlockMeta × Block)
  firstKey : Bytes
  lastKey : Bytes
  /-- `data.size()` -/
  dataLength : ℕ
  blockSize : ℕ
  bloomFilter : Option BloomFilter
  minTrancId : ℕ
  maxTrancId : ℕ
  createFails : ℕ → Bool

namespace SSTBuilder

/-- The constructor of a builder for inline values, with a filter. -/
def new (config : Config) : SSTBuilder where
  block := Block.new config.lsmBlockSize
  blocks := []
  firstKey := []
  lastKey := []
  dataLength := 0
  blockSize := config.lsmBlockSize
  bloomFilter := some (BloomFilter.new config)
  minTrancId := 2 ^ 64 - 1
  maxTrancId := 0
  createFails := config.createFails

def estimatedSize (builder : SSTBuilder) : ℕ := builder.dataLength

/-- `finish_block`: encode the current block, describe it and start a new one. -/
def finishBlock (builder : SSTBuilder) : Except Err SSTBuilder :=
  match builder.block.encodedSize with
  | .error err => .error err
  | .ok encodedSize =>
      .ok { builder with
        blocks := builder.blocks ++ [(⟨builder.firstKey, builder.lastKey⟩, builder.block)]
        dataLength := builder.dataLength + encodedSize
        block := Block.new builder.blockSize }

def add (builder : SSTBuilder) (key value : Bytes) (trancId : ℕ) :
    Except Err SSTBuilder :=
  let builder := { builder with
    firstKey := if builder.firstKey = [] then key else builder.firstKey
    bloomFilter := builder.bloomFilter.map (BloomFilter.add · key)
    maxTrancId := max builder.maxTrancId trancId
    minTrancId := min builder.minTrancId trancId }
  -- All versions of a key stay in one block.
  let forceWrite := decide (key = builder.lastKey)
  match builder.block.addEntry key value trancId forceWrite with
  | .error err => .error err
  | .ok (some block) => .ok { builder with block := block, lastKey := key }
  | .ok none =>
      match builder.finishBlock with
      | .error err => .error err
      | .ok builder =>
          match builder.block.addEntry key value trancId false with
          | .error err => .error err
          | .ok added =>
              .ok { builder with
                block := added.getD builder.block
                firstKey := key
                lastKey := key }

/-- `build`.  The cast of the meta offset to `uint32_t` is `SST.metaBlockOffset`; the filter
offset is only read when a file is opened. -/
def build (builder : SSTBuilder) (sstId : ℕ) : Except Err SST :=
  match (if builder.block.isEmpty then .ok builder else builder.finishBlock) with
  | .error err => .error err
  | .ok builder =>
      match builder.blocks.head?, builder.blocks.getLast? with
      | some front, some back =>
          if builder.createFails sstId then
            .error (.runtimeError "Failed to create or write file")
          else
            .ok { sstId := sstId
                  blocks := builder.blocks
                  firstKey := front.1.firstKey
                  lastKey := back.1.lastKey
                  bloomFilter := builder.bloomFilter
                  minTrancId := builder.minTrancId
                  maxTrancId := builder.maxTrancId }
      | _, _ => .error (.runtimeError "SSTBuilder::build: Cannot build empty SST")

theorem finishBlock_eq_ok {builder finished : SSTBuilder}
    (hfinish : builder.finishBlock = .ok finished) :
    ∃ dataLength, finished = { builder with
      blocks := builder.blocks ++ [(⟨builder.firstKey, builder.lastKey⟩, builder.block)]
      dataLength := dataLength
      block := Block.new builder.blockSize } := by
  unfold finishBlock at hfinish
  split at hfinish
  next err _ => cases hfinish
  next encodedSize _ => exact ⟨_, (Except.ok.inj hfinish).symm⟩

/-- Add records one after the other. -/
def addAll (builder : SSTBuilder) (entries : List Entry) : Except Err SSTBuilder :=
  entries.foldlM (fun builder entry => builder.add entry.key entry.value entry.txid) builder

/-- What a builder holds after `added` was added in storage order. -/
structure Holds (builder : SSTBuilder) (added : List Entry) : Prop where
  records : (builder.blocks.flatMap fun block => block.2.entries) ++
    builder.block.entries = added
  blocks_nonempty : ∀ block ∈ builder.blocks, block.2.entries ≠ []
  described : Described builder.blocks builder.block.entries
  userKey : builder.blocks ≠ [] → firstUserKey builder.block.entries ≠ []
  pending : added ≠ [] → builder.block.entries ≠ []
  separated : ((builder.blocks.map fun block => block.2.entries) ++
    [builder.block.entries]).Pairwise KeysBefore
  sorted : Versions.Sorted added
  firstKey_eq : builder.firstKey = firstUserKey builder.block.entries
  lastKey_eq : builder.lastKey = finalKey added
  bloom : ∀ filter, builder.bloomFilter = some filter →
    ∀ entry ∈ added, filter.possiblyContains entry.key

theorem holds_new (config : Config) : Holds (new config) [] where
  records := rfl
  blocks_nonempty := by simp [new]
  described := trivial
  userKey := by simp [new]
  pending := by simp
  separated := List.pairwise_singleton _ _
  sorted := List.Pairwise.nil
  firstKey_eq := rfl
  lastKey_eq := rfl
  bloom := by simp

private theorem bloom_add {builder : SSTBuilder} {added : List Entry} (entry : Entry)
    (hbloom : ∀ filter, builder.bloomFilter = some filter →
      ∀ other ∈ added, filter.possiblyContains other.key) :
    ∀ filter, builder.bloomFilter.map (BloomFilter.add · entry.key) = some filter →
      ∀ other ∈ added ++ [entry], filter.possiblyContains other.key := by
  intro filter hfilter other hmem
  obtain ⟨before, hbefore, rfl⟩ := Option.map_eq_some_iff.mp hfilter
  rcases List.mem_append.mp hmem with hmem | hmem
  · exact BloomFilter.possiblyContains_add (hbloom before hbefore other hmem) _
  · rw [List.mem_singleton.mp hmem]
    exact BloomFilter.possiblyContains_add_self _ _

/-- Appending to the current block keeps the blocks apart. -/
private theorem separated_append {blocks : List (List Entry)} {current : List Entry}
    {entry : Entry} (hseparated : (blocks ++ [current]).Pairwise KeysBefore)
    (hcurrent : blocks ≠ [] → current ≠ [])
    (hsorted : Versions.Sorted (current ++ [entry])) :
    (blocks ++ [current ++ [entry]]).Pairwise KeysBefore := by
  rw [List.pairwise_append] at hseparated ⊢
  refine ⟨hseparated.1, List.pairwise_singleton _ _, ?_⟩
  intro block hblock last hlast first hfirst second hsecond
  obtain rfl := List.mem_singleton.mp hlast
  have hbefore := hseparated.2.2 block hblock current List.mem_cons_self first hfirst
  rcases List.mem_append.mp hsecond with hsecond | hsecond
  · exact hbefore second hsecond
  · obtain rfl := List.mem_singleton.mp hsecond
    obtain ⟨other, hother⟩ := List.exists_mem_of_ne_nil _
      (hcurrent (List.ne_nil_of_mem hblock))
    have hle := ((List.pairwise_append.mp hsorted).2.2 other hother second
      List.mem_cons_self).key_le
    exact (hbefore other hother).trans_le hle

/-- Finishing the current block in front of `following`. -/
private theorem Holds.finished {builder : SSTBuilder} {added : List Entry}
    (hholds : builder.Holds added) (hfull : builder.block.entries ≠ [])
    (following : List Entry) {blocks : List (BlockMeta × Block)} {firstKey : Bytes}
    (hblocks : blocks = builder.blocks ++ [(⟨firstKey, builder.lastKey⟩, builder.block)])
    (hfirst : firstKey = firstUserKey (builder.block.entries ++ following)) :
    (∀ block ∈ blocks, block.2.entries ≠ []) ∧ Described blocks following ∧
      (blocks.flatMap fun block => block.2.entries) = added ∧
      (blocks.map fun block => block.2.entries).Pairwise KeysBefore := by
  subst hblocks
  refine ⟨?_, ?_, ?_, ?_⟩
  · intro block hmem
    rcases List.mem_append.mp hmem with hmem | hmem
    · exact hholds.blocks_nonempty block hmem
    · rw [List.mem_singleton.mp hmem]
      exact hfull
  · refine described_append_singleton.mpr ⟨?_, hfirst, ?_⟩
    · cases hblocks : builder.blocks with
      | nil => trivial
      | cons block rest =>
          have hkey := hholds.userKey (by rw [hblocks]; exact List.cons_ne_nil _ _)
          have hdescribed := hholds.described
          rw [hblocks] at hdescribed
          exact hdescribed.append hkey following
    · -- The last record added is the last one of the current block.
      change builder.lastKey = _
      rw [hholds.lastKey_eq, ← hholds.records, finalKey,
        List.getLast?_append_of_ne_nil _ hfull, finalKey]
  · rw [List.flatMap_append, List.flatMap_singleton]
    exact hholds.records
  · rw [List.map_append]
    exact hholds.separated

/-- A record that fits goes to the current block. -/
private theorem Holds.append {builder builder' : SSTBuilder} {added : List Entry}
    {entry : Entry} (hholds : builder.Holds added)
    (hsorted : Versions.Sorted (added ++ [entry]))
    (hentries : builder'.block.entries = builder.block.entries ++ [entry])
    (hblocks : builder'.blocks = builder.blocks)
    (hfirst : builder'.firstKey =
      if builder.firstKey = [] then entry.key else builder.firstKey)
    (hlast : builder'.lastKey = entry.key)
    (hbloom : builder'.bloomFilter =
      builder.bloomFilter.map (BloomFilter.add · entry.key)) :
    builder'.Holds (added ++ [entry]) where
  records := by
    rw [hentries, hblocks, ← List.append_assoc, hholds.records]
  blocks_nonempty := by
    rw [hblocks]
    exact hholds.blocks_nonempty
  described := by
    rw [hblocks, hentries]
    cases hcases : builder.blocks with
    | nil => trivial
    | cons block rest =>
        have hkey := hholds.userKey (by rw [hcases]; exact List.cons_ne_nil _ _)
        have hdescribed := hholds.described
        rw [hcases] at hdescribed
        exact hdescribed.append hkey [entry]
  userKey := by
    rw [hblocks, hentries, firstUserKey_append]
    intro hne
    rw [if_neg (hholds.userKey hne)]
    exact hholds.userKey hne
  pending := by
    intro _
    rw [hentries]
    exact List.append_ne_nil_of_right_ne_nil _ (List.cons_ne_nil _ _)
  separated := by
    rw [hblocks, hentries]
    refine separated_append hholds.separated ?_ ?_
    · intro hne hempty
      have hkey := hholds.userKey (by simpa using hne)
      rw [hempty] at hkey
      exact hkey rfl
    · refine hsorted.sublist ?_
      rw [← hholds.records, List.append_assoc]
      exact List.sublist_append_right _ _
  sorted := hsorted
  firstKey_eq := by
    rw [hfirst, hentries, firstUserKey_append, hholds.firstKey_eq,
      firstUserKey_singleton]
  lastKey_eq := by rw [hlast, finalKey_append]
  bloom := by
    rw [hbloom]
    exact bloom_add entry hholds.bloom

/-- A record whose key differs from the last one opens a new block. -/
private theorem Holds.open {builder builder' : SSTBuilder} {added : List Entry}
    {entry : Entry} (hholds : builder.Holds added)
    (hsorted : Versions.Sorted (added ++ [entry]))
    (hkey : entry.key ≠ builder.lastKey) (hfull : builder.block.entries ≠ [])
    (hentries : builder'.block.entries = [entry])
    (hblocks : builder'.blocks = builder.blocks ++
      [(⟨if builder.firstKey = [] then entry.key else builder.firstKey,
        builder.lastKey⟩, builder.block)])
    (hfirst : builder'.firstKey = entry.key) (hlast : builder'.lastKey = entry.key)
    (hbloom : builder'.bloomFilter =
      builder.bloomFilter.map (BloomFilter.add · entry.key)) :
    builder'.Holds (added ++ [entry]) := by
  have hne : added ≠ [] := by
    rw [← hholds.records]
    exact List.append_ne_nil_of_right_ne_nil _ hfull
  have hprec : ∀ other ∈ added, other.key ≤ entry.key := fun other hother =>
    ((List.pairwise_append.mp hsorted).2.2 other hother entry List.mem_cons_self).key_le
  have hlater : ∀ other ∈ added, other.key < entry.key := by
    intro other hother
    obtain ⟨last, hmem, hlastKey⟩ := finalKey_mem hne
    rw [hholds.lastKey_eq] at hkey
    refine lt_of_le_of_ne (hprec other hother) ?_
    intro heq
    have hge : entry.key ≤ finalKey added := by
      rw [← heq]
      exact le_finalKey hholds.sorted hother
    exact hkey (le_antisymm hge (hlastKey ▸ hprec last hmem))
  have huser : entry.key ≠ [] := by
    obtain ⟨other, hother⟩ := List.exists_mem_of_ne_nil _ hne
    intro hempty
    have hlt := hlater other hother
    rw [hempty] at hlt
    exact List.not_lt_nil _ hlt
  obtain ⟨hblocksNonempty, hdescribed, hrecords, hblocksSeparated⟩ :=
    hholds.finished hfull [entry] hblocks
      (by rw [firstUserKey_append, hholds.firstKey_eq, firstUserKey_singleton])
  exact
    { records := by rw [hrecords, hentries]
      blocks_nonempty := hblocksNonempty
      described := by
        rw [hentries]
        exact hdescribed
      userKey := by
        intro _
        rw [hentries, firstUserKey_singleton]
        exact huser
      pending := by
        intro _
        rw [hentries]
        exact List.cons_ne_nil _ _
      separated := by
        refine List.pairwise_append.mpr
          ⟨hblocksSeparated, List.pairwise_singleton _ _, ?_⟩
        rw [hentries]
        intro block hblock last hlast first hfirst second hsecond
        obtain rfl := List.mem_singleton.mp hlast
        obtain rfl := List.mem_singleton.mp hsecond
        obtain ⟨source, hsource, rfl⟩ := List.mem_map.mp hblock
        apply hlater
        rw [← hrecords]
        exact List.mem_flatMap.mpr ⟨source, hsource, hfirst⟩
      sorted := hsorted
      firstKey_eq := by rw [hfirst, hentries, firstUserKey_singleton]
      lastKey_eq := by rw [hlast, finalKey_append]
      bloom := by
        rw [hbloom]
        exact bloom_add entry hholds.bloom }

/-- One record more. -/
theorem Holds.add {builder builder' : SSTBuilder} {added : List Entry} {entry : Entry}
    (hholds : builder.Holds added) (hsorted : Versions.Sorted (added ++ [entry]))
    (hadd : builder.add entry.key entry.value entry.txid = .ok builder') :
    builder'.Holds (added ++ [entry]) := by
  unfold SSTBuilder.add at hadd
  dsimp only at hadd
  split at hadd
  next err _ => cases hadd
  next block hblock =>
      obtain rfl := Except.ok.inj hadd
      refine hholds.append hsorted ?_ rfl rfl rfl rfl
      rcases Block.addEntry_eq_ok hblock with ⟨h, -⟩ | ⟨h, -⟩
      · cases h
      · rw [Option.some.inj h]
  next hblock =>
      obtain ⟨hforce, hfull⟩ : decide (entry.key = builder.lastKey) = false ∧
          builder.block.entries ≠ [] := by
        rcases Block.addEntry_eq_ok hblock with ⟨-, hforce, hfull⟩ | ⟨h, -⟩
        · exact ⟨hforce, hfull⟩
        · cases h
      split at hadd
      next err _ => cases hadd
      next finished hfinish =>
          obtain ⟨dataLength, rfl⟩ := finishBlock_eq_ok hfinish
          dsimp only at hadd
          split at hadd
          next err _ => cases hadd
          next opened hopened =>
              obtain rfl := Except.ok.inj hadd
              refine hholds.open hsorted (by simpa using hforce) hfull ?_ rfl rfl rfl rfl
              rcases Block.addEntry_eq_ok hopened with ⟨-, -, h⟩ | ⟨h, -⟩
              · exact absurd rfl h
              · rw [h]
                rfl

/-- A whole run of records. -/
theorem Holds.addAll {builder builder' : SSTBuilder} {added entries : List Entry}
    (hholds : builder.Holds added) (hsorted : Versions.Sorted (added ++ entries))
    (hadd : builder.addAll entries = .ok builder') :
    builder'.Holds (added ++ entries) := by
  induction entries generalizing builder added with
  | nil =>
      obtain rfl := Except.ok.inj hadd
      rwa [List.append_nil]
  | cons entry rest ih =>
      rw [SSTBuilder.addAll, List.foldlM_cons] at hadd
      cases hstep : builder.add entry.key entry.value entry.txid with
      | error err =>
          rw [hstep] at hadd
          cases hadd
      | ok next =>
          rw [hstep] at hadd
          have hprefix : Versions.Sorted (added ++ [entry]) := by
            refine hsorted.sublist ?_
            exact (List.cons_sublist_cons.mpr (List.nil_sublist _)).append_left _
          have hnext := ih (hholds.add hprefix hstep)
            (by rwa [List.append_assoc, List.singleton_append]) hadd
          rwa [List.append_assoc, List.singleton_append] at hnext

/-- The built file holds exactly the added records and is well formed. -/
theorem Holds.build {builder : SSTBuilder} {added : List Entry} {sstId : ℕ} {sst : SST}
    (hholds : builder.Holds added) (hbuild : builder.build sstId = .ok sst) :
    sst.WellFormed ∧ sst.records = added ∧ sst.sstId = sstId := by
  unfold SSTBuilder.build at hbuild
  split at hbuild
  next err _ => cases hbuild
  next finished hfinished =>
      split at hbuild
      next front back hfront hback =>
          split_ifs at hbuild
          obtain rfl := Except.ok.inj hbuild
          have hfull : builder.block.entries ≠ [] := by
            intro hempty
            have hblocks : builder.blocks = [] := by
              by_contra hne
              have hkey := hholds.userKey hne
              rw [hempty] at hkey
              exact hkey rfl
            rw [if_pos (by rw [Block.isEmpty, hempty]; rfl)] at hfinished
            obtain rfl := Except.ok.inj hfinished
            rw [hblocks] at hfront
            cases hfront
          rw [if_neg (by rw [Block.isEmpty, List.isEmpty_iff]; exact hfull)] at hfinished
          obtain ⟨dataLength, rfl⟩ := finishBlock_eq_ok hfinished
          have hfirst : builder.firstKey =
              firstUserKey (builder.block.entries ++ []) := by
            rw [List.append_nil, hholds.firstKey_eq]
          obtain ⟨hblocksNonempty, hdescribed, hrecords, hseparated⟩ :=
            hholds.finished hfull [] rfl hfirst
          refine ⟨?_, hrecords, rfl⟩
          exact
            { nonempty := List.append_ne_nil_of_right_ne_nil _ (List.cons_ne_nil _ _)
              blocks_nonempty := hblocksNonempty
              described := hdescribed
              sorted := by
                change Versions.Sorted (List.flatMap _ _)
                rw [hrecords]
                exact hholds.sorted
              separated := hseparated
              firstKey_eq := hdescribed.head hfront
              lastKey_eq := by
                change back.1.lastKey = finalKey (List.flatMap _ _)
                rw [List.getLast?_append, List.getLast?_singleton] at hback
                rw [hrecords, ← hholds.lastKey_eq, ← Option.some.inj hback]
              bloom := by
                intro entry hmem
                have hadded : entry ∈ added := by
                  rw [← hrecords]
                  exact hmem
                unfold SST.bloomExcludes
                dsimp only
                split
                · rfl
                next filter hfilter =>
                    simpa using hholds.bloom filter hfilter entry hadded }
      next => cases hbuild

end SSTBuilder

end KopiDb
