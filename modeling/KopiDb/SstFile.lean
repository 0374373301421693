import KopiDb.EngineContract
import KopiDb.BloomCodec

/-!
# Table files

A table file is its blocks, the meta section, the filter section and a footer.  A footer of
24 bytes stands for inline values; WiscKey files have two bytes more, the storage mode and a
magic number.  Opening a file tells the two apart by looking at the last bytes.
-/

namespace KopiDb

/-- The fields of an `SST` object but for its number, its file and the shared cache. -/
structure SstHandle where
  metaEntries : List (ℕ × BlockMeta)
  bloomOffset : ℕ
  metaBlockOffset : ℕ
  firstKey : Bytes
  lastKey : Bytes
  bloomFilter : Option BloomFilter
  minTrancId : ℕ
  maxTrancId : ℕ
  storageMode : ℕ

/-! ## Building -/

namespace SST

/-- The meta entries with the offsets of their blocks. -/
def locate : ℕ → List (BlockMeta × Block) → List (ℕ × BlockMeta)
  | _, [] => []
  | offset, block :: rest =>
      (offset, block.1) :: locate (offset + block.2.raw.encoded.length) rest

/-- The block section. -/
def data (sst : SST) : Bytes := sst.blocks.flatMap fun block => block.2.raw.encoded

def metaSection (config : Config) (sst : SST) : Bytes :=
  BlockMeta.encodeMetaToSlice config.stdHash (locate 0 sst.blocks)

def bloomSection (params : BloomParams) (sst : SST) : Bytes :=
  match sst.bloomFilter with
  | none => []
  | some filter => filter.encode params

/-- A cast to `uint32_t`. -/
def toUint32 (size : ℕ) : ℕ := size % 256 ^ 4

/-- The object that `SSTBuilder::build` returns for a table with inline values. -/
def handle (config : Config) (sst : SST) : SstHandle where
  metaEntries := locate 0 sst.blocks
  bloomOffset := toUint32 (sst.data ++ sst.metaSection config).length
  metaBlockOffset := toUint32 sst.data.length
  firstKey := sst.firstKey
  lastKey := sst.lastKey
  bloomFilter := sst.bloomFilter
  minTrancId := sst.minTrancId
  maxTrancId := sst.maxTrancId
  storageMode := 0

def footer (handle : SstHandle) : Bytes :=
  toLe 4 handle.metaBlockOffset ++ (toLe 4 handle.bloomOffset ++
    (toLe 8 handle.minTrancId ++ toLe 8 handle.maxTrancId))

/-- The file that `SSTBuilder::build` writes. -/
def fileBytes (config : Config) (params : BloomParams) (sst : SST) : Bytes :=
  sst.data ++ (sst.metaSection config ++ (sst.bloomSection params ++ footer (sst.handle config)))

end SST

/-! ## Opening -/

namespace SstHandle

/-- `read_to_slice` -/
def readToSlice (file : Bytes) (offset length : ℕ) : Except Err Bytes :=
  if offset + length > file.length then .error (.outOfRange "Read beyond file size")
  else .ok ((file.drop offset).take length)

/-- `read_uint8` and its wider kin, inside the file. -/
def readUintAt (file : Bytes) (width offset : ℕ) : ℕ := ofLe ((file.drop offset).take width)

/-- The test for the WiscKey footer: the magic number, and an offset that lies before the
footer. -/
def looksWiscKey (file : Bytes) : Bool :=
  decide (26 ≤ file.length ∧ readUintAt file 1 (file.length - 1) = 0x4B ∧
    readUintAt file 4 (file.length - 26) < file.length - 26)

/-- The filter section, which is empty in a file without a filter. -/
def readFilter (config : Config) (file : Bytes) (bloomOffset footerBase : ℕ) :
    Except Err (Option BloomFilter) :=
  if bloomOffset < footerBase then do
    let bloomBytes ← readToSlice file bloomOffset (footerBase - bloomOffset)
    let filter ← BloomFilter.decode config.stdHash bloomBytes
    return some filter
  else return none

/-- `SST::open` -/
def openFile (config : Config) (file : Bytes) : Except Err SstHandle := do
  if file.length < 24 then
    throw (.runtimeError "SST::open: Invalid SST file, too small")
  let footerSize := if looksWiscKey file then 26 else 24
  let storageMode := if looksWiscKey file then readUintAt file 1 (file.length - 2) else 0
  let footerBase := file.length - footerSize
  let metaBlockOffset := readUintAt file 4 footerBase
  let bloomOffset := readUintAt file 4 (footerBase + 4)
  let minTrancId := readUintAt file 8 (footerBase + 8)
  let maxTrancId := readUintAt file 8 (footerBase + 16)
  let metaBytes ← readToSlice file metaBlockOffset
    ((bloomOffset + 256 ^ 4 - metaBlockOffset) % 256 ^ 4)
  let metaEntries ← BlockMeta.decodeMetaFromSlice config.stdHash metaBytes
  let bloomFilter ← readFilter config file bloomOffset footerBase
  return {
    metaEntries := metaEntries
    bloomOffset := bloomOffset
    metaBlockOffset := metaBlockOffset
    firstKey := (metaEntries.head?.map fun located => located.2.firstKey).getD []
    lastKey := (metaEntries.getLast?.map fun located => located.2.lastKey).getD []
    bloomFilter := bloomFilter
    minTrancId := minTrancId
    maxTrancId := maxTrancId
    storageMode := storageMode }

/-- `read_block` past the cache. -/
def readBlock (handle : SstHandle) (file : Bytes) (idx : ℕ) : Except Err RawBlock :=
  match handle.metaEntries[idx]? with
  | none => .error (.runtimeError "SST::read_block: block_idx out of range")
  | some located =>
      let blockEnd := ((handle.metaEntries[idx + 1]?).map Prod.fst).getD handle.metaBlockOffset
      if blockEnd < located.1 then .error .sizeWraps
      else do
        let blockData ← readToSlice file located.1 (blockEnd - located.1)
        RawBlock.decode blockData

/-- All records of a file, block after block. -/
def readAll (handle : SstHandle) (file : Bytes) : Except Err (List Entry) := do
  let blocks ← (List.range handle.metaEntries.length).mapM fun idx => do
    let block ← handle.readBlock file idx
    block.readEntries
  return blocks.flatten

end SstHandle

theorem mapM_eq_map {α β : Type} {f : α → Except Err β} {g : α → β} {list : List α}
    (hlist : ∀ item ∈ list, f item = .ok (g item)) : list.mapM f = .ok (list.map g) := by
  induction list with
  | nil => rfl
  | cons item rest ih =>
      obtain ⟨hitem, hrest⟩ := List.forall_mem_cons.mp hlist
      rw [List.mapM_cons, hitem, ih hrest]
      rfl

/-! ## What the builder keeps within its fields -/

/-- `max_tranc_id_` after the records were added. -/
def largestId (entries : List Entry) : ℕ :=
  entries.foldl (fun largest entry => max largest entry.txid) 0

theorem largestId_append (entries : List Entry) (entry : Entry) :
    largestId (entries ++ [entry]) = max (largestId entries) entry.txid := by
  rw [largestId, List.foldl_append]
  rfl

/-- The sizes that the filter constructor computes: they are of type `size_t`, and the
number of hashes is rounded up from a positive number. -/
structure BloomSized (config : Config) : Prop where
  numBits : config.bloomNumBits < 256 ^ 8
  numHashes : config.bloomNumHashes < 256 ^ 8
  numHashes_pos : 0 < config.bloomNumHashes

/-- A filter of the configured sizes. -/
def BloomFilter.Fits (config : Config) (filter : BloomFilter) : Prop :=
  filter.numBits = config.bloomNumBits ∧ filter.numHashes = config.bloomNumHashes ∧
    filter.stdHash = config.stdHash

/-- A block with the keys of its meta entry. -/
def BlockFits (block : BlockMeta × Block) : Prop :=
  block.2.Encodable ∧ block.1.firstKey.length ≤ uint16Max ∧ block.1.lastKey.length ≤ uint16Max

namespace SSTBuilder

/-- The constructor for inline values, with or without a filter. -/
def construct (config : Config) (hasBloom : Bool) : SSTBuilder :=
  if hasBloom then new config else { new config with bloomFilter := none }

/-- A builder to which records were added, all of them within their fields. -/
structure Storable (config : Config) (builder : SSTBuilder) (added : List Entry) : Prop where
  block : builder.block.Encodable
  blocks : ∀ block ∈ builder.blocks, BlockFits block
  firstKey : builder.firstKey.length ≤ uint16Max
  lastKey : builder.lastKey.length ≤ uint16Max
  minTrancId : builder.minTrancId < 256 ^ 8
  maxTrancId_lt : builder.maxTrancId < 256 ^ 8
  maxTrancId : builder.maxTrancId = largestId added
  bloom : ∀ filter, builder.bloomFilter = some filter → filter.Fits config

theorem storable_construct (config : Config) (hasBloom : Bool) :
    (construct config hasBloom).Storable config [] := by
  have hnew : (new config).Storable config [] :=
    { block := Block.encodable_new _
      blocks := List.forall_mem_nil _
      firstKey := Nat.zero_le _
      lastKey := Nat.zero_le _
      minTrancId := Nat.sub_lt (Nat.two_pow_pos 64) Nat.one_pos
      maxTrancId_lt := Nat.pow_pos (by decide)
      maxTrancId := rfl
      bloom := by
        rintro filter hfilter
        obtain rfl := Option.some.inj hfilter
        exact ⟨rfl, rfl, rfl⟩ }
  cases hasBloom with
  | true => exact hnew
  | false =>
      exact { hnew with bloom := fun _ hfilter => by cases hfilter }

theorem holds_construct (config : Config) (hasBloom : Bool) :
    (construct config hasBloom).Holds [] := by
  have hnew := holds_new config
  cases hasBloom with
  | true => exact hnew
  | false =>
      exact { hnew with bloom := fun _ hfilter => by cases hfilter }

/-- The filter keeps its sizes when a key is added. -/
private theorem fits_add {config : Config} {builder : SSTBuilder} (key : Bytes)
    (hbloom : ∀ filter, builder.bloomFilter = some filter → filter.Fits config) :
    ∀ filter, builder.bloomFilter.map (BloomFilter.add · key) = some filter →
      filter.Fits config := by
  intro filter hfilter
  obtain ⟨before, hbefore, rfl⟩ := Option.map_eq_some_iff.mp hfilter
  obtain ⟨hbits, hhashes, hhash⟩ := hbloom before hbefore
  obtain ⟨hbits', hhashes', hhash'⟩ := BloomFilter.add_sizes before key
  exact ⟨hbits'.trans hbits, hhashes'.trans hhashes, hhash'.trans hhash⟩

/-- One record more. -/
theorem Storable.add {config : Config} {builder builder' : SSTBuilder} {added : List Entry}
    {entry : Entry} (hstorable : builder.Storable config added) (htxid : entry.txid < 256 ^ 8)
    (hadd : builder.add entry.key entry.value entry.txid = .ok builder') :
    builder'.Storable config (added ++ [entry]) := by
  have hmin : min builder.minTrancId entry.txid < 256 ^ 8 :=
    (min_le_left _ _).trans_lt hstorable.minTrancId
  have hmaxLt : max builder.maxTrancId entry.txid < 256 ^ 8 := max_lt hstorable.maxTrancId_lt htxid
  have hmax : max builder.maxTrancId entry.txid = largestId (added ++ [entry]) := by
    rw [largestId_append, hstorable.maxTrancId]
  have hbloom := fits_add entry.key hstorable.bloom
  have hfirst : entry.key.length ≤ uint16Max →
      (if builder.firstKey = [] then entry.key else builder.firstKey).length ≤ uint16Max := by
    intro hkey
    split_ifs
    · exact hkey
    · exact hstorable.firstKey
  unfold SSTBuilder.add at hadd
  dsimp only at hadd
  split at hadd
  next err _ => cases hadd
  next block hblock =>
      obtain rfl := Except.ok.inj hadd
      have hkey := (Block.addEntry_lengths hblock).1
      exact
        { block := hstorable.block.add htxid hblock
          blocks := hstorable.blocks
          firstKey := hfirst hkey
          lastKey := hkey
          minTrancId := hmin
          maxTrancId_lt := hmaxLt
          maxTrancId := hmax
          bloom := hbloom }
  next hfull =>
      have hkey := (Block.addEntry_lengths hfull).1
      split at hadd
      next err _ => cases hadd
      next finished hfinish =>
          obtain ⟨dataLength, rfl⟩ := finishBlock_eq_ok hfinish
          dsimp only at hadd
          split at hadd
          next err _ => cases hadd
          next opened hopened =>
              obtain rfl := Except.ok.inj hadd
              refine
                { block := ?_
                  blocks := ?_
                  firstKey := hkey
                  lastKey := hkey
                  minTrancId := hmin
                  maxTrancId_lt := hmaxLt
                  maxTrancId := hmax
                  bloom := hbloom }
              · cases opened with
                | none => exact Block.encodable_new _
                | some block => exact (Block.encodable_new _).add htxid hopened
              · exact List.forall_mem_append.mpr ⟨hstorable.blocks,
                  List.forall_mem_singleton.mpr
                    ⟨hstorable.block, hfirst hkey, hstorable.lastKey⟩⟩

/-- A whole run of records. -/
theorem Storable.addAll {config : Config} {builder builder' : SSTBuilder}
    {added entries : List Entry} (hstorable : builder.Storable config added)
    (htxid : ∀ entry ∈ entries, entry.txid < 256 ^ 8)
    (hadd : builder.addAll entries = .ok builder') :
    builder'.Storable config (added ++ entries) := by
  induction entries generalizing builder added with
  | nil =>
      obtain rfl := Except.ok.inj hadd
      rwa [List.append_nil]
  | cons entry rest ih =>
      obtain ⟨hfirst, hrest⟩ := List.forall_mem_cons.mp htxid
      rw [SSTBuilder.addAll, List.foldlM_cons] at hadd
      cases hstep : builder.add entry.key entry.value entry.txid with
      | error err =>
          rw [hstep] at hadd
          cases hadd
      | ok next =>
          rw [hstep] at hadd
          have hnext := ih (hstorable.add hfirst hstep) hrest hadd
          rwa [List.append_assoc, List.singleton_append] at hnext

end SSTBuilder

/-- A table whose parts are within their fields. -/
structure SST.Storable (config : Config) (sst : SST) (added : List Entry) : Prop where
  blocks : ∀ block ∈ sst.blocks, BlockFits block
  firstKey : sst.firstKey = (sst.blocks.head?.map fun block => block.1.firstKey).getD []
  lastKey : sst.lastKey = (sst.blocks.getLast?.map fun block => block.1.lastKey).getD []
  minTrancId : sst.minTrancId < 256 ^ 8
  maxTrancId_lt : sst.maxTrancId < 256 ^ 8
  maxTrancId : sst.maxTrancId = largestId added
  bloom : ∀ filter, sst.bloomFilter = some filter → filter.Fits config

theorem SSTBuilder.Storable.build {config : Config} {builder : SSTBuilder} {added : List Entry}
    {sstId : ℕ} {sst : SST} (hstorable : builder.Storable config added)
    (hbuild : builder.build sstId = .ok sst) : sst.Storable config added := by
  unfold SSTBuilder.build at hbuild
  split at hbuild
  next err _ => cases hbuild
  next finished hfinished =>
      split at hbuild
      next front back hfront hback =>
          split_ifs at hbuild
          obtain rfl := Except.ok.inj hbuild
          have hends : front.1.firstKey =
                (finished.blocks.head?.map fun block => block.1.firstKey).getD [] ∧
              back.1.lastKey =
                (finished.blocks.getLast?.map fun block => block.1.lastKey).getD [] := by
            rw [hfront, hback]
            exact ⟨rfl, rfl⟩
          split_ifs at hfinished
          · obtain rfl := Except.ok.inj hfinished
            exact ⟨hstorable.blocks, hends.1, hends.2, hstorable.minTrancId,
              hstorable.maxTrancId_lt, hstorable.maxTrancId, hstorable.bloom⟩
          · obtain ⟨dataLength, rfl⟩ := SSTBuilder.finishBlock_eq_ok hfinished
            refine ⟨?_, hends.1, hends.2, hstorable.minTrancId, hstorable.maxTrancId_lt,
              hstorable.maxTrancId, hstorable.bloom⟩
            exact List.forall_mem_append.mpr ⟨hstorable.blocks,
              List.forall_mem_singleton.mpr
                ⟨hstorable.block, hstorable.firstKey, hstorable.lastKey⟩⟩
      next => cases hbuild

/-! ## Where the fields of a file are -/

namespace SST

/-- What is in front of the footer. -/
def front (config : Config) (params : BloomParams) (sst : SST) : Bytes :=
  sst.data ++ (sst.metaSection config ++ sst.bloomSection params)

variable {config : Config} {params : BloomParams} {sst : SST}

theorem fileBytes_eq :
    sst.fileBytes config params = sst.front config params ++ footer (sst.handle config) := by
  rw [fileBytes, front, List.append_assoc, List.append_assoc]

theorem length_footer (handle : SstHandle) : (footer handle).length = 24 := by
  simp only [footer, List.length_append, length_toLe]

theorem length_fileBytes :
    (sst.fileBytes config params).length = (sst.front config params).length + 24 := by
  rw [fileBytes_eq, List.length_append, length_footer]

/-- A field is read where its bytes are. -/
theorem readUintAt_eq {file bytes rest : Bytes} {width offset : ℕ}
    (hfile : file.drop offset = bytes ++ rest) (hlength : bytes.length = width) :
    SstHandle.readUintAt file width offset = ofLe bytes := by
  rw [SstHandle.readUintAt, hfile, List.take_left' hlength]

theorem length_metaSection :
    8 ≤ (sst.metaSection config).length := by
  rw [metaSection, BlockMeta.length_encodeMetaToSlice]
  exact Nat.le_add_left _ _

/-- What is behind each field of the footer. -/
private theorem drop_footer :
    let file := sst.fileBytes config params
    let size := (sst.front config params).length
    let handle := sst.handle config
    file.drop size = toLe 4 handle.metaBlockOffset ++ (toLe 4 handle.bloomOffset ++
        (toLe 8 handle.minTrancId ++ toLe 8 handle.maxTrancId)) ∧
      file.drop (size + 4) = toLe 4 handle.bloomOffset ++
        (toLe 8 handle.minTrancId ++ toLe 8 handle.maxTrancId) ∧
      file.drop (size + 8) = toLe 8 handle.minTrancId ++ toLe 8 handle.maxTrancId ∧
      file.drop (size + 16) = toLe 8 handle.maxTrancId := by
  dsimp only
  have hmeta : (sst.fileBytes config params).drop (sst.front config params).length =
      footer (sst.handle config) := by
    rw [fileBytes_eq, List.drop_left]
  have hbloom : (sst.fileBytes config params).drop ((sst.front config params).length + 4) =
      toLe 4 (sst.handle config).bloomOffset ++
        (toLe 8 (sst.handle config).minTrancId ++ toLe 8 (sst.handle config).maxTrancId) := by
    rw [← List.drop_drop, hmeta, footer, List.drop_left' (length_toLe _ _)]
  have hmin : (sst.fileBytes config params).drop ((sst.front config params).length + 8) =
      toLe 8 (sst.handle config).minTrancId ++ toLe 8 (sst.handle config).maxTrancId := by
    rw [← List.drop_drop (i := 4) (j := (sst.front config params).length + 4), hbloom,
      List.drop_left' (length_toLe _ _)]
  have hmax : (sst.fileBytes config params).drop ((sst.front config params).length + 16) =
      toLe 8 (sst.handle config).maxTrancId := by
    rw [← List.drop_drop (i := 8) (j := (sst.front config params).length + 8), hmin,
      List.drop_left' (length_toLe _ _)]
  exact ⟨hmeta, hbloom, hmin, hmax⟩

/-! ## Ordinary files -/

theorem readToSlice_append (before bytes rest : Bytes) :
    SstHandle.readToSlice (before ++ (bytes ++ rest)) before.length bytes.length = .ok bytes := by
  rw [SstHandle.readToSlice, if_neg, List.drop_left, List.take_left]
  rw [List.length_append, List.length_append, ← Nat.add_assoc]
  exact not_lt.mpr (Nat.le_add_right _ _)

/-- The offsets of a file within 32 bits. -/
theorem handle_offsets (hoffsets : (sst.data ++ sst.metaSection config).length < 2 ^ 32) :
    (sst.handle config).metaBlockOffset = sst.data.length ∧
      (sst.handle config).bloomOffset = sst.data.length + (sst.metaSection config).length := by
  rw [List.length_append] at hoffsets
  constructor
  · exact Nat.mod_eq_of_lt ((Nat.le_add_right _ _).trans_lt hoffsets)
  · change (sst.data ++ sst.metaSection config).length % 256 ^ 4 = _
    rw [List.length_append]
    exact Nat.mod_eq_of_lt hoffsets

theorem locate_mem {offset : ℕ} {blocks : List (BlockMeta × Block)} {located : ℕ × BlockMeta}
    (hmem : located ∈ locate offset blocks) :
    located.1 ≤ offset + (blocks.flatMap fun block => block.2.raw.encoded).length ∧
      ∃ block ∈ blocks, block.1 = located.2 := by
  induction blocks generalizing offset with
  | nil => cases hmem
  | cons block rest ih =>
      rw [List.flatMap_cons, List.length_append, ← Nat.add_assoc]
      rcases List.mem_cons.mp hmem with rfl | hmem
      · exact ⟨by omega, block, List.mem_cons_self, rfl⟩
      · obtain ⟨hoffset, found, hfound, hmeta⟩ := ih hmem
        exact ⟨hoffset, found, List.mem_cons_of_mem _ hfound, hmeta⟩

theorem length_locate (offset : ℕ) (blocks : List (BlockMeta × Block)) :
    (locate offset blocks).length = blocks.length := by
  induction blocks generalizing offset with
  | nil => rfl
  | cons block rest ih => rw [locate, List.length_cons, ih, List.length_cons]

/-- Every block has some bytes. -/
theorem length_blocks_le (blocks : List (BlockMeta × Block)) :
    blocks.length ≤ (blocks.flatMap fun block => block.2.raw.encoded).length := by
  induction blocks with
  | nil => exact Nat.zero_le _
  | cons block rest ih =>
      have hblock := Block.length_encoded block.2.raw
      rw [List.length_cons, List.flatMap_cons, List.length_append]
      omega

theorem Storable.metaEncodable {added : List Entry} (hstorable : sst.Storable config added)
    (hoffsets : (sst.data ++ sst.metaSection config).length < 2 ^ 32) :
    BlockMeta.Encodable (locate 0 sst.blocks) := by
  have hdata : sst.data.length < 2 ^ 32 := by
    rw [List.length_append] at hoffsets
    exact (Nat.le_add_right _ _).trans_lt hoffsets
  constructor
  · intro located hmem
    have hle := (locate_mem hmem).1
    rw [Nat.zero_add] at hle
    exact hle.trans_lt hdata
  · intro located hmem
    obtain ⟨block, hblock, hmeta⟩ := (locate_mem hmem).2
    rw [← hmeta]
    exact (hstorable.blocks block hblock).2
  · rw [length_locate]
    exact (length_blocks_le sst.blocks).trans_lt hdata

theorem map_locate (offset : ℕ) (blocks : List (BlockMeta × Block)) :
    (locate offset blocks).map Prod.snd = blocks.map Prod.fst := by
  induction blocks generalizing offset with
  | nil => rfl
  | cons block rest ih => rw [locate, List.map_cons, ih, List.map_cons]

/-- The filter section is read back. -/
private theorem readFilter_eq {added : List Entry} (hstorable : sst.Storable config added)
    (hsizes : BloomSized config) (before rest : Bytes) :
    SstHandle.readFilter config (before ++ (sst.bloomSection params ++ rest)) before.length
      (before.length + (sst.bloomSection params).length) = .ok sst.bloomFilter := by
  unfold SstHandle.readFilter
  cases hbloom : sst.bloomFilter with
  | none =>
      have hsection : sst.bloomSection params = [] := by rw [bloomSection, hbloom]
      rw [hsection, List.length_nil, Nat.add_zero, if_neg (lt_irrefl _)]
      rfl
  | some filter =>
      have hsection : sst.bloomSection params = filter.encode params := by
        rw [bloomSection, hbloom]
      obtain ⟨hbits, hhashes, hhash⟩ := hstorable.bloom filter hbloom
      have hpos : 0 < (filter.encode params).length := by
        rw [BloomFilter.encode, List.length_append, length_toLe]
        omega
      rw [hsection, if_pos (Nat.lt_add_of_pos_right hpos), Nat.add_sub_cancel_left,
        readToSlice_append]
      simp only [bind, Except.bind]
      rw [← hhash, BloomFilter.decode_eq_of_encode (hbits ▸ hsizes.numBits)
        (hhashes ▸ hsizes.numHashes) (hhashes ▸ hsizes.numHashes_pos)]
      rfl

/-- The ends of the meta entries are those of the table. -/
private theorem Storable.ends {added : List Entry} (hstorable : sst.Storable config added) :
    ((locate 0 sst.blocks).head?.map fun located => located.2.firstKey).getD [] = sst.firstKey ∧
      ((locate 0 sst.blocks).getLast?.map fun located => located.2.lastKey).getD [] =
        sst.lastKey := by
  have hhead := congrArg List.head? (map_locate 0 sst.blocks)
  have hlast := congrArg List.getLast? (map_locate 0 sst.blocks)
  rw [List.head?_map, List.head?_map] at hhead
  rw [List.getLast?_map, List.getLast?_map] at hlast
  rw [hstorable.firstKey, hstorable.lastKey]
  constructor
  · have hfirst := congrArg (Option.map BlockMeta.firstKey) hhead
    rw [Option.map_map, Option.map_map] at hfirst
    exact congrArg (Option.getD · []) hfirst
  · have hfinal := congrArg (Option.map BlockMeta.lastKey) hlast
    rw [Option.map_map, Option.map_map] at hfinal
    exact congrArg (Option.getD · []) hfinal

/-- A file that does not look like one of WiscKey is opened as it was built. -/
theorem openFile_ordinary {added : List Entry} (hstorable : sst.Storable config added)
    (hsizes : BloomSized config)
    (hoffsets : (sst.data ++ sst.metaSection config).length < 2 ^ 32)
    (hordinary : SstHandle.looksWiscKey (sst.fileBytes config params) = false) :
    SstHandle.openFile config (sst.fileBytes config params) = .ok (sst.handle config) := by
  obtain ⟨hmeta, hbloom⟩ := handle_offsets hoffsets
  have hsize := @length_fileBytes config params sst
  obtain ⟨hfooter, hbehindMeta, hbehindBloom, hbehindMin⟩ :=
    @drop_footer config params sst
  have hmetaRead : (sst.handle config).metaBlockOffset < 256 ^ 4 := Nat.mod_lt _ (by decide)
  have hbloomRead : (sst.handle config).bloomOffset < 256 ^ 4 := Nat.mod_lt _ (by decide)
  have hminRead : ofLe (toLe 8 (sst.handle config).minTrancId) = sst.minTrancId :=
    ofLe_toLe hstorable.minTrancId
  have hmaxRead : ofLe (toLe 8 (sst.handle config).maxTrancId) = sst.maxTrancId :=
    ofLe_toLe hstorable.maxTrancId_lt
  have hdistance : ((sst.handle config).bloomOffset + 256 ^ 4 -
      (sst.handle config).metaBlockOffset) % 256 ^ 4 = (sst.metaSection config).length := by
    rw [List.length_append] at hoffsets
    rw [hmeta, hbloom]
    omega
  have hmetaBytes : SstHandle.readToSlice (sst.fileBytes config params) sst.data.length
      (sst.metaSection config).length = .ok (sst.metaSection config) := readToSlice_append _ _ _
  have hfilter : SstHandle.readFilter config (sst.fileBytes config params)
      (sst.handle config).bloomOffset (sst.front config params).length =
        .ok sst.bloomFilter := by
    have hread := @readFilter_eq config params sst _ hstorable hsizes
      (sst.data ++ sst.metaSection config) (footer (sst.handle config))
    rw [hbloom, front, fileBytes, List.length_append, List.length_append, ← Nat.add_assoc,
      ← List.length_append, ← List.append_assoc]
    exact hread
  unfold SstHandle.openFile
  dsimp only
  rw [hordinary, if_neg (by omega)]
  simp only [Bool.false_eq_true, if_false, hsize, Nat.add_sub_cancel]
  rw [readUintAt_eq hfooter (length_toLe _ _), readUintAt_eq hbehindMeta (length_toLe _ _),
    readUintAt_eq hbehindBloom (length_toLe _ _),
    readUintAt_eq (hbehindMin.trans (List.append_nil _).symm) (length_toLe _ _),
    ofLe_toLe hmetaRead, ofLe_toLe hbloomRead, hminRead, hmaxRead, hdistance,
    hfilter, hmeta, hmetaBytes]
  simp only [bind, Except.bind]
  rw [metaSection, BlockMeta.decodeMeta_encodeMeta (hstorable.metaEncodable hoffsets)]
  dsimp only
  rw [hstorable.ends.1, hstorable.ends.2, ← hmeta]
  rfl

/-! ## Files that are taken for WiscKey -/

/-- The numbers of the table make its last bytes look like a WiscKey footer: the largest
number ends in the magic byte, and the two bytes before the footer with the low half of the
meta offset stand for a place before the footer. -/
def Ambiguous (config : Config) (params : BloomParams) (sst : SST) (added : List Entry) : Prop :=
  largestId added / 256 ^ 7 = 0x4B ∧
    ofLe ((sst.front config params).drop ((sst.front config params).length - 2)) +
      256 ^ 2 * (sst.data.length % 256 ^ 2) < (sst.front config params).length - 2

theorem eight_le_length_front : 8 ≤ (sst.front config params).length := by
  have hmeta := @length_metaSection config sst
  rw [front, List.length_append, List.length_append]
  omega

/-- What a WiscKey footer would have for its two offsets. -/
private theorem shifted_offsets :
    SstHandle.readUintAt (sst.fileBytes config params) 4
        ((sst.front config params).length - 2) =
      ofLe ((sst.front config params).drop ((sst.front config params).length - 2)) +
        256 ^ 2 * ((sst.handle config).metaBlockOffset % 256 ^ 2) ∧
    SstHandle.readUintAt (sst.fileBytes config params) 4
        ((sst.front config params).length + 2) =
      (sst.handle config).metaBlockOffset / 256 ^ 2 % 256 ^ 2 +
        256 ^ 2 * ((sst.handle config).bloomOffset % 256 ^ 2) := by
  have hfront := @eight_le_length_front config params sst
  have hbytes : ((sst.front config params).drop
      ((sst.front config params).length - 2)).length = 2 := by
    rw [List.length_drop]
    omega
  have hmeta := toLe_add 2 2 (sst.handle config).metaBlockOffset
  have hbloom := toLe_add 2 2 (sst.handle config).bloomOffset
  obtain ⟨hfooter, -, -, -⟩ := @drop_footer config params sst
  have hbehind : (sst.fileBytes config params).drop ((sst.front config params).length + 2) =
      (toLe 2 ((sst.handle config).metaBlockOffset / 256 ^ 2) ++
        toLe 2 (sst.handle config).bloomOffset) ++
      (toLe 2 ((sst.handle config).bloomOffset / 256 ^ 2) ++
        (toLe 8 (sst.handle config).minTrancId ++ toLe 8 (sst.handle config).maxTrancId)) := by
    rw [← List.drop_drop, hfooter, hmeta, hbloom]
    simp only [List.append_assoc]
    exact List.drop_left' (length_toLe _ _)
  have hbefore : (sst.fileBytes config params).drop ((sst.front config params).length - 2) =
      ((sst.front config params).drop ((sst.front config params).length - 2) ++
        toLe 2 (sst.handle config).metaBlockOffset) ++
      (toLe 2 ((sst.handle config).metaBlockOffset / 256 ^ 2) ++
        (toLe 4 (sst.handle config).bloomOffset ++
          (toLe 8 (sst.handle config).minTrancId ++ toLe 8 (sst.handle config).maxTrancId))) := by
    rw [fileBytes_eq, List.drop_append_of_le_length (Nat.sub_le _ _), footer, hmeta]
    simp only [List.append_assoc]
  constructor
  · rw [readUintAt_eq hbefore (by rw [List.length_append, hbytes, length_toLe]), ofLe_append,
      hbytes, ofLe_toLe_mod]
  · rw [readUintAt_eq hbehind (by rw [List.length_append, length_toLe, length_toLe]),
      ofLe_append, length_toLe, ofLe_toLe_mod, ofLe_toLe_mod]

/-- The last byte of a file is the highest one of the largest number. -/
private theorem last_byte {added : List Entry} (hstorable : sst.Storable config added) :
    SstHandle.readUintAt (sst.fileBytes config params) 1
      ((sst.front config params).length + 23) = largestId added / 256 ^ 7 := by
  obtain ⟨-, -, -, hbehind⟩ := @drop_footer config params sst
  have hlast : (sst.fileBytes config params).drop ((sst.front config params).length + 23) =
      toLe 1 (sst.maxTrancId / 256 ^ 7) ++ [] := by
    rw [← List.drop_drop (i := 7) (j := (sst.front config params).length + 16), hbehind,
      List.append_nil]
    exact (congrArg (List.drop 7) (toLe_add 7 1 _)).trans (List.drop_left' (length_toLe _ _))
  have hlt : sst.maxTrancId / 256 ^ 7 < 256 ^ 1 := by
    apply Nat.div_lt_of_lt_mul
    rw [← Nat.pow_add]
    exact hstorable.maxTrancId_lt
  rw [readUintAt_eq hlast (length_toLe _ _), ofLe_toLe hlt, hstorable.maxTrancId]

/-- The test for a WiscKey footer is the ambiguity of the layout. -/
theorem looksWiscKey_iff {added : List Entry} (hstorable : sst.Storable config added)
    (hoffsets : (sst.data ++ sst.metaSection config).length < 2 ^ 32) :
    SstHandle.looksWiscKey (sst.fileBytes config params) = true ↔
      sst.Ambiguous config params added := by
  have hfront := @eight_le_length_front config params sst
  have hbefore : (sst.front config params).length + 24 - 26 =
      (sst.front config params).length - 2 := by omega
  have hlast : (sst.front config params).length + 24 - 1 =
      (sst.front config params).length + 23 := by omega
  rw [SstHandle.looksWiscKey, decide_eq_true_iff, length_fileBytes, hbefore, hlast,
    last_byte hstorable, shifted_offsets.1, (handle_offsets hoffsets).1, Ambiguous]
  exact and_iff_right (by omega)

/-- Where an opened file has its offsets from. -/
private theorem offsets_of_openFile {file : Bytes} {handle : SstHandle}
    (hopen : SstHandle.openFile config file = .ok handle)
    (hlooks : SstHandle.looksWiscKey file = true) :
    handle.metaBlockOffset = SstHandle.readUintAt file 4 (file.length - 26) ∧
      handle.bloomOffset = SstHandle.readUintAt file 4 (file.length - 26 + 4) := by
  have hlong : 26 ≤ file.length := by
    rw [SstHandle.looksWiscKey, decide_eq_true_iff] at hlooks
    exact hlooks.1
  unfold SstHandle.openFile at hopen
  dsimp only at hopen
  rw [hlooks, if_neg (not_lt.mpr (le_trans (by decide) hlong))] at hopen
  simp only [if_true] at hopen
  generalize SstHandle.readToSlice file _ _ = metaBytes at hopen
  cases metaBytes with
  | error err => cases hopen
  | ok metaBytes =>
      simp only [bind, Except.bind] at hopen
      generalize BlockMeta.decodeMetaFromSlice config.stdHash metaBytes = metaEntries at hopen
      cases metaEntries with
      | error err => cases hopen
      | ok metaEntries =>
          dsimp only at hopen
          generalize SstHandle.readFilter config file _ _ = filter at hopen
          cases filter with
          | error err => cases hopen
          | ok filter =>
              have hhandle := (Except.ok.inj hopen).symm
              constructor
              · rw [hhandle]
              · rw [hhandle]

/-- Offsets that are read the same two bytes earlier are equal. -/
private theorem shifted_eq {metaOffset bloomOffset bytes : ℕ} (hbytes : bytes < 256 ^ 2)
    (hshiftedMeta : metaOffset = bytes + 256 ^ 2 * (metaOffset % 256 ^ 2))
    (hshiftedBloom : bloomOffset =
      metaOffset / 256 ^ 2 % 256 ^ 2 + 256 ^ 2 * (bloomOffset % 256 ^ 2)) :
    metaOffset = bloomOffset := by
  have hlow : metaOffset % 256 ^ 2 = bytes := by
    rw [hshiftedMeta, Nat.add_mul_mod_self_left, Nat.mod_eq_of_lt hbytes]
  have hhigh : metaOffset / 256 ^ 2 = bytes := by
    rw [hshiftedMeta, Nat.add_mul_div_left _ _ (by decide), Nat.div_eq_of_lt hbytes, hlow,
      Nat.zero_add]
  have hbloomLow : bloomOffset % 256 ^ 2 = bytes := by
    rw [hshiftedBloom, Nat.add_mul_mod_self_left, Nat.mod_mod, hhigh, Nat.mod_eq_of_lt hbytes]
  rw [hshiftedMeta, hshiftedBloom, hlow, hbloomLow, hhigh, Nat.mod_eq_of_lt hbytes]

/-- The fields of an ambiguous file are never those of the table: the two offsets would
have to be equal, and the meta section is between them. -/
theorem openFile_ambiguous
    (hoffsets : (sst.data ++ sst.metaSection config).length < 2 ^ 32)
    (hlooks : SstHandle.looksWiscKey (sst.fileBytes config params) = true) :
    SstHandle.openFile config (sst.fileBytes config params) ≠
      .ok (sst.handle config) := by
  intro hopen
  have hfront := @eight_le_length_front config params sst
  have hmetaSection := @length_metaSection config sst
  obtain ⟨hmetaOffset, hbloomOffset⟩ := handle_offsets hoffsets
  obtain ⟨hmeta, hbloom⟩ := offsets_of_openFile hopen hlooks
  obtain ⟨hshiftedMeta, hshiftedBloom⟩ :=
    @shifted_offsets config params sst
  have hbefore : (sst.front config params).length + 24 - 26 =
      (sst.front config params).length - 2 := by omega
  have hbehind : (sst.front config params).length - 2 + 4 =
      (sst.front config params).length + 2 := by omega
  rw [length_fileBytes, hbefore] at hmeta hbloom
  rw [hshiftedMeta] at hmeta
  rw [hbehind, hshiftedBloom] at hbloom
  have hbytes := ofLe_lt ((sst.front config params).drop ((sst.front config params).length - 2))
  rw [List.length_drop, Nat.sub_sub_self (le_trans (by decide) hfront)] at hbytes
  have hsame := shifted_eq hbytes hmeta hbloom
  rw [hmetaOffset, hbloomOffset] at hsame
  exact absurd hsame (Nat.ne_of_lt (Nat.lt_add_of_pos_right
    (lt_of_lt_of_le (by decide) hmetaSection)))

/-! ## Reading the blocks -/

theorem getElem?_locate (offset : ℕ) (blocks : List (BlockMeta × Block)) (idx : ℕ) :
    (locate offset blocks)[idx]? = blocks[idx]?.map fun block =>
      (offset + ((blocks.take idx).flatMap fun block => block.2.raw.encoded).length,
        block.1) := by
  induction blocks generalizing offset idx with
  | nil => rfl
  | cons block rest ih =>
      cases idx with
      | zero => rfl
      | succ idx =>
          rw [locate, List.getElem?_cons_succ, ih, List.getElem?_cons_succ, List.take_succ_cons,
            List.flatMap_cons, List.length_append, Nat.add_assoc]

theorem length_take_blocks (sst : SST) (idx : ℕ) :
    ((sst.blocks.take idx).flatMap fun block => block.2.raw.encoded).length =
      sst.blockOffset idx := by
  rw [List.length_flatMap, blockOffset]
  exact congrArg List.sum (List.map_congr_left fun block _ => block.2.length_raw_encoded)

theorem length_data (sst : SST) : sst.data.length = sst.dataLength := by
  have hall := sst.length_take_blocks sst.blocks.length
  rwa [List.take_length, blockOffset_length] at hall

theorem handle_metaBlockOffset : (sst.handle config).metaBlockOffset = sst.metaBlockOffset :=
  congrArg toUint32 sst.length_data

theorem handle_located {idx : ℕ} (hidx : idx < sst.blocks.length) :
    (sst.handle config).metaEntries[idx]? = some (sst.blockOffset idx, sst.blocks[idx].1) := by
  rw [handle, getElem?_locate, List.getElem?_eq_getElem hidx, length_take_blocks, Nat.zero_add]
  rfl

theorem handle_blockEnd (idx : ℕ) :
    (((sst.handle config).metaEntries[idx + 1]?).map Prod.fst).getD
      (sst.handle config).metaBlockOffset = sst.blockEnd idx := by
  rw [blockEnd, numBlocks]
  split_ifs with hnext
  · rw [handle_located hnext]
    rfl
  · rw [handle_metaBlockOffset, handle, getElem?_locate,
      List.getElem?_eq_none (not_lt.mp hnext)]
    rfl

/-- The bytes of the block are those between its two offsets. -/
theorem readToSlice_block {idx : ℕ} (hidx : idx < sst.blocks.length) :
    SstHandle.readToSlice (sst.fileBytes config params) (sst.blockOffset idx)
      sst.blocks[idx].2.encodedLength = .ok sst.blocks[idx].2.raw.encoded := by
  have hsplit : sst.blocks.take idx ++ (sst.blocks[idx] :: sst.blocks.drop (idx + 1)) =
      sst.blocks := by
    rw [← List.drop_eq_getElem_cons hidx, List.take_append_drop]
  have hdata := congrArg (List.flatMap fun block => block.2.raw.encoded) hsplit
  rw [List.flatMap_append, List.flatMap_cons] at hdata
  rw [fileBytes, data, ← hdata, List.append_assoc, List.append_assoc, ← length_take_blocks,
    ← Block.length_raw_encoded]
  exact readToSlice_append _ _ _

/-- A built table reads every block from its bytes as its decoded form has it, and throws where
that throws, also where the block section has outgrown its 32-bit end. -/
theorem readBlock_eq_loadBlock {added : List Entry} (hstorable : sst.Storable config added)
    (hshort : sst.BlocksShort) (idx : ℕ) :
    ((sst.handle config).readBlock (sst.fileBytes config params) idx).toOption =
      (sst.loadBlock idx).toOption.map Block.raw := by
  unfold SstHandle.readBlock
  rcases Nat.lt_or_ge idx sst.blocks.length with hidx | hidx
  · have hencodable := (hstorable.blocks _ (List.getElem_mem hidx)).1
    have hdecode : RawBlock.decode sst.blocks[idx].2.raw.encoded = .ok sst.blocks[idx].2.raw := by
      apply Block.decode_encoded hencodable.offset
      rw [show sst.blocks[idx].2.raw.offsets.length = sst.blocks[idx].2.size from
        Block.length_offsetsFrom _ _]
      exact hencodable.size
    rw [handle_located hidx, loadBlock_eq hidx]
    dsimp only
    rw [handle_blockEnd]
    split_ifs with hwraps
    · rfl
    · rw [blockEnd_of_le hidx hshort hwraps, Nat.add_sub_cancel_left, readToSlice_block hidx]
      dsimp only [bind, Except.bind]
      rw [hdecode]
      rfl
  · rw [handle, getElem?_locate, List.getElem?_eq_none hidx, loadBlock,
      List.getElem?_eq_none hidx]
    rfl

/-- Every block is read as it was built. -/
theorem readBlock_eq {added : List Entry} (hstorable : sst.Storable config added)
    (hoffsets : (sst.data ++ sst.metaSection config).length < 2 ^ 32) {idx : ℕ}
    (hidx : idx < sst.blocks.length) :
    (sst.handle config).readBlock (sst.fileBytes config params) idx =
      .ok sst.blocks[idx].2.raw := by
  have hsmall : sst.Addressable := by
    rw [List.length_append, length_data] at hoffsets
    exact (Nat.le_add_right _ _).trans_lt hoffsets
  have hread := @readBlock_eq_loadBlock config params sst _ hstorable hsmall.blocksShort idx
  rw [hsmall.loadBlock hidx] at hread
  cases hblock : (sst.handle config).readBlock (sst.fileBytes config params) idx with
  | error err =>
      rw [hblock] at hread
      cases hread
  | ok block =>
      rw [hblock] at hread
      exact congrArg Except.ok (Option.some.inj hread)

/-- All blocks together give the records of the table. -/
theorem readAll_eq {added : List Entry} (hstorable : sst.Storable config added)
    (hoffsets : (sst.data ++ sst.metaSection config).length < 2 ^ 32) :
    (sst.handle config).readAll (sst.fileBytes config params) = .ok sst.records := by
  have hblock : ∀ idx ∈ List.range sst.blocks.length,
      ((sst.handle config).readBlock (sst.fileBytes config params) idx >>= RawBlock.readEntries) =
        .ok (((sst.blocks.map fun block => block.2.entries)[idx]?).getD []) := by
    intro idx hmem
    have hidx := List.mem_range.mp hmem
    rw [readBlock_eq hstorable hoffsets hidx, List.getElem?_map, List.getElem?_eq_getElem hidx]
    exact (hstorable.blocks _ (List.getElem_mem hidx)).1.readEntries
  have hentries : (List.range sst.blocks.length).map (fun idx =>
      ((sst.blocks.map fun block => block.2.entries)[idx]?).getD []) =
        sst.blocks.map fun block => block.2.entries := by
    apply List.ext_getElem
    · rw [List.length_map, List.length_range, List.length_map]
    · intro idx hleft hright
      rw [List.getElem_map, List.getElem_range, List.getElem?_eq_getElem hright]
      rfl
  have hblocks := mapM_eq_map hblock
  rw [hentries] at hblocks
  rw [SstHandle.readAll, show (sst.handle config).metaEntries.length = sst.blocks.length from
    length_locate _ _, hblocks, records, List.flatMap_def]
  rfl

/-! ## One record -/

/-- An empty block takes any record of valid lengths. -/
private theorem addEntry_new (capacity : ℕ) {entry : Entry}
    (hkey : entry.key.length ≤ uint16Max) (hvalue : entry.value.length ≤ uint16Max)
    (forceWrite : Bool) :
    (Block.new capacity).addEntry entry.key entry.value entry.txid forceWrite =
      .ok (some ⟨[entry], capacity⟩) := by
  have hempty : ¬(¬forceWrite = true ∧ ¬(Block.new capacity).isEmpty = true ∧
      (Block.new capacity).curSize + entrySize ⟨entry.key, entry.value, entry.txid⟩ + 2 >
        (Block.new capacity).capacity) := fun hfull => hfull.2.1 rfl
  rw [Block.addEntry, if_neg (not_or.mpr ⟨not_lt.mpr hkey, not_lt.mpr hvalue⟩), if_neg hempty]
  rfl

private theorem add_first {builder : SSTBuilder} {entry : Entry}
    (hnew : builder.block = Block.new builder.blockSize) (hempty : builder.firstKey = [])
    (hkey : entry.key.length ≤ uint16Max) (hvalue : entry.value.length ≤ uint16Max) :
    ∃ builder', builder.addAll [entry] = .ok builder' ∧
      builder'.block = ⟨[entry], builder.blockSize⟩ ∧ builder'.blocks = builder.blocks ∧
      builder'.firstKey = entry.key ∧ builder'.lastKey = entry.key ∧
      builder'.createFails = builder.createFails := by
  have hentry := addEntry_new builder.blockSize hkey hvalue (decide (entry.key = builder.lastKey))
  rw [← hnew] at hentry
  have hadd : ∃ builder', builder.add entry.key entry.value entry.txid = .ok builder' ∧
      builder'.block = ⟨[entry], builder.blockSize⟩ ∧ builder'.blocks = builder.blocks ∧
      builder'.firstKey = entry.key ∧ builder'.lastKey = entry.key ∧
      builder'.createFails = builder.createFails := by
    unfold SSTBuilder.add
    dsimp only
    rw [hentry, hempty, if_pos rfl]
    exact ⟨_, rfl, rfl, rfl, rfl, rfl, rfl⟩
  obtain ⟨builder', hadd, hfields⟩ := hadd
  refine ⟨builder', ?_, hfields⟩
  rw [SSTBuilder.addAll, List.foldlM_cons, hadd]
  rfl

/-- The table of one record. -/
theorem build_single (config : Config) (hasBloom : Bool) (sstId : ℕ) {entry : Entry}
    (hkey : entry.key.length ≤ uint16Max) (hvalue : entry.value.length ≤ uint16Max)
    (hcreate : config.createFails sstId = false) :
    ∃ builder sst, (SSTBuilder.construct config hasBloom).addAll [entry] = .ok builder ∧
      builder.build sstId = .ok sst ∧
      sst.blocks = [(⟨entry.key, entry.key⟩, ⟨[entry], config.lsmBlockSize⟩)] := by
  obtain ⟨builder, hbuilder, hblock, hblocks, hfirst, hlast, hfails⟩ :
      ∃ builder, (SSTBuilder.construct config hasBloom).addAll [entry] = .ok builder ∧
        builder.block = ⟨[entry], config.lsmBlockSize⟩ ∧ builder.blocks = [] ∧
        builder.firstKey = entry.key ∧ builder.lastKey = entry.key ∧
        builder.createFails = config.createFails := by
    cases hasBloom with
    | true => exact add_first rfl rfl hkey hvalue
    | false => exact add_first rfl rfl hkey hvalue
  have hfinish : builder.finishBlock = .ok { builder with
      blocks := [(⟨entry.key, entry.key⟩, ⟨[entry], config.lsmBlockSize⟩)]
      dataLength := builder.dataLength + (builder.block.dataSize + builder.block.size * 2 + 2 + 4)
      block := Block.new builder.blockSize } := by
    have hsize : ¬builder.block.size > uint16Max := by
      rw [hblock, Block.size, List.length_singleton]
      decide
    rw [SSTBuilder.finishBlock, Block.encodedSize, if_neg hsize, hblocks, hfirst, hlast, hblock]
    rfl
  have hfull : ¬builder.block.isEmpty = true := by
    rw [hblock]
    exact Bool.false_ne_true
  have hopen : ¬config.createFails sstId = true := by
    rw [hcreate]
    exact Bool.false_ne_true
  have hbuild : ∃ sst, builder.build sstId = .ok sst ∧
      sst.blocks = [(⟨entry.key, entry.key⟩, ⟨[entry], config.lsmBlockSize⟩)] := by
    rw [SSTBuilder.build, if_neg hfull, hfinish]
    dsimp only [List.head?_cons, List.getLast?_singleton]
    rw [hfails, if_neg hopen]
    exact ⟨_, rfl, rfl⟩
  obtain ⟨sst, hbuild, hsst⟩ := hbuild
  exact ⟨builder, sst, hbuilder, hbuild, hsst⟩

theorem length_single {entry : Entry}
    (hblocks : sst.blocks = [(⟨entry.key, entry.key⟩, ⟨[entry], config.lsmBlockSize⟩)]) :
    sst.data.length = entrySize entry + 8 ∧
      (sst.metaSection config).length = 2 * entry.key.length + 16 := by
  constructor
  · rw [data, hblocks, List.flatMap_singleton, Block.length_encoded, Block.length_body]
    simp [Block.raw, Block.offsetsFrom, length_encodeEntry]
  · rw [metaSection, BlockMeta.length_encodeMetaToSlice, hblocks]
    simp [locate, BlockMeta.encodeOne]
    omega

/-- A filter for one key with the error rate `0.5`. -/
def oneKeyParams : BloomParams where
  expectedElements := 1
  falsePositiveRate := toLe 8 0x3FE0000000000000
  expectedElements_pos := Nat.one_pos
  expectedElements_lt := BloomFilter.sampleParams.expectedElements_lt
  length_rate := length_toLe _ _
  rate_valid := by decide

/-- A record whose number ends in the magic byte, in a block of 65536 bytes. -/
def magicRecord : Entry := ⟨[107], List.replicate 65515 0, 0x4B * 256 ^ 7⟩

/-! ## Round trip -/

/-- A table file is opened as it was built and its blocks hold the added records, exactly
when its last bytes are not taken for a WiscKey footer. -/
theorem file_round_trip (config : Config) (params : BloomParams) (hasBloom : Bool)
    (entries : List Entry) (sstId : ℕ) {builder : SSTBuilder} {sst : SST}
    (hsizes : BloomSized config) (hsorted : Versions.Sorted entries)
    (htxid : ∀ entry ∈ entries, entry.txid < 2 ^ 64)
    (hadd : (SSTBuilder.construct config hasBloom).addAll entries = .ok builder)
    (hbuild : builder.build sstId = .ok sst)
    (hoffsets : (sst.data ++ sst.metaSection config).length < 2 ^ 32) :
    (SstHandle.openFile config (sst.fileBytes config params) = .ok (sst.handle config) ∧
        (sst.handle config).readAll (sst.fileBytes config params) = .ok entries) ↔
      ¬sst.Ambiguous config params entries := by
  have hstorable : sst.Storable config entries :=
    ((SSTBuilder.storable_construct config hasBloom).addAll htxid hadd).build hbuild
  have hrecords : sst.records = entries :=
    (((SSTBuilder.holds_construct config hasBloom).addAll hsorted hadd).build hbuild).2.1
  have hread := @readAll_eq config params sst _ hstorable hoffsets
  rw [hrecords] at hread
  rw [← looksWiscKey_iff hstorable hoffsets, Bool.not_eq_true]
  constructor
  · rintro ⟨hopen, -⟩
    by_contra hlooks
    rw [Bool.not_eq_false] at hlooks
    exact openFile_ambiguous hoffsets hlooks hopen
  · intro hordinary
    exact ⟨openFile_ordinary hstorable hsizes hoffsets hordinary, hread⟩

/-- Three blocks with a filter. -/
theorem file_round_trip_sample :
    ∃ builder sst,
      (SSTBuilder.construct smallConfig true).addAll threeRecords = .ok builder ∧
      builder.build 0 = .ok sst ∧ sst.numBlocks = 3 ∧
      SstHandle.openFile smallConfig (sst.fileBytes smallConfig oneKeyParams) =
        .ok (sst.handle smallConfig) ∧
      (sst.handle smallConfig).readAll (sst.fileBytes smallConfig oneKeyParams) =
        .ok threeRecords := by
  obtain ⟨builder, hadd, sst, hbuild, hblocks, hdata, hmeta⟩ : ∃ builder,
      (SSTBuilder.construct smallConfig true).addAll threeRecords = .ok builder ∧
      ∃ sst, builder.build 0 = .ok sst ∧ sst.numBlocks = 3 ∧ sst.dataLength = 183 ∧
        (sst.metaSection smallConfig).length = 38 := ⟨_, rfl, _, rfl, rfl, rfl, rfl⟩
  have hoffsets : (sst.data ++ sst.metaSection smallConfig).length < 2 ^ 32 := by
    rw [List.length_append, length_data, hdata, hmeta]
    decide
  refine ⟨builder, sst, hadd, hbuild, hblocks, ?_⟩
  apply (file_round_trip smallConfig oneKeyParams true threeRecords 0
    ⟨by decide, by decide, by decide⟩ threeRecords_sorted (by decide) hadd hbuild hoffsets).mpr
  rintro ⟨hmagic, -⟩
  exact absurd hmagic (by decide)

/-- The file of one record is opened with other offsets than it was built with. -/
theorem file_misread :
    ∃ builder sst,
      Versions.Sorted [magicRecord] ∧ (∀ entry ∈ [magicRecord], entry.txid < 2 ^ 64) ∧
      (SSTBuilder.construct smallConfig false).addAll [magicRecord] = .ok builder ∧
      builder.build 0 = .ok sst ∧
      (sst.data ++ sst.metaSection smallConfig).length < 2 ^ 32 ∧
      SstHandle.openFile smallConfig (sst.fileBytes smallConfig oneKeyParams) ≠
        .ok (sst.handle smallConfig) := by
  have hvalue : magicRecord.value.length = 65515 := List.length_replicate
  have htxid : ∀ entry ∈ [magicRecord], entry.txid < 256 ^ 8 :=
    List.forall_mem_singleton.mpr (by decide)
  obtain ⟨builder, sst, hadd, hbuild, hblocks⟩ := @build_single smallConfig false 0 magicRecord
    (by decide) (by rw [hvalue]; decide) rfl
  have hstorable : sst.Storable smallConfig [magicRecord] :=
    ((SSTBuilder.storable_construct smallConfig false).addAll htxid hadd).build hbuild
  obtain ⟨hdata, hmeta⟩ := length_single hblocks
  have hdata : sst.data.length = 65536 := by
    rw [hdata, entrySize, hvalue]
    rfl
  have hmeta : (sst.metaSection smallConfig).length = 18 := hmeta
  have hoffsets : (sst.data ++ sst.metaSection smallConfig).length < 2 ^ 32 := by
    rw [List.length_append, hdata, hmeta]
    decide
  refine ⟨builder, sst, List.pairwise_singleton _ _, htxid, hadd, hbuild, hoffsets, ?_⟩
  apply openFile_ambiguous hoffsets
  rw [looksWiscKey_iff hstorable hoffsets, Ambiguous, hdata]
  have hfront : 65536 + 18 ≤ (sst.front smallConfig oneKeyParams).length := by
    rw [front, ← List.append_assoc, List.length_append, List.length_append, hdata, hmeta]
    exact Nat.le_add_right _ _
  have hbytes := ofLe_lt ((sst.front smallConfig oneKeyParams).drop
    ((sst.front smallConfig oneKeyParams).length - 2))
  rw [List.length_drop, Nat.sub_sub_self (le_trans (by decide) hfront)] at hbytes
  refine ⟨by decide, ?_⟩
  calc ofLe ((sst.front smallConfig oneKeyParams).drop
        ((sst.front smallConfig oneKeyParams).length - 2)) + 256 ^ 2 * (65536 % 256 ^ 2)
      < 65536 + 16 := Nat.lt_add_right 16 hbytes
    _ ≤ (sst.front smallConfig oneKeyParams).length - 2 := Nat.le_sub_of_add_le hfront

end SST

end KopiDb
