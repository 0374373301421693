import KopiDb.DataDir
import KopiDb.Reads

/-!
# Opening an existing data directory

The constructor of the engine finds its levels again from the names of the table files and
every table from the bytes of its file.
-/

namespace KopiDb

/-! ## Tables from files -/

namespace SST

/-- A block as `decode` returns it: its capacity is its size. -/
def decodedBlock (entries : List Entry) : Block := ⟨entries, (Block.mk entries 0).curSize⟩

/-- The table of a file.  The blocks, which the source reads when they are needed, are read
at once. -/
def ofFile (config : Config) (sstId : ℕ) (file : Bytes) : Except Err SST := do
  let handle ← SstHandle.openFile config file
  let blocks ← (List.range handle.metaEntries.length).mapM fun idx => do
    let raw ← handle.readBlock file idx
    let entries ← raw.readEntries
    return decodedBlock entries
  return {
    sstId := sstId
    blocks := (handle.metaEntries.map Prod.snd).zip blocks
    firstKey := handle.firstKey
    lastKey := handle.lastKey
    bloomFilter := handle.bloomFilter
    minTrancId := handle.minTrancId
    maxTrancId := handle.maxTrancId }

/-- A built table with its blocks as they are read from its file. -/
def decoded (sst : SST) : SST :=
  { sst with blocks := sst.blocks.map fun block => (block.1, decodedBlock block.2.entries) }

theorem records_decoded (sst : SST) : sst.decoded.records = sst.records := by
  rw [records, decoded, List.flatMap_map]
  rfl

/-- A table within the format is read back from its file. -/
theorem ofFile_fileBytes {config : Config} {params : BloomParams} {sst : SST}
    {added : List Entry} (hstorable : sst.Storable config added) (hsizes : BloomSized config)
    (hoffsets : (sst.data ++ sst.metaSection config).length < 2 ^ 32)
    (hordinary : SstHandle.looksWiscKey (sst.fileBytes config params) = false) :
    ofFile config sst.sstId (sst.fileBytes config params) = .ok sst.decoded := by
  have hblock : ∀ idx ∈ List.range sst.blocks.length, (do
      let raw ← (sst.handle config).readBlock (sst.fileBytes config params) idx
      let entries ← raw.readEntries
      return decodedBlock entries) =
        Except.ok (decodedBlock
          (((sst.blocks.map fun block => block.2.entries)[idx]?).getD [])) := by
    intro idx hmem
    have hidx := List.mem_range.mp hmem
    rw [readBlock_eq hstorable hoffsets hidx, List.getElem?_map, List.getElem?_eq_getElem hidx]
    simp only [bind, Except.bind]
    rw [(hstorable.blocks _ (List.getElem_mem hidx)).1.readEntries]
    rfl
  have hblocks : (List.range sst.blocks.length).map (fun idx => decodedBlock
      (((sst.blocks.map fun block => block.2.entries)[idx]?).getD [])) =
        sst.blocks.map fun block => decodedBlock block.2.entries := by
    apply List.ext_getElem
    · rw [List.length_map, List.length_range, List.length_map]
    · intro idx hleft hright
      have hidx : idx < sst.blocks.length := by rwa [List.length_map] at hright
      rw [List.getElem_map, List.getElem_range, List.getElem?_map,
        List.getElem?_eq_getElem hidx, List.getElem_map]
      rfl
  have hzip : ((sst.handle config).metaEntries.map Prod.snd).zip
      (sst.blocks.map fun block => decodedBlock block.2.entries) = sst.decoded.blocks := by
    rw [show (sst.handle config).metaEntries.map Prod.snd = sst.blocks.map Prod.fst from
      map_locate _ _, List.zip_map']
    rfl
  unfold ofFile
  rw [openFile_ordinary hstorable hsizes hoffsets hordinary]
  simp only [bind, Except.bind]
  rw [show (sst.handle config).metaEntries.length = sst.blocks.length from length_locate _ _]
  have hread := mapM_eq_map hblock
  simp only [bind, Except.bind] at hread
  rw [hread, hblocks]
  dsimp only
  rw [hzip]
  rfl

/-- What a lookup finds, without its iterator. -/
theorem get_current? (sst : SST) (key : Bytes) (trancId : ℕ) (isAborted : ℕ → Bool) :
    (sst.get key trancId isAborted).current? =
      if (key < sst.firstKey ∨ sst.lastKey < key) ∨ sst.bloomExcludes key = true then none
      else (sst.findBlockIdx key).bind fun idx => sst.blocks[idx]?.bind fun block =>
        (BlockIterator.ofKey block.2 key trancId false isAborted).current? := by
  unfold get
  by_cases hrange : key < sst.firstKey ∨ sst.lastKey < key
  · rw [if_pos hrange, if_pos (Or.inl hrange)]
    rfl
  by_cases hbloom : sst.bloomExcludes key = true
  · rw [if_neg hrange, if_pos hbloom, if_pos (Or.inr hbloom)]
    rfl
  · rw [if_neg hrange, if_neg hbloom, if_neg (not_or.mpr ⟨hrange, hbloom⟩)]
    unfold SstIterator.ofKey
    dsimp only
    cases hfind : sst.findBlockIdx key with
    | none => rfl
    | some idx =>
        dsimp only
        rw [Option.bind_some]
        split_ifs with hidx hend
        · rw [List.getElem?_eq_getElem hidx, Option.bind_some]
          exact (BlockIterator.isEnd_iff.mp hend).symm
        · rw [List.getElem?_eq_getElem hidx]
          rfl
        · rw [List.getElem?_eq_none (not_lt.mp hidx)]
          rfl

theorem findBlockIdx_decoded (sst : SST) (key : Bytes) :
    sst.decoded.findBlockIdx key = sst.findBlockIdx key := by
  have hcompare : sst.decoded.compareMeta key = sst.compareMeta key := by
    funext idx
    rw [compareMeta, compareMeta, decoded, List.getElem?_map]
    cases sst.blocks[idx]? <;> rfl
  have hblocks : sst.decoded.numBlocks = sst.numBlocks := List.length_map _
  rw [findBlockIdx, findBlockIdx, hcompare, hblocks]
  rfl

/-- A lookup in a block does not depend on its capacity. -/
theorem ofKey_decodedBlock (block : Block) (key : Bytes) (trancId : ℕ)
    (isAborted : ℕ → Bool) :
    (BlockIterator.ofKey (decodedBlock block.entries) key trancId false isAborted).current? =
      (BlockIterator.ofKey block key trancId false isAborted).current? := by
  have hgroup : ∀ (target : Bytes) (idx : ℕ),
      (decodedBlock block.entries).groupStart target idx = block.groupStart target idx := by
    intro target idx
    induction idx with
    | zero => rfl
    | succ idx ih =>
        rw [Block.groupStart, Block.groupStart, ih]
        rfl
  have hadjust : ∀ idx : ℕ, (decodedBlock block.entries).adjustIdxByTrancId idx trancId
      isAborted = block.adjustIdxByTrancId idx trancId isAborted := by
    intro idx
    unfold Block.adjustIdxByTrancId
    simp only [hgroup]
    rfl
  have hindex : (decodedBlock block.entries).getIdxBinary key trancId isAborted =
      block.getIdxBinary key trancId isAborted := by
    unfold Block.getIdxBinary
    simp only [hadjust]
    rfl
  unfold BlockIterator.ofKey
  rw [hindex]
  rfl

/-- Reading from the file finds what the built table holds. -/
theorem get_decoded (sst : SST) (key : Bytes) (trancId : ℕ) (isAborted : ℕ → Bool) :
    (sst.decoded.get key trancId isAborted).current? =
      (sst.get key trancId isAborted).current? := by
  have hblock : ∀ idx : ℕ, (sst.decoded.blocks[idx]?.bind fun block : BlockMeta × Block =>
      (BlockIterator.ofKey block.2 key trancId false isAborted).current?) =
        sst.blocks[idx]?.bind fun block =>
          (BlockIterator.ofKey block.2 key trancId false isAborted).current? := by
    intro idx
    rw [decoded, List.getElem?_map]
    cases sst.blocks[idx]? with
    | none => rfl
    | some block => exact ofKey_decodedBlock block.2 key trancId isAborted
  rw [get_current?, get_current?, findBlockIdx_decoded]
  simp only [hblock]
  rfl

end SST

/-! ## The constructor -/

/-- The table of a directory entry; anything but the files of tables is passed over. -/
def readTable (config : Config) (entry : Bytes × Option Bytes) :
    Except Err (Option (ℕ × ℕ × SST)) :=
  match entry.2 with
  | none => .ok none
  | some file => do
      match ← sstNumbers entry.1 with
      | none => return none
      | some (sstId, level) =>
          let sst ← SST.ofFile config sstId file
          return some (sstId, level, sst)

namespace Engine

/-- Register the table of a file. -/
def addTable (engine : Engine) (table : ℕ × ℕ × SST) : Engine :=
  { engine with
    ssts := engine.ssts.insert table.1 table.2.2
    levelSstIds := setLevel engine.levelSstIds table.2.1 (engine.level table.2.1 ++ [table.1])
    nextSstId := max table.1 engine.nextSstId
    curMaxLevel := max table.2.1 engine.curMaxLevel
    paths := (table.1, table.2.1) :: engine.paths }

/-- The order of a level: newest first in level 0, ascending below. -/
def sortLevel (level : ℕ) (ids : List ℕ) : List ℕ :=
  let sorted := ids.insertionSort fun left right => left ≤ right
  if level = 0 then sorted.reverse else sorted

/-- The constructor on a directory, in the order of its listing. -/
def openDir (config : Config) (listing : List (Bytes × Option Bytes)) : Except Err Engine := do
  let engine ← listing.foldlM (fun engine entry => do
    match ← readTable config entry with
    | none => return engine
    | some table => return engine.addTable table) { new with nextSstId := 0 }
  return { engine with
    nextSstId := engine.nextSstId + 1
    levelSstIds := engine.levelSstIds.mapIdx sortLevel }

/-- The tables of a listing, when every one can be read. -/
theorem openDir_eq {config : Config} {listing : List (Bytes × Option Bytes)}
    {table : Bytes × Option Bytes → Option (ℕ × ℕ × SST)}
    (hread : ∀ entry ∈ listing, readTable config entry = .ok (table entry)) :
    openDir config listing =
      let engine := (listing.filterMap table).foldl addTable { new with nextSstId := 0 }
      .ok { engine with
        nextSstId := engine.nextSstId + 1
        levelSstIds := engine.levelSstIds.mapIdx sortLevel } := by
  have hfold : ∀ start : Engine, listing.foldlM (fun engine entry => do
      match ← readTable config entry with
      | none => return engine
      | some table => return engine.addTable table) start =
        Except.ok ((listing.filterMap table).foldl addTable start) := by
    induction listing with
    | nil => exact fun _ => rfl
    | cons entry rest ih =>
        obtain ⟨hentry, hrest⟩ := List.forall_mem_cons.mp hread
        intro start
        rw [List.foldlM_cons, hentry]
        cases hfound : table entry with
        | none =>
            rw [List.filterMap_cons_none hfound]
            exact ih hrest start
        | some found =>
            rw [List.filterMap_cons_some hfound]
            exact ih hrest (start.addTable found)
  unfold openDir
  rw [hfold]
  rfl

/-! ## The tables that were found -/

section AddTables

variable {tables : List (ℕ × ℕ × SST)}

private theorem level_addTables (start : Engine) (level : ℕ) :
    (tables.foldl addTable start).level level =
      start.level level ++ (tables.filter fun table => table.2.1 = level).map Prod.fst := by
  induction tables generalizing start with
  | nil => rw [List.foldl_nil, List.filter_nil, List.map_nil, List.append_nil]
  | cons table rest ih =>
      have hlevel : (start.addTable table).level level =
          if level = table.2.1 then start.level table.2.1 ++ [table.1]
          else start.level level := getD_setLevel _ _ _ _
      rw [List.foldl_cons, ih, hlevel]
      by_cases hsame : table.2.1 = level
      · rw [if_pos hsame.symm, List.filter_cons_of_pos (by simpa using hsame), List.map_cons,
          hsame, List.append_assoc, List.singleton_append]
      · rw [if_neg (Ne.symm hsame), List.filter_cons_of_neg (by simpa using hsame)]

private theorem find?_addTables (hnodup : (tables.map Prod.fst).Nodup) (start : Engine) (id : ℕ) :
    (tables.foldl addTable start).ssts.find? id =
      ((tables.find? fun table => table.1 = id).map fun table => table.2.2).or
        (start.ssts.find? id) := by
  induction tables generalizing start with
  | nil => rfl
  | cons table rest ih =>
      rw [List.map_cons, List.nodup_cons] at hnodup
      have hinsert : (start.addTable table).ssts.find? id =
          if id = table.1 then some table.2.2 else start.ssts.find? id :=
        OrdMap.find?_insert _ _ _ _
      rw [List.foldl_cons, ih hnodup.2, hinsert, List.find?_cons]
      by_cases hid : table.1 = id
      · have habsent : (rest.find? fun table => table.1 = id) = none := by
          rw [List.find?_eq_none]
          intro other hother hsame
          apply hnodup.1
          rw [hid, ← of_decide_eq_true hsame]
          exact List.mem_map_of_mem hother
        rw [habsent, if_pos hid.symm, decide_eq_true hid]
        rfl
      · rw [if_neg (Ne.symm hid), decide_eq_false hid]

private theorem nextSstId_addTables (start : Engine) :
    (∀ table ∈ tables, table.1 ≤ (tables.foldl addTable start).nextSstId) ∧
      start.nextSstId ≤ (tables.foldl addTable start).nextSstId := by
  induction tables generalizing start with
  | nil => exact ⟨List.forall_mem_nil _, le_rfl⟩
  | cons table rest ih =>
      obtain ⟨hrest, hstart⟩ := ih (start.addTable table)
      rw [List.foldl_cons]
      exact ⟨List.forall_mem_cons.mpr ⟨(le_max_left _ _).trans hstart, hrest⟩,
        (le_max_right _ _).trans hstart⟩

private theorem paths_addTables (start : Engine) :
    (tables.foldl addTable start).paths =
      (tables.map fun table => (table.1, table.2.1)).reverse ++ start.paths := by
  induction tables generalizing start with
  | nil => rfl
  | cons table rest ih =>
      rw [List.foldl_cons, ih, List.map_cons, List.reverse_cons, List.append_assoc]
      rfl

private theorem memtable_addTables (start : Engine) :
    (tables.foldl addTable start).memtable = start.memtable := by
  induction tables generalizing start with
  | nil => rfl
  | cons table rest ih => exact ih (start.addTable table)

end AddTables

/-! ## The same tables in the same levels -/

/-- Levels behind the end of a list are empty, so a common length can be found. -/
private theorem exists_pad {α : Type} {left right : List (List α)}
    (hlevel : ∀ level, left.getD level [] = right.getD level []) :
    left ++ List.replicate right.length [] = right ++ List.replicate left.length [] := by
  have hget : ∀ (levels : List (List α)) (pad level : ℕ), level < levels.length + pad →
      (levels ++ List.replicate pad [])[level]? = some (levels.getD level []) := by
    intro levels pad level hlt
    rw [List.getElem?_append, List.getD_eq_getElem?_getD]
    split_ifs with hin
    · rw [List.getElem?_eq_getElem hin]
      rfl
    · rw [List.getElem?_replicate, if_pos (by omega),
        List.getElem?_eq_none (not_lt.mp hin)]
      rfl
  apply List.ext_getElem?
  intro level
  by_cases hlt : level < left.length + right.length
  · rw [hget left _ _ hlt, hget right _ _ (by omega), hlevel]
  · rw [List.getElem?_eq_none, List.getElem?_eq_none]
    · rw [List.length_append, List.length_replicate]
      omega
    · rw [List.length_append, List.length_replicate]
      omega

section SameTables

variable {engine engine' : Engine} (key : Bytes) (trancId : ℕ) (isAborted : ℕ → Bool)

private theorem sstGetLevels_pad (levels : List (List ℕ)) (pad : ℕ)
    (best : Option (Bytes × ℕ)) :
    engine.sstGetLevels key trancId isAborted (levels ++ List.replicate pad []) best =
      engine.sstGetLevels key trancId isAborted levels best := by
  induction levels generalizing best with
  | nil =>
      induction pad with
      | zero => rfl
      | succ pad ih => exact ih
  | cons ids rest ih =>
      rw [List.cons_append, sstGetLevels_cons, sstGetLevels_cons]
      cases engine.sstGetLevel key trancId isAborted ids best ids.length 0 ids.length with
      | error err => rfl
      | ok best => exact ih best

/-- `sst_get_` over given level lists. -/
def sstGetIn (engine : Engine) (key : Bytes) (trancId : ℕ) (isAborted : ℕ → Bool) :
    List (List ℕ) → Except Err (Option (Bytes × ℕ))
  | [] => .ok none
  | l0 :: deeper =>
      match engine.sstGetL0 key trancId isAborted l0 none with
      | .error err => .error err
      | .ok best => engine.sstGetLevels key trancId isAborted deeper best

private theorem sstGetIn_pad (levels : List (List ℕ)) (pad : ℕ) :
    engine.sstGetIn key trancId isAborted (levels ++ List.replicate pad []) =
      engine.sstGetIn key trancId isAborted levels := by
  cases levels with
  | nil =>
      cases pad with
      | zero => rfl
      | succ pad => exact sstGetLevels_pad key trancId isAborted [] pad none
  | cons l0 deeper =>
      rw [List.cons_append, sstGetIn, sstGetIn]
      cases engine.sstGetL0 key trancId isAborted l0 none with
      | error err => rfl
      | ok best => exact sstGetLevels_pad key trancId isAborted deeper pad best

private theorem updateBestFromSst_decoded (sst : SST) (best : Option (Bytes × ℕ)) :
    updateBestFromSst sst.decoded key trancId best isAborted =
      updateBestFromSst sst key trancId best isAborted := by
  unfold updateBestFromSst
  rw [SST.get_decoded]

variable (hfind : ∀ id, engine'.ssts.find? id = (engine.ssts.find? id).map SST.decoded)
include hfind

private theorem sstAt_decoded (id : ℕ) :
    engine'.sstAt id = (engine.sstAt id).map SST.decoded := by
  rw [sstAt, sstAt, hfind]
  cases engine.ssts.find? id <;> rfl

private theorem sstGetL0_decoded (ids : List ℕ) (best : Option (Bytes × ℕ)) :
    engine'.sstGetL0 key trancId isAborted ids best =
      engine.sstGetL0 key trancId isAborted ids best := by
  induction ids generalizing best with
  | nil => rfl
  | cons id rest ih =>
      rw [sstGetL0_cons, sstGetL0_cons, sstAt_decoded hfind]
      cases engine.sstAt id with
      | error err => rfl
      | ok sst =>
          dsimp only [Except.map]
          rw [ih, updateBestFromSst_decoded]

private theorem sstGetLevel_decoded (ids : List ℕ) (best : Option (Bytes × ℕ))
    (fuel left right : ℕ) :
    engine'.sstGetLevel key trancId isAborted ids best fuel left right =
      engine.sstGetLevel key trancId isAborted ids best fuel left right := by
  induction fuel generalizing left right with
  | zero => rfl
  | succ fuel ih =>
      rw [sstGetLevel_succ, sstGetLevel_succ]
      split_ifs with hwindow
      · rw [sstAt_decoded hfind]
        cases engine.sstAt (ids.getD ((left + right) / 2) 0) with
        | error err => rfl
        | ok sst =>
            dsimp only [Except.map, SST.decoded]
            rw [ih, ih]
            exact congrArg (fun found => if sst.firstKey ≤ key ∧ key ≤ sst.lastKey then found
              else _) (congrArg Except.ok (updateBestFromSst_decoded key trancId isAborted sst best))
      · rfl

private theorem sstGetLevels_decoded (levels : List (List ℕ)) (best : Option (Bytes × ℕ)) :
    engine'.sstGetLevels key trancId isAborted levels best =
      engine.sstGetLevels key trancId isAborted levels best := by
  induction levels generalizing best with
  | nil => rfl
  | cons ids rest ih =>
      rw [sstGetLevels_cons, sstGetLevels_cons, sstGetLevel_decoded key trancId isAborted hfind]
      cases engine.sstGetLevel key trancId isAborted ids best ids.length 0 ids.length with
      | error err => rfl
      | ok best => exact ih best

/-- The files of an engine and the same files as they are read back answer alike. -/
theorem sstGet_decoded (hlevel : ∀ level, engine'.level level = engine.level level) :
    engine'.sstGet_ key trancId isAborted = engine.sstGet_ key trancId isAborted := by
  have hsame : ∀ levels, engine'.sstGetIn key trancId isAborted levels =
      engine.sstGetIn key trancId isAborted levels := by
    intro levels
    cases levels with
    | nil => rfl
    | cons l0 deeper =>
        rw [sstGetIn, sstGetIn, sstGetL0_decoded key trancId isAborted hfind]
        cases engine.sstGetL0 key trancId isAborted l0 none with
        | error err => rfl
        | ok best => exact sstGetLevels_decoded key trancId isAborted hfind deeper best
  calc engine'.sstGet_ key trancId isAborted
      = engine'.sstGetIn key trancId isAborted engine'.levelSstIds := rfl
    _ = engine.sstGetIn key trancId isAborted engine'.levelSstIds := hsame _
    _ = engine.sstGetIn key trancId isAborted
          (engine'.levelSstIds ++ List.replicate engine.levelSstIds.length []) :=
        (sstGetIn_pad key trancId isAborted _ _).symm
    _ = engine.sstGetIn key trancId isAborted
          (engine.levelSstIds ++ List.replicate engine'.levelSstIds.length []) := by
        rw [exists_pad hlevel]
    _ = engine.sstGetIn key trancId isAborted engine.levelSstIds :=
        sstGetIn_pad key trancId isAborted _ _
    _ = engine.sstGet_ key trancId isAborted := rfl

end SameTables

end Engine

/-- Without records a lookup in the memory tables finds nothing. -/
theorem MemTable.getRecord_of_empty {mem : MemTable} (hempty : mem.records = []) (key : Bytes)
    (trancId : ℕ) (isAborted : ℕ → Bool) : mem.getRecord key trancId isAborted = none := by
  have hnodes : ∀ table ∈ mem.tables, table.nodes = [] := List.flatMap_eq_nil_iff.mp hempty
  have htable : ∀ table ∈ mem.tables,
      (table.get key trancId isAborted).current? = none := by
    intro table hmem
    rw [SkipList.get, hnodes table hmem]
    rfl
  have hfrozen : ∀ (tables : List SkipList) (best : SkipListIterator), best.current? = none →
      (∀ table ∈ tables, (table.get key trancId isAborted).current? = none) →
      (tables.foldl (fun best table => better best (table.get key trancId isAborted))
        best).current? = none := by
    intro tables
    induction tables with
    | nil => exact fun _ hbest _ => hbest
    | cons table rest ih =>
        intro best hbest hall
        obtain ⟨hfirst, hrest⟩ := List.forall_mem_cons.mp hall
        apply ih _ _ hrest
        rw [better_current?, hbest, hfirst]
        rfl
  have hcurrent : mem.currentTable ∈ mem.tables := List.mem_cons_self
  rw [getRecord, copied, get_, better_current?, curGet_, htable _ hcurrent, frozenGet_,
    hfrozen _ _ rfl fun table hmem => htable table (List.mem_cons_of_mem _ hmem)]
  rfl

/-! ## The tables of a mirrored directory -/

/-- A table within the limits of its file format: numbers below 2^56 and offsets of 32
bits. -/
structure SST.WithinFormat (config : Config) (sst : SST) : Prop where
  sstId_lt : sst.sstId < 2 ^ 56
  txid_lt : ∀ entry ∈ sst.records, entry.txid < 2 ^ 56
  offsets_lt : (sst.data ++ sst.metaSection config).length < 2 ^ 32

/-- An entry of the data directory that the constructor passes over. -/
def PassedOver (entry : Bytes × Option Bytes) : Prop :=
  entry.2 = none ∨ sstNumbers entry.1 = .ok none

theorem largestId_lt {entries : List Entry} {bound : ℕ} (hpos : 0 < bound)
    (hentries : ∀ entry ∈ entries, entry.txid < bound) : largestId entries < bound := by
  induction entries using List.reverseRecOn with
  | nil => exact hpos
  | append_singleton rest entry ih =>
      rw [largestId_append]
      exact max_lt (ih fun other hmem => hentries other (List.mem_append_left _ hmem))
        (hentries entry (List.mem_append_right _ List.mem_cons_self))

theorem SST.Built.storable {config : Config} {sst : SST} (hbuilt : sst.Built config)
    (hfits : sst.WithinFormat config) : sst.Storable config sst.records := by
  obtain ⟨builder, hadd, hbuild⟩ := hbuilt
  have htxid : ∀ entry ∈ sst.records, entry.txid < 256 ^ 8 :=
    fun entry hmem => (hfits.txid_lt entry hmem).trans (by decide)
  exact ((SSTBuilder.storable_construct config true).addAll htxid hadd).build hbuild

/-- The file of a built table within the limits is read back. -/
theorem SST.Built.ofFile_fileBytes {config : Config} {params : BloomParams} {sst : SST}
    (hsizes : BloomSized config) (hbuilt : sst.Built config)
    (hfits : sst.WithinFormat config) :
    SST.ofFile config sst.sstId (sst.fileBytes config params) = .ok sst.decoded := by
  have hstorable := hbuilt.storable hfits
  apply SST.ofFile_fileBytes hstorable hsizes hfits.offsets_lt
  rw [Bool.eq_false_iff, Ne, SST.looksWiscKey_iff hstorable hfits.offsets_lt]
  rintro ⟨hmagic, -⟩
  have hlargest : largestId sst.records / 256 ^ 7 = 0 :=
    Nat.div_eq_of_lt ((largestId_lt (by decide) hfits.txid_lt).trans_le (by decide))
  rw [hlargest] at hmagic
  exact absurd hmagic (by decide)

namespace Engine

/-- The part of the table invariant that the names and contents of the files rest on.  Tables
of a level may overlap here. -/
structure Restorable (config : Config) (engine : Engine) : Prop where
  nodup : engine.levelSstIds.flatten.Nodup
  mem_iff : ∀ id, id ∈ engine.levelSstIds.flatten ↔ engine.ssts.contains id = true
  keyed : ∀ id sst, engine.ssts.find? id = some sst → sst.sstId = id
  built : ∀ id sst, engine.ssts.find? id = some sst → sst.Built config
  descending : (engine.level 0).Pairwise fun left right => left > right
  ascending : ∀ level, level ≠ 0 → (engine.level level).Pairwise fun left right => left < right
  level_le : ∀ level, ∀ id ∈ engine.level level, level ≤ id

theorem TableInvariant.restorable {config : Config} {engine : Engine}
    (htables : TableInvariant config engine) : Restorable config engine where
  nodup := htables.invariant.nodup
  mem_iff := htables.invariant.mem_iff
  keyed := htables.invariant.keyed
  built := htables.built
  descending := htables.invariant.descending
  ascending := htables.ascending
  level_le := htables.level_le

theorem Restorable.find?_isSome {config : Config} {engine : Engine}
    (htables : Restorable config engine) {level id : ℕ} (hid : id ∈ engine.level level) :
    ∃ sst, engine.ssts.find? id = some sst :=
  Option.isSome_iff_exists.mp ((htables.mem_iff id).mp (mem_level_flatten hid))

section Mirrored

variable {config : Config} {params : BloomParams} {engine : Engine} {dir : Directory}

/-- What the constructor finds in an entry. -/
def foundTable (engine : Engine) (entry : Bytes × Option Bytes) : Option (ℕ × ℕ × SST) :=
  match entry.2, sstNumbers entry.1 with
  | some _, .ok (some (sstId, level)) =>
      (engine.ssts.find? sstId).map fun sst => (sstId, level, sst.decoded)
  | _, _ => none

private theorem sstNumbers_listed (htables : Restorable config engine)
    (hfits : ∀ id sst, engine.ssts.find? id = some sst → sst.WithinFormat config)
    {level id : ℕ} (hid : id ∈ engine.level level) {sst : SST}
    (hfind : engine.ssts.find? id = some sst) :
    sstNumbers (sstName id level) = .ok (some (id, level)) := by
  have hlt : id < 2 ^ 56 := by
    rw [← htables.keyed id sst hfind]
    exact (hfits id sst hfind).sstId_lt
  exact sstNumbers_sstName (hlt.le.trans (by decide))
    (((htables.level_le level id hid).trans hlt.le).trans (by decide))

/-- An entry of a mirrored directory is the file of a listed table. -/
private theorem entry_cases (htables : Restorable config engine)
    (hmirrors : Mirrors config params engine dir)
    (hfits : ∀ id sst, engine.ssts.find? id = some sst → sst.WithinFormat config)
    {entry : Bytes × Option Bytes} (hmem : entry ∈ dir.entries) :
    ∃ level, ∃ id ∈ engine.level level, ∃ sst, engine.ssts.find? id = some sst ∧
      entry = (sstName id level, some (sst.fileBytes config params)) ∧
      engine.foundTable entry = some (id, level, sst.decoded) := by
  obtain ⟨level, id, hid, sst, hfind, hname, hcontent⟩ :=
    (hmirrors entry.1 entry.2).mp (OrdMap.find?_eq_some_iff.mpr hmem)
  refine ⟨level, id, hid, sst, hfind, Prod.ext hname hcontent, ?_⟩
  unfold foundTable
  rw [hcontent, hname, sstNumbers_listed htables hfits hid hfind]
  dsimp only
  rw [hfind]
  rfl

private theorem foundTable_passedOver {entry : Bytes × Option Bytes}
    (hpassed : PassedOver entry) :
    engine.foundTable entry = none ∧ readTable config entry = .ok none := by
  obtain ⟨name, content⟩ := entry
  cases content with
  | none => exact ⟨rfl, rfl⟩
  | some file =>
      have hname : sstNumbers name = .ok none := hpassed.resolve_left (Option.some_ne_none _)
      constructor
      · unfold foundTable
        rw [hname]
      · unfold readTable
        rw [hname]
        rfl

private theorem readTable_foundTable (hsizes : BloomSized config)
    (htables : Restorable config engine) (hmirrors : Mirrors config params engine dir)
    (hfits : ∀ id sst, engine.ssts.find? id = some sst → sst.WithinFormat config)
    {entry : Bytes × Option Bytes} (hmem : entry ∈ dir.entries) :
    readTable config entry = .ok (engine.foundTable entry) := by
  obtain ⟨level, id, hid, sst, hfind, rfl, hfound⟩ :=
    entry_cases htables hmirrors hfits hmem
  have hread := @SST.Built.ofFile_fileBytes config params sst hsizes
    (htables.built id sst hfind) (hfits id sst hfind)
  rw [htables.keyed id sst hfind] at hread
  rw [hfound, readTable]
  dsimp only
  rw [sstNumbers_listed htables hfits hid hfind]
  simp only [bind, Except.bind]
  rw [hread]
  rfl

/-- The tables that the constructor finds are the listed ones, every one once. -/
structure FoundTables (engine : Engine) (tables : List (ℕ × ℕ × SST)) : Prop where
  nodup : (tables.map Prod.fst).Nodup
  mem_iff : ∀ id level sst', (id, level, sst') ∈ tables ↔
    id ∈ engine.level level ∧ ∃ sst, engine.ssts.find? id = some sst ∧ sst' = sst.decoded

private theorem foundTables_mirrored (htables : Restorable config engine)
    (hmirrors : Mirrors config params engine dir)
    (hfits : ∀ id sst, engine.ssts.find? id = some sst → sst.WithinFormat config) :
    FoundTables engine (dir.entries.filterMap engine.foundTable) where
  nodup := by
    rw [List.map_filterMap]
    apply List.pairwise_filterMap.mpr
    apply dir.sorted.imp_of_mem
    rintro left right hleft hright hlt leftId hleftId rightId hrightId rfl
    obtain ⟨level, id, hid, sst, hfind, rfl, hfound⟩ :=
      entry_cases htables hmirrors hfits hleft
    obtain ⟨level', id', hid', sst', hfind', rfl, hfound'⟩ :=
      entry_cases htables hmirrors hfits hright
    rw [hfound] at hleftId
    rw [hfound'] at hrightId
    obtain rfl := Option.some.inj hleftId
    obtain rfl : id' = id := Option.some.inj hrightId
    obtain rfl := level_unique htables.nodup hid hid'
    exact lt_irrefl _ hlt
  mem_iff := by
    intro id level sst'
    rw [List.mem_filterMap]
    constructor
    · rintro ⟨entry, hmem, hfound⟩
      obtain ⟨level', id', hid, sst, hfind, -, hfound'⟩ :=
        entry_cases htables hmirrors hfits hmem
      rw [hfound'] at hfound
      obtain ⟨rfl, rfl, rfl⟩ := hfound
      exact ⟨hid, sst, hfind, rfl⟩
    · rintro ⟨hid, sst, hfind, rfl⟩
      have hmem : (sstName id level, some (sst.fileBytes config params)) ∈ dir.entries :=
        OrdMap.find?_eq_some_iff.mp
          ((hmirrors _ _).mpr ⟨level, id, hid, sst, hfind, rfl, rfl⟩)
      refine ⟨_, hmem, ?_⟩
      unfold foundTable
      dsimp only
      rw [sstNumbers_listed htables hfits hid hfind]
      dsimp only
      rw [hfind]
      rfl

theorem FoundTables.perm {tables tables' : List (ℕ × ℕ × SST)}
    (hfound : FoundTables engine tables) (hperm : tables'.Perm tables) :
    FoundTables engine tables' where
  nodup := (hperm.map Prod.fst).nodup_iff.mpr hfound.nodup
  mem_iff id level sst' := hperm.mem_iff.trans (hfound.mem_iff id level sst')

end Mirrored

/-! ## The engine of the constructor -/

section FoundTables

variable {config : Config} {engine : Engine} {tables : List (ℕ × ℕ × SST)}

/-- The order of every level comes from sorting its ids. -/
theorem FoundTables.sortLevel_eq (hfound : FoundTables engine tables)
    (htables : Restorable config engine) (level : ℕ) :
    sortLevel level ((tables.filter fun table => table.2.1 = level).map Prod.fst) =
      engine.level level := by
  have hnodup : ((tables.filter fun table => table.2.1 = level).map Prod.fst).Nodup :=
    hfound.nodup.sublist (List.filter_sublist.map Prod.fst)
  have hmem : ∀ id, id ∈ (tables.filter fun table => table.2.1 = level).map Prod.fst ↔
      id ∈ engine.level level := by
    intro id
    rw [List.mem_map]
    constructor
    · rintro ⟨⟨_, found, sst'⟩, htable, rfl⟩
      rw [List.mem_filter, decide_eq_true_iff] at htable
      obtain ⟨htable, rfl⟩ := htable
      exact ((hfound.mem_iff _ _ _).mp htable).1
    · intro hid
      obtain ⟨sst, hfind⟩ := htables.find?_isSome hid
      refine ⟨(id, level, sst.decoded), ?_, rfl⟩
      rw [List.mem_filter, decide_eq_true_iff]
      exact ⟨(hfound.mem_iff _ _ _).mpr ⟨hid, sst, hfind, rfl⟩, rfl⟩
  have hsorted := List.pairwise_insertionSort (fun left right : ℕ => left ≤ right)
    ((tables.filter fun table => table.2.1 = level).map Prod.fst)
  have hperm := List.perm_insertionSort (fun left right : ℕ => left ≤ right)
    ((tables.filter fun table => table.2.1 = level).map Prod.fst)
  unfold sortLevel
  dsimp only
  split_ifs with hzero
  · subst hzero
    have hdescending := htables.descending
    have hlisted := (List.perm_ext_iff_of_nodup hnodup
      (hdescending.imp fun hgt => ne_of_gt hgt)).mpr hmem
    exact ((List.reverse_perm _).trans (hperm.trans hlisted)).eq_of_pairwise'
      (List.pairwise_reverse.mpr hsorted) (hdescending.imp fun hgt => le_of_lt hgt)
  · have hascending := htables.ascending level hzero
    have hlisted := (List.perm_ext_iff_of_nodup hnodup
      (hascending.imp fun hlt => ne_of_lt hlt)).mpr hmem
    exact (hperm.trans hlisted).eq_of_pairwise' hsorted
      (hascending.imp fun hlt => le_of_lt hlt)

theorem level_mapIdx_sortLevel (levels : List (List ℕ)) (level : ℕ) :
    (levels.mapIdx sortLevel).getD level [] = sortLevel level (levels.getD level []) := by
  rw [List.getD_eq_getElem?_getD, List.getD_eq_getElem?_getD, List.getElem?_mapIdx]
  cases levels[level]? with
  | some ids => rfl
  | none =>
      rw [Option.map_none, Option.getD_none, sortLevel]
      split_ifs <;> rfl

theorem FoundTables.mem_of_find? (hfound : FoundTables engine tables)
    (htables : Restorable config engine) {id : ℕ} {sst : SST}
    (hfind : engine.ssts.find? id = some sst) :
    ∃ level, (id, level, sst.decoded) ∈ tables := by
  have hcontains : engine.ssts.contains id = true := by
    rw [OrdMap.contains, hfind]
    rfl
  obtain ⟨ids, hids, hid⟩ := List.mem_flatten.mp ((htables.mem_iff id).mpr hcontains)
  obtain ⟨level, hlevel, rfl⟩ := List.mem_iff_getElem.mp hids
  have hlisted : id ∈ engine.level level := by
    rwa [Engine.level, List.getD_eq_getElem _ _ hlevel]
  exact ⟨level, (hfound.mem_iff id level _).mpr ⟨hlisted, sst, hfind, rfl⟩⟩

/-- Every id that was found stands for the table that was built under it. -/
theorem FoundTables.find?_eq (hfound : FoundTables engine tables)
    (htables : Restorable config engine) (id : ℕ) :
    (tables.find? fun table => table.1 = id).map (fun table => table.2.2) =
      (engine.ssts.find? id).map SST.decoded := by
  cases hfind : tables.find? fun table => table.1 = id with
  | some table =>
      obtain ⟨found, level, sst'⟩ := table
      have hid := List.find?_some hfind
      obtain rfl : found = id := of_decide_eq_true hid
      obtain ⟨-, sst, hsst, rfl⟩ :=
        (hfound.mem_iff _ _ _).mp (List.mem_of_find?_eq_some hfind)
      rw [hsst]
      rfl
  | none =>
      cases hsst : engine.ssts.find? id with
      | none => rfl
      | some sst =>
          obtain ⟨level, htable⟩ := hfound.mem_of_find? htables hsst
          exact absurd (decide_eq_true rfl) (List.find?_eq_none.mp hfind _ htable)

end FoundTables

/-! ## Reopening -/

/-- What the constructor restores: the level lists, every table as it is read from its file,
and a next id above all tables. -/
structure Restored (engine reopened : Engine) : Prop where
  level_eq : ∀ level, reopened.level level = engine.level level
  find?_eq : ∀ id, reopened.ssts.find? id = (engine.ssts.find? id).map SST.decoded
  lt_next : ∀ id, engine.ssts.contains id = true → id < reopened.nextSstId
  memtable : reopened.memtable.records = []
  paths_lt : ∀ path ∈ reopened.paths, path.1 < reopened.nextSstId
  paths_nodup : (reopened.paths.map Prod.fst).Nodup

/-- The tables of a directory that mirrors an engine are restored, whatever the order of the
listing. -/
theorem openDir_mirrored {config : Config} {params : BloomParams} {engine : Engine}
    {dir : Directory} {listing others : List (Bytes × Option Bytes)}
    (hsizes : BloomSized config) (htables : Restorable config engine)
    (hmirrors : Mirrors config params engine dir)
    (hfits : ∀ id sst, engine.ssts.find? id = some sst → sst.WithinFormat config)
    (hlisting : listing.Perm (dir.entries ++ others))
    (hothers : ∀ entry ∈ others, PassedOver entry) :
    ∃ reopened, openDir config listing = .ok reopened ∧ Restored engine reopened := by
  have hread : ∀ entry ∈ listing, readTable config entry = .ok (engine.foundTable entry) := by
    intro entry hmem
    rcases List.mem_append.mp (hlisting.mem_iff.mp hmem) with hdir | hother
    · exact readTable_foundTable hsizes htables hmirrors hfits hdir
    · obtain ⟨hnone, hpassed⟩ := foundTable_passedOver (hothers entry hother)
      rw [hnone, hpassed]
  have hskipped : others.filterMap engine.foundTable = [] :=
    List.filterMap_eq_nil_iff.mpr fun entry hother =>
      (@foundTable_passedOver config _ _ (hothers entry hother)).1
  have hperm := hlisting.filterMap engine.foundTable
  rw [List.filterMap_append, hskipped, List.append_nil] at hperm
  have hfound := (foundTables_mirrored htables hmirrors hfits).perm hperm
  let start : Engine := { new with nextSstId := 0 }
  let found := (listing.filterMap engine.foundTable).foldl addTable start
  have hnext := (@nextSstId_addTables (listing.filterMap engine.foundTable) start).1
  have hpaths : found.paths = ((listing.filterMap engine.foundTable).map fun table =>
      (table.1, table.2.1)).reverse := (paths_addTables start).trans (List.append_nil _)
  refine ⟨{ found with
    nextSstId := found.nextSstId + 1
    levelSstIds := found.levelSstIds.mapIdx sortLevel }, openDir_eq hread, ?_⟩
  exact
    { level_eq := by
        intro level
        have hadded := @level_addTables (listing.filterMap engine.foundTable) start level
        rw [← hfound.sortLevel_eq htables level]
        exact (level_mapIdx_sortLevel _ _).trans (congrArg (sortLevel level) hadded)
      find?_eq := by
        intro id
        dsimp only
        rw [find?_addTables hfound.nodup, hfound.find?_eq htables]
        exact Option.or_none
      lt_next := by
        intro id hcontains
        obtain ⟨sst, hsst⟩ := Option.isSome_iff_exists.mp hcontains
        obtain ⟨level, htable⟩ := hfound.mem_of_find? htables hsst
        exact Nat.lt_succ_of_le (hnext _ htable)
      memtable := by
        dsimp only
        rw [memtable_addTables]
        rfl
      paths_lt := by
        intro path hmem
        dsimp only at hmem
        rw [hpaths, List.mem_reverse, List.mem_map] at hmem
        obtain ⟨table, htable, rfl⟩ := hmem
        exact Nat.lt_succ_of_le (hnext table htable)
      paths_nodup := by
        dsimp only
        rw [hpaths, List.map_reverse, List.map_map, List.nodup_reverse]
        exact hfound.nodup }

/-- Restored tables answer as the tables that were built. -/
theorem Restored.sstGet_eq {engine reopened : Engine} (hrestored : Restored engine reopened)
    (key : Bytes) (trancId : ℕ) (isAborted : ℕ → Bool) :
    reopened.sstGet_ key trancId isAborted = engine.sstGet_ key trancId isAborted :=
  sstGet_decoded key trancId isAborted hrestored.find?_eq hrestored.level_eq

/-- A new engine on the same directory has the same level lists, a next id above all
tables, and answers every point read alike. -/
theorem reopen_equivalent {config : Config} {params : BloomParams} (leftover : Leftover)
    {ops : List EngineOp} {engine : Engine} {listing others : List (Bytes × Option Bytes)}
    (hsizes : BloomSized config) (hrun : runOps config new ops = .ok engine)
    (hempty : engine.memtable.records = [])
    (hfits : ∀ id sst, engine.ssts.find? id = some sst → sst.WithinFormat config)
    (hlisting : listing.Perm ((dataDir config params leftover ops).entries ++ others))
    (hothers : ∀ entry ∈ others, PassedOver entry) :
    ∃ reopened, openDir config listing = .ok reopened ∧
      (∀ level, reopened.level level = engine.level level) ∧
      (∀ id, engine.ssts.contains id = true → id < reopened.nextSstId) ∧
      ∀ man key trancId requireCommitted,
        reopened.get man key trancId requireCommitted =
          engine.get man key trancId requireCommitted := by
  obtain ⟨htables, hmirrors⟩ := @mirrors_of_run config params leftover _ _ hrun
  obtain ⟨reopened, hopen, hrestored⟩ :=
    openDir_mirrored hsizes htables.restorable hmirrors hfits hlisting hothers
  refine ⟨reopened, hopen, hrestored.level_eq, hrestored.lt_next, ?_⟩
  intro man key trancId requireCommitted
  cases man with
  | none => rfl
  | some man =>
      rw [get_some, get_some, hrestored.sstGet_eq, MemTable.getRecord_of_empty hempty,
        MemTable.getRecord_of_empty hrestored.memtable]

/-- Three flushed tables, two of them merged, in a listing that starts with the log. -/
theorem reopen_equivalent_merged :
    ∃ engine reopened,
      runOps smallConfig new
        [.put [1] [7] 3, .flush, .put [2] [6] 4, .flush, .compact 0, .put [1] [5] 9, .flush] =
          .ok engine ∧
      engine.level 0 = [4] ∧ engine.level 1 = [3] ∧
      openDir smallConfig (([118, 108, 111, 103], some []) :: (dataDir smallConfig
        SST.oneKeyParams (fun _ => none) [.put [1] [7] 3, .flush, .put [2] [6] 4, .flush,
          .compact 0, .put [1] [5] 9, .flush]).entries) = .ok reopened ∧
      (∀ level, reopened.level level = engine.level level) ∧
      (∀ id, engine.ssts.contains id = true → id < reopened.nextSstId) ∧
      ∀ man key trancId requireCommitted,
        reopened.get man key trancId requireCommitted =
          engine.get man key trancId requireCommitted := by
  obtain ⟨engine, hrun, hempty, hl0, hl1, hstored⟩ : ∃ engine, runOps smallConfig new
      [.put [1] [7] 3, .flush, .put [2] [6] 4, .flush, .compact 0, .put [1] [5] 9, .flush] =
        .ok engine ∧ engine.memtable.records = [] ∧ engine.level 0 = [4] ∧
      engine.level 1 = [3] ∧ ∀ stored ∈ engine.ssts.entries,
        stored.2.sstId < 2 ^ 56 ∧ (∀ entry ∈ stored.2.records, entry.txid < 2 ^ 56) ∧
          (stored.2.data ++ stored.2.metaSection smallConfig).length < 2 ^ 32 :=
    ⟨_, rfl, rfl, rfl, rfl, by decide +kernel⟩
  have hfits : ∀ id sst, engine.ssts.find? id = some sst → sst.WithinFormat smallConfig := by
    intro id sst hfind
    obtain ⟨hid, htxid, hoffsets⟩ := hstored (id, sst) (OrdMap.find?_eq_some_iff.mp hfind)
    exact ⟨hid, htxid, hoffsets⟩
  obtain ⟨reopened, hopen, hsame⟩ := @reopen_equivalent smallConfig SST.oneKeyParams
    (fun _ => none) _ engine _ [([118, 108, 111, 103], some [])]
    ⟨by decide, by decide, by decide⟩ hrun hempty hfits
    (List.perm_append_singleton _ _).symm
    (List.forall_mem_singleton.mpr (Or.inr rfl))
  exact ⟨engine, reopened, hrun, hl0, hl1, hopen, hsame⟩

end Engine

end KopiDb
