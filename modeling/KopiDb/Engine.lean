import KopiDb.MemTable
import KopiDb.SstIterator
import KopiDb.TwoMergeIterator
import KopiDb.Lib.OrdMap

/-!
# The storage engine

The engine keeps the memory tables, the table files and the list of file ids of
every level.  Values are stored inline.  A call that throws keeps what it had
done to the engine until then.
-/

namespace KopiDb

/-- The part of the transaction manager that reads ask: `is_aborted` and
`should_skip_read`. -/
structure ReadPolicy where
  isAborted : ℕ → Bool
  shouldSkipRead : ℕ → Bool → Bool

/-- `LSMEngine`.  `levelSstIds` is indexed by the level; a level behind the end of the
list is not in the map of the source.  `paths` records every pair of file id and
level that `get_sst_path` was asked for, the latest first. -/
structure Engine where
  memtable : MemTable
  levelSstIds : List (List ℕ)
  ssts : OrdMap ℕ SST
  nextSstId : ℕ
  curMaxLevel : ℕ
  paths : List (ℕ × ℕ)

/-- What a flush reports: the largest number in the new file, and the transactions it
passes to `add_flushed_tranc_id`. -/
structure Flushed where
  maxTrancId : ℕ
  flushedTrancIds : List ℕ
  deriving DecidableEq, Repr

/-- `level_sst_ids[level] = ids`, which creates the levels up to `level`. -/
def setLevel {α : Type} : List (List α) → ℕ → List α → List (List α)
  | [], 0, ids => [ids]
  | [], level + 1, ids => [] :: setLevel [] level ids
  | _ :: rest, 0, ids => ids :: rest
  | first :: rest, level + 1, ids => first :: setLevel rest level ids

namespace Engine

/-- The constructor on an empty directory. -/
def new : Engine where
  memtable := MemTable.new
  levelSstIds := []
  ssts := ∅
  nextSstId := 1
  curMaxLevel := 0
  paths := []

/-- `level_sst_ids[level]` -/
def level (engine : Engine) (level : ℕ) : List ℕ := engine.levelSstIds.getD level []

/-- `ssts.at(id)` -/
def sstAt (engine : Engine) (id : ℕ) : Except Err SST :=
  match engine.ssts.find? id with
  | none => .error (.outOfRange "unordered_map::at")
  | some sst => .ok sst

/-- `ssts[id]` and the access through the pointer it returns. -/
def sstOf (engine : Engine) (id : ℕ) : Except Err SST :=
  match engine.ssts.find? id with
  | none => .error .nullAccess
  | some sst => .ok sst

/-! ## Point reads -/

/-- `update_best_from_sst`, with what the lookup in the file found. -/
def updateBest (candidate : Option Entry) (best : Option (Bytes × ℕ)) :
    Option (Bytes × ℕ) :=
  match candidate with
  | none => best
  | some candidate =>
      match best with
      | none => some (candidate.value, candidate.txid)
      | some found =>
          if candidate.txid > found.2 then some (candidate.value, candidate.txid) else best

section Search

variable (engine : Engine) (lookup : SST → Except Err (Option Entry))

/-- The search of `sst_get_` in level 0: every file. -/
def searchL0 : List ℕ → Option (Bytes × ℕ) → Except Err (Option (Bytes × ℕ))
  | [], best => .ok best
  | id :: rest, best =>
      match engine.sstAt id with
      | .error err => .error err
      | .ok sst =>
          match lookup sst with
          | .error err => .error err
          | .ok candidate => searchL0 rest (updateBest candidate best)

/-- At most `fuel` rounds of the bisection of `sst_get_` in one deeper level. -/
def searchLevel (key : Bytes) (ids : List ℕ) (best : Option (Bytes × ℕ)) :
    ℕ → ℕ → ℕ → Except Err (Option (Bytes × ℕ))
  | 0, _, _ => .ok best
  | fuel + 1, left, right =>
      if left < right then
        let mid := (left + right) / 2
        match engine.sstAt (ids.getD mid 0) with
        | .error err => .error err
        | .ok sst =>
            if sst.firstKey ≤ key ∧ key ≤ sst.lastKey then
              match lookup sst with
              | .error err => .error err
              | .ok candidate => .ok (updateBest candidate best)
            else if sst.lastKey < key then searchLevel key ids best fuel (mid + 1) right
            else searchLevel key ids best fuel left mid
      else .ok best

def searchLevels (key : Bytes) :
    List (List ℕ) → Option (Bytes × ℕ) → Except Err (Option (Bytes × ℕ))
  | [], best => .ok best
  | ids :: rest, best =>
      match searchLevel engine lookup key ids best ids.length 0 ids.length with
      | .error err => .error err
      | .ok best => searchLevels key rest best

/-- `sst_get_` with a given lookup in a file. -/
def search (key : Bytes) : Except Err (Option (Bytes × ℕ)) :=
  match engine.levelSstIds with
  | [] => .ok none
  | l0 :: deeper =>
      match searchL0 engine lookup l0 none with
      | .error err => .error err
      | .ok best => searchLevels engine lookup key deeper best

end Search

/-! The lookups below are those of files whose blocks can all be read; `TableReads` has the
ones that throw what `read_block` throws. -/

/-- The lookup of `update_best_from_sst`. -/
def lookupIn (key : Bytes) (trancId : ℕ) (isAborted : ℕ → Bool) (sst : SST) :
    Except Err (Option Entry) :=
  .ok (sst.get key trancId isAborted).current?

/-- `update_best_from_sst` -/
def updateBestFromSst (sst : SST) (key : Bytes) (trancId : ℕ)
    (best : Option (Bytes × ℕ)) (isAborted : ℕ → Bool) : Option (Bytes × ℕ) :=
  updateBest (sst.get key trancId isAborted).current? best

def sstGetL0 (engine : Engine) (key : Bytes) (trancId : ℕ) (isAborted : ℕ → Bool) :
    List ℕ → Option (Bytes × ℕ) → Except Err (Option (Bytes × ℕ)) :=
  engine.searchL0 (lookupIn key trancId isAborted)

def sstGetLevel (engine : Engine) (key : Bytes) (trancId : ℕ) (isAborted : ℕ → Bool)
    (ids : List ℕ) (best : Option (Bytes × ℕ)) : ℕ → ℕ → ℕ →
    Except Err (Option (Bytes × ℕ)) :=
  engine.searchLevel (lookupIn key trancId isAborted) key ids best

def sstGetLevels (engine : Engine) (key : Bytes) (trancId : ℕ) (isAborted : ℕ → Bool) :
    List (List ℕ) → Option (Bytes × ℕ) → Except Err (Option (Bytes × ℕ)) :=
  engine.searchLevels (lookupIn key trancId isAborted) key

/-- `sst_get_` -/
def sstGet_ (engine : Engine) (key : Bytes) (trancId : ℕ) (isAborted : ℕ → Bool) :
    Except Err (Option (Bytes × ℕ)) :=
  engine.search (lookupIn key trancId isAborted) key

section

variable (engine : Engine) (key : Bytes) (trancId : ℕ) (isAborted : ℕ → Bool)

theorem sstGetL0_nil (best : Option (Bytes × ℕ)) :
    engine.sstGetL0 key trancId isAborted [] best = .ok best := rfl

theorem sstGetL0_cons (id : ℕ) (rest : List ℕ) (best : Option (Bytes × ℕ)) :
    engine.sstGetL0 key trancId isAborted (id :: rest) best =
      match engine.sstAt id with
      | .error err => .error err
      | .ok sst => engine.sstGetL0 key trancId isAborted rest
          (updateBestFromSst sst key trancId best isAborted) := rfl

theorem sstGetLevel_succ (ids : List ℕ) (best : Option (Bytes × ℕ)) (fuel left right : ℕ) :
    engine.sstGetLevel key trancId isAborted ids best (fuel + 1) left right =
      if left < right then
        match engine.sstAt (ids.getD ((left + right) / 2) 0) with
        | .error err => .error err
        | .ok sst =>
            if sst.firstKey ≤ key ∧ key ≤ sst.lastKey then
              .ok (updateBestFromSst sst key trancId best isAborted)
            else if sst.lastKey < key then
              engine.sstGetLevel key trancId isAborted ids best fuel
                ((left + right) / 2 + 1) right
            else engine.sstGetLevel key trancId isAborted ids best fuel left ((left + right) / 2)
      else .ok best := rfl

theorem sstGetLevels_nil (best : Option (Bytes × ℕ)) :
    engine.sstGetLevels key trancId isAborted [] best = .ok best := rfl

theorem sstGetLevels_cons (ids : List ℕ) (rest : List (List ℕ)) (best : Option (Bytes × ℕ)) :
    engine.sstGetLevels key trancId isAborted (ids :: rest) best =
      match engine.sstGetLevel key trancId isAborted ids best ids.length 0 ids.length with
      | .error err => .error err
      | .ok best => engine.sstGetLevels key trancId isAborted rest best := rfl

theorem sstGet_eq_levels : engine.sstGet_ key trancId isAborted =
    match engine.levelSstIds with
    | [] => .ok none
    | l0 :: deeper =>
        match engine.sstGetL0 key trancId isAborted l0 none with
        | .error err => .error err
        | .ok best => engine.sstGetLevels key trancId isAborted deeper best := rfl

end

/-- A file candidate replaces the memory candidate when its number is larger; a
deletion that wins means that there is no value. -/
def resolve (best sstRet : Option (Bytes × ℕ)) : Option (Bytes × ℕ) :=
  let best := match best, sstRet with
    | best, none => best
    | none, some found => some found
    | some memory, some found => if found.2 > memory.2 then some found else some memory
  match best with
  | none => none
  | some found => if found.1 = [] then none else some found

section From

variable (engine : Engine)
  (sstGet : Bytes → ℕ → (ℕ → Bool) → Except Err (Option (Bytes × ℕ)))

/-- `LSMEngine::get` with a given search of the files; `man` is the locked transaction
manager. -/
def getFrom (man : Option ReadPolicy) (key : Bytes) (trancId : ℕ)
    (requireCommitted : Bool) : Except Err (Option (Bytes × ℕ)) :=
  match man with
  | none => .error (.runtimeError "LSMEngine::get: transaction manager has expired")
  | some man =>
      let shouldSkip := fun id => man.shouldSkipRead id requireCommitted
      let best := engine.memtable.getRecord key trancId shouldSkip
      match sstGet key trancId shouldSkip with
      | .error err => .error err
      | .ok sstRet => .ok (resolve best sstRet)

/-- The loop of `get_batch` over the memory candidates. -/
def resolveBatchFrom (trancId : ℕ) (isAborted : ℕ → Bool) :
    List (Bytes × Option (Bytes × ℕ)) → Except Err (List (Bytes × Option (Bytes × ℕ)))
  | [] => .ok []
  | (key, best) :: rest =>
      match sstGet key trancId isAborted with
      | .error err => .error err
      | .ok sstRet =>
          match resolveBatchFrom trancId isAborted rest with
          | .error err => .error err
          | .ok results => .ok ((key, resolve best sstRet) :: results)

/-- `LSMEngine::get_batch` with a given search of the files. -/
def getBatchFrom (man : Option ReadPolicy) (keys : List Bytes) (trancId : ℕ) :
    Except Err (List (Bytes × Option (Bytes × ℕ))) :=
  match man with
  | none =>
      .error (.runtimeError "LSMEngine::get_batch: transaction manager is unavailable")
  | some man =>
      resolveBatchFrom sstGet trancId man.isAborted
        (engine.memtable.getBatch keys trancId man.isAborted)

end From

/-- `LSMEngine::get` -/
def get (engine : Engine) (man : Option ReadPolicy) (key : Bytes) (trancId : ℕ)
    (requireCommitted : Bool) : Except Err (Option (Bytes × ℕ)) :=
  engine.getFrom engine.sstGet_ man key trancId requireCommitted

def resolveBatch (engine : Engine) (trancId : ℕ) (isAborted : ℕ → Bool) :
    List (Bytes × Option (Bytes × ℕ)) → Except Err (List (Bytes × Option (Bytes × ℕ))) :=
  resolveBatchFrom engine.sstGet_ trancId isAborted

/-- `LSMEngine::get_batch` -/
def getBatch (engine : Engine) (man : Option ReadPolicy) (keys : List Bytes)
    (trancId : ℕ) : Except Err (List (Bytes × Option (Bytes × ℕ))) :=
  engine.getBatchFrom engine.sstGet_ man keys trancId

theorem get_some (engine : Engine) (man : ReadPolicy) (key : Bytes) (trancId : ℕ)
    (requireCommitted : Bool) :
    engine.get (some man) key trancId requireCommitted =
      match engine.sstGet_ key trancId fun id => man.shouldSkipRead id requireCommitted with
      | .error err => .error err
      | .ok sstRet => .ok (resolve (engine.memtable.getRecord key trancId
          fun id => man.shouldSkipRead id requireCommitted) sstRet) := rfl

theorem resolveBatch_cons (engine : Engine) (trancId : ℕ) (isAborted : ℕ → Bool) (key : Bytes)
    (best : Option (Bytes × ℕ)) (rest : List (Bytes × Option (Bytes × ℕ))) :
    engine.resolveBatch trancId isAborted ((key, best) :: rest) =
      match engine.sstGet_ key trancId isAborted with
      | .error err => .error err
      | .ok sstRet =>
          match engine.resolveBatch trancId isAborted rest with
          | .error err => .error err
          | .ok results => .ok ((key, resolve best sstRet) :: results) := rfl

theorem getBatch_some (engine : Engine) (man : ReadPolicy) (keys : List Bytes) (trancId : ℕ) :
    engine.getBatch (some man) keys trancId = engine.resolveBatch trancId man.isAborted
      (engine.memtable.getBatch keys trancId man.isAborted) := rfl

/-! ## Compaction -/

/-- Give out the next file id and the path for it. -/
def takeSstId (engine : Engine) (targetLevel : ℕ) : Engine × ℕ :=
  ({ engine with
      nextSstId := engine.nextSstId + 1
      paths := (engine.nextSstId, targetLevel) :: engine.paths }, engine.nextSstId)

/-- The variables of `gen_sst_from_iter`. -/
structure GenState where
  engine : Engine
  newSsts : List SST
  builder : SSTBuilder
  hasPendingEntries : Bool

/-- Build a file from the records collected so far and start over. -/
def GenState.emit (config : Config) (targetLevel : ℕ) (state : GenState) :
    Except (Engine × Err) GenState :=
  let taken := state.engine.takeSstId targetLevel
  match state.builder.build taken.2 with
  | .error err => .error (taken.1, err)
  | .ok sst =>
      .ok { engine := taken.1
            newSsts := state.newSsts ++ [sst]
            builder := SSTBuilder.new config
            hasPendingEntries := false }

/-- One round of the loop of `gen_sst_from_iter`: no cut inside a key. -/
def genStep (config : Config) (targetSstSize targetLevel : ℕ) (state : GenState)
    (entry : Entry) (following : Option Entry) : Except (Engine × Err) GenState :=
  match state.builder.add entry.key entry.value entry.txid with
  | .error err => .error (state.engine, err)
  | .ok builder =>
      let state := { state with builder := builder, hasPendingEntries := true }
      if config.readFails targetLevel entry then
        .error (state.engine, .runtimeError "Failed to read from file")
      else
        let nextIsSameKey := following.any fun other => decide (other.key = entry.key)
        if !nextIsSameKey && decide (builder.estimatedSize ≥ targetSstSize) then
          state.emit config targetLevel
        else .ok state

/-- `gen_sst_from_iter` -/
def genSstFromIter {ι : Type} [Cursor ι Entry] (config : Config) (engine : Engine)
    (iter : ι) (targetSstSize targetLevel : ℕ) : Engine × Except Err (List SST) :=
  let start : GenState := ⟨engine, [], SSTBuilder.new config, false⟩
  match Cursor.forEach (genStep config targetSstSize targetLevel) iter start with
  | .error (engine, err) => (engine, .error err)
  | .ok state =>
      if state.hasPendingEntries then
        match state.emit config targetLevel with
        | .error (engine, err) => (engine, .error err)
        | .ok state => (state.engine, .ok state.newSsts)
      else (state.engine, .ok state.newSsts)

/-- `SstIterator::merge_sst_iterator`: drain all iterators into one queue. -/
def mergeSstIterator (iterVec : List SstIterator) (keepAllVersions : Bool) :
    HeapIterator :=
  if iterVec.isEmpty then HeapIterator.empty true false
  else
    let items := iterVec.flatMap fun iter =>
      (Cursor.toList iter).map fun entry => ⟨entry, iter.sst.sstId, 0⟩
    ⟨heapOf items, 0, false, keepAllVersions⟩

/-- The reader of a compaction sees every record. -/
def skipNothing : ℕ → Bool := fun _ => false

/-- `full_l0_l1_compact` -/
def fullL0L1Compact (config : Config) (engine : Engine) (l0Ids l1Ids : List ℕ) :
    Engine × Except Err (List SST) :=
  match l0Ids.mapM engine.sstOf, l1Ids.mapM engine.sstOf with
  | .ok l0Ssts, .ok l1Ssts =>
      let l0Iters := l0Ssts.map fun sst => SstIterator.begin sst 0 true skipNothing
      let l0Begin := mergeSstIterator l0Iters true
      let oldL1Begin := ConcactIterator.new l1Ssts 0 true skipNothing
      let l0L1Begin := TwoMergeIterator.new l0Begin oldL1Begin 0 true
      genSstFromIter config engine l0L1Begin
        (config.lsmPerMemSizeLimit * config.lsmSstLevelRatio) 1
  | .error err, _ => (engine, .error err)
  | .ok _, .error err => (engine, .error err)

/-- `get_sst_size`; the power is exact as long as a `double` holds it. -/
def getSstSize (config : Config) (level : ℕ) : ℕ :=
  if level = 0 then config.lsmPerMemSizeLimit
  else config.lsmPerMemSizeLimit * config.lsmSstLevelRatio ^ level

/-- `full_common_compact` -/
def fullCommonCompact (config : Config) (engine : Engine) (lxIds lyIds : List ℕ)
    (levelY : ℕ) : Engine × Except Err (List SST) :=
  match lxIds.mapM engine.sstOf, lyIds.mapM engine.sstOf with
  | .ok lxSsts, .ok lySsts =>
      let oldLxBegin := ConcactIterator.new lxSsts 0 true skipNothing
      let oldLyBegin := ConcactIterator.new lySsts 0 true skipNothing
      let lxLyBegin := TwoMergeIterator.new oldLxBegin oldLyBegin 0 true
      genSstFromIter config engine lxLyBegin (getSstSize config levelY) levelY
  | .error err, _ => (engine, .error err)
  | .ok _, .error err => (engine, .error err)

/-- The bookkeeping of `full_compact` after the merge: the old files go, the new ones
become the level below. -/
def install (engine : Engine) (srcLevel : ℕ) (newSsts : List SST) : Engine :=
  let oldIds := engine.level srcLevel ++ engine.level (srcLevel + 1)
  let newIds := newSsts.map SST.sstId
  { engine with
    ssts := newSsts.foldl (fun ssts sst => ssts.insert sst.sstId sst)
      (oldIds.foldl (fun ssts id => ssts.erase id) engine.ssts)
    levelSstIds := setLevel (setLevel engine.levelSstIds srcLevel []) (srcLevel + 1)
      (newIds.insertionSort fun left right => left ≤ right)
    curMaxLevel := max engine.curMaxLevel (srcLevel + 1) }

/-- `full_compact`, `fuel` levels deep at most. -/
def fullCompact (config : Config) : ℕ → Engine → ℕ → Engine × Except Err Unit
  | 0, engine, _ => (engine, .error .diverges)
  | fuel + 1, engine, srcLevel =>
      andThen
        (if (engine.level (srcLevel + 1)).length ≥ config.lsmSstLevelRatio then
          fullCompact config fuel engine (srcLevel + 1)
        else (engine, .ok ()))
        fun engine _ =>
          let lxIds := engine.level srcLevel
          let lyIds := engine.level (srcLevel + 1)
          andThen
            (if srcLevel = 0 then fullL0L1Compact config engine lxIds lyIds
            else fullCommonCompact config engine lxIds lyIds (srcLevel + 1))
            fun engine newSsts => (engine.install srcLevel newSsts, .ok ())

/-- A compaction that is called from outside; no recursion goes below the last
level that holds files. -/
def compact (config : Config) (engine : Engine) (srcLevel : ℕ) : Engine × Except Err Unit :=
  fullCompact config (engine.levelSstIds.length + 1) engine srcLevel

/-! ## Writes -/

/-- `LSMEngine::flush` -/
def flush (config : Config) (engine : Engine) : Engine × Except Err Flushed :=
  if engine.memtable.getTotalSize = 0 then (engine, .ok ⟨0, []⟩)
  else
    andThen
      (if engine.levelSstIds ≠ [] ∧ (engine.level 0).length ≥ config.lsmSstLevelRatio then
        engine.compact config 0
      else (engine, .ok ()))
      fun engine _ =>
        let taken := engine.takeSstId 0
        let flushed := engine.memtable.flushLast (SSTBuilder.new config) taken.2 []
        let engine := { taken.1 with memtable := flushed.1 }
        match flushed.2.2 with
        | .error err => (engine, .error err)
        | .ok none => (engine, .ok ⟨0, []⟩)
        | .ok (some sst) =>
            ({ engine with
                ssts := engine.ssts.insert taken.2 sst
                levelSstIds := setLevel engine.levelSstIds 0 (taken.2 :: engine.level 0) },
              .ok ⟨sst.maxTrancId, flushed.2.1⟩)

/-- The end of every write: flush when the memory tables have grown too large. -/
def flushIfFull (config : Config) (engine : Engine) : Engine × Except Err Flushed :=
  if engine.memtable.getTotalSize ≥ config.lsmTolMemSizeLimit then engine.flush config
  else (engine, .ok ⟨0, []⟩)

def put (config : Config) (engine : Engine) (key value : Bytes) (trancId : ℕ) :
    Engine × Except Err Flushed :=
  flushIfFull config
    { engine with memtable := engine.memtable.put config key value trancId }

def putBatch (config : Config) (engine : Engine) (kvs : List (Bytes × Bytes))
    (trancId : ℕ) : Engine × Except Err Flushed :=
  flushIfFull config { engine with memtable := engine.memtable.putBatch config kvs trancId }

def remove (config : Config) (engine : Engine) (key : Bytes) (trancId : ℕ) :
    Engine × Except Err Flushed :=
  flushIfFull config { engine with memtable := engine.memtable.remove config key trancId }

def removeBatch (config : Config) (engine : Engine) (keys : List Bytes) (trancId : ℕ) :
    Engine × Except Err Flushed :=
  flushIfFull config
    { engine with memtable := engine.memtable.removeBatch config keys trancId }

def clear (engine : Engine) : Engine :=
  { engine with memtable := engine.memtable.clear, levelSstIds := [], ssts := ∅ }

end Engine

end KopiDb
