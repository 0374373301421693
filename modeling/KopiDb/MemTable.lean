import KopiDb.SkipList
import KopiDb.HeapIterator
import KopiDb.Sst

/-!
# Memory tables

The active table takes all writes; a full table is frozen and waits, newest
first, for its flush into a table file.
-/

namespace KopiDb

/-- `MemTable`: `frozenTables` lists the frozen tables from the newest on. -/
structure MemTable where
  currentTable : SkipList
  frozenTables : List SkipList
  frozenBytes : ℕ
  accounted : frozenBytes = (frozenTables.map SkipList.getSize).sum

namespace MemTable

theorem accounted_nil : 0 = (([] : List SkipList).map SkipList.getSize).sum := rfl

def new : MemTable := ⟨SkipList.new, [], 0, accounted_nil⟩

/-- The tables from the newest to the oldest. -/
def tables (mem : MemTable) : List SkipList := mem.currentTable :: mem.frozenTables

/-- All records, those of newer tables first. -/
def records (mem : MemTable) : List Entry := mem.tables.flatMap SkipList.nodes

def getCurSize (mem : MemTable) : ℕ := mem.currentTable.getSize

def getFrozenSize (mem : MemTable) : ℕ := mem.frozenBytes

def getTotalSize (mem : MemTable) : ℕ := mem.currentTable.getSize + mem.frozenBytes

/-! ## Writes -/

def put_ (mem : MemTable) (key value : Bytes) (trancId : ℕ) : MemTable :=
  { mem with currentTable := mem.currentTable.put key value trancId }

def remove_ (mem : MemTable) (key : Bytes) (trancId : ℕ) : MemTable :=
  { mem with currentTable := mem.currentTable.put key [] trancId }

/-- `frozen_cur_table_`: an empty table is not frozen. -/
def frozenCurTable_ (mem : MemTable) : MemTable :=
  if mem.currentTable.getSize = 0 then mem
  else
    { currentTable := SkipList.new
      frozenTables := mem.currentTable :: mem.frozenTables
      frozenBytes := mem.frozenBytes + mem.currentTable.getSize
      accounted := by
        rw [List.map_cons, List.sum_cons, ← mem.accounted, Nat.add_comm] }

/-- The check at the end of every write. -/
def freezeIfFull (mem : MemTable) (config : Config) : MemTable :=
  if mem.currentTable.getSize ≥ config.lsmPerMemSizeLimit then mem.frozenCurTable_
  else mem

def put (mem : MemTable) (config : Config) (key value : Bytes) (trancId : ℕ) : MemTable :=
  (mem.put_ key value trancId).freezeIfFull config

def putBatch (mem : MemTable) (config : Config) (kvs : List (Bytes × Bytes))
    (trancId : ℕ) : MemTable :=
  (kvs.foldl (fun mem kv => mem.put_ kv.1 kv.2 trancId) mem).freezeIfFull config

def remove (mem : MemTable) (config : Config) (key : Bytes) (trancId : ℕ) : MemTable :=
  (mem.remove_ key trancId).freezeIfFull config

def removeBatch (mem : MemTable) (config : Config) (keys : List Bytes) (trancId : ℕ) :
    MemTable :=
  (keys.foldl (fun mem key => mem.remove_ key trancId) mem).freezeIfFull config

def clear (mem : MemTable) : MemTable :=
  ⟨mem.currentTable.clear, [], 0, accounted_nil⟩

/-! ## Lookups -/

/-- Of two candidates the one with the larger number, the first one on a tie. -/
def better (best candidate : SkipListIterator) : SkipListIterator :=
  match best.current?, candidate.current? with
  | _, none => best
  | none, some _ => candidate
  | some bestEntry, some entry => if entry.txid > bestEntry.txid then candidate else best

def curGet_ (mem : MemTable) (key : Bytes) (trancId : ℕ) (isAborted : ℕ → Bool) :
    SkipListIterator :=
  mem.currentTable.get key trancId isAborted

def frozenGet_ (mem : MemTable) (key : Bytes) (trancId : ℕ) (isAborted : ℕ → Bool) :
    SkipListIterator :=
  mem.frozenTables.foldl (fun best table => better best (table.get key trancId isAborted))
    ⟨[]⟩

def get_ (mem : MemTable) (key : Bytes) (trancId : ℕ) (isAborted : ℕ → Bool) :
    SkipListIterator :=
  better (mem.curGet_ key trancId isAborted) (mem.frozenGet_ key trancId isAborted)

/-- The value and number that a lookup copies from the node it found. -/
def copied (it : SkipListIterator) : Option (Bytes × ℕ) :=
  it.current?.map fun entry => (entry.value, entry.txid)

def getRecord (mem : MemTable) (key : Bytes) (trancId : ℕ) (isAborted : ℕ → Bool) :
    Option (Bytes × ℕ) :=
  copied (mem.get_ key trancId isAborted)

def getBatch (mem : MemTable) (keys : List Bytes) (trancId : ℕ) (isAborted : ℕ → Bool) :
    List (Bytes × Option (Bytes × ℕ)) :=
  keys.map fun key => (key, copied (mem.get_ key trancId isAborted))

/-! ## Iteration -/

/-- The records of one table that `begin` collects: markers, records above the
bound and rolled-back records are left out. -/
def collect (trancId : ℕ) (isAborted : ℕ → Bool) (table : SkipList) (tableIdx : ℕ) :
    List SearchItem :=
  (table.nodes.filter fun node => decide (node.key ≠ []) &&
    Versions.visible trancId isAborted node.txid).map fun node => ⟨node, tableIdx, 0⟩

/-- The tables in the order of collection; newer tables get larger indices. -/
def collectTables (trancId : ℕ) (isAborted : ℕ → Bool) : List SkipList → List SearchItem
  | [] => []
  | table :: rest =>
      collect trancId isAborted table rest.length ++ collectTables trancId isAborted rest

/-- `MemTable::begin` -/
def begin (mem : MemTable) (trancId : ℕ) (skipDelete : Bool) (isAborted : ℕ → Bool) :
    HeapIterator :=
  HeapIterator.ofItems (collectTables trancId isAborted mem.tables) trancId skipDelete false

/-! ## Flushing -/

/-- The numbers of the commit markers: records with empty key and empty value. -/
def markerIds (entries : List Entry) : List ℕ :=
  (entries.filter fun entry => decide (entry.key = [] ∧ entry.value = [])).map
    Version.txid

/-- Take the oldest frozen table off the queue. -/
def popBack (mem : MemTable) {table : SkipList}
    (hback : mem.frozenTables.getLast? = some table) : MemTable where
  currentTable := mem.currentTable
  frozenTables := mem.frozenTables.dropLast
  frozenBytes := mem.frozenBytes - table.getSize
  accounted := by
    obtain ⟨front, hfront⟩ := List.getLast?_eq_some_iff.mp hback
    rw [mem.accounted, hfront, List.dropLast_concat, List.map_append, List.sum_append]
    simp

/-- `flush_last`: the oldest frozen table leaves the queue only after its file was
built.  Returns the table, the extended list of flushed markers and the file. -/
def flushLast (mem : MemTable) (builder : SSTBuilder) (sstId : ℕ)
    (flushedTrancIds : List ℕ) : MemTable × List ℕ × Except Err (Option SST) :=
  let mem := if mem.frozenTables.isEmpty then mem.frozenCurTable_ else mem
  match hback : mem.frozenTables.getLast? with
  | none => (mem, flushedTrancIds, .ok none)
  | some table =>
      match builder.addAll table.flush with
      | .error err => (mem, flushedTrancIds, .error err)
      | .ok builder =>
          match builder.build sstId with
          | .error err => (mem, flushedTrancIds, .error err)
          | .ok sst =>
              (mem.popBack hback, flushedTrancIds ++ markerIds table.flush, .ok (some sst))

/-! ## Records -/

theorem records_frozenCurTable_ (mem : MemTable) :
    mem.frozenCurTable_.records = mem.records := by
  unfold frozenCurTable_
  split_ifs
  · rfl
  · simp [records, tables, SkipList.new]

theorem records_freezeIfFull (mem : MemTable) (config : Config) :
    (mem.freezeIfFull config).records = mem.records := by
  unfold freezeIfFull
  split_ifs
  · exact mem.records_frozenCurTable_
  · rfl

/-- A write acts on the reads as if it were put in front of all records. -/
theorem latestAgree_put_ (mem : MemTable) (key value : Bytes) (trancId : ℕ) (other : Bytes) :
    Versions.LatestAgree (mem.put_ key value trancId).records
      (⟨key, value, trancId⟩ :: mem.records) other := by
  intro txid
  have hrecords : (mem.put_ key value trancId).records =
      (mem.currentTable.put key value trancId).nodes ++
        mem.frozenTables.flatMap SkipList.nodes := rfl
  have hbefore : mem.records =
      mem.currentTable.nodes ++ mem.frozenTables.flatMap SkipList.nodes := rfl
  rw [hrecords, hbefore, Versions.versionsOf_append, SkipList.versionsOf_put,
    Versions.versionsOf_cons]
  split_ifs
  · rfl
  · rw [Versions.versionsOf_append]

theorem reflects_put_ (mem : MemTable) (key value : Bytes) (trancId : ℕ) :
    Versions.Reflects (mem.put_ key value trancId).records
      (⟨key, value, trancId⟩ :: mem.records) := by
  refine ⟨mem.latestAgree_put_ key value trancId, fun entry hmem => ?_⟩
  have hrecords : (mem.put_ key value trancId).records =
      (mem.currentTable.put key value trancId).nodes ++
        mem.frozenTables.flatMap SkipList.nodes := rfl
  have hbefore : mem.records =
      mem.currentTable.nodes ++ mem.frozenTables.flatMap SkipList.nodes := rfl
  rw [hrecords] at hmem
  rw [hbefore, List.mem_cons, List.mem_append]
  rcases List.mem_append.mp hmem with hmem | hmem
  · exact (SkipList.mem_put hmem).imp_right Or.inl
  · exact Or.inr (Or.inr hmem)

/-- A batch of writes acts like its writes one after the other. -/
theorem reflects_foldl_put_ {α : Type} (keyOf valueOf : α → Bytes) (trancId : ℕ)
    (batch : List α) (mem : MemTable) :
    Versions.Reflects
      (batch.foldl (fun mem item => mem.put_ (keyOf item) (valueOf item) trancId) mem).records
      ((batch.map fun item => (⟨keyOf item, valueOf item, trancId⟩ : Entry)).reverse ++
        mem.records) := by
  induction batch generalizing mem with
  | nil => exact Versions.Reflects.refl _
  | cons item rest ih =>
      have hput := mem.reflects_put_ (keyOf item) (valueOf item) trancId
      rw [List.foldl_cons, List.map_cons, List.reverse_cons, List.append_assoc,
        List.singleton_append]
      exact (ih _).trans ((Versions.Reflects.refl _).append hput)

/-! ## Lookups answer from the records -/

theorem better_current? (best candidate : SkipListIterator) :
    (better best candidate).current? =
      Versions.prefer best.current? candidate.current? := by
  unfold better
  cases hbest : best.current? with
  | none =>
      cases hcandidate : candidate.current? with
      | none => simpa using hbest
      | some entry => simpa using hcandidate
  | some bestEntry =>
      cases hcandidate : candidate.current? with
      | none => simpa using hbest
      | some entry =>
          rw [Versions.prefer_some_some]
          dsimp only
          split_ifs
          · exact hcandidate
          · exact hbest

private theorem foldl_better {key : Bytes} (hkey : key ≠ []) (trancId : ℕ)
    (isAborted : ℕ → Bool) (tables : List SkipList) (best : SkipListIterator) :
    (tables.foldl (fun best table => better best (table.get key trancId isAborted))
        best).current? =
      Versions.prefer best.current?
        (Versions.read (tables.flatMap SkipList.nodes) key trancId isAborted) := by
  induction tables generalizing best with
  | nil => simp
  | cons table rest ih =>
      rw [List.foldl_cons, ih, better_current?, SkipList.get_current? table hkey,
        List.flatMap_cons, Versions.read_append, Versions.prefer_assoc]

/-- A lookup of a user key answers with the newest visible version over all
tables. -/
theorem get_current? (mem : MemTable) {key : Bytes} (hkey : key ≠ []) (trancId : ℕ)
    (isAborted : ℕ → Bool) :
    (mem.get_ key trancId isAborted).current? =
      Versions.read mem.records key trancId isAborted := by
  have hempty : (⟨[]⟩ : SkipListIterator).current? = none := rfl
  rw [get_, better_current?, curGet_, SkipList.get_current? _ hkey, frozenGet_,
    foldl_better hkey, hempty, Versions.prefer_none_left, ← Versions.read_append]
  rfl

/-! ## Iteration shows the records -/

private theorem collectTables_entries (trancId : ℕ) (isAborted : ℕ → Bool)
    (tables : List SkipList) :
    (collectTables trancId isAborted tables).map SearchItem.entry =
      (tables.flatMap SkipList.nodes).filter fun node =>
        decide (node.key ≠ []) && Versions.visible trancId isAborted node.txid := by
  induction tables with
  | nil => rfl
  | cons table rest ih =>
      have hcollect : (collect trancId isAborted table rest.length).map SearchItem.entry =
          table.nodes.filter fun node => decide (node.key ≠ []) &&
            Versions.visible trancId isAborted node.txid := by
        rw [collect, List.map_map]
        exact List.map_id _
      rw [collectTables, List.map_append, ih, hcollect, List.flatMap_cons,
        List.filter_append]

/-- Items of equal key and number come from different tables, newer ones first. -/
theorem collectTables_ranked (trancId : ℕ) (isAborted : ℕ → Bool)
    (tables : List SkipList) :
    (∀ item ∈ collectTables trancId isAborted tables, item.idx < tables.length) ∧
      (collectTables trancId isAborted tables).Pairwise fun left right =>
        left.entry.key = right.entry.key → left.entry.txid = right.entry.txid →
          right.idx < left.idx := by
  induction tables with
  | nil => exact ⟨by simp [collectTables], List.Pairwise.nil⟩
  | cons table rest ih =>
      have hidx : ∀ item ∈ collect trancId isAborted table rest.length,
          item.idx = rest.length := by
        intro item hmem
        obtain ⟨node, -, rfl⟩ := List.mem_map.mp hmem
        rfl
      constructor
      · intro item hmem
        rw [List.length_cons]
        rcases List.mem_append.mp hmem with hmem | hmem
        · rw [hidx item hmem]
          exact Nat.lt_succ_self _
        · exact (ih.1 item hmem).trans (Nat.lt_succ_self _)
      · refine List.pairwise_append.mpr ⟨?_, ih.2, ?_⟩
        · refine List.pairwise_map.mpr ?_
          refine (table.ordered.distinct.filter _).imp ?_
          intro left right hdistinct hkey htxid
          exact absurd ⟨hkey, htxid⟩ hdistinct
        · intro left hleft right hright _ _
          rw [hidx left hleft]
          exact ih.1 right hright

theorem strictKeys_begin (mem : MemTable) (trancId : ℕ) (skipDelete : Bool)
    (isAborted : ℕ → Bool) :
    Versions.StrictKeys (Cursor.toList (mem.begin trancId skipDelete isAborted)) := by
  rw [begin, HeapIterator.toList_ofItems]
  exact HeapIterator.strictKeys_render _ _ _

/-- Iterating the tables shows under a user key what a lookup of the key finds. -/
theorem find?_begin (mem : MemTable) {key : Bytes} (hkey : key ≠ []) (trancId : ℕ)
    (skipDelete : Bool) (isAborted : ℕ → Bool) :
    (Cursor.toList (mem.begin trancId skipDelete isAborted)).find?
        (fun entry => entry.key = key) =
      (Versions.read mem.records key trancId isAborted).filter fun entry =>
        !(skipDelete && decide (entry.value = [])) := by
  have hsame := heapOf_sameVersions (collectTables_ranked trancId isAborted mem.tables).2
  rw [begin, HeapIterator.toList_ofItems, HeapIterator.find?_render,
    Versions.read_congr (hsame.latestAgree key), collectTables_entries]
  congr 1
  exact Versions.read_filter_visible (fun key => decide (key ≠ [])) (by simpa using hkey)
    trancId isAborted

/-- Only records within the bound are iterated. -/
theorem visible_of_mem_begin (mem : MemTable) {trancId : ℕ} {skipDelete : Bool}
    {isAborted : ℕ → Bool} {entry : Entry}
    (hmem : entry ∈ Cursor.toList (mem.begin trancId skipDelete isAborted)) :
    Versions.visible trancId (fun _ => false) entry.txid := by
  rw [begin, HeapIterator.toList_ofItems, HeapIterator.render] at hmem
  exact (Versions.mem_shown (List.mem_of_mem_filter hmem)).2

/-- Commit markers are not iterated. -/
theorem key_ne_nil_of_mem_begin (mem : MemTable) {trancId : ℕ} {skipDelete : Bool}
    {isAborted : ℕ → Bool} {entry : Entry}
    (hmem : entry ∈ Cursor.toList (mem.begin trancId skipDelete isAborted)) :
    entry.key ≠ [] := by
  rw [begin, HeapIterator.toList_ofItems, HeapIterator.render] at hmem
  have hshown := (Versions.mem_shown (List.mem_of_mem_filter hmem)).1
  have hitems := ((heapOf_perm _).map SearchItem.entry).mem_iff.mp hshown
  rw [collectTables_entries] at hitems
  have hkeep := List.of_mem_filter hitems
  simp only [Bool.and_eq_true, decide_eq_true_eq] at hkeep
  exact hkeep.1

/-! ## A flush moves one table -/

private theorem records_popBack (mem : MemTable) {table : SkipList}
    (hback : mem.frozenTables.getLast? = some table) :
    (mem.popBack hback).records ++ table.nodes = mem.records := by
  obtain ⟨front, hfront⟩ := List.getLast?_eq_some_iff.mp hback
  simp only [records, tables, popBack, hfront, List.dropLast_concat, List.flatMap_cons,
    List.flatMap_append, List.flatMap_nil, List.append_nil, List.append_assoc]

/-- What a flush can do: fail or find nothing and keep all records, or move the
records of the oldest table into a well-formed file. -/
theorem flushLast_cases (mem : MemTable) (config : Config) (sstId : ℕ)
    (flushedTrancIds : List ℕ) {mem' : MemTable} {flushed : List ℕ}
    {result : Except Err (Option SST)}
    (hflush : mem.flushLast (SSTBuilder.new config) sstId flushedTrancIds =
      (mem', flushed, result)) :
    (mem'.records = mem.records ∧ flushed = flushedTrancIds ∧ ∀ sst, result ≠ .ok (some sst)) ∨
      ∃ sst, result = .ok (some sst) ∧ sst.WellFormed ∧ sst.sstId = sstId ∧
        NodesOrdered sst.records ∧ mem'.records ++ sst.records = mem.records ∧
        flushed = flushedTrancIds ++ markerIds sst.records := by
  have hfrozen : ∀ mem : MemTable, (if mem.frozenTables.isEmpty then mem.frozenCurTable_
      else mem).records = mem.records := by
    intro mem
    split_ifs
    · exact mem.records_frozenCurTable_
    · rfl
  unfold flushLast at hflush
  dsimp only at hflush
  have hrecords := hfrozen mem
  generalize (if mem.frozenTables.isEmpty then mem.frozenCurTable_ else mem) = frozen
    at hflush hrecords
  split at hflush
  next hback =>
      obtain ⟨rfl, rfl, rfl⟩ := hflush
      exact Or.inl ⟨hrecords, rfl, by simp⟩
  next table hback =>
      split at hflush
      next err _ =>
          obtain ⟨rfl, rfl, rfl⟩ := hflush
          exact Or.inl ⟨hrecords, rfl, by simp⟩
      next builder hadd =>
          split at hflush
          next err _ =>
              obtain ⟨rfl, rfl, rfl⟩ := hflush
              exact Or.inl ⟨hrecords, rfl, by simp⟩
          next sst hbuild =>
              obtain ⟨rfl, rfl, rfl⟩ := hflush
              have hholds := (SSTBuilder.holds_new config).addAll
                (by rw [List.nil_append]; exact table.ordered.sorted) hadd
              rw [List.nil_append] at hholds
              obtain ⟨hsst, hsstRecords, hsstId⟩ := hholds.build hbuild
              refine Or.inr ⟨sst, rfl, hsst, hsstId, ?_, ?_, ?_⟩
              · rw [hsstRecords]
                exact table.ordered
              · rw [hsstRecords, ← hrecords]
                exact frozen.records_popBack hback
              · rw [hsstRecords, SkipList.flush]

end MemTable

end KopiDb
