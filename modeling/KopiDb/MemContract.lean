import KopiDb.MemAccounting
import KopiDb.MemRange

/-!
# The memory tables are one versioned map

Beside the memory tables runs a map that only remembers what was written: the writes since the
last freeze, and those of every frozen table.  After every run all read paths answer from the
map, and they agree with each other.
-/

namespace KopiDb

/-- What was written into the active table and into the frozen ones, newest first. -/
structure VersionedMap where
  active : List Entry
  frozen : List (List Entry)

/-- What happens to the tables inside a call. -/
inductive MemEvent where
  | write (entry : Entry)
  | freeze
  | pop
  | clear

namespace VersionedMap

def new : VersionedMap := ⟨[], []⟩

def versions (map : VersionedMap) : List Entry := map.active ++ map.frozen.flatten

/-- Without writes since the last freeze there is nothing to freeze. -/
def event (map : VersionedMap) : MemEvent → VersionedMap
  | .write entry => { map with active := entry :: map.active }
  | .freeze => if map.active = [] then map else ⟨[], map.active :: map.frozen⟩
  | .pop => { map with frozen := map.frozen.dropLast }
  | .clear => new

/-- The version of a key with the largest number within the bound that is not skipped; of equal
numbers the one in the newest table, written last. -/
def get (map : VersionedMap) (key : Bytes) (trancId : ℕ) (isAborted : ℕ → Bool) : Option Entry :=
  Versions.read map.versions key trancId isAborted

end VersionedMap

namespace SkipList

/-- A table after a write reflects the history with the write in front. -/
theorem reflects_put {table : SkipList} {history : List Entry}
    (hreflects : Versions.Reflects table.nodes history) (entry : Entry) :
    Versions.Reflects (table.put entry.key entry.value entry.txid).nodes (entry :: history) := by
  constructor
  · intro key txid
    rw [versionsOf_put, Versions.versionsOf_cons]
    split_ifs
    · rfl
    · exact hreflects.latest key txid
  · intro version hmem
    rcases mem_put hmem with rfl | hmem
    · exact List.mem_cons_self
    · exact List.mem_cons_of_mem _ (hreflects.subset version hmem)

/-- A table is empty where nothing was written to it. -/
theorem nodes_eq_nil_iff {table : SkipList} {history : List Entry}
    (hreflects : Versions.Reflects table.nodes history) : table.nodes = [] ↔ history = [] := by
  constructor
  · intro hnodes
    by_contra hne
    obtain ⟨entry, hmem⟩ := List.exists_mem_of_ne_nil _ hne
    have hlatest := hreflects.latest entry.key entry.txid
    rw [hnodes, Versions.versionsOf_nil, List.head?_nil, eq_comm, List.head?_eq_none_iff] at hlatest
    have hversion := Versions.mem_versionsOf.mpr ⟨hmem, rfl, rfl⟩
    rw [hlatest] at hversion
    cases hversion
  · intro hhistory
    rw [List.eq_nil_iff_forall_not_mem]
    intro entry hmem
    have hwritten := hreflects.subset entry hmem
    rw [hhistory] at hwritten
    cases hwritten

end SkipList

namespace MemTable

/-! ## The map follows the tables -/

/-- The tables hold what was written into them. -/
structure Follows (mem : MemTable) (map : VersionedMap) : Prop where
  active : Versions.Reflects mem.currentTable.nodes map.active
  frozen : List.Forall₂ (fun table history => Versions.Reflects table.nodes history)
    mem.frozenTables map.frozen

/-- The change of the tables that an event stands for. -/
def event (mem : MemTable) : MemEvent → MemTable
  | .write entry => mem.put_ entry.key entry.value entry.txid
  | .freeze => mem.frozenCurTable_
  | .pop => mem.popOldest
  | .clear => mem.clear

theorem popOldest_tables (mem : MemTable) : mem.popOldest.currentTable = mem.currentTable ∧
    mem.popOldest.frozenTables = mem.frozenTables.dropLast := by
  cases hback : mem.frozenTables.getLast? with
  | none =>
      rw [popOldest_of_none hback, List.getLast?_eq_none_iff.mp hback]
      exact ⟨rfl, rfl⟩
  | some table =>
      rw [popOldest_of_some hback]
      exact ⟨rfl, rfl⟩

theorem follows_new : Follows new VersionedMap.new := ⟨Versions.Reflects.refl _, .nil⟩

theorem Follows.event {mem : MemTable} {map : VersionedMap} (hfollows : mem.Follows map)
    (happening : MemEvent) : (mem.event happening).Follows (map.event happening) := by
  cases happening with
  | write entry => exact ⟨SkipList.reflects_put hfollows.active entry, hfollows.frozen⟩
  | freeze =>
      have hempty := SkipList.nodes_eq_nil_iff hfollows.active
      rw [MemTable.event, VersionedMap.event]
      rcases mem.frozenTables_new_or with ⟨hnodes, hsame⟩ | ⟨hnodes, hcurrent, hfrozen⟩
      · rw [hsame, if_pos (hempty.mp hnodes)]
        exact hfollows
      · rw [if_neg fun hactive => hnodes (hempty.mpr hactive)]
        constructor
        · rw [hcurrent]
          exact Versions.Reflects.refl _
        · rw [hfrozen]
          exact .cons hfollows.active hfollows.frozen
  | pop =>
      obtain ⟨hcurrent, hfrozen⟩ := mem.popOldest_tables
      constructor
      · exact hcurrent ▸ hfollows.active
      · change List.Forall₂ _ mem.popOldest.frozenTables map.frozen.dropLast
        rw [hfrozen, List.dropLast_eq_take, List.dropLast_eq_take, hfollows.frozen.length_eq]
        exact List.forall₂_take _ hfollows.frozen
  | clear => exact follows_new

/-- All records together reflect all that was written and is still in memory. -/
theorem Follows.reflects {mem : MemTable} {map : VersionedMap} (hfollows : mem.Follows map) :
    Versions.Reflects mem.records map.versions := by
  have hfrozen : ∀ {tables : List SkipList} {histories : List (List Entry)},
      List.Forall₂ (fun table history => Versions.Reflects table.nodes history) tables histories →
        Versions.Reflects (tables.flatMap SkipList.nodes) histories.flatten := by
    intro tables histories hboth
    induction hboth with
    | nil => exact Versions.Reflects.refl _
    | cons hfirst _ ih => exact hfirst.append ih
  exact hfollows.active.append (hfrozen hfollows.frozen)

/-! ## The events of a call -/

/-- The check at the end of every write. -/
def freezeEvents (config : Config) (mem : MemTable) : List MemEvent :=
  if mem.currentTable.getSize ≥ config.lsmPerMemSizeLimit then [.freeze] else []

/-- What a call does to the tables, one after the other. -/
def eventsOf (config : Config) (mem : MemTable) : MemOp → List MemEvent
  | .put key value trancId =>
      .write ⟨key, value, trancId⟩ :: (mem.put_ key value trancId).freezeEvents config
  | .putBatch kvs trancId =>
      kvs.map (fun kv => .write ⟨kv.1, kv.2, trancId⟩) ++
        (kvs.foldl (fun mem kv => mem.put_ kv.1 kv.2 trancId) mem).freezeEvents config
  | .remove key trancId =>
      .write ⟨key, [], trancId⟩ :: (mem.remove_ key trancId).freezeEvents config
  | .removeBatch keys trancId =>
      keys.map (fun key => .write ⟨key, [], trancId⟩) ++
        (keys.foldl (fun mem key => mem.remove_ key trancId) mem).freezeEvents config
  | .frozenCurTable => [.freeze]
  | .flushLast built =>
      (if mem.frozenTables.isEmpty then [.freeze] else []) ++ (if built then [.pop] else [])
  | .clear => [.clear]

theorem foldl_freezeEvents (config : Config) (mem : MemTable) :
    (mem.freezeEvents config).foldl event mem = mem.freezeIfFull config := by
  rw [freezeEvents, freezeIfFull]
  split_ifs
  · rfl
  · rfl

theorem foldl_eventsOf (config : Config) (mem : MemTable) (op : MemOp) :
    (mem.eventsOf config op).foldl event mem = mem.step config op := by
  cases op with
  | put key value trancId => exact foldl_freezeEvents config _
  | putBatch kvs trancId =>
      rw [eventsOf, List.foldl_append, List.foldl_map]
      exact foldl_freezeEvents config _
  | remove key trancId => exact foldl_freezeEvents config _
  | removeBatch keys trancId =>
      rw [eventsOf, List.foldl_append, List.foldl_map]
      exact foldl_freezeEvents config _
  | frozenCurTable => rfl
  | flushLast built =>
      rw [eventsOf, List.foldl_append, step, flushed, flushStart]
      split_ifs
      all_goals rfl
  | clear => rfl

/-! ## Runs beside the map -/

/-- A call on the memory tables, and beside it what it does to the map. -/
def stepBeside (config : Config) (state : MemTable × VersionedMap) (op : MemOp) :
    MemTable × VersionedMap :=
  (state.1.step config op, (state.1.eventsOf config op).foldl VersionedMap.event state.2)

def runBeside (config : Config) (ops : List MemOp) : MemTable × VersionedMap :=
  ops.foldl (stepBeside config) (new, VersionedMap.new)

theorem Follows.step {mem : MemTable} {map : VersionedMap} (hfollows : mem.Follows map)
    (config : Config) (op : MemOp) :
    (mem.step config op).Follows ((mem.eventsOf config op).foldl VersionedMap.event map) := by
  have hevents : ∀ (events : List MemEvent) {mem : MemTable} {map : VersionedMap},
      mem.Follows map →
        (events.foldl MemTable.event mem).Follows (events.foldl VersionedMap.event map) := by
    intro events
    induction events with
    | nil => exact fun hfollows => hfollows
    | cons happening rest ih => exact fun hfollows => ih (hfollows.event happening)
  rw [← foldl_eventsOf]
  exact hevents _ hfollows

theorem follows_runBeside (config : Config) (ops : List MemOp) :
    (runBeside config ops).1.Follows (runBeside config ops).2 := by
  have hrun : ∀ state : MemTable × VersionedMap, state.1.Follows state.2 →
      (ops.foldl (stepBeside config) state).1.Follows
        (ops.foldl (stepBeside config) state).2 := by
    induction ops with
    | nil => exact fun _ hfollows => hfollows
    | cons op rest ih => exact fun state hfollows => ih _ (hfollows.step config op)
  exact hrun _ follows_new

/-! ## The read paths -/

/-- A lookup of the empty key finds nothing, also where commit markers are stored. -/
theorem getRecord_empty (mem : MemTable) (trancId : ℕ) (isAborted : ℕ → Bool) :
    mem.getRecord [] trancId isAborted = none := by
  have htable : ∀ table : SkipList, (table.get [] trancId isAborted).current? = none := by
    intro table
    rw [SkipList.get]
    generalize table.nodes.dropWhile (fun node => decide (node.key < [])) = nodes
    induction nodes with
    | nil => rfl
    | cons node rest ih =>
        rw [SkipList.seekVisible]
        split_ifs with hkey
        · exact ih
        · exact ih
        · rw [SkipListIterator.current?]
          exact if_pos hkey
        · rfl
  have hfrozen : ∀ (tables : List SkipList) (best : SkipListIterator), best.current? = none →
      (tables.foldl (fun best table => better best (table.get [] trancId isAborted))
        best).current? = none := by
    intro tables
    induction tables with
    | nil => exact fun _ hbest => hbest
    | cons table rest ih =>
        intro best hbest
        apply ih
        rw [better_current?, hbest, htable]
        rfl
  rw [getRecord, copied, get_, better_current?, curGet_, htable, frozenGet_,
    hfrozen _ _ rfl]
  rfl

/-- What every read path shows, in the terms of the map. -/
structure Shows (mem : MemTable) (map : VersionedMap) (towers : ℕ → SkipList.Towers)
    (trancId : ℕ) (isAborted : ℕ → Bool) : Prop where
  getRecord : ∀ key ≠ [], mem.getRecord key trancId isAborted =
    (map.get key trancId isAborted).map fun entry => (entry.value, entry.txid)
  getRecord_empty : mem.getRecord [] trancId isAborted = none
  getBatch : ∀ keys, mem.getBatch keys trancId isAborted =
    keys.map fun key => (key, mem.getRecord key trancId isAborted)
  begin_ordered : ∀ skipDelete, Versions.StrictKeys
    (Cursor.toList (mem.begin trancId skipDelete isAborted))
  begin_mem : ∀ skipDelete entry, entry ∈ Cursor.toList (mem.begin trancId skipDelete isAborted) ↔
    entry.key ≠ [] ∧ map.get entry.key trancId isAborted = some entry ∧
      (skipDelete = true → entry.value ≠ [])
  itersPreffix : ∀ preffix, ∃ found, mem.itersPreffix preffix trancId isAborted = .ok found ∧
    Cursor.toList found = (Cursor.toList (mem.begin trancId true isAborted)).filter
      fun entry => decide (preffix <+: entry.key)
  itersMonotonyPredicate : ∀ predicate, MonotonePredicate predicate → ∃ found,
    mem.itersMonotonyPredicate towers trancId predicate isAborted = .ok found ∧
      found.elim [] (fun range => Cursor.toList range.1) =
        (Cursor.toList (mem.begin trancId true isAborted)).filter
          (fun entry => decide (predicate entry.key = 0)) ∧
      ∀ range, found = some range → Cursor.toList range.1 ≠ [] ∧ Cursor.toList range.2 = []

theorem Follows.shows {mem : MemTable} {map : VersionedMap} (hfollows : mem.Follows map)
    (towers : ℕ → SkipList.Towers) (trancId : ℕ) (isAborted : ℕ → Bool) :
    mem.Shows map towers trancId isAborted := by
  have hread : ∀ key, Versions.read mem.records key trancId isAborted =
      map.get key trancId isAborted := fun key =>
    Versions.read_congr (hfollows.reflects.latest key) trancId isAborted
  refine ⟨?_, mem.getRecord_empty trancId isAborted, fun keys => rfl,
    fun skipDelete => mem.strictKeys_begin trancId skipDelete isAborted, ?_,
    fun preffix => mem.itersPreffix_spec preffix trancId isAborted,
    fun predicate hmono => mem.itersMonotonyPredicate_spec towers trancId hmono isAborted⟩
  · intro key hkey
    rw [MemTable.getRecord, copied, mem.get_current? hkey, hread]
  · intro skipDelete entry
    by_cases hkey : entry.key = []
    · constructor
      · exact fun hmem => absurd hkey (mem.key_ne_nil_of_mem_begin hmem)
      · exact fun hshown => absurd hkey hshown.1
    · rw [(mem.strictKeys_begin trancId skipDelete isAborted).mem_iff_find?,
        mem.find?_begin hkey, hread, Option.filter_eq_some_iff]
      cases skipDelete <;> simp [hkey]

/-- The memory tables behave as one versioned map, in every state of every run: lookups of a
user key, single or in a batch, find its largest visible version with tombstones, a scan shows
these versions in key order, and the two range queries show their part of the scan.  The empty
key, which the commit markers use, is found by none. -/
theorem shows_runBeside (config : Config) (ops : List MemOp) (towers : ℕ → SkipList.Towers)
    (trancId : ℕ) (isAborted : ℕ → Bool) :
    (runBeside config ops).1.Shows (runBeside config ops).2 towers trancId isAborted :=
  (follows_runBeside config ops).shows towers trancId isAborted

/-- A record under the empty key is in the map and not found. -/
theorem empty_key_hidden : ¬ ∀ (config : Config) (ops : List MemOp) (key : Bytes) (trancId : ℕ)
    (isAborted : ℕ → Bool), (runBeside config ops).1.getRecord key trancId isAborted =
      ((runBeside config ops).2.get key trancId isAborted).map
        fun entry => (entry.value, entry.txid) := by
  intro hclaim
  have hempty := hclaim smallConfig [.put [] [1] 1] [] 0 (fun _ => false)
  rw [getRecord_empty] at hempty
  exact absurd hempty (by decide)

end MemTable

end KopiDb
