import KopiDb.TranContext
import KopiDb.EngineContract

/-!
# Accounting of the memory tables

The byte counts are kept as the source keeps them, as numbers next to the tables, and a
subtraction that would go below zero has no result.  Every run of the memory tables has a
result, its counts are those of the records it holds, and a flush that does not throw makes
them smaller; so the loops that flush come to their end.
-/

namespace KopiDb

/-- `a -= b` on `size_t`, as long as it does not wrap. -/
def sub? (a b : ℕ) : Option ℕ := if b ≤ a then some (a - b) else none

theorem sub?_of_le {a b : ℕ} (hle : b ≤ a) : sub? a b = some (a - b) := if_pos hle

/-- `SkipList`: the nodes and `size_bytes`. -/
structure RawTable where
  nodes : List Entry
  sizeBytes : ℕ

namespace RawTable

def new : RawTable := ⟨[], 0⟩

/-- `SkipList::put` -/
def put (table : RawTable) (key value : Bytes) (trancId : ℕ) : Option RawTable :=
  let node : Entry := ⟨key, value, trancId⟩
  match SkipList.notSmaller table.nodes node with
  | [] =>
      some ⟨SkipList.smaller table.nodes node ++ [node],
        table.sizeBytes + (key.length + value.length + 8)⟩
  | candidate :: rest =>
      if candidate.key = key ∧ candidate.txid = trancId then
        (sub? table.sizeBytes candidate.value.length).map fun size =>
          ⟨SkipList.smaller table.nodes node ++ { candidate with value := value } :: rest,
            size + value.length⟩
      else
        some ⟨SkipList.smaller table.nodes node ++ node :: candidate :: rest,
          table.sizeBytes + (key.length + value.length + 8)⟩

end RawTable

/-- `MemTable`: the tables and `frozen_bytes`. -/
structure RawMem where
  currentTable : RawTable
  frozenTables : List RawTable
  frozenBytes : ℕ

namespace RawMem

def new : RawMem := ⟨RawTable.new, [], 0⟩

/-- All records, those of newer tables first. -/
def records (mem : RawMem) : List Entry :=
  (mem.currentTable :: mem.frozenTables).flatMap RawTable.nodes

def getTotalSize (mem : RawMem) : ℕ := mem.currentTable.sizeBytes + mem.frozenBytes

def put_ (mem : RawMem) (key value : Bytes) (trancId : ℕ) : Option RawMem :=
  (mem.currentTable.put key value trancId).map fun table => { mem with currentTable := table }

/-- `frozen_cur_table_` -/
def frozenCurTable_ (mem : RawMem) : RawMem :=
  if mem.currentTable.sizeBytes = 0 then mem
  else
    { currentTable := RawTable.new
      frozenTables := mem.currentTable :: mem.frozenTables
      frozenBytes := mem.frozenBytes + mem.currentTable.sizeBytes }

/-- The check at the end of every write. -/
def freezeIfFull (mem : RawMem) (config : Config) : RawMem :=
  if mem.currentTable.sizeBytes ≥ config.lsmPerMemSizeLimit then mem.frozenCurTable_ else mem

def remove_ (mem : RawMem) (key : Bytes) (trancId : ℕ) : Option RawMem := mem.put_ key [] trancId

def put (mem : RawMem) (config : Config) (key value : Bytes) (trancId : ℕ) : Option RawMem :=
  (mem.put_ key value trancId).map fun mem => mem.freezeIfFull config

def putBatch (mem : RawMem) (config : Config) (kvs : List (Bytes × Bytes)) (trancId : ℕ) :
    Option RawMem :=
  (kvs.foldlM (fun (mem : RawMem) kv => mem.put_ kv.1 kv.2 trancId) mem).map fun mem =>
    mem.freezeIfFull config

def remove (mem : RawMem) (config : Config) (key : Bytes) (trancId : ℕ) : Option RawMem :=
  (mem.remove_ key trancId).map fun mem => mem.freezeIfFull config

def removeBatch (mem : RawMem) (config : Config) (keys : List Bytes) (trancId : ℕ) :
    Option RawMem :=
  (keys.foldlM (fun (mem : RawMem) key => mem.remove_ key trancId) mem).map fun mem =>
    mem.freezeIfFull config

/-- `clear` -/
def clear (_ : RawMem) : RawMem := ⟨RawTable.new, [], 0⟩

/-- `flush_last`; `built` tells whether the file of the oldest table was built, at whatever
step it failed. -/
def flushLast (mem : RawMem) (built : Bool) : Option RawMem :=
  let mem := if mem.frozenTables.isEmpty then mem.frozenCurTable_ else mem
  match mem.frozenTables.getLast? with
  | none => some mem
  | some table =>
      if built then
        (sub? mem.frozenBytes table.sizeBytes).map fun bytes =>
          { mem with frozenTables := mem.frozenTables.dropLast, frozenBytes := bytes }
      else some mem

end RawMem

/-! ## The model with its proofs forgets to the source -/

def SkipList.raw (table : SkipList) : RawTable := ⟨table.nodes, table.sizeBytes⟩

def MemTable.raw (mem : MemTable) : RawMem :=
  ⟨mem.currentTable.raw, mem.frozenTables.map SkipList.raw, mem.frozenBytes⟩

namespace SkipList

/-- The value that an overwriting `put` takes off is counted. -/
theorem length_value_le {table : SkipList} {entry : Entry} (hmem : entry ∈ table.nodes) :
    entry.value.length ≤ table.sizeBytes := by
  have hle : memSize entry ≤ (table.nodes.map memSize).sum :=
    List.single_le_sum (fun _ _ => Nat.zero_le _) _ (List.mem_map_of_mem hmem)
  rw [← table.accounted, memSize] at hle
  omega

theorem put_raw (table : SkipList) (key value : Bytes) (trancId : ℕ) :
    table.raw.put key value trancId = some (table.put key value trancId).raw := by
  generalize hput : table.put key value trancId = result
  unfold put at hput
  dsimp only at hput
  split at hput
  next hrest =>
    rw [RawTable.put, raw, raw, ← hput]
    dsimp only
    rw [hrest]
  next candidate rest hrest =>
    rw [RawTable.put, raw, raw]
    dsimp only
    rw [hrest]
    dsimp only
    split_ifs at hput ⊢ with hsame
    · have hmem : candidate ∈ table.nodes := by
        rw [← smaller_append_notSmaller table.nodes ⟨key, value, trancId⟩, hrest]
        exact List.mem_append_right _ List.mem_cons_self
      rw [sub?_of_le (length_value_le hmem), ← hput]
      rfl
    · rw [← hput]

/-- A table counts no bytes exactly where it is empty. -/
theorem sizeBytes_eq_zero_iff (table : SkipList) : table.sizeBytes = 0 ↔ table.nodes = [] := by
  constructor
  · intro hzero
    cases hnodes : table.nodes with
    | nil => rfl
    | cons entry rest =>
        have hcounted := table.accounted
        rw [hzero, hnodes, List.map_cons, List.sum_cons, memSize] at hcounted
        omega
  · intro hnodes
    rw [table.accounted, hnodes]
    rfl

end SkipList

namespace MemTable

theorem put_raw_ (mem : MemTable) (key value : Bytes) (trancId : ℕ) :
    mem.raw.put_ key value trancId = some (mem.put_ key value trancId).raw := by
  rw [RawMem.put_, show mem.raw.currentTable = mem.currentTable.raw from rfl, SkipList.put_raw]
  rfl

theorem frozenCurTable_raw_ (mem : MemTable) :
    mem.raw.frozenCurTable_ = mem.frozenCurTable_.raw := by
  rw [RawMem.frozenCurTable_, frozenCurTable_]
  split_ifs with hraw hsize hsize
  · rfl
  · exact absurd hraw hsize
  · exact absurd hsize hraw
  · rfl

theorem freezeIfFull_raw (mem : MemTable) (config : Config) :
    mem.raw.freezeIfFull config = (mem.freezeIfFull config).raw := by
  rw [RawMem.freezeIfFull, freezeIfFull, show mem.raw.currentTable.sizeBytes =
    mem.currentTable.getSize from rfl]
  split_ifs
  · exact mem.frozenCurTable_raw_
  · rfl

/-- A batch of writes on the counts. -/
private theorem foldlM_put_ {α : Type} (keyOf valueOf : α → Bytes) (trancId : ℕ)
    (batch : List α) (mem : MemTable) :
    batch.foldlM (fun (mem : RawMem) item => mem.put_ (keyOf item) (valueOf item) trancId)
        mem.raw =
      some (batch.foldl
        (fun mem item => mem.put_ (keyOf item) (valueOf item) trancId) mem).raw := by
  induction batch generalizing mem with
  | nil => rfl
  | cons item rest ih =>
      rw [List.foldlM_cons, put_raw_, List.foldl_cons]
      exact ih _

/-- No frozen table is empty. -/
def NoneEmpty (mem : MemTable) : Prop := ∀ table ∈ mem.frozenTables, table.nodes ≠ []

/-- The memory tables as `flush_last` finds them. -/
def flushStart (mem : MemTable) : MemTable :=
  if mem.frozenTables.isEmpty then mem.frozenCurTable_ else mem

/-- The memory tables without the oldest frozen one. -/
def popOldest (mem : MemTable) : MemTable :=
  match hback : mem.frozenTables.getLast? with
  | none => mem
  | some _ => mem.popBack hback

/-- The memory tables after `flush_last`; `built` tells whether the file was built. -/
def flushed (mem : MemTable) (built : Bool) : MemTable :=
  if built then mem.flushStart.popOldest else mem.flushStart

theorem popOldest_of_none {mem : MemTable} (hnone : mem.frozenTables.getLast? = none) :
    mem.popOldest = mem := by
  unfold popOldest
  split
  next => rfl
  next table hback => rw [hnone] at hback; cases hback

theorem popOldest_of_some {mem : MemTable} {table : SkipList}
    (hback : mem.frozenTables.getLast? = some table) : mem.popOldest = mem.popBack hback := by
  unfold popOldest
  split
  next hnone => rw [hnone] at hback; cases hback
  next other hother =>
    obtain rfl := Option.some.inj (hother.symm.trans hback)
    rfl

theorem frozenTables_new_or (mem : MemTable) :
    (mem.currentTable.nodes = [] ∧ mem.frozenCurTable_ = mem) ∨
      (mem.currentTable.nodes ≠ [] ∧
        mem.frozenCurTable_.currentTable = SkipList.new ∧
          mem.frozenCurTable_.frozenTables = mem.currentTable :: mem.frozenTables) := by
  rw [frozenCurTable_]
  split_ifs with hsize
  · exact Or.inl ⟨mem.currentTable.sizeBytes_eq_zero_iff.mp hsize, rfl⟩
  · exact Or.inr ⟨fun hnil => hsize (mem.currentTable.sizeBytes_eq_zero_iff.mpr hnil), rfl, rfl⟩

theorem NoneEmpty.frozenCurTable_ {mem : MemTable} (hnone : mem.NoneEmpty) :
    mem.frozenCurTable_.NoneEmpty := by
  rcases mem.frozenTables_new_or with ⟨-, hsame⟩ | ⟨hnodes, -, hfrozen⟩
  · rwa [hsame]
  · rw [NoneEmpty, hfrozen]
    exact List.forall_mem_cons.mpr ⟨hnodes, hnone⟩

theorem NoneEmpty.freezeIfFull {mem : MemTable} (hnone : mem.NoneEmpty) (config : Config) :
    (mem.freezeIfFull config).NoneEmpty := by
  rw [MemTable.freezeIfFull]
  split_ifs
  · exact hnone.frozenCurTable_
  · exact hnone

theorem frozenTables_foldl_put_ {α : Type} (keyOf valueOf : α → Bytes) (trancId : ℕ)
    (batch : List α) (mem : MemTable) :
    (batch.foldl (fun mem item => mem.put_ (keyOf item) (valueOf item) trancId)
      mem).frozenTables = mem.frozenTables := by
  induction batch generalizing mem with
  | nil => rfl
  | cons item rest ih => exact ih _

theorem NoneEmpty.flushStart {mem : MemTable} (hnone : mem.NoneEmpty) :
    mem.flushStart.NoneEmpty := by
  rw [MemTable.flushStart]
  split_ifs
  · exact hnone.frozenCurTable_
  · exact hnone

theorem NoneEmpty.popOldest {mem : MemTable} (hnone : mem.NoneEmpty) :
    mem.popOldest.NoneEmpty := by
  cases hback : mem.frozenTables.getLast? with
  | none => rwa [popOldest_of_none hback]
  | some table =>
      rw [popOldest_of_some hback]
      exact fun table hmem => hnone table (List.mem_of_mem_dropLast hmem)

theorem NoneEmpty.flushed {mem : MemTable} (hnone : mem.NoneEmpty) (built : Bool) :
    (mem.flushed built).NoneEmpty := by
  cases built with
  | true => exact hnone.flushStart.popOldest
  | false => exact hnone.flushStart

theorem flushed_raw (mem : MemTable) (built : Bool) :
    mem.raw.flushLast built = some (mem.flushed built).raw := by
  have hstart : (if mem.raw.frozenTables.isEmpty then mem.raw.frozenCurTable_ else mem.raw) =
      mem.flushStart.raw := by
    rw [show mem.raw.frozenTables = mem.frozenTables.map SkipList.raw from rfl, List.isEmpty_map,
      flushStart]
    split_ifs
    · exact mem.frozenCurTable_raw_
    · rfl
  rw [RawMem.flushLast, hstart, flushed]
  generalize mem.flushStart = start
  have hlast : start.raw.frozenTables.getLast? = start.frozenTables.getLast?.map SkipList.raw :=
    List.getLast?_map
  cases hback : start.frozenTables.getLast? with
  | none =>
      rw [hback] at hlast
      simp only [hlast, Option.map_none, popOldest_of_none hback, ite_self]
  | some table =>
      have hle : table.sizeBytes ≤ start.frozenBytes := by
        rw [start.accounted]
        exact List.single_le_sum (fun _ _ => Nat.zero_le _) _
          (List.mem_map_of_mem (List.mem_of_getLast? hback))
      have hpopped : { start.raw with
          frozenTables := start.raw.frozenTables.dropLast
          frozenBytes := start.frozenBytes - table.sizeBytes } = (start.popBack hback).raw :=
        congrArg (RawMem.mk start.currentTable.raw · _) List.map_dropLast.symm
      rw [hback] at hlast
      simp only [hlast, Option.map_some, popOldest_of_some hback]
      split_ifs
      · rw [show start.raw.frozenBytes = start.frozenBytes from rfl,
          show table.raw.sizeBytes = table.sizeBytes from rfl, sub?_of_le hle, Option.map_some,
          hpopped]
      · rfl

/-- What `flush_last` does to the memory tables depends only on whether the file was built. -/
theorem flushLast_eq_flushed (mem : MemTable) (builder : SSTBuilder) (sstId : ℕ)
    (flushedTrancIds : List ℕ) :
    ((mem.flushLast builder sstId flushedTrancIds).1 = mem.flushed false ∧
        ∃ err, (mem.flushLast builder sstId flushedTrancIds).2.2 = .error err) ∨
      ((mem.flushLast builder sstId flushedTrancIds).1 = mem.flushed true ∧
        ∃ found, (mem.flushLast builder sstId flushedTrancIds).2.2 = .ok found) := by
  rw [flushed, flushed, if_neg Bool.false_ne_true, if_pos rfl, flushLast]
  rw [show (if mem.frozenTables.isEmpty then mem.frozenCurTable_ else mem) = mem.flushStart
    from rfl]
  generalize mem.flushStart = start
  split
  next hback => exact Or.inr ⟨(popOldest_of_none hback).symm, _, rfl⟩
  next table hback =>
    split
    next err herr => exact Or.inl ⟨rfl, err, rfl⟩
    next builder hadded =>
      split
      next err herr => exact Or.inl ⟨rfl, err, rfl⟩
      next sst hbuilt => exact Or.inr ⟨(popOldest_of_some hback).symm, _, rfl⟩

/-! ## Progress of a flush -/

/-- The tables that hold records: how often a flush finds one. -/
def rounds (mem : MemTable) : ℕ :=
  mem.frozenTables.length + if mem.currentTable.nodes = [] then 0 else 1

theorem getTotalSize_flushStart (mem : MemTable) :
    mem.flushStart.getTotalSize = mem.getTotalSize := by
  rw [flushStart, frozenCurTable_]
  split_ifs
  · rfl
  · change 0 + (mem.frozenBytes + mem.currentTable.getSize) = _
    rw [getTotalSize]
    omega
  · rfl

theorem rounds_flushStart (mem : MemTable) : mem.flushStart.rounds = mem.rounds := by
  rw [flushStart]
  split_ifs
  · rcases mem.frozenTables_new_or with ⟨-, hsame⟩ | ⟨hnodes, hcurrent, hfrozen⟩
    · rw [hsame]
    · rw [rounds, rounds, hcurrent, hfrozen, if_neg hnodes]
      rfl
  · rfl

/-- Memory tables that count bytes have a frozen table when the flush starts. -/
theorem exists_oldest {mem : MemTable} (hpos : 0 < mem.getTotalSize) :
    ∃ table, mem.flushStart.frozenTables.getLast? = some table := by
  rw [← Option.isSome_iff_exists, List.getLast?_isSome, flushStart]
  split_ifs with hempty
  · rcases mem.frozenTables_new_or with ⟨hnodes, -⟩ | ⟨-, -, hfrozen⟩
    · rw [List.isEmpty_iff] at hempty
      rw [getTotalSize, mem.accounted, hempty, show mem.currentTable.getSize = 0 from
        mem.currentTable.sizeBytes_eq_zero_iff.mpr hnodes] at hpos
      exact absurd hpos (lt_irrefl 0)
    · rw [hfrozen]
      exact List.cons_ne_nil _ _
  · rwa [List.isEmpty_iff] at hempty

/-- A flush that builds its file takes a table with records away. -/
theorem flushed_lt {mem : MemTable} (hnone : mem.NoneEmpty) (hpos : 0 < mem.getTotalSize) :
    (mem.flushed true).getTotalSize < mem.getTotalSize ∧
      (mem.flushed true).rounds < mem.rounds := by
  obtain ⟨table, hback⟩ := exists_oldest hpos
  have hmem := List.mem_of_getLast? hback
  have hsize : table.getSize ≠ 0 := fun hzero =>
    hnone.flushStart table hmem (table.sizeBytes_eq_zero_iff.mp hzero)
  have hcounted : table.getSize ≤ mem.flushStart.frozenBytes := by
    rw [mem.flushStart.accounted]
    exact List.single_le_sum (fun _ _ => Nat.zero_le _) _ (List.mem_map_of_mem hmem)
  have hlength := List.length_pos_of_mem hmem
  rw [flushed, if_pos rfl, popOldest_of_some hback, ← getTotalSize_flushStart mem,
    ← rounds_flushStart mem]
  constructor
  · change mem.flushStart.currentTable.getSize + (mem.flushStart.frozenBytes - table.getSize) < _
    rw [getTotalSize]
    omega
  · change mem.flushStart.frozenTables.dropLast.length + _ < _
    rw [rounds, List.length_dropLast]
    change _ + (if mem.flushStart.currentTable.nodes = [] then 0 else 1) < _
    omega

end MemTable

/-! ## Runs of the memory tables -/

/-- A call on the memory tables.  A flush builds its file or fails on the way. -/
inductive MemOp where
  | put (key value : Bytes) (trancId : ℕ)
  | putBatch (kvs : List (Bytes × Bytes)) (trancId : ℕ)
  | remove (key : Bytes) (trancId : ℕ)
  | removeBatch (keys : List Bytes) (trancId : ℕ)
  | frozenCurTable
  | flushLast (built : Bool)
  | clear

namespace RawMem

def step (config : Config) (mem : RawMem) : MemOp → Option RawMem
  | .put key value trancId => mem.put config key value trancId
  | .putBatch kvs trancId => mem.putBatch config kvs trancId
  | .remove key trancId => mem.remove config key trancId
  | .removeBatch keys trancId => mem.removeBatch config keys trancId
  | .frozenCurTable => some mem.frozenCurTable_
  | .flushLast built => mem.flushLast built
  | .clear => some mem.clear

def run (config : Config) (ops : List MemOp) (mem : RawMem) : Option RawMem :=
  ops.foldlM (step config) mem

/-- The counts are those of the records, and no frozen table is empty. -/
structure Accounted (mem : RawMem) : Prop where
  frozenBytes : mem.frozenBytes = (mem.frozenTables.map RawTable.sizeBytes).sum
  noneEmpty : ∀ table ∈ mem.frozenTables, table.nodes ≠ []
  total : mem.getTotalSize = (mem.records.map memSize).sum

end RawMem

namespace MemTable

theorem NoneEmpty.accounted {mem : MemTable} (hnone : mem.NoneEmpty) : mem.raw.Accounted where
  frozenBytes := by
    rw [show mem.raw.frozenBytes = mem.frozenBytes from rfl, mem.accounted,
      show mem.raw.frozenTables = mem.frozenTables.map SkipList.raw from rfl, List.map_map]
    rfl
  noneEmpty := by
    intro table hmem
    obtain ⟨frozen, hfrozen, rfl⟩ := List.mem_map.mp hmem
    exact hnone frozen hfrozen
  total := by
    have hsum : ∀ tables : List SkipList, (tables.map SkipList.getSize).sum =
        (((tables.map SkipList.raw).flatMap RawTable.nodes).map memSize).sum := by
      intro tables
      induction tables with
      | nil => rfl
      | cons table rest ih =>
          rw [List.map_cons, List.sum_cons, ih, List.map_cons, List.flatMap_cons, List.map_append,
            List.sum_append, SkipList.getSize, table.accounted]
          rfl
    change mem.currentTable.getSize + mem.frozenBytes = _
    rw [mem.accounted, ← List.sum_cons, ← List.map_cons, hsum]
    rfl

def step (config : Config) (mem : MemTable) : MemOp → MemTable
  | .put key value trancId => mem.put config key value trancId
  | .putBatch kvs trancId => mem.putBatch config kvs trancId
  | .remove key trancId => mem.remove config key trancId
  | .removeBatch keys trancId => mem.removeBatch config keys trancId
  | .frozenCurTable => mem.frozenCurTable_
  | .flushLast built => mem.flushed built
  | .clear => mem.clear

/-- One call on counts that belong to tables leaves counts that belong to tables. -/
theorem step_raw (config : Config) (mem : MemTable) (op : MemOp) :
    mem.raw.step config op = some (mem.step config op).raw := by
  have hwrites {α : Type} (keyOf valueOf : α → Bytes) (trancId : ℕ) (batch : List α) :
      (batch.foldlM (fun (mem : RawMem) item => mem.put_ (keyOf item) (valueOf item) trancId)
        mem.raw).map (fun mem => mem.freezeIfFull config) =
          some ((batch.foldl (fun mem item => mem.put_ (keyOf item) (valueOf item) trancId)
            mem).freezeIfFull config).raw := by
    rw [foldlM_put_, Option.map_some, freezeIfFull_raw]
  cases op with
  | put key value trancId =>
      have hput := hwrites Prod.fst Prod.snd trancId [(key, value)]
      simp only [List.foldlM_cons, List.foldlM_nil, bind_pure] at hput
      exact hput
  | putBatch kvs trancId => exact hwrites Prod.fst Prod.snd trancId kvs
  | remove key trancId =>
      have hremove := hwrites id (fun _ => []) trancId [key]
      simp only [List.foldlM_cons, List.foldlM_nil, bind_pure] at hremove
      exact hremove
  | removeBatch keys trancId => exact hwrites id (fun _ => []) trancId keys
  | frozenCurTable => exact congrArg some mem.frozenCurTable_raw_
  | flushLast built => exact mem.flushed_raw built
  | clear => rfl

theorem NoneEmpty.step {mem : MemTable} (hnone : mem.NoneEmpty) (config : Config) (op : MemOp) :
    (mem.step config op).NoneEmpty := by
  have hwrites {α : Type} (keyOf valueOf : α → Bytes) (trancId : ℕ) (batch : List α) :
      ((batch.foldl (fun mem item => mem.put_ (keyOf item) (valueOf item) trancId)
        mem).freezeIfFull config).NoneEmpty := by
    apply NoneEmpty.freezeIfFull
    rw [NoneEmpty, frozenTables_foldl_put_]
    exact hnone
  cases op with
  | put key value trancId => exact hwrites Prod.fst Prod.snd trancId [(key, value)]
  | putBatch kvs trancId => exact hwrites Prod.fst Prod.snd trancId kvs
  | remove key trancId => exact hwrites id (fun _ => []) trancId [key]
  | removeBatch keys trancId => exact hwrites id (fun _ => []) trancId keys
  | frozenCurTable => exact hnone.frozenCurTable_
  | flushLast built => exact hnone.flushed built
  | clear => exact List.forall_mem_nil _

/-- No run of the memory tables takes more off a count than is there. -/
theorem exists_of_run (config : Config) (ops : List MemOp) :
    ∃ mem : MemTable, RawMem.run config ops RawMem.new = some mem.raw ∧ mem.NoneEmpty := by
  have hrun : ∀ start : MemTable, start.NoneEmpty →
      ∃ mem : MemTable, RawMem.run config ops start.raw = some mem.raw ∧ mem.NoneEmpty := by
    intro start hstart
    induction ops generalizing start with
    | nil => exact ⟨start, rfl, hstart⟩
    | cons op rest ih =>
        obtain ⟨mem, hmem, hnone⟩ := ih (start.step config op) (hstart.step config op)
        refine ⟨mem, ?_, hnone⟩
        rw [RawMem.run, List.foldlM_cons, step_raw]
        exact hmem
  exact hrun MemTable.new (List.forall_mem_nil _)

end MemTable

/-! ## The flush of the engine -/

namespace Engine

/-- A flush of the engine that does not throw is a flush of the memory tables that builds its
file; the compaction in front of it leaves them alone. -/
theorem flush_memtable_of_ok {config : Config} {engine : Engine} {flushed : Flushed}
    (hpos : 0 < engine.memtable.getTotalSize)
    (hok : (engine.flush config).2 = .ok flushed) :
    (engine.flush config).1.memtable = engine.memtable.flushed true := by
  have hcompacted : (engine.compactFullL0 config).1.memtable = engine.memtable := by
    rw [compactFullL0]
    split_ifs
    · exact fullCompact_memtable config _ engine 0
    · rfl
  rw [flush_eq, if_neg (Nat.pos_iff_ne_zero.mp hpos)] at hok ⊢
  rcases andThen_cases (engine.compactFullL0 config) (fun engine _ => engine.flushTable config)
    with ⟨err, -, hrun⟩ | ⟨done, -, hrun⟩
  · rw [hrun] at hok
    cases hok
  · rw [hrun] at hok ⊢
    rw [← hcompacted]
    generalize (engine.compactFullL0 config).1 = compacted at hok ⊢
    unfold flushTable at hok ⊢
    dsimp only at hok ⊢
    rcases compacted.memtable.flushLast_eq_flushed (SSTBuilder.new config)
      (compacted.takeSstId 0).2 [] with ⟨-, err, herr⟩ | ⟨hmem, found, hfound⟩
    · rw [herr] at hok
      cases hok
    · rw [hfound]
      cases found with
      | none => exact hmem
      | some sst => exact hmem

end Engine

/-! ## The loops that flush -/

namespace LSM

theorem flush_ok_cases {config : Config} {lsm lsm' : LSM}
    (hflush : lsm.flush config = (lsm', .ok ())) :
    ∃ flushed, (lsm.engine.flush config).2 = .ok flushed ∧
      lsm'.engine = (lsm.engine.flush config).1 := by
  rw [flush, notify] at hflush
  split at hflush
  next err herr => cases hflush
  next flushed hok =>
    obtain ⟨rfl, -⟩ := hflush
    exact ⟨flushed, hok, rfl⟩

/-- Flushes as long as the bytes in memory ask for it, at most `fuel` of them. -/
def flushLoop (config : Config) (goOn : ℕ → Prop) [DecidablePred goOn] :
    ℕ → LSM → LSM × Except Err Unit
  | 0, lsm => (lsm, .error .diverges)
  | fuel + 1, lsm =>
      if goOn lsm.engine.memtable.getTotalSize then
        andThen (lsm.flush config) fun lsm _ => flushLoop config goOn fuel lsm
      else (lsm, .ok ())

/-- `flush_all` -/
def flushAll (config : Config) (lsm : LSM) : LSM × Except Err Unit :=
  flushLoop config (fun total => total > 0) (TranContext.flushFuel lsm) lsm

/-- The loop of `commit` goes on while the bytes reach the limit, but not without any. -/
def ReachesLimit (config : Config) (total : ℕ) : Prop :=
  ¬(total = 0 ∨ total < config.lsmTolMemSizeLimit)

instance (config : Config) : DecidablePred (ReachesLimit config) := fun _ =>
  inferInstanceAs (Decidable (¬_))

theorem flushWhileFull_eq (config : Config) (fuel : ℕ) (lsm : LSM) :
    TranContext.flushWhileFull config fuel lsm =
      flushLoop config (ReachesLimit config) fuel lsm := by
  induction fuel generalizing lsm with
  | zero => rfl
  | succ fuel ih =>
      rw [TranContext.flushWhileFull, flushLoop]
      by_cases hreaches : ReachesLimit config lsm.engine.memtable.getTotalSize
      · rw [if_neg hreaches, if_pos hreaches]
        exact congrArg (andThen (lsm.flush config)) (funext fun lsm => funext fun _ => ih lsm)
      · rw [if_pos (not_not.mp hreaches), if_neg hreaches]

/-- The loop itself, which nothing but its own end bounds. -/
inductive FlushLoop (config : Config) (goOn : ℕ → Prop) : LSM → LSM × Except Err Unit → Prop
  | done {lsm : LSM} (hstop : ¬ goOn lsm.engine.memtable.getTotalSize) :
      FlushLoop config goOn lsm (lsm, .ok ())
  | thrown {lsm lsm' : LSM} {err : Err} (hgoOn : goOn lsm.engine.memtable.getTotalSize)
      (hflush : lsm.flush config = (lsm', .error err)) :
      FlushLoop config goOn lsm (lsm', .error err)
  | round {lsm lsm' : LSM} {outcome : LSM × Except Err Unit}
      (hgoOn : goOn lsm.engine.memtable.getTotalSize)
      (hflush : lsm.flush config = (lsm', .ok ())) (hrest : FlushLoop config goOn lsm' outcome) :
      FlushLoop config goOn lsm outcome

/-- A flush that does not throw leaves fewer bytes, in fewer tables. -/
theorem flush_lt {config : Config} {lsm lsm' : LSM} (hnone : lsm.engine.memtable.NoneEmpty)
    (hpos : 0 < lsm.engine.memtable.getTotalSize) (hflush : lsm.flush config = (lsm', .ok ())) :
    lsm'.engine.memtable.NoneEmpty ∧
      lsm'.engine.memtable.getTotalSize < lsm.engine.memtable.getTotalSize ∧
        lsm'.engine.memtable.rounds < lsm.engine.memtable.rounds := by
  obtain ⟨flushed, hok, hengine⟩ := flush_ok_cases hflush
  have hmem := Engine.flush_memtable_of_ok hpos hok
  rw [← hengine] at hmem
  rw [hmem]
  exact ⟨hnone.flushed true, MemTable.flushed_lt hnone hpos⟩

/-- The loop comes to its end before the bound on its rounds does. -/
theorem flushLoop_ends (config : Config) {goOn : ℕ → Prop} [DecidablePred goOn]
    (hempty : ¬ goOn 0) {fuel : ℕ} {lsm : LSM} (hnone : lsm.engine.memtable.NoneEmpty)
    (hfuel : lsm.engine.memtable.rounds < fuel) :
    FlushLoop config goOn lsm (flushLoop config goOn fuel lsm) := by
  induction fuel generalizing lsm with
  | zero => exact absurd hfuel (Nat.not_lt_zero _)
  | succ fuel ih =>
      rw [flushLoop]
      by_cases hgoOn : goOn lsm.engine.memtable.getTotalSize
      · rw [if_pos hgoOn]
        have hpos : 0 < lsm.engine.memtable.getTotalSize := by
          apply Nat.pos_of_ne_zero
          intro hzero
          exact hempty (hzero ▸ hgoOn)
        rcases andThen_cases (lsm.flush config) (fun lsm _ => flushLoop config goOn fuel lsm) with
          ⟨err, herr, hrun⟩ | ⟨_, hok, hrun⟩
        · rw [hrun]
          exact .thrown hgoOn (Prod.ext rfl herr)
        · have hflush : lsm.flush config = ((lsm.flush config).1, .ok ()) := Prod.ext rfl hok
          obtain ⟨hnone', -, hrounds⟩ := flush_lt hnone hpos hflush
          rw [hrun]
          exact .round hgoOn hflush (ih hnone' (by omega))
      · rw [if_neg hgoOn]
        exact .done hgoOn

theorem rounds_lt_flushFuel (lsm : LSM) :
    lsm.engine.memtable.rounds < TranContext.flushFuel lsm := by
  rw [MemTable.rounds, TranContext.flushFuel]
  split_ifs <;> omega

/-- The memory tables count the bytes of their records, in every state of every run, and the
loops of `commit` and `flush_all` come to an end from there: no subtraction has wrapped, every
flush that does not throw leaves fewer bytes, and a loop ends with a flush that throws or where
its condition fails. -/
theorem accounting_progress (config : Config) :
    (∀ ops, ∃ mem, RawMem.run config ops RawMem.new = some mem ∧ mem.Accounted) ∧
      ∀ ops (lsm : LSM), RawMem.run config ops RawMem.new = some lsm.engine.memtable.raw →
        (∀ lsm', 0 < lsm.engine.memtable.getTotalSize → lsm.flush config = (lsm', .ok ()) →
          lsm'.engine.memtable.getTotalSize < lsm.engine.memtable.getTotalSize) ∧
        FlushLoop config (ReachesLimit config) lsm
          (TranContext.flushWhileFull config (TranContext.flushFuel lsm) lsm) ∧
        FlushLoop config (fun total => total > 0) lsm (lsm.flushAll config) := by
  constructor
  · intro ops
    obtain ⟨mem, hrun, hnone⟩ := MemTable.exists_of_run config ops
    exact ⟨mem.raw, hrun, hnone.accounted⟩
  · intro ops lsm hrun
    obtain ⟨mem, hmem, hmemNone⟩ := MemTable.exists_of_run config ops
    have hraw : mem.raw = lsm.engine.memtable.raw := Option.some.inj (hmem.symm.trans hrun)
    have hnone : lsm.engine.memtable.NoneEmpty := fun table htable =>
      (hraw ▸ hmemNone.accounted).noneEmpty table.raw (List.mem_map_of_mem htable)
    have hfuel := rounds_lt_flushFuel lsm
    refine ⟨fun lsm' hpos hflush => (flush_lt hnone hpos hflush).2.1, ?_, ?_⟩
    · rw [flushWhileFull_eq]
      exact flushLoop_ends config (fun hgoOn => hgoOn (Or.inl rfl)) hnone hfuel
    · exact flushLoop_ends config (lt_irrefl 0) hnone hfuel

/-- A store whose active table holds one record. -/
def sampleFull : LSM :=
  { LSM.new with engine := { Engine.new with memtable := MemTable.new.put_ [1] [2] 3 } }

theorem accounting_progress_sample :
    FlushLoop smallConfig (fun total => total > 0) sampleFull
      (sampleFull.flushAll smallConfig) := by
  exact ((accounting_progress smallConfig).2 [.putBatch [([1], [2])] 3] sampleFull
    rfl).2.2

end LSM

end KopiDb
