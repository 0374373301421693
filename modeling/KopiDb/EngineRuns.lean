import KopiDb.Flush

/-!
# Runs of the engine

A run is a sequence of engine operations.  Whatever tables were frozen, flushed and
compacted on the way, a point read answers from the history of all writes.
-/

namespace KopiDb

/-- The operations that change the engine. -/
inductive EngineOp where
  | put (key value : Bytes) (trancId : ℕ)
  | putBatch (kvs : List (Bytes × Bytes)) (trancId : ℕ)
  | remove (key : Bytes) (trancId : ℕ)
  | removeBatch (keys : List Bytes) (trancId : ℕ)
  | freeze
  | flush
  | compact (srcLevel : ℕ)
  | clear

namespace EngineOp

def run (config : Config) (engine : Engine) : EngineOp → Engine × Except Err Flushed
  | put key value trancId => engine.put config key value trancId
  | putBatch kvs trancId => engine.putBatch config kvs trancId
  | remove key trancId => engine.remove config key trancId
  | removeBatch keys trancId => engine.removeBatch config keys trancId
  | freeze => ({ engine with memtable := engine.memtable.frozenCurTable_ }, .ok ⟨0, []⟩)
  | flush => engine.flush config
  | compact srcLevel =>
      andThen (engine.compact config srcLevel) fun engine _ => (engine, .ok ⟨0, []⟩)
  | clear => (engine.clear, .ok ⟨0, []⟩)

/-- The writes applied so far, the latest first; `clear` starts a new history. -/
def record (history : List Entry) : EngineOp → List Entry
  | put key value trancId => ⟨key, value, trancId⟩ :: history
  | putBatch kvs trancId =>
      (kvs.map fun kv => (⟨kv.1, kv.2, trancId⟩ : Entry)).reverse ++ history
  | remove key trancId => ⟨key, [], trancId⟩ :: history
  | removeBatch keys trancId =>
      (keys.map fun key => (⟨key, [], trancId⟩ : Entry)).reverse ++ history
  | freeze => history
  | flush => history
  | compact _ => history
  | clear => []

end EngineOp

/-- Run the operations until one throws. -/
def runOps (config : Config) : Engine → List EngineOp → Except Err Engine
  | engine, [] => .ok engine
  | engine, op :: rest =>
      match op.run config engine with
      | (_, .error err) => .error err
      | (engine, .ok _) => runOps config engine rest

/-- All writes of a sequence of operations, the latest first. -/
def historyOf (ops : List EngineOp) : List Entry := ops.foldl EngineOp.record []

/-- The reference answer: of the writes to the key that are within the bound and not
skipped the one with the largest number, the latest one on a tie, unless it is a
deletion. -/
def reference (history : List Entry) (key : Bytes) (bound : ℕ) (skip : ℕ → Bool) :
    Option (Bytes × ℕ) :=
  live (answer (Versions.read history key bound skip))

namespace Engine

variable {config : Config} {engine engine' : Engine}

/-! ## Writes -/

/-- The memory tables of an operation before its flush. -/
def writtenMemtable (config : Config) (engine : Engine) : EngineOp → MemTable
  | .put key value trancId => engine.memtable.put config key value trancId
  | .putBatch kvs trancId => engine.memtable.putBatch config kvs trancId
  | .remove key trancId => engine.memtable.remove config key trancId
  | .removeBatch keys trancId => engine.memtable.removeBatch config keys trancId
  | _ => engine.memtable

/-- The records after a write, before its flush. -/
private theorem reflects_write (config : Config) {op : EngineOp} (hclear : op ≠ .clear)
    (engine : Engine) :
    Versions.Reflects (writtenMemtable config engine op).records
      (op.record [] ++ engine.memtable.records) := by
  have hself := Versions.Reflects.refl engine.memtable.records
  cases op with
  | put key value trancId =>
      rw [writtenMemtable, MemTable.put, MemTable.records_freezeIfFull]
      exact engine.memtable.reflects_put_ key value trancId
  | putBatch kvs trancId =>
      rw [writtenMemtable, MemTable.putBatch, MemTable.records_freezeIfFull, EngineOp.record,
        List.append_nil]
      exact engine.memtable.reflects_foldl_put_ Prod.fst Prod.snd trancId kvs
  | remove key trancId =>
      rw [writtenMemtable, MemTable.remove, MemTable.records_freezeIfFull]
      exact engine.memtable.reflects_put_ key [] trancId
  | removeBatch keys trancId =>
      rw [writtenMemtable, MemTable.removeBatch, MemTable.records_freezeIfFull,
        EngineOp.record, List.append_nil]
      exact engine.memtable.reflects_foldl_put_ id (fun _ => []) trancId keys
  | freeze => exact hself
  | flush => exact hself
  | compact srcLevel => exact hself
  | clear => exact absurd rfl hclear

theorem record_append {op : EngineOp} (hclear : op ≠ .clear) (history : List Entry) :
    op.record history = op.record [] ++ history := by
  cases op <;> simp_all [EngineOp.record]

/-! ## The engine follows its history -/

/-- The engine satisfies its invariant and holds what the history of writes says. -/
structure Follows (engine : Engine) (history : List Entry) : Prop where
  invariant : LevelInvariant engine
  reflects : Versions.Reflects engine.records history

theorem follows_new : Follows new [] := ⟨levelInvariant_new, Versions.Reflects.refl []⟩

namespace Follows

variable {history : List Entry}

/-- Writing to the memory tables extends the history. -/
theorem withMemtable (hfollows : Follows engine history) {mem : MemTable}
    {written : List Entry}
    (hwrite : Versions.Reflects mem.records (written ++ engine.memtable.records)) :
    Follows { engine with memtable := mem } (written ++ history) := by
  refine ⟨hfollows.invariant.withMemtable mem, ?_⟩
  have hrecords := hwrite.append (Versions.Reflects.refl engine.fileRecords)
  rw [List.append_assoc] at hrecords
  exact hrecords.trans ((Versions.Reflects.refl written).append hfollows.reflects)

/-- Operations that move records do not change the history. -/
theorem moved (hfollows : Follows engine history) {engine' : Engine}
    (hkept : LevelInvariant engine' ∧ Versions.SameVersions engine'.records engine.records) :
    Follows engine' history :=
  ⟨hkept.1, hkept.2.reflects.trans hfollows.reflects⟩

theorem compact (config : Config) (hfollows : Follows engine history) (srcLevel : ℕ) :
    Follows (engine.compact config srcLevel).1 history := by
  have hkept := fullCompact_kept config hfollows.invariant
    (engine.levelSstIds.length + 1) srcLevel
  refine hfollows.moved ⟨hkept.invariant, ?_⟩
  rw [records, records, Engine.compact, hkept.memtable]
  exact (Versions.SameVersions.refl _).append hkept.sameVersions

/-- An operation is recorded in the history, also when it throws. -/
theorem run (config : Config) (hfollows : Follows engine history) (op : EngineOp) :
    Follows (op.run config engine).1 (op.record history) := by
  have hflush : op ≠ .clear → Follows (flushIfFull config
      { engine with memtable := writtenMemtable config engine op }).1 (op.record history) := by
    intro hclear
    have hwritten := hfollows.withMemtable (reflects_write config hclear engine)
    rw [record_append hclear]
    exact hwritten.moved (flushIfFull_kept config hwritten.invariant)
  cases op with
  | put key value trancId => exact hflush (by simp)
  | putBatch kvs trancId => exact hflush (by simp)
  | remove key trancId => exact hflush (by simp)
  | removeBatch keys trancId => exact hflush (by simp)
  | freeze =>
      have hrecords := engine.memtable.records_frozenCurTable_
      have hfrozen : Versions.Reflects engine.memtable.frozenCurTable_.records
          ([] ++ engine.memtable.records) := by
        rw [hrecords]
        exact Versions.Reflects.refl _
      exact hfollows.withMemtable hfrozen
  | flush => exact hfollows.moved (flush_kept config hfollows.invariant)
  | compact srcLevel =>
      have hengine : (EngineOp.run config engine (.compact srcLevel)).1 =
          (engine.compact config srcLevel).1 := by
        rcases andThen_cases (engine.compact config srcLevel) fun engine _ =>
            (engine, (.ok ⟨0, []⟩ : Except Err Flushed)) with ⟨err, -, hrun⟩ | ⟨done, -, hrun⟩
        · exact congrArg Prod.fst hrun
        · exact congrArg Prod.fst hrun
      rw [hengine]
      exact hfollows.compact config srcLevel
  | clear => exact ⟨hfollows.invariant.clear, Versions.Reflects.refl []⟩

/-- A point read answers from the history. -/
theorem get (hfollows : Follows engine history) (trancId : ℕ) {key : Bytes} (hkey : key ≠ [])
    (man : ReadPolicy) (requireCommitted : Bool) :
    engine.get (some man) key trancId requireCommitted =
      .ok (reference history key trancId fun id => man.shouldSkipRead id requireCommitted) := by
  rw [get_eq trancId hfollows.invariant hkey,
    Versions.read_congr (hfollows.reflects.latest key)]
  rfl

end Follows

private theorem follows_runOps {ops : List EngineOp} {history : List Entry}
    (hfollows : Follows engine history) (hrun : runOps config engine ops = .ok engine') :
    Follows engine' (ops.foldl EngineOp.record history) := by
  induction ops generalizing engine history with
  | nil =>
      obtain rfl := Except.ok.inj hrun
      exact hfollows
  | cons op rest ih =>
      rw [runOps] at hrun
      split at hrun
      next => cases hrun
      next next flushed hop =>
          have hnext := hfollows.run config op
          rw [hop] at hnext
          exact ih hnext hrun

/-- In a reachable state the records reflect the history. -/
theorem follows_of_run {ops : List EngineOp} (hrun : runOps config new ops = .ok engine) :
    Follows engine (historyOf ops) :=
  follows_runOps follows_new hrun

theorem levelInvariant_of_run {ops : List EngineOp}
    (hrun : runOps config new ops = .ok engine) : LevelInvariant engine :=
  (follows_of_run hrun).invariant

end Engine

end KopiDb
