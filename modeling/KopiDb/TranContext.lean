import KopiDb.Record
import KopiDb.TranManager
import KopiDb.EngineRuns

/-!
# Transactions

A transaction context logs its operations and, except at the lowest level, keeps its
writes to itself until it commits.  A call on the store is one step; `walOk` decides
whether the call to the log that it makes succeeds.
-/

namespace KopiDb

inductive IsolationLevel where
  | readUnopCommitted
  | readOpCommitted
  | repeatableRead
  | serializable
  deriving DecidableEq, Repr

/-- `TranContext` without its pointers.  The maps of the source are not ordered; here
they are walked in key order. -/
structure TranContext where
  trancId : ℕ
  operations : List Record
  tempMap : OrdMap Bytes Bytes
  isCommited : Bool
  isAborted : Bool
  isolationLevel : IsolationLevel
  walWrittenCount : ℕ
  readMap : OrdMap Bytes (Option (Bytes × ℕ))

/-- The engine with its manager and the contexts handed out so far.  A context is known
by its place in the list.  `wal` holds the records that reached the log. -/
structure LSM where
  engine : Engine
  tranManager : TranManager
  contexts : List TranContext
  wal : List Record

/-- A write that a transaction can make. -/
inductive WriteOp where
  | put (key value : Bytes)
  | remove (key : Bytes)
  deriving DecidableEq, Repr

namespace WriteOp

def key : WriteOp → Bytes
  | put key _ => key
  | remove key => key

/-- The value that is stored; the empty value is a deletion. -/
def value : WriteOp → Bytes
  | put _ value => value
  | remove _ => []

def record (trancId : ℕ) : WriteOp → Except Err Record
  | put key value => Record.putRecord trancId key value
  | remove key => Record.deleteRecord trancId key

def apply (config : Config) (engine : Engine) (trancId : ℕ) :
    WriteOp → Engine × Except Err Flushed
  | put key value => engine.put config key value trancId
  | remove key => engine.remove config key trancId

def finishedText : WriteOp → String
  | put _ _ => "TranContext::put: transaction has already finished"
  | remove _ => "TranContext::remove: transaction has already finished"

end WriteOp

/-- The constructor of `TranContext`. -/
def TranContext.start (trancId : ℕ) (isolationLevel : IsolationLevel) : TranContext where
  trancId := trancId
  operations := [Record.createRecord trancId]
  tempMap := ∅
  isCommited := false
  isAborted := false
  isolationLevel := isolationLevel
  walWrittenCount := 0
  readMap := ∅

namespace LSM

/-- A fresh engine and a fresh manager that have been bound to each other.  The constructor of
the source leaves this step to do. -/
def new : LSM := ⟨Engine.new, TranManager.new, [], []⟩

def setContext (lsm : LSM) (handle : ℕ) (context : TranContext) : LSM :=
  { lsm with contexts := lsm.contexts.set handle context }

/-- After an engine call: a flush passes its numbers to the manager. -/
def notify (lsm : LSM) (outcome : Engine × Except Err Flushed) : LSM × Except Err Unit :=
  match outcome.2 with
  | .error err => ({ lsm with engine := outcome.1 }, .error err)
  | .ok flushed =>
      ({ lsm with
          engine := outcome.1
          tranManager := flushed.flushedTrancIds.foldl TranManager.addFlushedTrancId
            lsm.tranManager },
        .ok ())

/-- `LSMEngine::flush` with its notification. -/
def flush (config : Config) (lsm : LSM) : LSM × Except Err Unit :=
  lsm.notify (lsm.engine.flush config)

/-! ## Plain operations -/

/-- A plain operation takes the next number. -/
def takeTrancId (lsm : LSM) : LSM × ℕ :=
  let taken := lsm.tranManager.getNextTransactionId
  ({ lsm with tranManager := taken.1 }, taken.2)

def put (config : Config) (lsm : LSM) (key value : Bytes) : LSM × Except Err Unit :=
  let taken := lsm.takeTrancId
  taken.1.notify (taken.1.engine.put config key value taken.2)

def putBatch (config : Config) (lsm : LSM) (kvs : List (Bytes × Bytes)) :
    LSM × Except Err Unit :=
  let taken := lsm.takeTrancId
  taken.1.notify (taken.1.engine.putBatch config kvs taken.2)

def remove (config : Config) (lsm : LSM) (key : Bytes) : LSM × Except Err Unit :=
  let taken := lsm.takeTrancId
  taken.1.notify (taken.1.engine.remove config key taken.2)

def removeBatch (config : Config) (lsm : LSM) (keys : List Bytes) : LSM × Except Err Unit :=
  let taken := lsm.takeTrancId
  taken.1.notify (taken.1.engine.removeBatch config keys taken.2)

def get (lsm : LSM) (key : Bytes) : LSM × Except Err (Option Bytes) :=
  let taken := lsm.takeTrancId
  (taken.1, (taken.1.engine.get (some taken.1.tranManager.policy) key taken.2 false).map
    fun found => found.map Prod.fst)

def getBatch (lsm : LSM) (keys : List Bytes) :
    LSM × Except Err (List (Bytes × Option Bytes)) :=
  let taken := lsm.takeTrancId
  (taken.1, (taken.1.engine.getBatch (some taken.1.tranManager.policy) keys taken.2).map
    fun results => results.map fun result => (result.1, result.2.map Prod.fst))

/-- `begin_tran`, which is `new_tranc` of the manager: the handle of the new context. -/
def beginTran (lsm : LSM) (isolationLevel : IsolationLevel) : LSM × ℕ :=
  let taken := lsm.takeTrancId
  ({ taken.1 with
      tranManager := taken.1.tranManager.register taken.2
      contexts := taken.1.contexts ++ [TranContext.start taken.2 isolationLevel] },
    taken.1.contexts.length)

end LSM

namespace TranContext

def finished (context : TranContext) : Bool := context.isCommited || context.isAborted

/-- An earlier attempt to end the transaction left its record behind. -/
def endAttempted (context : TranContext) : Bool := context.operations.any Record.isTerminal

/-- `write_to_wal` with force: all records reach the log or none does. -/
def writeToWal (walOk : Bool) (wal records : List Record) : List Record × Bool :=
  if walOk then (wal ++ records, true) else (wal, false)

/-- The records that were not sent to the log yet. -/
def pending (context : TranContext) : List Record :=
  context.operations.drop context.walWrittenCount

/-- `persist_pending_wal_` -/
def persistPendingWal_ (context : TranContext) (wal : List Record) (walOk : Bool) :
    (TranContext × List Record) × Except Err Unit :=
  if context.walWrittenCount > context.operations.length then
    ((context, wal),
      .error (.logicError "TranContext::persist_pending_wal_: invalid WAL record count"))
  else if context.walWrittenCount = context.operations.length then ((context, wal), .ok ())
  else
    let written := writeToWal walOk wal context.pending
    if written.2 then
      (({ context with walWrittenCount := context.operations.length }, written.1), .ok ())
    else
      ((context, written.1),
        .error (.runtimeError "TranContext::persist_pending_wal_: failed to write WAL"))

/-- Add a record to `operations`. -/
def logged (context : TranContext) (record : Record) : TranContext :=
  { context with operations := context.operations ++ [record] }

/-- Persist the pending records of a context of the store. -/
def persist (lsm : LSM) (handle : ℕ) (context : TranContext) (walOk : Bool) :
    LSM × Except Err Unit :=
  let persisted := context.persistPendingWal_ lsm.wal walOk
  ({ lsm with
      contexts := lsm.contexts.set handle persisted.1.1
      wal := persisted.1.2 }, persisted.2)

/-- The common body of `put` and `remove`. -/
def write (config : Config) (lsm : LSM) (handle : ℕ) (op : WriteOp) (walOk : Bool) :
    LSM × Except Err Unit :=
  match lsm.contexts[handle]? with
  | none => (lsm, .error .nullAccess)
  | some context =>
      if context.finished then (lsm, .error (.logicError op.finishedText))
      else
        match op.record context.trancId with
        | .error err => (lsm, .error err)
        | .ok record =>
            let context := context.logged record
            if context.isolationLevel = .readUnopCommitted then
              andThen (persist lsm handle context walOk) fun lsm _ =>
                lsm.notify (op.apply config lsm.engine context.trancId)
            else
              (lsm.setContext handle
                { context with tempMap := context.tempMap.insert op.key op.value }, .ok ())

/-- `TranContext::put` -/
def put (config : Config) (lsm : LSM) (handle : ℕ) (key value : Bytes) (walOk : Bool) :
    LSM × Except Err Unit :=
  write config lsm handle (.put key value) walOk

/-- `TranContext::remove` -/
def remove (config : Config) (lsm : LSM) (handle : ℕ) (key : Bytes) (walOk : Bool) :
    LSM × Except Err Unit :=
  write config lsm handle (.remove key) walOk

/-- `TranContext::get` -/
def get (lsm : LSM) (handle : ℕ) (key : Bytes) : LSM × Except Err (Option Bytes) :=
  match lsm.contexts[handle]? with
  | none => (lsm, .error .nullAccess)
  | some context =>
      if context.finished then
        (lsm, .error (.logicError "TranContext::get: transaction has already finished"))
      else
        match context.tempMap.find? key with
        | some pending => (lsm, .ok (if pending = [] then none else some pending))
        | none =>
            let requireCommitted := decide (context.isolationLevel ≠ .readUnopCommitted)
            let man := some lsm.tranManager.policy
            if context.isolationLevel = .readUnopCommitted ∨
                context.isolationLevel = .readOpCommitted then
              (lsm, (lsm.engine.get man key 0 requireCommitted).map
                fun query => query.map Prod.fst)
            else
              match context.readMap.find? key with
              | some query => (lsm, .ok (query.map Prod.fst))
              | none =>
                  match lsm.engine.get man key context.trancId requireCommitted with
                  | .error err => (lsm, .error err)
                  | .ok query =>
                      (lsm.setContext handle
                        { context with readMap := context.readMap.insert key query },
                        .ok (query.map Prod.fst))

/-! ## Commit -/

/-- `latest_record`: the newest version of a key that did not roll back, deletions
included. -/
def latestRecord (lsm : LSM) (key : Bytes) : Except Err (Option (Bytes × ℕ)) :=
  match lsm.engine.sstGet_ key 0 lsm.tranManager.isAborted with
  | .error err => .error err
  | .ok latest =>
      match (lsm.engine.memtable.get_ key 0 lsm.tranManager.isAborted).current? with
      | none => .ok latest
      | some memory =>
          if latest.all fun found => decide (memory.txid ≥ found.2) then
            .ok (some (memory.value, memory.txid))
          else .ok latest

/-- Another transaction or write has stored a newer version of a staged key. -/
def writeConflict (lsm : LSM) (trancId : ℕ) : List (Bytes × Bytes) → Except Err Bool
  | [] => .ok false
  | (key, _) :: rest =>
      match latestRecord lsm key with
      | .error err => .error err
      | .ok latest =>
          if latest.any fun found => decide (found.2 > trancId) then .ok true
          else writeConflict lsm trancId rest

/-- A key that was read has changed since. -/
def readConflict (lsm : LSM) : List (Bytes × Option (Bytes × ℕ)) → Except Err Bool
  | [] => .ok false
  | (key, expected) :: rest =>
      match latestRecord lsm key with
      | .error err => .error err
      | .ok current =>
          let current := current.filter fun found => decide (found.1 ≠ [])
          if current ≠ expected then .ok true else readConflict lsm rest

/-- Both checks of `commit`. -/
def hasConflict (lsm : LSM) (context : TranContext) : Except Err Bool :=
  let written :=
    if context.isolationLevel = .readUnopCommitted then .ok false
    else writeConflict lsm context.trancId context.tempMap.entries
  match written with
  | .error err => .error err
  | .ok true => .ok true
  | .ok false =>
      if context.isolationLevel = .serializable then
        readConflict lsm context.readMap.entries
      else .ok false

/-- Apply the staged writes and the commit marker to the active table. -/
def applyStaged (context : TranContext) (mem : MemTable) : MemTable :=
  let mem :=
    if context.isolationLevel = .readUnopCommitted then mem
    else context.tempMap.entries.foldl
      (fun mem staged => mem.put_ staged.1 staged.2 context.trancId) mem
  mem.put_ [] [] context.trancId

/-- The part of `commit` behind the log: apply, register, freeze. -/
def applyCommit (config : Config) (lsm : LSM) (handle : ℕ) (context : TranContext) : LSM :=
  let mem := context.applyStaged lsm.engine.memtable
  { lsm with
    engine := { lsm.engine with memtable := mem.freezeIfFull config }
    tranManager := lsm.tranManager.addReadyToFlushTrancId context.trancId .opCommitted
    contexts := lsm.contexts.set handle { context with isCommited := true } }

/-- The part of `commit` under its locks; the answer tells whether the transaction has
committed. -/
def commitLocked (config : Config) (lsm : LSM) (handle : ℕ) (context : TranContext)
    (walOk : Bool) : LSM × Except Err Bool :=
  match hasConflict lsm context with
  | .error err => (lsm, .error err)
  | .ok true =>
      ({ lsm with
          tranManager := lsm.tranManager.addReadyToFlushTrancId context.trancId .aborted
          contexts := lsm.contexts.set handle { context with isAborted := true } },
        .ok false)
  | .ok false =>
      let context := context.logged (Record.commitRecord context.trancId)
      andThen (persist lsm handle context walOk) fun lsm _ =>
        (applyCommit config lsm handle
          { context with walWrittenCount := context.operations.length }, .ok true)

/-- The loop at the end of `commit`: at most `fuel` flushes. -/
def flushWhileFull (config : Config) : ℕ → LSM → LSM × Except Err Unit
  | 0, lsm => (lsm, .error .diverges)
  | fuel + 1, lsm =>
      let totalSize := lsm.engine.memtable.getTotalSize
      if totalSize = 0 ∨ totalSize < config.lsmTolMemSizeLimit then (lsm, .ok ())
      else andThen (lsm.flush config) fun lsm _ => flushWhileFull config fuel lsm

/-- Every flush takes away one table, so there are no more rounds than tables. -/
def flushFuel (lsm : LSM) : ℕ := lsm.engine.memtable.frozenTables.length + 2

/-- `TranContext::commit` -/
def commit (config : Config) (lsm : LSM) (handle : ℕ) (testFail walOk : Bool) :
    LSM × Except Err Bool :=
  match lsm.contexts[handle]? with
  | none => (lsm, .error .nullAccess)
  | some context =>
      if context.finished then (lsm, .ok false)
      else if testFail then
        (lsm, .error (.logicError "TranContext::commit: test_fail requires WAL support"))
      else if context.endAttempted then
        (lsm, .error (.logicError
          "TranContext::commit: previous ending attempt did not finish"))
      else
        andThen (commitLocked config lsm handle context walOk) fun lsm committed =>
          if committed then
            andThen (flushWhileFull config (flushFuel lsm) lsm) fun lsm _ => (lsm, .ok true)
          else (lsm, .ok false)

/-- `TranContext::abort`.  Whether a `ROLLBACK` is needed is worked out in the source but
not used. -/
def abort (lsm : LSM) (handle : ℕ) : LSM × Except Err Bool :=
  match lsm.contexts[handle]? with
  | none => (lsm, .error .nullAccess)
  | some context =>
      if context.finished then (lsm, .ok false)
      else if context.walWrittenCount > context.operations.length then
        (lsm, .error (.logicError "TranContext::abort: invalid WAL record count"))
      else if context.endAttempted then
        (lsm, .error (.logicError
          "TranContext::abort: previous ending attempt did not finish"))
      else
        ({ lsm with
            tranManager := lsm.tranManager.addReadyToFlushTrancId context.trancId .aborted
            contexts := lsm.contexts.set handle { context with
              isAborted := true
              tempMap := ∅
              readMap := ∅
              operations := [] } },
          .ok true)

end TranContext

/-! ## Runs -/

/-- A whole call on the store, or maintenance that the engine may do between calls. -/
inductive Call where
  | beginTran (isolationLevel : IsolationLevel)
  | write (handle : ℕ) (op : WriteOp) (walOk : Bool)
  | get (handle : ℕ) (key : Bytes)
  | commit (handle : ℕ) (walOk : Bool)
  | abort (handle : ℕ)
  | plainPut (key value : Bytes)
  | plainPutBatch (kvs : List (Bytes × Bytes))
  | plainRemove (key : Bytes)
  | plainRemoveBatch (keys : List Bytes)
  | plainGet (key : Bytes)
  | plainGetBatch (keys : List Bytes)
  | flush
  | freeze
  | compact (srcLevel : ℕ)

/-- What a call returns. -/
inductive Reply where
  | done
  | handle (handle : ℕ)
  | value (found : Option Bytes)
  | values (found : List (Bytes × Option Bytes))
  | ended (committed : Bool)
  deriving DecidableEq

/-- Rename the answer of a call. -/
def reply {α : Type} (toReply : α → Reply) (outcome : LSM × Except Err α) :
    LSM × Except Err Reply :=
  (outcome.1, outcome.2.map toReply)

namespace Call

def run (config : Config) (lsm : LSM) : Call → LSM × Except Err Reply
  | beginTran isolationLevel =>
      ((lsm.beginTran isolationLevel).1, .ok (.handle (lsm.beginTran isolationLevel).2))
  | write handle op walOk => reply (fun _ => .done) (TranContext.write config lsm handle op walOk)
  | get handle key => reply Reply.value (TranContext.get lsm handle key)
  | commit handle walOk => reply Reply.ended (TranContext.commit config lsm handle false walOk)
  | abort handle => reply Reply.ended (TranContext.abort lsm handle)
  | plainPut key value => reply (fun _ => .done) (lsm.put config key value)
  | plainPutBatch kvs => reply (fun _ => .done) (lsm.putBatch config kvs)
  | plainRemove key => reply (fun _ => .done) (lsm.remove config key)
  | plainRemoveBatch keys => reply (fun _ => .done) (lsm.removeBatch config keys)
  | plainGet key => reply Reply.value (lsm.get key)
  | plainGetBatch keys => reply Reply.values (lsm.getBatch keys)
  | flush => reply (fun _ => .done) (lsm.flush config)
  | freeze =>
      ({ lsm with engine := { lsm.engine with
          memtable := lsm.engine.memtable.frozenCurTable_ } }, .ok .done)
  | compact srcLevel =>
      let outcome := lsm.engine.compact config srcLevel
      ({ lsm with engine := outcome.1 }, outcome.2.map fun _ => .done)

end Call

/-- A call with what came of it. -/
structure Event where
  call : Call
  outcome : Except Err Reply

/-- Run the calls one after the other, also behind calls that throw. -/
def runCalls (config : Config) : LSM → List Call → LSM × List Event
  | lsm, [] => (lsm, [])
  | lsm, call :: rest =>
      let after := call.run config lsm
      let run := runCalls config after.1 rest
      (run.1, ⟨call, after.2⟩ :: run.2)

end KopiDb
