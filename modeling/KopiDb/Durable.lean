import KopiDb.Checkpoint
import KopiDb.TranLog
import KopiDb.WalRuns

/-!
# Durability

The store on top of the files of its log.  A call that logs goes through the files, the
manager hands its checkpoint to the log, and the cleaner removes old files in between.
What a transaction has committed is in the log files or in the tables at any time.
-/

namespace KopiDb

/-! ## What reaches the log -/

namespace Call

/-- The records that a call hands to `write_to_wal`; nothing when it does not come that
far. -/
def sent (lsm : LSM) : Call → List Record
  | write handle op _ =>
      match lsm.contexts[handle]? with
      | none => []
      | some context =>
          if context.finished then []
          else
            match op.record context.trancId with
            | .error _ => []
            | .ok record =>
                if context.isolationLevel = .readUnopCommitted then
                  (context.logged record).pending
                else []
  | commit handle _ =>
      match lsm.contexts[handle]? with
      | none => []
      | some context =>
          if context.finished then []
          else if context.endAttempted then []
          else
            match TranContext.hasConflict lsm context with
            | .ok false => (context.logged (Record.commitRecord context.trancId)).pending
            | _ => []
  | _ => []

/-- The call, with what its call to the log came to. -/
def withWal (walOk : Bool) : Call → Call
  | write handle op _ => write handle op walOk
  | commit handle _ => commit handle walOk
  | call => call

theorem keys_withWal (walOk : Bool) (call : Call) : (call.withWal walOk).keys = call.keys := by
  cases call <;> rfl

end Call

@[simp]
theorem LSM.wal_notify {lsm : LSM} (outcome : Engine × Except Err Flushed) :
    (lsm.notify outcome).1.wal = lsm.wal :=
  congrArg View.wal (lsm.view_notify outcome [])

namespace TranContext

variable {config : Config} {lsm : LSM} {handle : ℕ} {walOk : Bool}

theorem writeToWal_nil (walOk : Bool) (wal : List Record) : (writeToWal walOk wal []).1 = wal := by
  unfold writeToWal
  split
  · exact List.append_nil wal
  · rfl

/-- The log takes all pending records or none. -/
theorem wal_after_persist (lsm : LSM) (handle : ℕ) (context : TranContext) (walOk : Bool) :
    (persist lsm handle context walOk).1.wal =
      (writeToWal walOk lsm.wal context.pending).1 := by
  rcases persist_cases lsm handle context walOk with ⟨hpersist, hwal, -⟩ | ⟨err, hpersist, hwal⟩
  · rw [hpersist]
    cases walOk with
    | true => rfl
    | false =>
        have hcount := hwal.resolve_left Bool.false_ne_true
        rw [pending, hcount, List.drop_length]
        exact List.append_nil _
  · rw [hpersist]
    cases walOk with
    | false => rfl
    | true =>
        have hcount := hwal.resolve_left Bool.false_ne_true.symm
        rw [pending, List.drop_eq_nil_of_le hcount.le, writeToWal_nil]
        rfl

theorem wal_after_write (config : Config) (lsm : LSM) (handle : ℕ) (op : WriteOp) (walOk : Bool) :
    (write config lsm handle op walOk).1.wal =
      (writeToWal walOk lsm.wal ((Call.write handle op walOk).sent lsm)).1 := by
  have hnil := (writeToWal_nil walOk lsm.wal).symm
  rw [write, Call.sent]
  cases lsm.contexts[handle]? with
  | none => exact hnil
  | some context =>
      dsimp only
      by_cases hfinished : context.finished = true
      · rw [if_pos hfinished, if_pos hfinished]
        exact hnil
      · rw [if_neg hfinished, if_neg hfinished]
        cases op.record context.trancId with
        | error err => exact hnil
        | ok record =>
            dsimp only
            have hpersist := wal_after_persist lsm handle (context.logged record) walOk
            by_cases hlevel : context.isolationLevel = .readUnopCommitted
            · rw [if_pos (show (context.logged record).isolationLevel = .readUnopCommitted from
                hlevel), if_pos hlevel, ← hpersist]
              rcases andThen_cases (persist lsm handle (context.logged record) walOk)
                  fun lsm _ => lsm.notify (op.apply config lsm.engine
                    (context.logged record).trancId) with ⟨err, -, hrun⟩ | ⟨done, -, hrun⟩
              · rw [hrun]
              · rw [hrun]
                exact LSM.wal_notify _
            · rw [if_neg (show ¬(context.logged record).isolationLevel = .readUnopCommitted from
                hlevel), if_neg hlevel]
              exact hnil

theorem wal_after_commit (config : Config) (lsm : LSM) (handle : ℕ) (walOk : Bool) :
    (commit config lsm handle false walOk).1.wal =
      (writeToWal walOk lsm.wal ((Call.commit handle walOk).sent lsm)).1 := by
  have hnil := (writeToWal_nil walOk lsm.wal).symm
  rw [commit, Call.sent]
  cases lsm.contexts[handle]? with
  | none => exact hnil
  | some context =>
      simp only [Bool.false_eq_true, if_false]
      split_ifs with hfinished hfirst
      · exact hnil
      · exact hnil
      · generalize hsent : (writeToWal walOk lsm.wal _).1 = after
        apply @finish_rule config fun next => next.wal = after
        · exact fun next hnext => (LSM.wal_notify _).trans hnext
        · rw [← hsent, commitLocked]
          cases hasConflict lsm context with
          | error err => exact hnil
          | ok conflict =>
              cases conflict with
              | true => exact hnil
              | false =>
                  dsimp only
                  rw [← wal_after_persist lsm handle]
                  rcases andThen_cases (persist lsm handle
                      (context.logged (Record.commitRecord context.trancId)) walOk)
                      fun lsm _ => (applyCommit config lsm handle
                        { context.logged (Record.commitRecord context.trancId) with
                          walWrittenCount := (context.logged
                            (Record.commitRecord context.trancId)).operations.length },
                        (.ok true : Except Err Bool)) with ⟨err, -, hrun⟩ | ⟨done, -, hrun⟩
                  · rw [hrun]
                  · rw [hrun]
                    rfl

theorem wal_after_get (lsm : LSM) (handle : ℕ) (key : Bytes) :
    (get lsm handle key).1.wal = lsm.wal := by
  unfold get
  split
  · rfl
  · split
    · rfl
    · split
      · rfl
      · dsimp only
        split
        · rfl
        · split
          · rfl
          · split <;> rfl

theorem wal_after_abort (lsm : LSM) (handle : ℕ) : (abort lsm handle).1.wal = lsm.wal := by
  unfold abort
  split
  · rfl
  · split_ifs <;> rfl

end TranContext

/-- A call appends to the log what it hands over, when its call to the log succeeds. -/
theorem Call.wal_run (config : Config) (lsm : LSM) (call : Call) (walOk : Bool) :
    ((call.withWal walOk).run config lsm).1.wal =
      (TranContext.writeToWal walOk lsm.wal (call.sent lsm)).1 := by
  have hnil := (TranContext.writeToWal_nil walOk lsm.wal).symm
  cases call with
  | write handle op _ => exact TranContext.wal_after_write config lsm handle op walOk
  | commit handle _ => exact TranContext.wal_after_commit config lsm handle walOk
  | get handle key => exact (TranContext.wal_after_get lsm handle key).trans hnil
  | abort handle => exact (TranContext.wal_after_abort lsm handle).trans hnil
  | beginTran | plainGet | plainGetBatch | freeze | compact => exact hnil
  | plainPut | plainPutBatch | plainRemove | plainRemoveBatch | flush =>
      exact (LSM.wal_notify _).trans hnil

/-! ## Records that can be encoded -/

theorem WriteOp.made_of_record {op : WriteOp} {trancId : ℕ} {record : Record}
    (hrecord : op.record trancId = .ok record) (hid : trancId < 256 ^ 8) : record.Made := by
  cases op with
  | put key value => exact Record.Made.put hid hrecord
  | remove key => exact Record.Made.delete hid hrecord

/-- All operations can be encoded, and a commit has sent all of them to the log, its own
record too. -/
structure TranContext.Sendable (context : TranContext) : Prop where
  made : context.trancId < 256 ^ 8 → ∀ record ∈ context.operations, record.Made
  sentAll : context.isCommited = true →
    context.walWrittenCount = context.operations.length ∧
      Record.commitRecord context.trancId ∈ context.operations

namespace TranContext.Sendable

variable {context : TranContext}

theorem logged (hsendable : context.Sendable) (hopen : context.finished = false)
    {record : Record} (hmade : context.trancId < 256 ^ 8 → record.Made) :
    (context.logged record).Sendable where
  made hid other hmem := by
    rcases List.mem_append.mp hmem with hmem | hmem
    · exact hsendable.made hid other hmem
    · rw [List.mem_singleton.mp hmem]
      exact hmade hid
  sentAll hcommitted :=
    absurd ((Bool.or_eq_false_iff.mp hopen).1.symm.trans hcommitted) Bool.false_ne_true

theorem persisted (hsendable : context.Sendable) : context.persisted.Sendable where
  made := hsendable.made
  sentAll hcommitted := ⟨rfl, (hsendable.sentAll hcommitted).2⟩

end TranContext.Sendable

namespace View

def Sendable (view : View) : Prop := ∀ context ∈ view.contexts, context.Sendable

namespace Sendable

private theorem set {view : View} {handle : ℕ} {context : TranContext}
    (hsendable : view.Sendable) (hself : context.Sendable) :
    ∀ other ∈ view.contexts.set handle context, other.Sendable := by
  intro other hmem
  rcases List.mem_or_eq_of_mem_set hmem with hmem | rfl
  · exact hsendable other hmem
  · exact hself

theorem step {view view' : View} {call : Call} {outcome : Except Err Reply}
    (hsendable : view.Sendable) (hstep : Step view call outcome view') : view'.Sendable := by
  have hof : ∀ {handle : ℕ} {context : TranContext}, view.contexts[handle]? = some context →
      context.Sendable := fun hcontext => hsendable _ (List.mem_of_getElem? hcontext)
  have hrunning : ∀ {context : TranContext}, context.finished = false →
      context.isCommited ≠ true := by
    intro context hopen hcommitted
    exact Bool.false_ne_true ((Bool.or_eq_false_iff.mp hopen).1.symm.trans hcommitted)
  cases hstep with
  | maintained | refused | plain | gotStaged | gotFresh | gotCached | alreadyOver =>
      exact hsendable
  | begun isolationLevel =>
      intro context hmem
      rcases List.mem_append.mp hmem with hmem | hmem
      · exact hsendable context hmem
      · rw [List.mem_singleton.mp hmem]
        refine ⟨fun hid record hrecord => ?_, fun hcommitted => by cases hcommitted⟩
        rw [List.mem_singleton.mp hrecord]
        exact Record.Made.create hid
  | staged hcontext hopen hlevel hrecord =>
      have hlogged := (hof hcontext).logged hopen (WriteOp.made_of_record hrecord)
      exact set hsendable ⟨hlogged.made, hlogged.sentAll⟩
  | unlogged hcontext hopen hlevel hrecord =>
      exact set hsendable ((hof hcontext).logged hopen (WriteOp.made_of_record hrecord))
  | applied hcontext hopen hlevel hrecord =>
      exact set hsendable
        ((hof hcontext).logged hopen (WriteOp.made_of_record hrecord)).persisted
  | gotFirst hcontext hopen =>
      exact set hsendable ⟨(hof hcontext).made, (hof hcontext).sentAll⟩
  | conflict hcontext hopen =>
      exact set hsendable ⟨(hof hcontext).made, (hof hcontext).sentAll⟩
  | commitUnlogged hcontext hopen =>
      exact set hsendable ((hof hcontext).logged hopen Record.Made.commit)
  | committed hcontext hopen =>
      have hlogged := ((hof hcontext).logged hopen Record.Made.commit).persisted
      exact set hsendable ⟨hlogged.made, fun _ =>
        ⟨rfl, List.mem_append_right _ List.mem_cons_self⟩⟩
  | rolledBack hcontext hopen =>
      have hrunning := hrunning hopen
      exact set hsendable ⟨fun _ _ hmem => absurd hmem List.not_mem_nil,
        fun hcommitted => absurd hcommitted hrunning⟩

theorem run {view view' : View} {events : List Event} (hsendable : view.Sendable)
    (hrun : Run view events view') : view'.Sendable := by
  induction hrun with
  | nil => exact hsendable
  | cons hstep _ ih => exact ih (hsendable.step hstep)

end Sendable

end View

/-- What a call hands over can be encoded, as long as the numbers fit. -/
theorem Call.made_sent {lsm : LSM} {history : List Entry} (hsendable : (lsm.view history).Sendable)
    (hids : ∀ context ∈ lsm.contexts, context.trancId < 256 ^ 8) (call : Call) :
    ∀ record ∈ call.sent lsm, record.Made := by
  have hpending : ∀ {handle : ℕ} {context : TranContext} {record : Record},
      lsm.contexts[handle]? = some context → record.Made →
        ∀ other ∈ (context.logged record).pending, other.Made := by
    intro handle context record hcontext hmade other hmem
    have hknown := List.mem_of_getElem? hcontext
    rcases List.mem_append.mp (List.mem_of_mem_drop hmem) with hmem | hmem
    · exact (hsendable context hknown).made (hids context hknown) other hmem
    · rwa [List.mem_singleton.mp hmem]
  intro record hmem
  unfold sent at hmem
  split at hmem
  next handle op _ =>
    split at hmem
    · cases hmem
    next context hcontext =>
      have hid := hids context (List.mem_of_getElem? hcontext)
      by_cases hfinished : context.finished = true
      · rw [if_pos hfinished] at hmem
        cases hmem
      · rw [if_neg hfinished] at hmem
        cases hlogged : op.record context.trancId with
        | error err =>
            rw [hlogged] at hmem
            cases hmem
        | ok logged =>
            rw [hlogged] at hmem
            dsimp only at hmem
            split_ifs at hmem
            · exact hpending hcontext (WriteOp.made_of_record hlogged hid) record hmem
            · cases hmem
  next handle _ =>
    split at hmem
    · cases hmem
    next context hcontext =>
      have hid := hids context (List.mem_of_getElem? hcontext)
      split_ifs at hmem
      · cases hmem
      · cases hmem
      · split at hmem
        · exact hpending hcontext (Record.Made.commit hid) record hmem
        · cases hmem
  next => cases hmem

/-! ## The files of the log -/

namespace Wal

/-- As long as nothing failed, a log that is always forced has an empty buffer and whole
records in its active file. -/
structure Whole (wal : Wal) (dir : Directory) : Prop where
  name : ∃ seq, wal.activeLogName = logName seq
  current : wal.writeFailed = false → wal.logBuffer = [] ∧ ∃ records,
    (∀ record ∈ records, record.Made) ∧
      dir.find? wal.activeLogName = some (some (Record.encodeAll records))

namespace Whole

variable {wal : Wal} {dir : Directory}

theorem create {old : Directory} {logDir : String}
    {bufferSize checkpointTrancId fileSizeLimit : ℕ} {opens : Bool}
    (hcreate : Wal.create old logDir bufferSize checkpointTrancId fileSizeLimit opens =
      (dir, .ok wal)) : wal.Whole dir := by
  obtain ⟨first, hname, hbuffer, -, -, hdir⟩ := create_ok hcreate
  refine ⟨⟨first, hname⟩, fun _ => ⟨hbuffer, [], List.forall_mem_nil _, ?_⟩⟩
  rw [hname, hdir]
  exact OrdMap.find?_insert_self ..

theorem create_checkpoint {old : Directory} {logDir : String}
    {bufferSize checkpointTrancId fileSizeLimit : ℕ} {opens : Bool}
    (hcreate : Wal.create old logDir bufferSize checkpointTrancId fileSizeLimit opens =
      (dir, .ok wal)) : wal.checkpointTrancId = checkpointTrancId := by
  unfold Wal.create at hcreate
  generalize (if logDir = "" then "." else logDir) = logDir at hcreate
  dsimp only at hcreate
  split at hcreate
  · cases (Prod.mk.inj hcreate).2
  · split_ifs at hcreate
    · obtain rfl := Except.ok.inj (Prod.mk.inj hcreate).2
      rfl
    · cases (Prod.mk.inj hcreate).2

theorem clean (hwhole : wal.Whole dir) (works : Bytes → Bool) :
    wal.Whole (wal.cleanWALFile dir works) where
  name := hwhole.name
  current hworks := by
    obtain ⟨seq, hname⟩ := hwhole.name
    rw [find?_cleanWALFile_active hname]
    exact hwhole.current hworks

/-- The file that takes a batch holds whole records. -/
private theorem rotated {dir' : Directory} {faults : FileFaults} {name : Bytes}
    (hwhole : wal.Whole dir) (hworks : wal.writeFailed = false)
    (hrotate : wal.rotate dir faults = (dir', .ok name)) :
    ∃ records, (∀ record ∈ records, record.Made) ∧
      dir'.content name = Record.encodeAll records := by
  obtain ⟨-, records, hmade, hfind⟩ := hwhole.current hworks
  rcases rotate_cases hrotate with ⟨hname, rfl⟩ | ⟨hname, -, -, rfl⟩ | ⟨⟨err, habsurd⟩, -⟩
  · obtain rfl := Except.ok.inj hname
    exact ⟨records, hmade, Directory.content_of_find hfind⟩
  · obtain rfl := Except.ok.inj hname
    exact ⟨[], List.forall_mem_nil _,
      Directory.content_of_find (OrdMap.find?_insert_self ..)⟩
  · cases habsurd

/-- After a forced call that succeeds its records are in a file. -/
theorem log {records : List Record} (hwhole : wal.Whole dir)
    (hmade : ∀ record ∈ records, record.Made) (faults : FileFaults) :
    let outcome := wal.log dir records true faults
    outcome.1.1.Whole outcome.1.2 ∧
      (outcome.2 = .ok () → ∀ record ∈ records, Stores outcome.1.2 record) := by
  intro outcome
  obtain ⟨seq, hname⟩ := hwhole.name
  obtain ⟨next, hnext⟩ := log_name (wal, dir) ⟨records, true, faults⟩ hname
  change outcome.1.1.activeLogName = logName next at hnext
  rcases log_cases wal dir records true faults with
    ⟨hfailed, hlog⟩ | ⟨hworks, hempty, hlog⟩ | ⟨hworks, name, dir', hrotate, hlog⟩ |
      ⟨-, name, dir', bytes, err, hlog, -⟩
  · rw [show outcome = _ from hlog]
    exact ⟨hwhole, fun hok => by cases hok⟩
  · obtain ⟨-, rfl⟩ := List.append_eq_nil_iff.mp (hempty rfl)
    rw [show outcome = _ from hlog, List.append_nil]
    exact ⟨⟨hwhole.name, hwhole.current⟩, fun _ => List.forall_mem_nil _⟩
  · obtain ⟨hbuffer, -⟩ := hwhole.current hworks
    obtain ⟨kept, hkept, hcontent⟩ := hwhole.rotated hworks hrotate
    have hall : ∀ record ∈ kept ++ records, record.Made :=
      List.forall_mem_append.mpr ⟨hkept, hmade⟩
    rw [show outcome = _ from hlog] at hnext ⊢
    have hfind : (appendBytes dir' name (Record.encodeAll (wal.logBuffer ++ records))).find?
        name = some (some (Record.encodeAll (kept ++ records))) := by
      rw [find?_appendBytes, if_pos rfl, hcontent, hbuffer, List.nil_append, encodeAll_append]
    refine ⟨⟨⟨next, hnext⟩, fun _ => ⟨rfl, _, hall, hfind⟩⟩, fun _ record hmem => ?_⟩
    refine ⟨name, next, kept ++ records, [], ?_, hall, List.mem_append_right _ hmem, ?_⟩
    · rw [show name = logName next from hnext, logSeq_logName]
    · rw [List.append_nil]
      exact hfind
  · rw [show outcome = _ from hlog] at hnext ⊢
    exact ⟨⟨⟨next, hnext⟩, fun hworks => by cases hworks⟩, fun hok => by cases hok⟩

end Whole

end Wal

/-! ## Store and log files together -/

/-- A store whose log goes to files. -/
structure LoggedStore where
  lsm : LSM
  log : Wal
  files : Directory

namespace LoggedStore

/-- A call, with what its file operations do; the log is given the checkpoint of the manager;
a round of the cleaner. -/
inductive Action where
  | call (call : Call) (faults : FileFaults)
  | setCheckpoint
  | clean (works : Bytes → Bool)

def Action.keys : Action → List Bytes
  | .call made _ => made.keys
  | _ => []

/-- `write_to_wal`: a forced call of `log`, and what it throws is a failure.  A call that
hands over nothing does not come here. -/
def writeToWal (store : LoggedStore) (records : List Record) (faults : FileFaults) :
    LoggedStore × Bool :=
  if records.isEmpty then (store, true)
  else
    let outcome := store.log.log store.files records true faults
    ({ store with log := outcome.1.1, files := outcome.1.2 }, outcome.2.isOk)

def act (config : Config) (store : LoggedStore) : Action → LoggedStore × List Event
  | .call call faults =>
      let written := store.writeToWal (call.sent store.lsm) faults
      let done := (call.withWal written.2).run config store.lsm
      ({ written.1 with lsm := done.1 }, [⟨call.withWal written.2, done.2⟩])
  | .setCheckpoint =>
      ({ store with
          log := store.log.setCheckpointTrancId store.lsm.tranManager.getCheckpointTrancId }, [])
  | .clean works => ({ store with files := store.log.cleanWALFile store.files works }, [])

/-- A run of actions and the calls among them, with their replies. -/
def run (config : Config) (store : LoggedStore) : List Action → LoggedStore × List Event
  | [] => (store, [])
  | action :: rest =>
      let done := store.act config action
      let after := done.1.run config rest
      (after.1, done.2 ++ after.2)

variable {config : Config} {store : LoggedStore}

/-- To the store an action is a call, or nothing. -/
theorem act_calls (config : Config) (store : LoggedStore) (action : Action) :
    runCalls config store.lsm ((store.act config action).2.map Event.call) =
      ((store.act config action).1.lsm, (store.act config action).2) := by
  cases action with
  | call | setCheckpoint | clean => rfl

theorem run_calls (config : Config) (store : LoggedStore) (actions : List Action) :
    runCalls config store.lsm ((store.run config actions).2.map Event.call) =
      ((store.run config actions).1.lsm, (store.run config actions).2) := by
  induction actions generalizing store with
  | nil => rfl
  | cons action rest ih =>
      rw [run, List.map_append, runCalls_append, act_calls, ih]

/-- A checkpoint that the calls of a store have reached covers what later calls leave. -/
theorem checkpoint_le {calls : List Call} (call : Call)
    (hkeys : ∀ other ∈ calls ++ [call], ∀ key ∈ other.keys, key ≠ []) :
    (runCalls config LSM.new calls).1.tranManager.getCheckpointTrancId ≤
      (runCalls config LSM.new (calls ++ [call])).1.tranManager.getCheckpointTrancId := by
  have hbefore := runCalls_settled config [] calls
    (fun other hmem => hkeys other (List.mem_append_left _ hmem)) settled_new
  exact (runCalls_settled config calls [call] hkeys { hbefore with reached := le_rfl }).reached

/-- What a call to the log does to the files. -/
theorem writeToWal_spec {records : List Record} (hwhole : store.log.Whole store.files)
    (hmade : ∀ record ∈ records, record.Made) (faults : FileFaults) :
    let written := store.writeToWal records faults
    written.1.log.Whole written.1.files ∧
      written.1.log.checkpointTrancId = store.log.checkpointTrancId ∧
      store.files.Grows store.log.activeLogName written.1.files ∧
      (written.2 = true → ∀ record ∈ records, Wal.Stores written.1.files record) := by
  intro written
  by_cases hempty : records = []
  · subst hempty
    exact ⟨hwhole, rfl, Directory.Grows.refl _ _, fun _ => List.forall_mem_nil _⟩
  · have hwritten : written = _ :=
      if_neg (List.isEmpty_iff.not.mpr hempty)
    obtain ⟨hlog, hstores⟩ := hwhole.log hmade faults
    rw [hwritten]
    refine ⟨hlog, Wal.log_checkpoint (store.log, store.files) ⟨records, true, faults⟩,
      (Wal.log_grows ..).1, fun hok => hstores ?_⟩
    dsimp only at hok
    cases hresult : (store.log.log store.files records true faults).2 with
    | ok done => rfl
    | error err =>
        rw [hresult] at hok
        cases hok

/-- What holds behind the calls that a store has taken.  Above the checkpoint the files have
all that reached the log. -/
structure Safe (config : Config) (calls : List Call) (store : LoggedStore) : Prop where
  reached : store.lsm = (runCalls config LSM.new calls).1
  keys : ∀ call ∈ calls, ∀ key ∈ call.keys, key ≠ []
  whole : store.log.Whole store.files
  checkpoint : store.log.checkpointTrancId ≤ store.lsm.tranManager.getCheckpointTrancId
  stored : ∀ record ∈ store.lsm.wal,
    store.lsm.tranManager.getCheckpointTrancId < record.trancId → Wal.Stores store.files record

namespace Safe

variable {calls : List Call}

theorem new {old dir : Directory} {wal : Wal} {logDir : String} {bufferSize fileSizeLimit : ℕ}
    {opens : Bool}
    (hcreate : Wal.create old logDir bufferSize 0 fileSizeLimit opens = (dir, .ok wal)) :
    Safe config [] ⟨LSM.new, wal, dir⟩ where
  reached := rfl
  keys := List.forall_mem_nil _
  whole := Wal.Whole.create hcreate
  checkpoint := by
    rw [Wal.Whole.create_checkpoint hcreate]
    exact Nat.zero_le _
  stored _ hmem := by cases hmem

theorem call (hsafe : store.Safe config calls)
    (hids : ∀ context ∈ store.lsm.contexts, context.trancId < 256 ^ 8) {call : Call}
    (hkeys : ∀ key ∈ call.keys, key ≠ []) (faults : FileFaults) :
    let done := store.act config (.call call faults)
    done.1.Safe config (calls ++ done.2.map Event.call) := by
  intro done
  obtain ⟨history, hrun, -⟩ := runCalls_refines config LSM.follows_new calls
  rw [← hsafe.reached] at hrun
  have hsendable : (store.lsm.view history).Sendable :=
    View.Sendable.run (fun _ hmem => by cases hmem) hrun
  have hwritten := writeToWal_spec hsafe.whole (Call.made_sent hsendable hids call) faults
  have hwal : done.1.lsm.wal = _ := Call.wal_run config store.lsm call _
  obtain ⟨hwhole, hcheckpoint, hgrows, hstores⟩ := hwritten
  have hall : ∀ other ∈ calls ++ done.2.map Event.call, ∀ key ∈ other.keys, key ≠ [] := by
    refine List.forall_mem_append.mpr ⟨hsafe.keys, fun other hmem => ?_⟩
    rw [List.mem_singleton.mp hmem, Call.keys_withWal]
    exact hkeys
  have hreached : done.1.lsm =
      (runCalls config LSM.new (calls ++ done.2.map Event.call)).1 := by
    rw [runCalls_append, ← hsafe.reached, act_calls]
  have hle : store.lsm.tranManager.getCheckpointTrancId ≤
      done.1.lsm.tranManager.getCheckpointTrancId := by
    rw [hreached, hsafe.reached]
    exact checkpoint_le _ hall
  refine ⟨hreached, hall, hwhole, (hcheckpoint.trans_le hsafe.checkpoint).trans hle,
    fun record hmem habove => ?_⟩
  rw [hwal] at hmem
  have hold : record ∈ store.lsm.wal → Wal.Stores done.1.files record := fun hmem =>
    (hsafe.stored record hmem (hle.trans_lt habove)).grows hgrows
  unfold TranContext.writeToWal at hmem
  split_ifs at hmem with hok
  · rcases List.mem_append.mp hmem with hmem | hmem
    · exact hold hmem
    · exact hstores hok record hmem
  · exact hold hmem

theorem act (hsafe : store.Safe config calls)
    (hids : ∀ context ∈ store.lsm.contexts, context.trancId < 256 ^ 8) {action : Action}
    (hkeys : ∀ key ∈ action.keys, key ≠ []) :
    (store.act config action).1.Safe config
      (calls ++ (store.act config action).2.map Event.call) := by
  cases action with
  | call made faults => exact hsafe.call hids hkeys faults
  | setCheckpoint =>
      rw [LoggedStore.act, List.map_nil, List.append_nil]
      exact ⟨hsafe.reached, hsafe.keys, ⟨hsafe.whole.name, hsafe.whole.current⟩, le_rfl,
        hsafe.stored⟩
  | clean works =>
      rw [LoggedStore.act, List.map_nil, List.append_nil]
      exact ⟨hsafe.reached, hsafe.keys, hsafe.whole.clean works, hsafe.checkpoint,
        fun record hmem habove => (hsafe.stored record hmem habove).clean
          (hsafe.checkpoint.trans_lt habove)⟩

/-- Contexts keep their numbers. -/
theorem ids_of_run (hsafe : store.Safe config calls) {actions : List Action} {bound : ℕ}
    (hids : ∀ context ∈ (store.run config actions).1.lsm.contexts, context.trancId < bound) :
    ∀ context ∈ store.lsm.contexts, context.trancId < bound := by
  intro context hmem
  obtain ⟨handle, hcontext⟩ := List.mem_iff_getElem?.mp hmem
  obtain ⟨history, -, hfollows⟩ := runCalls_refines config LSM.follows_new calls
  rw [← hsafe.reached] at hfollows
  obtain ⟨history', hrun, -⟩ := runCalls_refines config hfollows
    ((store.run config actions).2.map Event.call)
  rw [run_calls] at hrun
  obtain ⟨next, hnext, hgoes⟩ := hrun.grows.contexts handle context hcontext
  rw [← hgoes.trancId]
  exact hids next (List.mem_of_getElem? hnext)

theorem run (hsafe : store.Safe config calls) (actions : List Action)
    (hkeys : ∀ action ∈ actions, ∀ key ∈ action.keys, key ≠ [])
    (hids : ∀ context ∈ (store.run config actions).1.lsm.contexts,
      context.trancId < 256 ^ 8) :
    (store.run config actions).1.Safe config
      (calls ++ (store.run config actions).2.map Event.call) := by
  induction actions generalizing store calls with
  | nil =>
      rw [LoggedStore.run, List.map_nil, List.append_nil]
      exact hsafe
  | cons action rest ih =>
      have hnext := hsafe.act (hsafe.ids_of_run hids) (hkeys action List.mem_cons_self)
      have hlast := ih hnext (fun other hmem => hkeys other (List.mem_cons_of_mem _ hmem)) hids
      rw [List.append_assoc, ← List.map_append] at hlast
      exact hlast

end Safe

/-- Whatever fails in the files and whatever the cleaner removes, at any time each operation of a
committed transaction is in a log file, or the transaction is in the tables as a whole. -/
theorem committed_durable {old dir : Directory} {wal : Wal} {logDir : String}
    {bufferSize fileSizeLimit : ℕ} {opens : Bool}
    (hcreate : Wal.create old logDir bufferSize 0 fileSizeLimit opens = (dir, .ok wal))
    (actions : List Action) (hkeys : ∀ action ∈ actions, ∀ key ∈ action.keys, key ≠ []) :
    let after := run config ⟨LSM.new, wal, dir⟩ actions
    (∀ context ∈ after.1.lsm.contexts, context.trancId < 256 ^ 8) →
    ∃ history, View.Run View.empty after.2 (after.1.lsm.view history) ∧
      ∀ handle context, after.1.lsm.contexts[handle]? = some context →
        context.isCommited = true →
          (Record.commitRecord context.trancId ∈ context.operations ∧
            ∀ record ∈ context.operations, Wal.Stores after.1.files record) ∨
          after.1.lsm.InFiles history after.2 handle context.trancId := by
  intro after hids
  have hsafe := (Safe.new hcreate).run actions hkeys hids
  have hcalls := run_calls config ⟨LSM.new, wal, dir⟩ actions
  rw [List.nil_append] at hsafe
  obtain ⟨history, hrun, hfollows⟩ :=
    runCalls_refines config LSM.follows_new (after.2.map Event.call)
  have hmarked := runCalls_marked config hsafe.keys hrun
  have hsettled := runCalls_settled config [] (after.2.map Event.call) hsafe.keys settled_new
  rw [List.nil_append] at hsettled
  rw [hcalls] at hrun hfollows hmarked hsettled
  have hcoherent := View.coherent_empty.run hrun
  refine ⟨history, hrun, fun handle context hcontext hcommitted => ?_⟩
  have hmem := List.mem_of_getElem? hcontext
  by_cases hle : context.trancId ≤ after.1.lsm.tranManager.getCheckpointTrancId
  · right
    obtain ⟨other, hother, hid, hover⟩ :=
      hsettled.covered context.trancId (hcoherent.id_pos context hmem) (Or.inl hle)
    obtain rfl := hcoherent.eq_of_trancId hother hmem hid
    rcases hover with haborted | ⟨-, hgone⟩
    · exact absurd ⟨hcommitted, haborted⟩ (hcoherent.exclusive other hmem)
    · exact inFiles_of_gone hrun hfollows hmarked hcontext hcommitted hgone
  · left
    have hlogged := (View.logged_empty.run View.coherent_empty hrun).contexts context hmem
    have hsendable : context.Sendable :=
      View.Sendable.run (fun _ hmem => by cases hmem) hrun context hmem
    obtain ⟨hcount, hend⟩ := hsendable.sentAll hcommitted
    refine ⟨hend, fun record hrecord => hsafe.stored record ?_ ?_⟩
    · have hsent := hlogged.sent (List.ne_nil_of_mem hend)
      rw [hcount, List.take_length] at hsent
      rw [← hsent] at hrecord
      exact (mem_walOf.mp hrecord).1
    · rw [hlogged.record_trancId record hrecord]
      exact not_le.mp hle

/-- One commit goes to the tables and its log file is cleaned away; the next one is in the
log. -/
theorem committed_durable_sample :
    let works : FileFaults := ⟨false, none, none, none⟩
    let wal : Wal := ⟨"logs", logName 0, 4096, [], 128, 0, false⟩
    let dir : Directory := OrdMap.insert ∅ (logName 0) (some [])
    let actions : List Action := [.call (.beginTran .repeatableRead) works,
      .call (.write 0 (.put [1] [7]) true) works, .call (.commit 0 true) works,
      .call .freeze works, .call .flush works, .setCheckpoint, .clean fun _ => true,
      .call (.beginTran .repeatableRead) works, .call (.write 1 (.remove [1]) true) works,
      .call (.commit 1 true) works]
    let after := run smallConfig ⟨LSM.new, wal, dir⟩ actions
    ∃ history, View.Run View.empty after.2 (after.1.lsm.view history) ∧
      ∀ handle context, after.1.lsm.contexts[handle]? = some context →
        context.isCommited = true →
          (Record.commitRecord context.trancId ∈ context.operations ∧
            ∀ record ∈ context.operations, Wal.Stores after.1.files record) ∨
          after.1.lsm.InFiles history after.2 handle context.trancId := by
  intro works wal dir actions
  have hcreate : Wal.create ∅ "logs" 128 0 4096 true = (dir, .ok wal) := rfl
  have hkeys : ∀ action ∈ actions, ∀ key ∈ action.keys, key ≠ [] := by decide
  exact committed_durable hcreate actions hkeys (by decide +kernel)

end LoggedStore

end KopiDb
