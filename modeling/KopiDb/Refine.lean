import KopiDb.View

/-!
# Every call is a step of the view

The store refines its view: whatever a call does to tables, files and levels, also when
it throws, it is one of the steps of the view, and the engine keeps following the
history.
-/

namespace KopiDb

namespace LSM

variable {config : Config} {lsm : LSM} {history : List Entry}

/-! ## Notifications -/

/-- Notifications change neither the numbers handed out nor who is active or rolled back. -/
theorem foldl_addFlushed (ids : List ℕ) (manager : TranManager) :
    let settled := ids.foldl TranManager.addFlushedTrancId manager
    settled.abortedTrancIds = manager.abortedTrancIds ∧
      settled.nextTransactionId = manager.nextTransactionId ∧
      settled.activeTrans = manager.activeTrans := by
  induction ids generalizing manager with
  | nil => exact ⟨rfl, rfl, rfl⟩
  | cons id rest ih =>
      obtain ⟨haborted, hnext, hactive⟩ := ih (manager.addFlushedTrancId id)
      refine ⟨haborted.trans ?_, hnext.trans ?_, hactive.trans ?_⟩ <;> simp

@[simp]
theorem engine_notify (outcome : Engine × Except Err Flushed) :
    (lsm.notify outcome).1.engine = outcome.1 := by
  unfold notify
  split <;> rfl

/-- The view does not see what a flush settles. -/
@[simp]
theorem view_notify (outcome : Engine × Except Err Flushed) (history : List Entry) :
    (lsm.notify outcome).1.view history = lsm.view history := by
  unfold notify
  split
  · rfl
  next flushed _ =>
      obtain ⟨haborted, hnext, hactive⟩ :=
        foldl_addFlushed flushed.flushedTrancIds lsm.tranManager
      simp only [view, haborted, hnext, hactive]

@[simp]
theorem contexts_notify (outcome : Engine × Except Err Flushed) :
    (lsm.notify outcome).1.contexts = lsm.contexts :=
  congrArg View.contexts (lsm.view_notify outcome [])

theorem notify_ok {outcome : Engine × Except Err Flushed} {reply : Reply}
    (hreply : ((lsm.notify outcome).2.map fun _ => Reply.done) = .ok reply) :
    reply = .done := by
  cases hresult : (lsm.notify outcome).2 with
  | error err =>
      rw [hresult] at hreply
      cases hreply
  | ok value =>
      rw [hresult] at hreply
      exact (Except.ok.inj hreply).symm

/-! ## Reads -/

/-- The engine answers a read as its view says. -/
theorem get_found (hfollows : Engine.Follows lsm.engine history) (key : Bytes) (bound : ℕ)
    (requireCommitted : Bool) :
    ∃ found, lsm.engine.get (some lsm.tranManager.policy) key bound requireCommitted =
        .ok found ∧
      View.Found history key bound ((lsm.view history).skip requireCommitted) found := by
  by_cases hkey : key = []
  · subst hkey
    obtain ⟨found, hget, hfound⟩ := Engine.get_empty_key_mem bound hfollows.invariant
      lsm.tranManager.policy requireCommitted
    refine ⟨found, hget, fun hkey => absurd rfl hkey, fun _ pair hpair => ?_⟩
    obtain ⟨entry, hmem, hkey, hvalue, hvisible⟩ := hfound pair hpair
    have hrecord : entry ∈ lsm.engine.records := List.mem_append_right _ hmem
    exact ⟨entry, hfollows.reflects.subset entry hrecord, hkey, hvalue, hvisible⟩
  · exact ⟨_, hfollows.get bound hkey lsm.tranManager.policy requireCommitted,
      fun _ => rfl, fun hnil => absurd hnil hkey⟩

/-- `latest_record` of a user key is the newest version in the history that did not roll
back. -/
theorem latestRecord_eq (hfollows : Engine.Follows lsm.engine history) {key : Bytes}
    (hkey : key ≠ []) :
    TranContext.latestRecord lsm key =
      .ok (answer (Versions.read history key 0 ((lsm.view history).skip false))) := by
  have hskip : (lsm.view history).skip false = lsm.tranManager.isAborted := by
    funext id
    exact Bool.or_false _
  rw [hskip, ← Versions.read_congr (hfollows.reflects.latest key), Engine.records,
    Versions.read_append, TranContext.latestRecord,
    Engine.sstGet_fileRecords 0 lsm.tranManager.isAborted hfollows.invariant hkey,
    lsm.engine.memtable.get_current? hkey]
  dsimp only
  cases Versions.read lsm.engine.memtable.records key 0 lsm.tranManager.isAborted with
  | none => rfl
  | some memory =>
      cases Versions.read lsm.engine.fileRecords key 0 lsm.tranManager.isAborted with
      | none => rfl
      | some stored =>
          rw [Versions.prefer_some_some]
          simp only [answer_some, Option.all_some, decide_eq_true_eq, ge_iff_le]
          split_ifs with hle hlt
          · exact absurd hle (not_le.mpr hlt)
          · rfl
          · rfl
          · exact absurd (not_lt.mp ‹_›) hle

end LSM

namespace TranContext

variable {config : Config} {lsm : LSM} {history : List Entry} {context : TranContext}

/-! ## The checks of a commit -/

private theorem writeConflict_passed (hfollows : Engine.Follows lsm.engine history)
    (trancId : ℕ) {staged : List (Bytes × Bytes)}
    (hpassed : writeConflict lsm trancId staged = .ok false) :
    ∀ pair ∈ staged, pair.1 ≠ [] → ∀ entry, Versions.read history pair.1 0
      ((lsm.view history).skip false) = some entry → entry.txid ≤ trancId := by
  induction staged with
  | nil => simp
  | cons first rest ih =>
      obtain ⟨key, value⟩ := first
      rw [writeConflict] at hpassed
      split at hpassed
      next => cases hpassed
      next latest hlatest =>
          split at hpassed
          next => cases hpassed
          next hnewer =>
          intro pair hmem hkey entry hread
          rcases List.mem_cons.mp hmem with rfl | hmem
          · rw [LSM.latestRecord_eq hfollows hkey, hread] at hlatest
            obtain rfl := Except.ok.inj hlatest
            simpa using hnewer
          · exact ih hpassed pair hmem hkey entry hread

private theorem readConflict_passed (hfollows : Engine.Follows lsm.engine history)
    {expected : List (Bytes × Option (Bytes × ℕ))}
    (hpassed : readConflict lsm expected = .ok false) :
    ∀ pair ∈ expected, pair.1 ≠ [] →
      reference history pair.1 0 ((lsm.view history).skip false) = pair.2 := by
  induction expected with
  | nil => simp
  | cons first rest ih =>
      obtain ⟨key, value⟩ := first
      rw [readConflict] at hpassed
      split at hpassed
      next => cases hpassed
      next current hcurrent =>
          dsimp only at hpassed
          split at hpassed
          next => cases hpassed
          next hchanged =>
          intro pair hmem hkey
          rcases List.mem_cons.mp hmem with rfl | hmem
          · rw [LSM.latestRecord_eq hfollows hkey] at hcurrent
            obtain rfl := Except.ok.inj hcurrent
            exact not_not.mp hchanged
          · exact ih hpassed pair hmem hkey

private theorem hasConflict_passed (hfollows : Engine.Follows lsm.engine history)
    (hpassed : hasConflict lsm context = .ok false) :
    View.Passed (lsm.view history) context := by
  unfold hasConflict at hpassed
  dsimp only at hpassed
  split at hpassed
  next => cases hpassed
  next => cases hpassed
  next hwritten =>
      constructor
      · intro hlevel
        rw [if_neg hlevel] at hwritten
        exact writeConflict_passed hfollows context.trancId hwritten
      · intro hlevel
        rw [if_pos hlevel] at hpassed
        exact readConflict_passed hfollows hpassed

/-! ## The log -/

/-- What a call to the log can do: send everything that is pending, or nothing. -/
theorem persist_cases (lsm : LSM) (handle : ℕ) (context : TranContext) (walOk : Bool) :
    (persist lsm handle context walOk =
        ({ lsm with
            contexts := lsm.contexts.set handle context.persisted
            wal := lsm.wal ++ context.pending }, .ok ()) ∧
        (walOk = true ∨ context.walWrittenCount = context.operations.length) ∧
        context.walWrittenCount ≤ context.operations.length) ∨
      ∃ err, persist lsm handle context walOk = (lsm.setContext handle context, .error err) ∧
        (walOk = false ∨ context.operations.length < context.walWrittenCount) := by
  unfold persist persistPendingWal_
  split_ifs with hover hdone
  · exact Or.inr ⟨_, rfl, Or.inr hover⟩
  · refine Or.inl ⟨?_, Or.inr hdone, hdone.le⟩
    have hpersisted : context.persisted = context := by
      rw [persisted, ← hdone]
    have hpending : context.pending = [] := by
      rw [pending, hdone, List.drop_length]
    simp only [hpersisted, hpending, List.append_nil]
  · cases walOk with
    | false => exact Or.inr ⟨_, rfl, Or.inl rfl⟩
    | true => exact Or.inl ⟨rfl, Or.inl rfl, by omega⟩

/-! ## The calls -/

/-- A call is a step of the view, and the engine follows the history behind it. -/
def Refines (lsm : LSM) (history : List Entry) (call : Call)
    (outcome : LSM × Except Err Reply) : Prop :=
  ∃ history', View.Step (lsm.view history) call outcome.2 (outcome.1.view history') ∧
    Engine.Follows outcome.1.engine history'

private theorem refines_refused (hfollows : Engine.Follows lsm.engine history) {call : Call}
    (hcall : (lsm.view history).accepts call = false) (err : Err) :
    Refines lsm history call (lsm, .error err) :=
  ⟨history, View.Step.refused hcall, hfollows⟩

/-- The write of a transaction at the lowest level, behind its log. -/
private theorem follows_apply (config : Config) (hfollows : Engine.Follows lsm.engine history)
    (op : WriteOp) (trancId : ℕ) :
    Engine.Follows (op.apply config lsm.engine trancId).1
      (⟨op.key, op.value, trancId⟩ :: history) := by
  cases op with
  | put key value => exact hfollows.run config (.put key value trancId)
  | remove key => exact hfollows.run config (.remove key trancId)

private theorem refines_write (config : Config) (hfollows : Engine.Follows lsm.engine history)
    (handle : ℕ) (op : WriteOp) (walOk : Bool) :
    Refines lsm history (.write handle op walOk)
      (reply (fun _ => .done) (write config lsm handle op walOk)) := by
  unfold write
  split
  next hnone =>
    apply refines_refused hfollows
    rw [View.accepts, show (lsm.view history).contexts[handle]? = none from hnone, Option.any_none]
  next context hcontext =>
    have haccepts : (lsm.view history).accepts (.write handle op walOk) =
        (!context.finished && (op.record context.trancId).isOk) := by
      rw [View.accepts, show (lsm.view history).contexts[handle]? = some context from hcontext,
        Option.any_some]
    split
    next hfinished =>
      apply refines_refused hfollows
      rw [haccepts, hfinished, Bool.not_true, Bool.false_and]
    next hopen =>
      rw [Bool.not_eq_true] at hopen
      split
      next err hrecord =>
        apply refines_refused hfollows
        rw [haccepts, hrecord]
        exact Bool.and_false _
      next record hrecord =>
        dsimp only
        split
        next hlevel =>
          rcases persist_cases lsm handle (context.logged record) walOk with
            ⟨hpersist, hwal, hcount⟩ | ⟨err, hpersist, hwal⟩
          · rw [hpersist]
            have hlength : (context.logged record).operations.length =
                context.operations.length + 1 := List.length_append
            rw [hlength] at hwal hcount
            refine ⟨⟨op.key, op.value, context.trancId⟩ :: history, ?_, ?_⟩
            · simp only [andThen, reply, LSM.view_notify]
              exact View.Step.applied hcontext hopen hlevel hrecord hwal hcount
                fun reply hreply => LSM.notify_ok hreply
            · simp only [andThen, reply, LSM.engine_notify]
              exact follows_apply config hfollows op _
          · rw [hpersist]
            have hlength : (context.logged record).operations.length =
                context.operations.length + 1 := List.length_append
            rw [hlength] at hwal
            exact ⟨history, View.Step.unlogged hcontext hopen hlevel hrecord hwal, hfollows⟩
        next hlevel =>
          exact ⟨history, View.Step.staged hcontext hopen hlevel hrecord, hfollows⟩

private theorem refines_get (hfollows : Engine.Follows lsm.engine history) (handle : ℕ)
    (key : Bytes) :
    Refines lsm history (.get handle key) (reply Reply.value (get lsm handle key)) := by
  unfold get
  split
  · exact refines_refused hfollows rfl _
  next context hcontext =>
    split
    · exact refines_refused hfollows rfl _
    next hopen =>
      rw [Bool.not_eq_true] at hopen
      split
      next pending hpending =>
        exact ⟨history, View.Step.gotStaged hcontext hopen hpending, hfollows⟩
      next hpending =>
        dsimp only
        split
        next hlevel =>
          obtain ⟨found, hget, hfound⟩ := LSM.get_found hfollows key 0
            (decide (context.isolationLevel ≠ .readUnopCommitted))
          rw [hget]
          exact ⟨history, View.Step.gotFresh hcontext hopen hpending hlevel hfound, hfollows⟩
        next hlevel =>
          have hlevel := not_or.mp hlevel
          split
          next query hcached =>
            exact ⟨history, View.Step.gotCached hcontext hopen hpending hlevel hcached,
              hfollows⟩
          next hcached =>
            obtain ⟨found, hget, hfound⟩ := LSM.get_found hfollows key context.trancId
              (decide (context.isolationLevel ≠ .readUnopCommitted))
            rw [hget]
            rw [decide_eq_true hlevel.1] at hfound
            exact ⟨history, View.Step.gotFirst hcontext hopen hpending hlevel hcached hfound,
              hfollows⟩

/-- What every flush keeps, the flushes at the end of a commit keep. -/
theorem flushWhileFull_rule {property : LSM → Prop}
    (hflush : ∀ lsm, property lsm → property (lsm.flush config).1) (fuel : ℕ)
    (hproperty : property lsm) : property (flushWhileFull config fuel lsm).1 := by
  induction fuel generalizing lsm with
  | zero => exact hproperty
  | succ fuel ih =>
      rw [flushWhileFull]
      split
      · exact hproperty
      · rcases andThen_cases (lsm.flush config) fun lsm _ => flushWhileFull config fuel lsm with
          ⟨err, -, hrun⟩ | ⟨done, -, hrun⟩
        · rw [hrun]
          exact hflush lsm hproperty
        · rw [hrun]
          exact ih (hflush lsm hproperty)

/-- So do the flushes behind the locked part of a commit. -/
theorem finish_rule {property : LSM → Prop}
    (hflush : ∀ lsm, property lsm → property (lsm.flush config).1)
    (locked : LSM × Except Err Bool) (hproperty : property locked.1) :
    property (andThen locked fun lsm committed =>
      if committed then
        andThen (flushWhileFull config (flushFuel lsm) lsm) fun lsm _ => (lsm, .ok true)
      else (lsm, (.ok false : Except Err Bool))).1 := by
  rcases andThen_cases locked fun lsm committed =>
      if committed then
        andThen (flushWhileFull config (flushFuel lsm) lsm) fun lsm _ => (lsm, .ok true)
      else (lsm, (.ok false : Except Err Bool)) with ⟨err, -, hrun⟩ | ⟨committed, -, hrun⟩
  · rw [hrun]
    exact hproperty
  · rw [hrun]
    have hloop := flushWhileFull_rule hflush (flushFuel locked.1) hproperty
    cases committed with
    | false => exact hproperty
    | true =>
        rcases andThen_cases (flushWhileFull config (flushFuel locked.1) locked.1) fun lsm _ =>
            (lsm, (.ok true : Except Err Bool)) with ⟨err, -, hrun⟩ | ⟨done, -, hrun⟩
        · rw [if_pos rfl, hrun]
          exact hloop
        · rw [if_pos rfl, hrun]
          exact hloop

/-- The flushes at the end of a commit change nothing that the view shows. -/
theorem flushWhileFull_kept (config : Config) (fuel : ℕ)
    (hfollows : Engine.Follows lsm.engine history) :
    Engine.Follows (flushWhileFull config fuel lsm).1.engine history ∧
      (flushWhileFull config fuel lsm).1.view history = lsm.view history := by
  have hflush : ∀ next : LSM,
      Engine.Follows next.engine history ∧ next.view history = lsm.view history →
        Engine.Follows (next.flush config).1.engine history ∧
          (next.flush config).1.view history = lsm.view history := by
    intro next hkept
    constructor
    · rw [LSM.flush, LSM.engine_notify]
      exact hkept.1.run config .flush
    · exact (LSM.view_notify _ history).trans hkept.2
  exact flushWhileFull_rule hflush fuel ⟨hfollows, rfl⟩

/-- The staged writes and the marker extend the history. -/
theorem reflects_applyStaged (context : TranContext) (mem : MemTable) :
    Versions.Reflects (context.applyStaged mem).records
      (context.committedEntries ++ mem.records) := by
  unfold applyStaged committedEntries stagedEntries
  dsimp only
  refine (MemTable.reflects_put_ _ [] [] context.trancId).trans ?_
  rw [List.cons_append, ← List.singleton_append]
  apply (Versions.Reflects.refl _).append
  split_ifs
  · exact Versions.Reflects.refl _
  · exact mem.reflects_foldl_put_ Prod.fst Prod.snd context.trancId context.tempMap.entries

theorem follows_applyCommit (config : Config)
    (hfollows : Engine.Follows lsm.engine history) (handle : ℕ) (context : TranContext) :
    Engine.Follows (applyCommit config lsm handle context).engine
      (context.committedEntries ++ history) := by
  have hwrite := context.reflects_applyStaged lsm.engine.memtable
  rw [← MemTable.records_freezeIfFull _ config] at hwrite
  exact hfollows.withMemtable hwrite

private theorem view_applyCommit (config : Config) (lsm : LSM) (handle : ℕ)
    (context : TranContext) (history : List Entry) :
    (applyCommit config lsm handle context).view history =
      { lsm.view history with
        active := (lsm.view history).active.erase context.trancId
        contexts := lsm.contexts.set handle { context with isCommited := true } } := rfl

private theorem refines_commit (config : Config) (hfollows : Engine.Follows lsm.engine history)
    (handle : ℕ) (walOk : Bool) :
    Refines lsm history (.commit handle walOk)
      (reply Reply.ended (commit config lsm handle false walOk)) := by
  unfold commit
  split
  · exact refines_refused hfollows rfl _
  next context hcontext =>
    split
    next hfinished =>
      exact ⟨history, View.Step.alreadyOver (Or.inr ⟨walOk, rfl⟩) hcontext hfinished, hfollows⟩
    next hopen =>
      rw [Bool.not_eq_true] at hopen
      rw [if_neg Bool.false_ne_true]
      split
      · exact refines_refused hfollows rfl _
      next hfirst =>
        rw [Bool.not_eq_true] at hfirst
        unfold commitLocked
        split
        · exact refines_refused hfollows rfl _
        · exact ⟨history, View.Step.conflict hcontext hopen hfirst, hfollows⟩
        next hpassed =>
          have hpassed := hasConflict_passed hfollows hpassed
          have hlength : (context.logged (Record.commitRecord context.trancId)).operations.length =
              context.operations.length + 1 := List.length_append
          dsimp only
          rcases persist_cases lsm handle
              (context.logged (Record.commitRecord context.trancId)) walOk with
            ⟨hpersist, hwal, hcount⟩ | ⟨err, hpersist, hwal⟩
          · rw [hlength] at hwal hcount
            rw [hpersist]
            simp only [andThen, if_true]
            generalize happlied : applyCommit config _ handle _ = applied
            have hcommitted : Engine.Follows applied.engine
                (context.committedEntries ++ history) := by
              rw [← happlied]
              exact follows_applyCommit config hfollows handle
                (context.logged (Record.commitRecord context.trancId)).persisted
            obtain ⟨hflushed, hview⟩ :=
              flushWhileFull_kept config (flushFuel applied) hcommitted
            have hstep : ∀ outcome : Except Err Reply,
                (∀ reply, outcome = .ok reply → reply = .ended true) →
                View.Step (lsm.view history) (.commit handle walOk) outcome
                  ((flushWhileFull config (flushFuel applied) applied).1.view
                    (context.committedEntries ++ history)) := by
              intro outcome houtcome
              have hcommit := View.Step.committed hcontext hopen hfirst hpassed hwal hcount
                houtcome
              rw [hview, ← happlied, view_applyCommit]
              have hset : ∀ first second : TranContext,
                  (lsm.contexts.set handle first).set handle second =
                    lsm.contexts.set handle second := fun first second => List.set_set ..
              simp only [LSM.view, hset]
              exact hcommit
            refine ⟨context.committedEntries ++ history, ?_, ?_⟩
            · cases hresult : (flushWhileFull config (flushFuel applied) applied).2 with
              | error err => exact hstep _ fun reply hreply => by cases hreply
              | ok done => exact hstep _ fun reply hreply => (Except.ok.inj hreply).symm
            · cases hresult : (flushWhileFull config (flushFuel applied) applied).2 with
              | error err => exact hflushed
              | ok done => exact hflushed
          · rw [hlength] at hwal
            rw [hpersist]
            exact ⟨history, View.Step.commitUnlogged hcontext hopen hfirst hwal, hfollows⟩

private theorem refines_abort (hfollows : Engine.Follows lsm.engine history) (handle : ℕ) :
    Refines lsm history (.abort handle) (reply Reply.ended (abort lsm handle)) := by
  unfold abort
  split
  · exact refines_refused hfollows rfl _
  next context hcontext =>
    split
    next hfinished =>
      exact ⟨history, View.Step.alreadyOver (Or.inl rfl) hcontext hfinished, hfollows⟩
    next hopen =>
      rw [Bool.not_eq_true] at hopen
      split
      · exact refines_refused hfollows rfl _
      next hcount =>
        split
        · exact refines_refused hfollows rfl _
        next hfirst =>
          rw [Bool.not_eq_true] at hfirst
          exact ⟨history, View.Step.rolledBack hcontext hopen hfirst (not_lt.mp hcount),
            hfollows⟩

/-- A plain write, seen as an operation of the engine. -/
private theorem refines_plain (config : Config) (hfollows : Engine.Follows lsm.engine history)
    {call : Call} (hcall : call.isPlain = true) (op : EngineOp)
    (hrecord : op.record history =
      call.plainEntries lsm.tranManager.nextTransactionId ++ history) :
    Refines lsm history call (reply (fun _ => .done)
      (lsm.takeTrancId.1.notify (op.run config lsm.engine))) := by
  refine ⟨op.record history, ?_, ?_⟩
  · simp only [reply, LSM.view_notify, hrecord]
    exact View.Step.plain hcall
  · simp only [reply, LSM.engine_notify]
    exact hfollows.run config op

end TranContext

/-- Every call on the store is a step of its view. -/
theorem Call.run_refines (config : Config) {lsm : LSM} {history : List Entry}
    (hfollows : Engine.Follows lsm.engine history) (call : Call) :
    ∃ history', View.Step (lsm.view history) call (call.run config lsm).2
        ((call.run config lsm).1.view history') ∧
      Engine.Follows (call.run config lsm).1.engine history' := by
  cases call with
  | beginTran isolationLevel => exact ⟨history, View.Step.begun isolationLevel, hfollows⟩
  | write handle op walOk => exact TranContext.refines_write config hfollows handle op walOk
  | get handle key => exact TranContext.refines_get hfollows handle key
  | commit handle walOk => exact TranContext.refines_commit config hfollows handle walOk
  | abort handle => exact TranContext.refines_abort hfollows handle
  | plainPut key value =>
      exact TranContext.refines_plain config hfollows rfl (.put key value _) rfl
  | plainPutBatch kvs =>
      exact TranContext.refines_plain config hfollows rfl (.putBatch kvs _) rfl
  | plainRemove key =>
      exact TranContext.refines_plain config hfollows rfl (.remove key _) rfl
  | plainRemoveBatch keys =>
      exact TranContext.refines_plain config hfollows rfl (.removeBatch keys _) rfl
  | plainGet key => exact ⟨history, View.Step.plain rfl, hfollows⟩
  | plainGetBatch keys => exact ⟨history, View.Step.plain rfl, hfollows⟩
  | flush =>
      refine ⟨history, ?_, ?_⟩
      · rw [show (Call.run config lsm .flush).1.view history = lsm.view history from
          LSM.view_notify _ history]
        exact View.Step.maintained rfl
      · rw [show (Call.run config lsm .flush).1.engine = (lsm.engine.flush config).1 from
          LSM.engine_notify _]
        exact hfollows.run config .flush
  | freeze => exact ⟨history, View.Step.maintained rfl, hfollows.run config .freeze⟩
  | compact srcLevel =>
      exact ⟨history, View.Step.maintained rfl, hfollows.compact config srcLevel⟩

theorem runCalls_append (config : Config) (lsm : LSM) (left right : List Call) :
    runCalls config lsm (left ++ right) =
      ((runCalls config (runCalls config lsm left).1 right).1,
        (runCalls config lsm left).2 ++ (runCalls config (runCalls config lsm left).1 right).2) := by
  induction left generalizing lsm with
  | nil => rfl
  | cons call rest ih =>
      rw [List.cons_append, runCalls, ih]
      rfl

theorem runCalls_call (config : Config) (lsm : LSM) (calls : List Call) :
    (runCalls config lsm calls).2.map Event.call = calls := by
  induction calls generalizing lsm with
  | nil => rfl
  | cons call rest ih => exact congrArg (call :: ·) (ih _)

/-- One more call behind a run. -/
theorem runCalls_snoc (config : Config) (calls : List Call) (call : Call) :
    (runCalls config LSM.new (calls ++ [call])).1 =
      (call.run config (runCalls config LSM.new calls).1).1 := by
  rw [runCalls_append]
  rfl

/-- A run of the store is a run of its view. -/
theorem runCalls_refines (config : Config) {lsm : LSM} {history : List Entry}
    (hfollows : Engine.Follows lsm.engine history) (calls : List Call) :
    ∃ history', View.Run (lsm.view history) (runCalls config lsm calls).2
        ((runCalls config lsm calls).1.view history') ∧
      Engine.Follows (runCalls config lsm calls).1.engine history' := by
  induction calls generalizing lsm history with
  | nil => exact ⟨history, View.Run.nil, hfollows⟩
  | cons call rest ih =>
      obtain ⟨next, hstep, hnext⟩ := Call.run_refines config hfollows call
      obtain ⟨last, hrest, hlast⟩ := ih hnext
      exact ⟨last, View.Run.cons hstep hrest, hlast⟩

end KopiDb
