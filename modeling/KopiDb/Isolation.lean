import KopiDb.Session
import KopiDb.EngineContract

/-!
# What a transaction sees of the others

A read above the lowest level returns a write of its own, an earlier read of its own, or
what plain writes and committed transactions have left behind.  A commit that succeeds
shows all staged writes at once, and one that fails shows none.
-/

namespace KopiDb

/-- The writers that a strict read may see: plain writes and committed transactions. -/
def LSM.eligible (lsm : LSM) (id : ℕ) : Bool :=
  lsm.contexts.all fun context => decide (context.trancId ≠ id) || context.isCommited

/-- The bound of an engine read; `0` is no bound. -/
def TranContext.readBound (context : TranContext) : ℕ :=
  if context.caching then context.trancId else 0

/-- An answer that the writes of eligible writers give alone. -/
structure CleanRead (lsm : LSM) (key : Bytes) (bound : ℕ) (found : Option Bytes) : Prop where
  user : key ≠ [] → found = (reference
    (lsm.engine.records.filter fun entry => lsm.eligible entry.txid) key bound
      fun _ => false).map Prod.fst
  reserved : key = [] → ∀ value ∈ found, ∃ entry ∈ lsm.engine.records, entry.key = [] ∧
    entry.value = value ∧ lsm.eligible entry.txid = true

theorem LSM.follows_new : Engine.Follows LSM.new.engine [] := Engine.follows_new

section

variable (config : Config) (calls : List Call)

/-- The records of a store that calls have reached. -/
theorem runCalls_follows :
    Engine.Follows (runCalls config LSM.new calls).1.engine
      (runCalls config LSM.new calls).1.engine.records := by
  obtain ⟨history, -, hfollows⟩ := runCalls_refines config LSM.follows_new calls
  exact ⟨hfollows.invariant, Versions.Reflects.refl _⟩

theorem runCalls_coherent :
    ((runCalls config LSM.new calls).1.view
      (runCalls config LSM.new calls).1.engine.records).Coherent := by
  obtain ⟨history, hrun, hfollows⟩ := runCalls_refines config LSM.follows_new calls
  have hcoherent := View.coherent_empty.run hrun
  exact hcoherent.reflects hfollows.reflects

theorem runCalls_tracks :
    Session.Tracks (runCalls config LSM.new calls).1.contexts fun handle =>
      sessionOf handle (runCalls config LSM.new calls).2 := by
  obtain ⟨history, hrun, -⟩ := runCalls_refines config LSM.follows_new calls
  have hstart : Session.Tracks View.empty.contexts fun _ => Session.start :=
    ⟨fun _ _ hcontext _ => (by cases hcontext), fun _ _ => rfl⟩
  exact hstart.run hrun

end

namespace LSM

variable {lsm : LSM} {history : List Entry}

theorem eligible_eq (hcoherent : (lsm.view history).Coherent) {context : TranContext}
    (hcontext : context ∈ lsm.contexts) :
    lsm.eligible context.trancId = context.isCommited := by
  apply Bool.eq_iff_iff.mpr
  unfold eligible
  rw [List.all_eq_true]
  constructor
  · intro hall
    simpa using hall context hcontext
  · intro hcommitted other hother
    by_cases hid : other.trancId = context.trancId
    · rw [hcoherent.eq_of_trancId hother hcontext hid, hcommitted, Bool.or_true]
    · rw [decide_eq_true hid, Bool.true_or]

/-- A strict read skips exactly the writers that are not eligible. -/
theorem shouldSkipRead_eq (hcoherent : (lsm.view history).Coherent) (id : ℕ) :
    lsm.tranManager.shouldSkipRead id true = !lsm.eligible id := by
  by_cases hknown : ∃ context ∈ lsm.contexts, context.trancId = id
  · obtain ⟨context, hcontext, rfl⟩ := hknown
    have hactive := hcoherent.active_iff context hcontext
    have haborted := hcoherent.aborted_iff context hcontext
    have hexclusive := hcoherent.exclusive context hcontext
    change context.trancId ∈ lsm.tranManager.activeTrans ↔ _ at hactive
    change context.trancId ∈ lsm.tranManager.abortedTrancIds ↔ _ at haborted
    rw [eligible_eq hcoherent hcontext, TranManager.shouldSkipRead, TranManager.isAborted]
    unfold TranContext.finished at hactive
    cases hfirst : context.isCommited <;> cases hsecond : context.isAborted <;>
      simp_all
  · have hplain : lsm.eligible id = true := by
      unfold eligible
      rw [List.all_eq_true]
      intro context hcontext
      have hne : context.trancId ≠ id := fun hid => hknown ⟨context, hcontext, hid⟩
      rw [decide_eq_true hne, Bool.true_or]
    have haborted : id ∉ lsm.tranManager.abortedTrancIds :=
      fun hmem => hknown (hcoherent.aborted_known id hmem)
    have hactive : id ∉ lsm.tranManager.activeTrans :=
      fun hmem => hknown (hcoherent.active_known id hmem)
    simp [TranManager.shouldSkipRead, TranManager.isAborted, hplain, haborted, hactive]

/-- A strict read of the engine uses eligible writers only. -/
theorem cleanRead (hcoherent : (lsm.view history).Coherent)
    (hfollows : Engine.Follows lsm.engine lsm.engine.records) (key : Bytes) (bound : ℕ) :
    ∃ found, lsm.engine.get (some lsm.tranManager.policy) key bound true = .ok found ∧
      CleanRead lsm key bound (found.map Prod.fst) := by
  have hskip : (lsm.view lsm.engine.records).skip true = fun id => !lsm.eligible id := by
    funext id
    exact shouldSkipRead_eq hcoherent id
  obtain ⟨found, hget, hfound⟩ := get_found hfollows key bound true
  rw [hskip] at hfound
  refine ⟨found, hget, ⟨fun hkey => ?_, fun hkey value hvalue => ?_⟩⟩
  · have hfilter := Versions.read_filter_skip lsm.engine.records key bound
      fun id => !lsm.eligible id
    simp only [Bool.not_not] at hfilter
    rw [hfound.user hkey, reference, reference, hfilter]
  · obtain ⟨pair, hpair, rfl⟩ := Option.map_eq_some_iff.mp hvalue
    obtain ⟨entry, hmem, hempty, hentry, hvisible⟩ := hfound.reserved hkey pair hpair
    refine ⟨entry, hmem, hempty, congrArg Prod.fst hentry, ?_⟩
    have hshown := (Bool.and_eq_true_iff.mp hvisible).2
    rwa [Bool.not_not] at hshown

end LSM

namespace TranContext

/-- What `get` answers above the lowest level. -/
inductive GetSource (lsm : LSM) (handle : ℕ) (context : TranContext) (session : Session)
    (key : Bytes) : Prop where
  /-- The latest own write. -/
  | staged (op : WriteOp) (hstaged : session.staged key = some op)
      (hget : get lsm handle key =
        (lsm, .ok (if op.value = [] then none else some op.value)))
  /-- The first own read, at the levels that keep it. -/
  | cached (found : Option Bytes) (hstaged : session.staged key = none)
      (hcaching : context.caching = true) (hread : session.firstRead key = some found)
      (hget : get lsm handle key = (lsm, .ok found))
  /-- The engine, without uncommitted and aborted writers. -/
  | engine (found : Option Bytes) (hstaged : session.staged key = none)
      (hfirst : context.caching = true → session.firstRead key = none)
      (hget : (get lsm handle key).2 = .ok found)
      (hclean : CleanRead lsm key context.readBound found)

private theorem get_source {lsm : LSM} {history : List Entry} {handle : ℕ}
    {context : TranContext} {session : Session} (hcoherent : (lsm.view history).Coherent)
    (hfollows : Engine.Follows lsm.engine lsm.engine.records)
    (hcontext : lsm.contexts[handle]? = some context)
    (hlevel : context.isolationLevel ≠ .readUnopCommitted) (hopen : context.finished = false)
    (hagrees : Session.Agrees context session) (key : Bytes) :
    GetSource lsm handle context session key := by
  have hstaged := hagrees.staged hlevel key
  cases hpending : context.tempMap.find? key with
  | some pending =>
      rw [hpending] at hstaged
      obtain ⟨op, hop, rfl⟩ := Option.map_eq_some_iff.mp hstaged.symm
      apply GetSource.staged op hop
      simp only [get, hcontext, hopen, hpending, Bool.false_eq_true, if_false]
  | none =>
      rw [hpending] at hstaged
      have hnone := Option.map_eq_none_iff.mp hstaged.symm
      by_cases hcommitted : context.isolationLevel = .readOpCommitted
      · have hcaching : context.caching = false := by
          rw [caching, hcommitted]
          rfl
        obtain ⟨found, hget, hclean⟩ := LSM.cleanRead hcoherent hfollows key 0
        apply GetSource.engine (found.map Prod.fst) hnone
        · exact fun htrue => absurd (hcaching.symm.trans htrue) Bool.false_ne_true
        · simp [get, hcontext, hopen, hpending, hcommitted, hget, Except.map]
        · rwa [readBound, hcaching]
      · have hcaching : context.caching = true := decide_eq_true ⟨hlevel, hcommitted⟩
        have hread := hagrees.reads hcaching key
        cases hcached : context.readMap.find? key with
        | some query =>
            rw [hcached] at hread
            apply GetSource.cached (query.map Prod.fst) hnone hcaching hread.symm
            simp [get, hcontext, hopen, hpending, hlevel, hcommitted, hcached]
        | none =>
            rw [hcached] at hread
            obtain ⟨found, hget, hclean⟩ :=
              LSM.cleanRead hcoherent hfollows key context.trancId
            apply GetSource.engine (found.map Prod.fst) hnone fun _ => hread.symm
            · simp [get, hcontext, hopen, hpending, hlevel, hcommitted, hcached, hget]
            · rwa [readBound, hcaching]

/-- In every state that calls reach, a read above the lowest level has a clean source, and
a strict read sees all writes of a writer or none. -/
theorem get_not_dirty (config : Config) (calls : List Call) :
    let run := runCalls config LSM.new calls
    (∀ handle context, run.1.contexts[handle]? = some context →
      context.isolationLevel ≠ .readUnopCommitted → context.finished = false →
      ∀ key, GetSource run.1 handle context (sessionOf handle run.2) key) ∧
    (∀ context ∈ run.1.contexts, ∀ entry ∈ run.1.engine.records,
      entry.txid = context.trancId → run.1.eligible entry.txid = context.isCommited) ∧
    ∀ id, run.1.tranManager.shouldSkipRead id true = !run.1.eligible id := by
  intro run
  have hfollows := runCalls_follows config calls
  have hcoherent := runCalls_coherent config calls
  have htracks := runCalls_tracks config calls
  refine ⟨?_, ?_, ?_⟩
  · intro handle context hcontext hlevel hopen key
    exact get_source hcoherent hfollows hcontext hlevel hopen
      (htracks.opened hcontext hopen) key
  · intro context hcontext entry _ hid
    rw [hid]
    exact LSM.eligible_eq hcoherent hcontext
  · exact LSM.shouldSkipRead_eq hcoherent

/-- A dirty value in a file, and one that was committed. -/
theorem get_not_dirty_sample :
    GetSource
      (runCalls smallConfig LSM.new
        [.beginTran .readUnopCommitted, .write 0 (.put [1] [7]) true, .flush,
          .beginTran .readOpCommitted]).1 1 (TranContext.start 2 .readOpCommitted)
      (sessionOf 1 (runCalls smallConfig LSM.new
        [.beginTran .readUnopCommitted, .write 0 (.put [1] [7]) true, .flush,
          .beginTran .readOpCommitted]).2) [1] ∧
    (get (runCalls smallConfig LSM.new
        [.beginTran .readUnopCommitted, .write 0 (.put [1] [7]) true, .flush,
          .beginTran .readOpCommitted]).1 1 [1]).2 = .ok none := by
  refine ⟨?_, by decide⟩
  exact (get_not_dirty smallConfig
    [.beginTran .readUnopCommitted, .write 0 (.put [1] [7]) true, .flush,
      .beginTran .readOpCommitted]).1 1 _ rfl (by decide) rfl [1]

/-! ## Commits -/

end TranContext

/-- A strict read without a bound. -/
def LSM.strictGet (lsm : LSM) (key : Bytes) : Except Err (Option (Bytes × ℕ)) :=
  lsm.engine.get (some lsm.tranManager.policy) key 0 true

/-- A strict read that throws at blocks out of reach. -/
def LSM.tryStrictGet (lsm : LSM) (key : Bytes) : Except Err (Option (Bytes × ℕ)) :=
  lsm.engine.tryGet (some lsm.tranManager.policy) key 0 true

theorem LSM.tryStrictGet_eq {lsm : LSM} (hsmall : lsm.engine.Addressable) (key : Bytes) :
    lsm.tryStrictGet key = lsm.strictGet key :=
  Engine.tryGet_eq hsmall _ key 0 true

/-- The staged writes are what is read, and nothing else has changed. -/
structure CommitShown (lsm after : LSM) (session : Session) (trancId : ℕ) : Prop where
  own : ∀ key op, session.staged key = some op → after.tryStrictGet key =
    .ok (if op.value = [] then none else some (op.value, trancId))
  others : ∀ key, session.staged key = none → (key = [] → Engine.MarkersOnly lsm.engine.records) →
    after.tryStrictGet key = lsm.tryStrictGet key

/-- Nothing was written, and the transaction is known to have rolled back. -/
structure CommitCancelled (lsm after : LSM) (trancId : ℕ) : Prop where
  engine : after.engine = lsm.engine
  wal : after.wal = lsm.wal
  aborted : trancId ∈ after.tranManager.abortedTrancIds
  reads : ∀ key bound requireCommitted,
    after.engine.tryGet (some after.tranManager.policy) key bound requireCommitted =
      lsm.engine.tryGet (some lsm.tranManager.policy) key bound requireCommitted

namespace TranContext

section

variable {config : Config} {lsm : LSM} {history : List Entry} {handle : ℕ}
  {context : TranContext} {walOk : Bool}

/-- A commit that returns true has passed its checks and added its writes. -/
theorem commit_ok_true (hfollows : Engine.Follows lsm.engine history)
    (hcontext : lsm.contexts[handle]? = some context)
    (hcommit : (commit config lsm handle false walOk).2 = .ok true) :
    let after := (commit config lsm handle false walOk).1
    View.Passed (lsm.view history) context ∧ context.finished = false ∧
      Engine.Follows after.engine (context.committedEntries ++ history) ∧
      after.tranManager.abortedTrancIds = lsm.tranManager.abortedTrancIds ∧
      after.tranManager.activeTrans = lsm.tranManager.activeTrans.erase context.trancId ∧
      after.wal = lsm.wal ++ (context.logged (Record.commitRecord context.trancId)).pending := by
  intro after
  obtain ⟨history', hstep, hafter⟩ :=
    Call.run_refines config hfollows (.commit handle walOk)
  have hreply : (Call.run config lsm (.commit handle walOk)).2 = .ok (.ended true) := by
    change Except.map _ _ = _
    rw [hcommit]
    rfl
  have hsame : (Call.run config lsm (.commit handle walOk)).1 = after := rfl
  rw [hreply, hsame] at hstep
  rw [hsame] at hafter
  generalize hview : after.view history' = view' at hstep
  cases hstep with
  | maintained hcall => cases hcall
  | plain hcall => cases hcall
  | committed hfound hopen hfirst hpassed hwal hcount houtcome =>
      obtain rfl := Option.some.inj (hcontext.symm.trans hfound)
      have hhistory : history' = _ := congrArg View.history hview
      rw [hhistory] at hafter
      exact ⟨hpassed, hopen, hafter, congrArg View.aborted hview, congrArg View.active hview,
        congrArg View.wal hview⟩

/-- A commit that returns false on an open context has only registered the rollback. -/
private theorem commit_ok_false (hcontext : lsm.contexts[handle]? = some context)
    (hopen : context.finished = false) {testFail : Bool}
    (hcommit : (commit config lsm handle testFail walOk).2 = .ok false) :
    (commit config lsm handle testFail walOk).1 = { lsm with
      tranManager := lsm.tranManager.addReadyToFlushTrancId context.trancId .aborted
      contexts := lsm.contexts.set handle { context with isAborted := true } } := by
  unfold commit at hcommit ⊢
  simp only [hcontext, hopen, Bool.false_eq_true, if_false] at hcommit ⊢
  cases testFail with
  | true => cases hcommit
  | false =>
      simp only [Bool.false_eq_true, if_false] at hcommit ⊢
      by_cases hattempted : context.endAttempted = true
      · rw [if_pos hattempted] at hcommit
        cases hcommit
      · rw [if_neg hattempted] at hcommit ⊢
        unfold commitLocked at hcommit ⊢
        cases hconflict : hasConflict lsm context with
        | error err =>
            rw [hconflict] at hcommit
            cases hcommit
        | ok conflict =>
            cases conflict with
            | true => rfl
            | false =>
                rw [hconflict] at hcommit
                exfalso
                rcases andThen_cases (persist lsm handle
                    (context.logged (Record.commitRecord context.trancId)) walOk)
                    (fun lsm _ => (applyCommit config lsm handle
                      { context.logged (Record.commitRecord context.trancId) with
                        walWrittenCount := (context.logged
                          (Record.commitRecord context.trancId)).operations.length },
                      (Except.ok true : Except Err Bool)))
                  with ⟨err, -, hthrown⟩ | ⟨value, -, hdone⟩
                · dsimp only at hcommit
                  rw [hthrown] at hcommit
                  cases hcommit
                · dsimp only at hcommit
                  rw [hdone] at hcommit
                  simp only [andThen, if_true] at hcommit
                  split at hcommit
                  · cases hcommit
                  · cases hcommit

/-- The engine answers a strict read from the writers that the manager does not skip. -/
private theorem strictGet_eq (hfollows : Engine.Follows lsm.engine history) {key : Bytes}
    (hkey : key ≠ []) :
    lsm.strictGet key = .ok (reference history key 0 ((lsm.view history).skip true)) :=
  hfollows.get 0 hkey lsm.tranManager.policy true

private theorem commit_shown (hcoherent : (lsm.view lsm.engine.records).Coherent)
    (hfollows : Engine.Follows lsm.engine lsm.engine.records)
    (hcontext : lsm.contexts[handle]? = some context)
    (hlevel : context.isolationLevel ≠ .readUnopCommitted) (hopen : context.finished = false)
    {session : Session} (hagrees : Session.Agrees context session)
    (hkeys : ∀ key, session.staged key ≠ none → key ≠ [])
    (hcommit : (commit config lsm handle false walOk).2 = .ok true)
    (hsmall : lsm.engine.Addressable)
    (hsmall' : (commit config lsm handle false walOk).1.engine.Addressable) :
    CommitShown lsm (commit config lsm handle false walOk).1 session context.trancId := by
  obtain ⟨hpassed, -, hafter, haborted, hactive, -⟩ := commit_ok_true hfollows hcontext hcommit
  generalize (commit config lsm handle false walOk).1 = after
    at hafter haborted hactive hsmall' ⊢
  have hself := List.mem_of_getElem? hcontext
  have hclear : context.trancId ∉ lsm.tranManager.abortedTrancIds := by
    intro hmem
    have hrolled := (hcoherent.aborted_iff context hself).mp hmem
    exact Bool.false_ne_true ((Bool.or_eq_false_iff.mp hopen).2.symm.trans hrolled)
  have hopenCommit := (Bool.or_eq_false_iff.mp hopen).1
  -- The only writer whose visibility changes is the transaction itself.
  let skip := (after.view (context.committedEntries ++ lsm.engine.records)).skip true
  have hskip : ∀ id, skip id = (decide (id ∈ after.tranManager.abortedTrancIds) ||
      (true && decide (id ∈ after.tranManager.activeTrans))) := fun id => rfl
  have hskipSelf : skip context.trancId = false := by
    rw [hskip, haborted, hactive]
    simp [hclear]
  have hskipOther : ∀ id, id ≠ context.trancId →
      skip id = (lsm.view lsm.engine.records).skip true id := by
    intro id hne
    rw [hskip, haborted, hactive]
    simp only [Finset.mem_erase, ne_eq, hne, not_false_eq_true, true_and, Bool.true_and]
    rfl
  have hvisible : Versions.visible 0 skip context.trancId = true := by
    simp [Versions.visible, hskipSelf]
  have hunwritten := hcoherent.unwritten context hself hlevel hopenCommit
  have hhistory : ∀ key, Versions.read lsm.engine.records key 0 skip =
      Versions.read lsm.engine.records key 0 ((lsm.view lsm.engine.records).skip true) := by
    intro key
    apply Versions.read_skip_congr
    exact fun entry hmem _ => hskipOther entry.txid (hunwritten entry hmem)
  have hget : ∀ key, key ≠ [] → after.strictGet key = .ok (live (answer (Versions.prefer
      ((context.tempMap.find? key).map fun value => (⟨key, value, context.trancId⟩ : Entry))
      (Versions.read lsm.engine.records key 0 ((lsm.view lsm.engine.records).skip true))))) := by
    intro key hkey
    rw [strictGet_eq hafter hkey, reference, Versions.read_append,
      read_committedEntries hlevel hkey hvisible, hhistory]
  constructor
  · intro key op hop
    have hkey : key ≠ [] := hkeys key (by rw [hop]; exact Option.some_ne_none op)
    have hpending : context.tempMap.find? key = some op.value := by
      rw [hagrees.staged hlevel, hop, Option.map_some]
    have hshadow := hpassed.shadow hlevel hkey hpending true
    change Versions.prefer _ (Versions.read lsm.engine.records key 0 _) = _ at hshadow
    rw [LSM.tryStrictGet_eq hsmall', hget key hkey, hpending, Option.map_some, hshadow]
    by_cases hempty : op.value = [] <;> simp [answer, live, hempty]
  · intro key hnone hempty
    rw [LSM.tryStrictGet_eq hsmall, LSM.tryStrictGet_eq hsmall']
    by_cases hkey : key = []
    · subst hkey
      have hbefore : Engine.MarkersOnly lsm.engine.fileRecords := fun entry hmem =>
        hempty rfl entry (List.mem_append_right _ hmem)
      have hthen : Engine.MarkersOnly after.engine.fileRecords := by
        intro entry hmem hentry
        have hall := hafter.reflects.subset entry (List.mem_append_right _ hmem)
        rcases List.mem_append.mp hall with hwritten | hold
        · rcases mem_committedEntries.mp hwritten with rfl | ⟨-, staged, hstaged, rfl⟩
          · rfl
          · refine absurd hentry (hkeys staged.1 fun hunstaged => ?_)
            have hfind := hagrees.staged hlevel staged.1
            rw [OrdMap.find?_eq_some_iff.mpr hstaged, hunstaged] at hfind
            cases hfind
        · exact hempty rfl entry hold hentry
      unfold LSM.strictGet
      rw [Engine.get_empty_key 0 hfollows.invariant hbefore,
        Engine.get_empty_key 0 hafter.invariant hthen]
    · have hpending : context.tempMap.find? key = none := by
        rw [hagrees.staged hlevel, hnone, Option.map_none]
      rw [hget key hkey, hpending, Option.map_none, Versions.prefer_none_left,
        strictGet_eq hfollows hkey, reference]

/-- A rollback moves a transaction from the active to the aborted ones: the writers of what is
stored are skipped as before. -/
private theorem commit_cancelled (hcoherent : (lsm.view lsm.engine.records).Coherent)
    (hfollows : Engine.Follows lsm.engine history)
    (hcontext : lsm.contexts[handle]? = some context)
    (hlevel : context.isolationLevel ≠ .readUnopCommitted) (hopen : context.finished = false)
    {testFail : Bool} (hcommit : (commit config lsm handle testFail walOk).2 = .ok false)
    (hsmall : lsm.engine.Addressable) :
    CommitCancelled lsm (commit config lsm handle testFail walOk).1 context.trancId := by
  rw [commit_ok_false hcontext hopen hcommit]
  have hself := List.mem_of_getElem? hcontext
  have hunwritten := hcoherent.unwritten context hself hlevel
    (Bool.or_eq_false_iff.mp hopen).1
  refine ⟨rfl, rfl, ?_, ?_⟩
  · simp [TranManager.addReadyToFlushTrancId]
  · intro key bound requireCommitted
    rw [Engine.tryGet_eq hsmall, Engine.tryGet_eq hsmall]
    refine Engine.get_skip_congr bound hfollows.invariant (fun entry hmem => ?_) key
    have hne := hunwritten entry hmem
    simp [TranManager.policy, TranManager.shouldSkipRead, TranManager.isAborted,
      TranManager.addReadyToFlushTrancId, hne]

end

/-- A plain value under the empty key lies in a file of its own; the commit starts a merge whose
table opens with a user key. -/
def emptyKeyCalls : List Call :=
  [.plainPut [] [7], .flush, .plainPut [1] [8], .flush, .beginTran .readOpCommitted,
    .write 0 (.put [2] [9]) true]

/-- Memory tables that a commit of one record fills. -/
def tightConfig : Config := { smallConfig with lsmTolMemSizeLimit := 16 }

end TranContext

end KopiDb
