import KopiDb.LogGrammar

/-!
# Replaying the log of a transaction

The `PUT` and `DELETE` records of a committed transaction, replayed in order, give the
versions that it left in the engine, as long as the log took all of its eager writes.
An eager write that the log did not take stays pending, and a later call logs it.
-/

namespace KopiDb

/-- The last value of every key in a log, the empty one for a deletion. -/
def replayLog (log : List Record) : Bytes → Option Bytes :=
  log.foldl (fun store record =>
    if record.isData then Function.update store record.key (some record.value) else store)
    fun _ => none

/-- The version of a key with one number that the records show. -/
def versionOf (records : List Entry) (key : Bytes) (trancId : ℕ) : Option Bytes :=
  (Versions.versionsOf records key trancId).head?.map Version.value

/-- The record of a write, and whether the log takes it. -/
def Event.attempt (handle trancId : ℕ) (event : Event) : Option (Record × Bool) :=
  match event.call with
  | .write other op walOk =>
      if other = handle then
        match op.record trancId with
        | .ok record => some (record, walOk)
        | .error _ => none
      else none
  | _ => none

/-- The writes of one transaction that pass the checks of `Record`. -/
def attemptsOf (handle trancId : ℕ) (events : List Event) : List (Record × Bool) :=
  events.filterMap (Event.attempt handle trancId)

/-- The writes that went through: at the lowest level the log has to take them. -/
def acceptedOf (isolationLevel : IsolationLevel) (attempts : List (Record × Bool)) :
    List Record :=
  (attempts.filter fun attempt =>
    decide (isolationLevel ≠ .readUnopCommitted) || attempt.2).map Prod.fst

section

variable {record : Record} {log : List Record} {key : Bytes} {trancId : ℕ}

theorem replayLog_append_data (hdata : record.isData = true) :
    replayLog (log ++ [record]) =
      Function.update (replayLog log) record.key (some record.value) := by
  rw [replayLog, List.foldl_append, List.foldl_cons, List.foldl_nil, if_pos hdata]
  rfl

theorem replayLog_append_other (hother : record.isData = false) :
    replayLog (log ++ [record]) = replayLog log := by
  rw [replayLog, List.foldl_append, List.foldl_cons, List.foldl_nil, hother,
    if_neg Bool.false_ne_true]
  rfl

theorem versionsOf_eq_nil {records : List Entry}
    (hne : ∀ entry ∈ records, entry.txid ≠ trancId) :
    Versions.versionsOf records key trancId = [] := by
  apply List.eq_nil_iff_forall_not_mem.mpr
  intro entry hmem
  obtain ⟨hrecord, -, htxid⟩ := Versions.mem_versionsOf.mp hmem
  exact hne entry hrecord htxid

theorem versionOf_eq_none {records : List Entry}
    (hne : ∀ entry ∈ records, entry.txid ≠ trancId) : versionOf records key trancId = none := by
  rw [versionOf, versionsOf_eq_nil hne]
  rfl

theorem versionOf_append_of_ne {written history : List Entry}
    (hne : ∀ entry ∈ written, entry.txid ≠ trancId) :
    versionOf (written ++ history) key trancId = versionOf history key trancId := by
  rw [versionOf, Versions.versionsOf_append, versionsOf_eq_nil hne, List.nil_append, versionOf]

theorem versionOf_cons (entry : Entry) (history : List Entry) :
    versionOf (entry :: history) key trancId =
      if entry.key = key ∧ entry.txid = trancId then some entry.value
      else versionOf history key trancId := by
  rw [versionOf, Versions.versionsOf_cons]
  split_ifs
  · rfl
  · rfl

end

/-- What the log and the engine know of an open transaction. -/
structure TranContext.Replays (context : TranContext) (history : List Entry)
    (attempts : List (Record × Bool)) : Prop where
  data : context.operations.filter Record.isData = attempts.map Prod.fst
  staged : context.isolationLevel ≠ .readUnopCommitted → ∀ key,
    context.tempMap.find? key = replayLog context.operations key
  eager : context.isolationLevel = .readUnopCommitted →
    (∀ attempt ∈ attempts, attempt.2 = true) → ∀ key,
      versionOf history key context.trancId = replayLog context.operations key

namespace View

/-- The transaction at a handle, as long as it is open. -/
def Attempted (view : View) (handle trancId : ℕ) (isolationLevel : IsolationLevel)
    (past : List Event) : Prop :=
  ∃ context, view.contexts[handle]? = some context ∧ context.trancId = trancId ∧
    context.isolationLevel = isolationLevel ∧
    (context.finished = false → context.Replays view.history (attemptsOf handle trancId past))

namespace Attempted

variable {view view' : View} {handle trancId : ℕ} {isolationLevel : IsolationLevel}
  {past : List Event} {event : Event}

private theorem attemptsOf_snoc (past : List Event) (event : Event) :
    attemptsOf handle trancId (past ++ [event]) =
      attemptsOf handle trancId past ++ (event.attempt handle trancId).toList := by
  rw [attemptsOf, List.filterMap_append]
  congr 1

/-- The transaction is not concerned. -/
private theorem frame (hattempted : Attempted view handle trancId isolationLevel past)
    (written : List Entry) (hcontexts : view'.contexts[handle]? = view.contexts[handle]?)
    (hevent : event.attempt handle trancId = none)
    (hhistory : view'.history = written ++ view.history)
    (hwritten : ∀ entry ∈ written, entry.txid ≠ trancId) :
    Attempted view' handle trancId isolationLevel (past ++ [event]) := by
  obtain ⟨context, hcontext, rfl, hlevel, hopen⟩ := hattempted
  refine ⟨context, hcontexts.trans hcontext, rfl, hlevel, fun hfinished => ?_⟩
  have hreplays := hopen hfinished
  rw [attemptsOf_snoc, hevent, Option.toList_none, List.append_nil]
  refine ⟨hreplays.data, hreplays.staged, fun heager hall key => ?_⟩
  rw [hhistory, versionOf_append_of_ne hwritten]
  exact hreplays.eager heager hall key

/-- The transaction itself moves on. -/
private theorem self {context : TranContext}
    (hattempted : Attempted view handle trancId isolationLevel past)
    (hcontext : view.contexts[handle]? = some context) {context' : TranContext}
    (hset : view'.contexts = view.contexts.set handle context')
    (hid : context'.trancId = context.trancId)
    (hlevel : context'.isolationLevel = context.isolationLevel)
    (hself : (context.finished = false →
      context.Replays view.history (attemptsOf handle context.trancId past)) →
        context'.finished = false → context'.Replays view'.history
          (attemptsOf handle context.trancId (past ++ [event]))) :
    Attempted view' handle trancId isolationLevel (past ++ [event]) := by
  obtain ⟨found, hfound, rfl, rfl, hopen⟩ := hattempted
  obtain rfl := Option.some.inj (hcontext.symm.trans hfound)
  refine ⟨context', ?_, hid, hlevel, hself hopen⟩
  rw [hset]
  exact List.getElem?_set_self (List.getElem?_eq_some_iff.mp hcontext).1

/-- A record that is no data changes nothing. -/
private theorem replays_commit {context : TranContext} {history : List Entry}
    {attempts : List (Record × Bool)} (hreplays : context.Replays history attempts) :
    (context.logged (Record.commitRecord context.trancId)).Replays history attempts where
  data := by
    change (context.operations ++ [_]).filter _ = _
    rw [List.filter_append, hreplays.data]
    exact List.append_nil _
  staged hlevel key := by
    change _ = replayLog (context.operations ++ [_]) key
    rw [replayLog_append_other rfl]
    exact hreplays.staged hlevel key
  eager hlevel hall key := by
    change _ = replayLog (context.operations ++ [_]) key
    rw [replayLog_append_other rfl]
    exact hreplays.eager hlevel hall key

private theorem filter_data {context : TranContext} {history : List Entry}
    {attempts : List (Record × Bool)} (hreplays : context.Replays history attempts)
    {record : Record} (hdata : record.isData = true) (walOk : Bool) :
    (context.operations ++ [record]).filter Record.isData =
      (attempts ++ [(record, walOk)]).map Prod.fst := by
  rw [List.filter_append, hreplays.data, List.map_append]
  congr 1
  exact List.filter_eq_self.mpr fun other hmem => by rwa [List.mem_singleton.mp hmem]

private theorem attempt_self {op : WriteOp} {record : Record}
    (hrecord : op.record trancId = .ok record) (walOk : Bool) (outcome : Except Err Reply) :
    Event.attempt handle trancId ⟨.write handle op walOk, outcome⟩ = some (record, walOk) := by
  rw [Event.attempt]
  dsimp only
  rw [if_pos rfl, hrecord]

private theorem attempt_other {other : ℕ} (hne : other ≠ handle) (op : WriteOp) (walOk : Bool)
    (outcome : Except Err Reply) :
    Event.attempt handle trancId ⟨.write other op walOk, outcome⟩ = none := by
  rw [Event.attempt]
  exact if_neg hne

theorem step {call : Call} {outcome : Except Err Reply}
    (hattempted : Attempted view handle trancId isolationLevel past)
    (hcoherent : Coherent view) (hlogged : Logged view)
    (hstep : Step view call outcome view') :
    Attempted view' handle trancId isolationLevel (past ++ [⟨call, outcome⟩]) := by
  have hsame : Event.attempt handle trancId ⟨call, outcome⟩ = none →
      Attempted view handle trancId isolationLevel (past ++ [⟨call, outcome⟩]) :=
    fun hnone => hattempted.frame [] rfl hnone rfl fun _ hmem => by cases hmem
  have hcount : ∀ {handle : ℕ} {context : TranContext},
      view.contexts[handle]? = some context → context.finished = false →
        context.walWrittenCount ≤ context.operations.length := by
    intro handle context hcontext hopen
    have hself := hlogged.contexts context (List.mem_of_getElem? hcontext)
    exact hself.counted (hself.alive (Bool.or_eq_false_iff.mp hopen).2)
  have hset : ∀ {other : ℕ} (context' : TranContext), other ≠ handle →
      (view.contexts.set other context')[handle]? = view.contexts[handle]? :=
    fun context' hne => List.getElem?_set_ne hne
  obtain ⟨mine, hmine, hmineId, -, hmineOpen⟩ := id hattempted
  cases hstep with
  | maintained hcall => exact hsame (by cases call <;> first | rfl | cases hcall)
  | refused hcall =>
      cases call with
      | write other op walOk =>
          by_cases hne : other = handle
          · subst hne
            cases hfinished : mine.finished with
            | true =>
                refine ⟨mine, hmine, hmineId, ?_, fun hopen => ?_⟩
                · obtain ⟨found, hfound, -, hlevel, -⟩ := hattempted
                  rwa [← Option.some.inj (hmine.symm.trans hfound)] at hlevel
                · exact absurd (hopen.symm.trans hfinished) Bool.false_ne_true
            | false =>
                apply hsame
                rw [accepts, hmine, Option.any_some, hfinished, Bool.not_false, Bool.true_and,
                  hmineId] at hcall
                rw [Event.attempt]
                dsimp only
                rw [if_pos rfl]
                cases hrecord : op.record trancId with
                | ok record =>
                    rw [hrecord] at hcall
                    cases hcall
                | error err => rfl
          · exact hsame (attempt_other hne op walOk _)
      | _ => exact hsame rfl
  | plain hcall =>
      refine hattempted.frame _ rfl (by cases call <;> first | rfl | cases hcall) rfl ?_
      intro entry hmem
      rw [Call.txid_of_mem_plainEntries hmem, ← hmineId]
      exact (hcoherent.id_lt mine (List.mem_of_getElem? hmine)).ne'
  | begun level =>
      refine hattempted.frame [] ?_ rfl rfl fun _ hmem => by cases hmem
      exact List.getElem?_append_left (List.getElem?_eq_some_iff.mp hmine).1
  | @staged other op walOk context record hcontext hopen hlevel hrecord =>
      by_cases hne : other = handle
      · subst hne
        obtain rfl := Option.some.inj (hmine.symm.trans hcontext)
        have hlogs := WriteOp.record_eq_ok hrecord
        refine hattempted.self hcontext rfl rfl rfl fun hreplays _ => ?_
        have hreplays := hreplays hopen
        rw [attemptsOf_snoc, attempt_self hrecord walOk, Option.toList_some]
        refine ⟨filter_data hreplays hlogs.1 walOk, fun _ key => ?_,
          fun heager => absurd heager hlevel⟩
        change (mine.tempMap.insert op.key op.value).find? key =
          replayLog (mine.operations ++ [record]) key
        rw [replayLog_append_data hlogs.1, OrdMap.find?_insert, Function.update_apply,
          hreplays.staged hlevel, hlogs.2.2.1, hlogs.2.2.2]
        by_cases hkey : key = op.key
        · rw [if_pos hkey, if_pos hkey]
        · rw [if_neg hkey, if_neg hkey]
      · exact hattempted.frame [] (hset _ hne) (attempt_other hne op walOk _) rfl
          fun _ hmem => by cases hmem
  | @unlogged other op walOk context record err hcontext hopen hlevel hrecord hwal =>
      by_cases hne : other = handle
      · subst hne
        obtain rfl := Option.some.inj (hmine.symm.trans hcontext)
        have hlogs := WriteOp.record_eq_ok hrecord
        have hwalOk : walOk = false := by
          have hsent := hcount hcontext hopen
          exact hwal.resolve_right (by omega)
        refine hattempted.self hcontext rfl rfl rfl fun hreplays _ => ?_
        rw [attemptsOf_snoc, attempt_self hrecord walOk, Option.toList_some]
        refine ⟨filter_data (hreplays hopen) hlogs.1 walOk, fun hstaged => absurd hlevel hstaged,
          fun _ hall => ?_⟩
        have htaken := hall (record, walOk)
          (List.mem_append_right _ (List.mem_singleton_self _))
        exact absurd (hwalOk.symm.trans htaken) Bool.false_ne_true
      · exact hattempted.frame [] (hset _ hne) (attempt_other hne op walOk _) rfl
          fun _ hmem => by cases hmem
  | @applied other op walOk context record _ hcontext hopen hlevel hrecord hwal _ houtcome =>
      by_cases hne : other = handle
      · subst hne
        obtain rfl := Option.some.inj (hmine.symm.trans hcontext)
        have hlogs := WriteOp.record_eq_ok hrecord
        refine hattempted.self hcontext rfl rfl rfl fun hreplays _ => ?_
        have hreplays := hreplays hopen
        rw [attemptsOf_snoc, attempt_self hrecord walOk, Option.toList_some]
        refine ⟨filter_data hreplays hlogs.1 walOk, fun hstaged => absurd hlevel hstaged,
          fun _ hall key => ?_⟩
        change versionOf (⟨op.key, op.value, mine.trancId⟩ :: view.history) key mine.trancId =
          replayLog (mine.operations ++ [record]) key
        rw [replayLog_append_data hlogs.1, versionOf_cons, Function.update_apply, hlogs.2.2.1,
          hlogs.2.2.2]
        have hbefore := hreplays.eager hlevel
          (fun attempt hmem => hall attempt (List.mem_append_left _ hmem)) key
        by_cases hkey : op.key = key
        · rw [if_pos ⟨hkey, rfl⟩, if_pos hkey.symm]
        · rw [if_neg fun hboth => hkey hboth.1, if_neg (Ne.symm hkey), hbefore]
      · refine hattempted.frame [⟨op.key, op.value, context.trancId⟩] (hset _ hne)
          (attempt_other hne op walOk _) rfl fun entry hmem => ?_
        rw [List.mem_singleton.mp hmem, ← hmineId]
        exact hcoherent.trancId_ne hmine hcontext hne
  | gotStaged hcontext hopen hpending => exact hsame rfl
  | gotFresh hcontext hopen hpending hlevel hfound => exact hsame rfl
  | gotCached hcontext hopen hpending hlevel hcached => exact hsame rfl
  | @gotFirst other key context found hcontext hopen hpending hlevel hcached hfound =>
      by_cases hne : other = handle
      · subst hne
        refine hattempted.self hcontext rfl rfl rfl fun hreplays _ => ?_
        have hreplays := hreplays hopen
        rw [attemptsOf_snoc, Event.attempt, Option.toList_none, List.append_nil]
        exact ⟨hreplays.data, hreplays.staged, hreplays.eager⟩
      · exact hattempted.frame [] (hset _ hne) rfl rfl fun _ hmem => by cases hmem
  | alreadyOver hcall hcontext hfinished =>
      apply hsame
      rcases hcall with rfl | ⟨walOk, rfl⟩
      · rfl
      · rfl
  | @conflict other _ context hcontext hopen hfirst =>
      by_cases hne : other = handle
      · subst hne
        refine hattempted.self hcontext rfl rfl rfl fun _ hfinished => ?_
        exact absurd (hfinished.symm.trans (Bool.or_true _)) Bool.false_ne_true
      · exact hattempted.frame [] (hset _ hne) rfl rfl fun _ hmem => by cases hmem
  | @commitUnlogged other _ context err hcontext hopen hfirst hwal =>
      by_cases hne : other = handle
      · subst hne
        refine hattempted.self hcontext rfl rfl rfl fun hreplays _ => ?_
        rw [attemptsOf_snoc, Event.attempt, Option.toList_none, List.append_nil]
        exact replays_commit (hreplays hopen)
      · exact hattempted.frame [] (hset _ hne) rfl rfl fun _ hmem => by cases hmem
  | @committed other _ context _ hcontext hopen hfirst hpassed hwal _ houtcome =>
      by_cases hne : other = handle
      · subst hne
        refine hattempted.self hcontext rfl rfl rfl fun _ hfinished => ?_
        exact absurd hfinished Bool.noConfusion
      · refine hattempted.frame context.committedEntries (hset _ hne) rfl rfl
          fun entry hmem => ?_
        rw [TranContext.txid_of_mem_committedEntries hmem, ← hmineId]
        exact hcoherent.trancId_ne hmine hcontext hne
  | @rolledBack other context hcontext hopen hfirst _ =>
      by_cases hne : other = handle
      · subst hne
        refine hattempted.self hcontext rfl rfl rfl fun _ hfinished => ?_
        exact absurd (hfinished.symm.trans (Bool.or_true _)) Bool.false_ne_true
      · exact hattempted.frame [] (hset _ hne) rfl rfl fun _ hmem => by cases hmem

theorem run {events : List Event}
    (hattempted : Attempted view handle trancId isolationLevel past)
    (hcoherent : Coherent view) (hlogged : Logged view) (hrun : Run view events view') :
    Attempted view' handle trancId isolationLevel (past ++ events) := by
  induction hrun generalizing past with
  | nil => rwa [List.append_nil]
  | @cons view next last call outcome rest hstep hrest ih =>
      rw [List.append_cons]
      exact ih (hattempted.step hcoherent hlogged hstep) (hcoherent.step hstep)
        (hlogged.step hcoherent hstep)

end Attempted

end View

/-- After a commit, the log of a transaction is made of the writes that went through, and
its versions are what the log replays to. -/
structure LogReplays (after : LSM) (trancId : ℕ) (isolationLevel : IsolationLevel)
    (attempts : List (Record × Bool)) : Prop where
  logged : (walOf trancId after.wal).filter Record.isData = acceptedOf isolationLevel attempts
  applied : ∀ key, key ≠ [] →
    versionOf after.engine.records key trancId = replayLog (walOf trancId after.wal) key

namespace TranContext

variable {context : TranContext} {history : List Entry} {key : Bytes}

/-- The version of a staged key that a commit writes. -/
private theorem versionOf_committedEntries (hkey : key ≠ []) :
    versionOf (context.committedEntries ++ history) key context.trancId =
      if context.isolationLevel = .readUnopCommitted then
        versionOf history key context.trancId
      else (context.tempMap.find? key).or (versionOf history key context.trancId) := by
  unfold versionOf
  rw [Versions.versionsOf_append, List.head?_append]
  have hmem : ∀ entry, entry ∈ Versions.versionsOf context.committedEntries key context.trancId ↔
      context.isolationLevel ≠ .readUnopCommitted ∧
        context.tempMap.find? key = some entry.value ∧
          entry = ⟨key, entry.value, context.trancId⟩ := by
    intro entry
    rw [Versions.mem_versionsOf, mem_committedEntries]
    constructor
    · rintro ⟨rfl | ⟨hlevel, staged, hstaged, rfl⟩, rfl, -⟩
      · exact absurd rfl hkey
      · exact ⟨hlevel, OrdMap.find?_eq_some_iff.mpr hstaged, rfl⟩
    · rintro ⟨hlevel, hfind, hentry⟩
      rw [hentry]
      exact ⟨Or.inr ⟨hlevel, (key, entry.value), OrdMap.find?_eq_some_iff.mp hfind, rfl⟩, rfl, rfl⟩
  cases hhead : (Versions.versionsOf context.committedEntries key context.trancId).head? with
  | some entry =>
      obtain ⟨hlevel, hfind, -⟩ := (hmem entry).mp (List.mem_of_head? hhead)
      rw [if_neg hlevel, hfind]
      rfl
  | none =>
      have hnil := List.head?_eq_none_iff.mp hhead
      split_ifs with hlevel
      · rfl
      · cases hfind : context.tempMap.find? key with
        | none => rfl
        | some value =>
            have hentry := (hmem ⟨key, value, context.trancId⟩).mpr ⟨hlevel, hfind, rfl⟩
            rw [hnil] at hentry
            cases hentry

theorem acceptedOf_eq {isolationLevel : IsolationLevel} {attempts : List (Record × Bool)} :
    acceptedOf isolationLevel attempts = attempts.map Prod.fst ↔
      (isolationLevel ≠ .readUnopCommitted ∨ ∀ attempt ∈ attempts, attempt.2 = true) := by
  constructor
  · intro haccepted
    have hlength := congrArg List.length haccepted
    rw [acceptedOf, List.length_map, List.length_map] at hlength
    have hall := List.length_filter_eq_length_iff.mp hlength
    by_cases hlevel : isolationLevel = .readUnopCommitted
    · refine Or.inr fun attempt hmem => ?_
      simpa [hlevel] using hall attempt hmem
    · exact Or.inl hlevel
  · intro hcondition
    rw [acceptedOf]
    congr 1
    apply List.filter_eq_self.mpr
    intro attempt hmem
    rcases hcondition with hlevel | hall
    · rw [decide_eq_true hlevel, Bool.true_or]
    · rw [hall attempt hmem, Bool.or_true]

/-- A transaction that begins, does anything, and commits: its log replays to its versions
exactly when the log took all of its eager writes. -/
theorem log_replays_iff (config : Config) (before during : List Call)
    (isolationLevel : IsolationLevel) (walOk : Bool) :
    let start := (runCalls config LSM.new before).1
    let opened := (Call.run config start (.beginTran isolationLevel)).1
    let run := runCalls config opened during
    let attempts :=
      attemptsOf start.contexts.length start.tranManager.nextTransactionId run.2
    (commit config run.1 start.contexts.length false walOk).2 = .ok true →
      (LogReplays (commit config run.1 start.contexts.length false walOk).1
        start.tranManager.nextTransactionId isolationLevel attempts ↔
      (isolationLevel ≠ .readUnopCommitted ∨ ∀ attempt ∈ attempts, attempt.2 = true)) := by
  intro start opened run attempts hcommit
  have hcoherentStart := runCalls_coherent config before
  have hloggedStart := runCalls_logged config before
  have hbegun : View.Step (start.view start.engine.records) (.beginTran isolationLevel)
      (.ok (.handle start.contexts.length)) (opened.view start.engine.records) :=
    View.Step.begun isolationLevel
  have hfollows : Engine.Follows opened.engine start.engine.records :=
    runCalls_follows config before
  obtain ⟨history, hrun, hafter⟩ := runCalls_refines config hfollows during
  have hcoherentOpened := hcoherentStart.step hbegun
  have hloggedOpened := hloggedStart.step hcoherentStart hbegun
  have hcoherent := hcoherentOpened.run hrun
  have hlogged := hloggedOpened.run hcoherentOpened hrun
  have hstart : View.Attempted (opened.view start.engine.records) start.contexts.length
      start.tranManager.nextTransactionId isolationLevel [] := by
    refine ⟨TranContext.start start.tranManager.nextTransactionId isolationLevel, ?_, rfl, rfl,
      fun _ => ⟨rfl, fun _ _ => rfl, fun _ _ key => ?_⟩⟩
    · exact List.getElem?_concat_length
    · exact versionOf_eq_none fun entry hentry => (hcoherentStart.written_lt entry hentry).ne
  obtain ⟨mine, hmine, hid, hlevel, hreplays⟩ :=
    hstart.run hcoherentOpened hloggedOpened hrun
  rw [List.nil_append] at hreplays
  obtain ⟨-, hopen, hdone, -, -, hwal⟩ := commit_ok_true hafter hmine hcommit
  have hreplays := hreplays hopen
  have hself := hlogged.contexts mine (List.mem_of_getElem? hmine)
  have hlog : walOf start.tranManager.nextTransactionId
      (commit config run.1 start.contexts.length false walOk).1.wal =
        mine.operations ++ [Record.commitRecord mine.trancId] := by
    rw [hwal, ← hid]
    exact hself.walOf_sent hopen ⟨rfl, Or.inr rfl⟩
  have hdata : (mine.operations ++ [Record.commitRecord mine.trancId]).filter Record.isData =
      attempts.map Prod.fst := by
    rw [List.filter_append, hreplays.data]
    exact List.append_nil _
  constructor
  · intro hgood
    apply acceptedOf_eq.mp
    rw [← hgood.logged, hlog, hdata]
  · intro hcondition
    refine ⟨by rw [hlog, hdata, acceptedOf_eq.mpr hcondition], fun key hkey => ?_⟩
    have hlatest : versionOf (commit config run.1 start.contexts.length false walOk).1.engine.records
        key mine.trancId = versionOf (mine.committedEntries ++ history) key mine.trancId :=
      congrArg (Option.map Version.value) (hdone.reflects.latest key mine.trancId)
    rw [hlog, replayLog_append_other rfl, ← hid, hlatest, versionOf_committedEntries hkey]
    by_cases heager : mine.isolationLevel = .readUnopCommitted
    · rw [if_pos heager]
      apply hreplays.eager heager _ key
      exact hcondition.resolve_left fun hne => hne (hlevel ▸ heager)
    · have hunwritten := hcoherent.unwritten mine (List.mem_of_getElem? hmine) heager
        (Bool.or_eq_false_iff.mp hopen).1
      have hnone : versionOf history key mine.trancId = none := versionOf_eq_none hunwritten
      rw [if_neg heager, hnone, Option.or_none, hreplays.staged heager]

/-- The commit logs a write that the log did not take before and that was not applied. -/
theorem log_replays_fails :
    let opened := (runCalls smallConfig LSM.new
      [.beginTran .readUnopCommitted, .write 0 (.put [1] [7]) false]).1
    let after := (commit smallConfig opened 0 false true).1
    (commit smallConfig opened 0 false true).2 = .ok true ∧
      versionOf after.engine.records [1] 1 = none ∧
      replayLog (walOf 1 after.wal) [1] = some [7] := by
  decide

theorem log_replays_iff_sample :
    let opened := (runCalls smallConfig LSM.new [.beginTran .readUnopCommitted]).1
    let run := runCalls smallConfig opened
      [.write 0 (.put [1] [7]) true, .flush, .write 0 (.remove [1]) true]
    LogReplays (commit smallConfig run.1 0 false true).1 1 .readUnopCommitted
      (attemptsOf 0 1 run.2) := by
  intro opened run
  apply (log_replays_iff smallConfig []
    [.write 0 (.put [1] [7]) true, .flush, .write 0 (.remove [1]) true]
    .readUnopCommitted true (by decide)).mpr
  exact Or.inr (by decide)

end TranContext

end KopiDb
