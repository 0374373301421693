import KopiDb.TranLog

/-!
# The shape of a transaction in the log

The log of a transaction begins with its `CREATE` and ends at the latest with its
`COMMIT`, as long as no write follows a commit that the log did not take.  A rollback
never reaches the log.
-/

namespace KopiDb

/-- One `CREATE`, then data, then at most one terminal record; or nothing at all. -/
def WellFormedLog (trancId : ℕ) (log : List Record) : Prop :=
  log = [] ∨ ∃ data final, log = Record.createRecord trancId :: data ++ final ∧
    (∀ record ∈ data, record.isData = true) ∧ final.length ≤ 1 ∧
      ∀ record ∈ final, record.isTerminal = true

/-- The log of a transaction is well formed and tells whether it has committed. -/
structure TranContext.Grammatical (context : TranContext) (wal : List Record) : Prop where
  wellFormed : WellFormedLog context.trancId (walOf context.trancId wal)
  commit_iff : (∃ record ∈ walOf context.trancId wal, record.operationType = .opCommit) ↔
    context.isCommited = true

def LSM.Grammatical (lsm : LSM) : Prop :=
  ∀ context ∈ lsm.contexts, context.Grammatical lsm.wal

/-- A write at the lowest level, behind a commit that was not logged, that the log takes. -/
def Call.late (contexts : List TranContext) : Call → Bool
  | .write handle op true => contexts[handle]?.any fun context =>
      !context.finished && decide (context.isolationLevel = .readUnopCommitted) &&
        context.endAttempted && (op.record context.trancId).isOk
  | _ => false

namespace TranContext

/-- The log of a transaction that follows the rules: behind its data it has the `COMMIT`
exactly when the transaction has committed. -/
def Orderly (context : TranContext) (wal : List Record) : Prop :=
  (context.isCommited = false ∧ walOf context.trancId wal = []) ∨
    ∃ data, (∀ record ∈ data, record.isData = true) ∧
      walOf context.trancId wal = Record.createRecord context.trancId :: data ++
        if context.isCommited then [Record.commitRecord context.trancId] else []

variable {context : TranContext} {wal added : List Record} {history : List Entry}

private theorem not_commit_of_isData {record : Record} (hdata : record.isData = true) :
    record.operationType ≠ .opCommit := by
  intro hcommit
  rw [Record.isData, hcommit] at hdata
  cases hdata

theorem Orderly.grammatical (horderly : context.Orderly wal) : context.Grammatical wal := by
  rcases horderly with ⟨hopen, hnil⟩ | ⟨data, hdata, hlog⟩
  · refine ⟨Or.inl hnil, ?_⟩
    rw [hnil, hopen]
    exact iff_of_false (fun ⟨_, hmem, _⟩ => List.not_mem_nil hmem) Bool.false_ne_true
  · cases hcommitted : context.isCommited with
    | true =>
        rw [hcommitted, if_pos rfl] at hlog
        refine ⟨Or.inr ⟨data, _, hlog, hdata, le_rfl, fun record hmem => ?_⟩, ?_⟩
        · rw [List.mem_singleton.mp hmem]
          rfl
        · rw [hlog, hcommitted]
          exact iff_of_true ⟨_, List.mem_append_right _ (List.mem_singleton_self _), rfl⟩ rfl
    | false =>
        rw [hcommitted, if_neg Bool.false_ne_true] at hlog
        refine ⟨Or.inr ⟨data, [], hlog, hdata, Nat.zero_le _, fun _ hmem => by cases hmem⟩, ?_⟩
        rw [hlog, hcommitted, List.append_nil]
        refine iff_of_false (fun ⟨record, hmem, htype⟩ => ?_) Bool.false_ne_true
        rcases List.mem_cons.mp hmem with rfl | hmem
        · cases htype
        · exact not_commit_of_isData (hdata record hmem) htype

theorem Orderly.frame (horderly : context.Orderly wal)
    (hadded : ∀ record ∈ added, record.trancId ≠ context.trancId) :
    context.Orderly (wal ++ added) := by
  unfold Orderly at horderly ⊢
  rwa [walOf_append, walOf_eq_nil hadded, List.append_nil]

/-- Before the first attempt to end, the operations are a `CREATE` and data. -/
theorem Logged.operations_eq (hlogged : context.Logged wal history)
    (hopen : context.finished = false) (hfirst : context.endAttempted = false) :
    ∃ data, context.operations = Record.createRecord context.trancId :: data ∧
      ∀ record ∈ data, record.isData = true := by
  obtain ⟨rest, hshape, hrest⟩ := hlogged.shape
    (hlogged.alive (Bool.or_eq_false_iff.mp hopen).2)
  refine ⟨rest, hshape, fun record hmem => ?_⟩
  rcases (hrest record hmem).2 with hdata | rfl
  · exact hdata
  · have hany : context.endAttempted = true := by
      rw [endAttempted, hshape]
      exact List.any_of_mem (List.mem_cons_of_mem _ hmem) rfl
    exact absurd (hfirst.symm.trans hany) Bool.false_ne_true

/-- All records that are sent next are the transaction's own. -/
theorem Logged.pending_trancId {record : Record} (hlogged : context.Logged wal history)
    (hopen : context.finished = false) (hadds : context.Adds record) :
    ∀ other ∈ (context.logged record).pending, other.trancId = context.trancId := by
  have hne := hlogged.alive (Bool.or_eq_false_iff.mp hopen).2
  exact fun other hmem =>
    (hlogged.logged hne hadds).record_trancId other (List.mem_of_mem_drop hmem)

/-- Behind an attempt to end, the operations hold a `COMMIT`. -/
theorem Logged.commit_mem (hlogged : context.Logged wal history)
    (hattempted : context.endAttempted = true) :
    Record.commitRecord context.trancId ∈ context.operations := by
  obtain ⟨record, hmem, hterminal⟩ := List.any_eq_true.mp hattempted
  obtain ⟨rest, hshape, hrest⟩ := hlogged.shape (List.ne_nil_of_mem hmem)
  have hrecord := hmem
  rw [hshape] at hrecord
  rcases List.mem_cons.mp hrecord with rfl | hrecord
  · cases hterminal
  · rcases (hrest record hrecord).2 with hdata | rfl
    · rw [Record.isTerminal, decide_eq_true_iff] at hterminal
      rw [Record.isData, decide_eq_true_iff] at hdata
      rcases hterminal with htype | htype <;> rw [htype] at hdata <;> simp at hdata
    · exact hmem

end TranContext

namespace View

/-- All logs follow the rules. -/
def Tidy (view : View) : Prop := ∀ context ∈ view.contexts, context.Orderly view.wal

namespace Tidy

variable {view : View} {handle : ℕ} {context : TranContext}

private theorem update (htidy : Tidy view) (hcoherent : Coherent view)
    (hcontext : view.contexts[handle]? = some context) (context' : TranContext)
    (added : List Record) (history : List Entry) (active aborted : Finset ℕ)
    (hadded : ∀ record ∈ added, record.trancId = context.trancId)
    (hself : context'.Orderly (view.wal ++ added)) :
    Tidy { view with
      contexts := view.contexts.set handle context'
      wal := view.wal ++ added
      history := history
      active := active
      aborted := aborted } := by
  intro other hmem
  rcases Coherent.mem_set_cases hcontext hcoherent hmem with rfl | ⟨hmem, hne⟩
  · exact hself
  · apply (htidy other hmem).frame
    intro record hrecord
    rw [hadded record hrecord]
    exact hne.symm

private theorem touch (htidy : Tidy view) (hcoherent : Coherent view)
    (hcontext : view.contexts[handle]? = some context) (context' : TranContext)
    (active aborted : Finset ℕ) (hid : context'.trancId = context.trancId)
    (hcommited : context'.isCommited = context.isCommited) :
    Tidy { view.setContext handle context' with
      active := active
      aborted := aborted } := by
  have hself := htidy context (List.mem_of_getElem? hcontext)
  have hupdate := htidy.update hcoherent hcontext context' [] view.history active
    aborted (fun _ hmem => by cases hmem)
    (by rwa [List.append_nil, TranContext.Orderly, hid, hcommited])
  rwa [List.append_nil] at hupdate

theorem step {view' : View} {call : Call} {outcome : Except Err Reply} (htidy : Tidy view)
    (hcoherent : Coherent view) (hlogged : Logged view)
    (hstep : Step view call outcome view') (htimely : call.late view.contexts = false) :
    Tidy view' := by
  have hof : ∀ {handle : ℕ} {context : TranContext}, view.contexts[handle]? = some context →
      context.Logged view.wal view.history :=
    fun hcontext => hlogged.contexts _ (List.mem_of_getElem? hcontext)
  cases hstep with
  | maintained hcall => exact htidy
  | refused hcall => exact htidy
  | plain hcall => exact htidy
  | begun isolationLevel =>
      intro context hmem
      rcases List.mem_append.mp hmem with hmem | hmem
      · exact htidy context hmem
      · rw [List.mem_singleton.mp hmem]
        refine Or.inl ⟨rfl, walOf_eq_nil fun record hrecord => ?_⟩
        obtain ⟨other, hother, hid⟩ := hlogged.known record hrecord
        rw [← hid]
        exact (hcoherent.id_lt other hother).ne
  | staged hcontext hopen hlevel hrecord =>
      exact htidy.touch hcoherent hcontext _ view.active view.aborted rfl rfl
  | unlogged hcontext hopen hlevel hrecord hwal =>
      exact htidy.touch hcoherent hcontext _ view.active view.aborted rfl rfl
  | @applied handle op walOk context record _ hcontext hopen hlevel hrecord hwal hcount
      houtcome =>
      have hself := hof hcontext
      have hlogs := WriteOp.record_eq_ok hrecord
      have hadds : context.Adds record := ⟨hlogs.2.1, Or.inl hlogs.1⟩
      have hwalOk : walOk = true := by
        have hsent := hself.counted (hself.alive (Bool.or_eq_false_iff.mp hopen).2)
        apply hwal.resolve_right
        omega
      subst hwalOk
      have hfirst : context.endAttempted = false := by
        simpa [Call.late, hcontext, hopen, hlevel, hrecord, Except.isOk, Except.toBool]
          using htimely
      obtain ⟨data, hoperations, hdata⟩ := hself.operations_eq hopen hfirst
      refine htidy.update hcoherent hcontext _ _ _ view.active view.aborted
        (hself.pending_trancId hopen hadds) (Or.inr ⟨data ++ [record], ?_, ?_⟩)
      · intro other hmem
        rcases List.mem_append.mp hmem with hmem | hmem
        · exact hdata other hmem
        · rw [List.mem_singleton.mp hmem]
          exact hlogs.1
      · change walOf context.trancId _ = _
        rw [hself.walOf_sent hopen hadds, hoperations]
        change _ = Record.createRecord context.trancId :: (data ++ [record]) ++
          if context.isCommited then _ else _
        rw [(Bool.or_eq_false_iff.mp hopen).1, if_neg Bool.false_ne_true, List.append_nil]
        rfl
  | gotStaged hcontext hopen hpending => exact htidy
  | gotFresh hcontext hopen hpending hlevel hfound => exact htidy
  | gotCached hcontext hopen hpending hlevel hcached => exact htidy
  | gotFirst hcontext hopen hpending hlevel hcached hfound =>
      exact htidy.touch hcoherent hcontext _ view.active view.aborted rfl rfl
  | alreadyOver hcall hcontext hfinished => exact htidy
  | conflict hcontext hopen hfirst => exact htidy.touch hcoherent hcontext _ _ _ rfl rfl
  | commitUnlogged hcontext hopen hfirst hwal =>
      exact htidy.touch hcoherent hcontext _ view.active view.aborted rfl rfl
  | @committed handle _ context _ hcontext hopen hfirst hpassed hwal hcount houtcome =>
      have hself := hof hcontext
      have hadds : context.Adds (Record.commitRecord context.trancId) := ⟨rfl, Or.inr rfl⟩
      obtain ⟨data, hoperations, hdata⟩ := hself.operations_eq hopen hfirst
      refine htidy.update hcoherent hcontext _ _ _ _ view.aborted
        (hself.pending_trancId hopen hadds) (Or.inr ⟨data, hdata, ?_⟩)
      change walOf context.trancId _ = _
      rw [hself.walOf_sent hopen hadds, hoperations]
      rfl
  | rolledBack hcontext hopen hfirst hcount =>
      exact htidy.touch hcoherent hcontext _ _ _ rfl rfl

end Tidy

end View

private theorem tidy_of_timely (config : Config) (calls : List Call)
    (htimely : ∀ front call rest, calls = front ++ call :: rest →
      call.late (runCalls config LSM.new front).1.contexts = false) :
    ((runCalls config LSM.new calls).1.view
      (runCalls config LSM.new calls).1.engine.records).Tidy := by
  induction calls using List.reverseRecOn with
  | nil => exact fun _ hmem => by cases hmem
  | append_singleton front call ih =>
      have hfront := ih fun first other rest hsplit =>
        htimely first other (rest ++ [call]) (by rw [hsplit, List.append_assoc]; rfl)
      obtain ⟨history, hstep, -⟩ :=
        Call.run_refines config (runCalls_follows config front) call
      have hnext := hfront.step (runCalls_coherent config front) (runCalls_logged config front)
        hstep (htimely front call [] rfl)
      rw [runCalls_snoc]
      exact hnext

/-- A late write gets past the checks. -/
private theorem View.accepts_of_late {view : View} {call : Call}
    (hlate : call.late view.contexts = true) : view.accepts call = true := by
  cases call with
  | write handle op walOk =>
      cases walOk with
      | false => cases hlate
      | true =>
          dsimp only [Call.late] at hlate
          obtain ⟨context, hcontext, hchecks⟩ := (Option.any_eq_true _ _).mp hlate
          simp only [Bool.and_eq_true] at hchecks
          rw [View.accepts, hcontext, Option.any_some, hchecks.1.1.1, hchecks.2, Bool.true_and]
  | _ => cases hlate

/-- A late write puts a `COMMIT` into the log of a transaction that did not commit. -/
private theorem View.commit_of_late {view view' : View} {call : Call}
    {outcome : Except Err Reply} (hlogged : Logged view)
    (hstep : Step view call outcome view') (hlate : call.late view.contexts = true) :
    ∃ context ∈ view'.contexts, context.isCommited = false ∧
      Record.commitRecord context.trancId ∈ walOf context.trancId view'.wal := by
  cases hstep with
  | maintained hcall => cases call <;> first | cases hlate | cases hcall
  | plain hcall => cases call <;> first | cases hlate | cases hcall
  | refused hcall => exact absurd (hcall.symm.trans (accepts_of_late hlate)) Bool.false_ne_true
  | @staged handle op walOk context record hcontext hopen hlevel hrecord =>
      cases walOk with
      | false => cases hlate
      | true => simp [Call.late, hcontext, hlevel] at hlate
  | @unlogged handle op walOk context record err hcontext hopen hlevel hrecord hwal =>
      have hself := hlogged.contexts context (List.mem_of_getElem? hcontext)
      have hcount := hself.counted (hself.alive (Bool.or_eq_false_iff.mp hopen).2)
      have hwalOk : walOk = false := hwal.resolve_right (by omega)
      subst hwalOk
      cases hlate
  | @applied handle op walOk context record _ hcontext hopen hlevel hrecord hwal hcount
      houtcome =>
      have hself := hlogged.contexts context (List.mem_of_getElem? hcontext)
      have hlogs := WriteOp.record_eq_ok hrecord
      have hattempted : context.endAttempted = true := by
        cases walOk with
        | false => cases hlate
        | true =>
            simp only [Call.late, hcontext, Option.any_some, Bool.and_eq_true] at hlate
            exact hlate.1.2
      refine ⟨(context.logged record).persisted,
        List.mem_set (List.getElem?_eq_some_iff.mp hcontext).1 _,
        (Bool.or_eq_false_iff.mp hopen).1, ?_⟩
      change Record.commitRecord context.trancId ∈ walOf context.trancId _
      rw [hself.walOf_sent hopen ⟨hlogs.2.1, Or.inl hlogs.1⟩]
      exact List.mem_append_left _ (hself.commit_mem hattempted)
  | gotStaged | gotFresh | gotCached | gotFirst => cases hlate
  | alreadyOver hcall =>
      rcases hcall with rfl | ⟨walOk, rfl⟩
      · cases hlate
      · cases hlate
  | begun | conflict | commitUnlogged | committed | rolledBack => cases hlate

private theorem not_grammatical_of_late (config : Config) (calls : List Call) {call : Call}
    (hlate : call.late (runCalls config LSM.new calls).1.contexts = true) :
    ¬(runCalls config LSM.new (calls ++ [call])).1.Grammatical := by
  intro hgrammatical
  rw [runCalls_snoc] at hgrammatical
  obtain ⟨history, hstep, -⟩ := Call.run_refines config (runCalls_follows config calls) call
  obtain ⟨context, hmem, hopen, hcommit⟩ :=
    View.commit_of_late (runCalls_logged config calls) hstep hlate
  have hcommitted := (hgrammatical context hmem).commit_iff.mp ⟨_, hcommit, rfl⟩
  exact Bool.false_ne_true (hopen.symm.trans hcommitted)

/-- The logs of all transactions are well formed throughout a run exactly when no write
comes late. -/
theorem grammatical_iff (config : Config) (calls : List Call) :
    (∀ front, front <+: calls → (runCalls config LSM.new front).1.Grammatical) ↔
      ∀ idx (hidx : idx < calls.length),
        calls[idx].late (runCalls config LSM.new (calls.take idx)).1.contexts = false := by
  constructor
  · intro hall idx hidx
    rw [← Bool.not_eq_true]
    intro hlate
    apply not_grammatical_of_late config (calls.take idx) hlate
    apply hall
    rw [List.take_append_getElem hidx]
    exact List.take_prefix _ _
  · rintro htimely front ⟨rest, rfl⟩ context hmem
    have hfront : ∀ first call back, front = first ++ call :: back →
        call.late (runCalls config LSM.new first).1.contexts = false := by
      rintro first call back rfl
      have hlate := htimely first.length (by simp)
      simpa using hlate
    exact (tidy_of_timely config front hfront context hmem).grammatical

/-- A commit that the log does not take, and a write behind it. -/
theorem grammatical_fails : ¬∀ calls : List Call,
    (runCalls smallConfig LSM.new calls).1.Grammatical := by
  intro hall
  have hgrammatical := hall
    [.beginTran .readUnopCommitted, .commit 0 false, .write 0 (.put [1] [7]) true]
  have hcommit := (hgrammatical _ List.mem_cons_self).commit_iff.mp
    ⟨Record.commitRecord 1, by decide, rfl⟩
  revert hcommit
  decide

/-- A write whose log fails, a second one, and the commit. -/
theorem grammatical_iff_sample :
    (runCalls smallConfig LSM.new
      [.beginTran .readUnopCommitted, .write 0 (.put [1] [7]) false,
        .write 0 (.put [2] [8]) true, .commit 0 true]).1.Grammatical := by
  apply (grammatical_iff smallConfig
    [.beginTran .readUnopCommitted, .write 0 (.put [1] [7]) false,
      .write 0 (.put [2] [8]) true, .commit 0 true]).mpr
  · decide
  · exact List.prefix_refl _

/-! ## Rollbacks -/

namespace TranContext

variable {handle : ℕ} {context : TranContext}

private theorem wal_abort (lsm : LSM) (handle : ℕ) : (abort lsm handle).1.wal = lsm.wal := by
  unfold abort
  split
  · rfl
  · split_ifs <;> rfl

/-- A rollback goes through, and its log ends with a `ROLLBACK` only if it has no record
that could tell. -/
theorem rollback_logged_iff (config : Config) (calls : List Call)
    (hcontext : (runCalls config LSM.new calls).1.contexts[handle]? = some context)
    (hopen : context.finished = false) (hfirst : context.endAttempted = false) :
    let lsm := (runCalls config LSM.new calls).1
    (abort lsm handle).2 = .ok true ∧
      ((walOf context.trancId (abort lsm handle).1.wal ≠ [] →
        (walOf context.trancId (abort lsm handle).1.wal).getLast? =
          some (Record.rollbackRecord context.trancId)) ↔
        walOf context.trancId lsm.wal = []) := by
  intro lsm
  have hlogged := runCalls_logged config calls
  have hself := hlogged.contexts context (List.mem_of_getElem? hcontext)
  have hcount := hself.counted (hself.alive (Bool.or_eq_false_iff.mp hopen).2)
  constructor
  · simp [abort, lsm, hcontext, hopen, hfirst, not_lt.mpr hcount]
  · rw [wal_abort]
    constructor
    · intro hlast
      by_contra hne
      have hmem := List.mem_of_getLast? (hlast hne)
      exact hlogged.noRollback _ (mem_walOf.mp hmem).1 rfl
    · exact fun hnil hne => absurd hnil hne

/-- A write at the lowest level, and the rollback. -/
theorem rollback_unlogged :
    let lsm := (runCalls smallConfig LSM.new
      [.beginTran .readUnopCommitted, .write 0 (.put [1] [7]) true]).1
    ¬(walOf 1 lsm.wal ≠ [] → (abort lsm 0).2 = .ok true →
      (walOf 1 (abort lsm 0).1.wal).getLast? = some (Record.rollbackRecord 1)) := by
  decide

/-- The rollback of a transaction that was logged. -/
theorem rollback_logged_iff_sample :
    let lsm := (runCalls smallConfig LSM.new
      [.beginTran .readUnopCommitted, .write 0 (.put [1] [7]) true]).1
    walOf 1 lsm.wal ≠ [] ∧ (abort lsm 0).2 = .ok true ∧
      ((walOf 1 (abort lsm 0).1.wal ≠ [] →
        (walOf 1 (abort lsm 0).1.wal).getLast? = some (Record.rollbackRecord 1)) ↔
        walOf 1 lsm.wal = []) :=
  ⟨by decide, @rollback_logged_iff 0 _ smallConfig
    [.beginTran .readUnopCommitted, .write 0 (.put [1] [7]) true] rfl rfl rfl⟩

end TranContext

end KopiDb
