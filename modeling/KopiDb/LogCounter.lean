import KopiDb.LogGrammar

/-!
# The counter of logged records

A context counts how many of its operations have reached the log.  A rollback clears the
operations and leaves the counter as it is, so that the two fit together in every state of
a run exactly as long as no transaction rolls back that the log knows of.
-/

namespace KopiDb

/-- The counted operations are exactly the records of the transaction in the log. -/
structure TranContext.Confirmed (context : TranContext) (wal : List Record) : Prop where
  counted : context.walWrittenCount ≤ context.operations.length
  sent : walOf context.trancId wal = context.operations.take context.walWrittenCount

def LSM.Confirmed (lsm : LSM) : Prop :=
  ∀ context ∈ lsm.contexts, context.Confirmed lsm.wal

/-- A rollback that goes through, behind records that reached the log. -/
def Call.forgets (contexts : List TranContext) : Call → Bool
  | .abort handle => contexts[handle]?.any fun context =>
      !context.finished && !context.endAttempted && decide (context.walWrittenCount ≠ 0)
  | _ => false

namespace TranContext

/-- Of a transaction that was cleared, nothing is in the log. -/
def Unlogged (context : TranContext) (wal : List Record) : Prop :=
  context.operations = [] → context.walWrittenCount = 0 ∧ walOf context.trancId wal = []

variable {context : TranContext} {wal added : List Record} {history : List Entry}

theorem Unlogged.frame (hunlogged : context.Unlogged wal)
    (hadded : ∀ record ∈ added, record.trancId ≠ context.trancId) :
    context.Unlogged (wal ++ added) := by
  intro hcleared
  obtain ⟨hcount, hnil⟩ := hunlogged hcleared
  rw [walOf_append, walOf_eq_nil hadded, List.append_nil]
  exact ⟨hcount, hnil⟩

theorem Unlogged.confirmed (hunlogged : context.Unlogged wal)
    (hlogged : context.Logged wal history) : context.Confirmed wal := by
  by_cases hcleared : context.operations = []
  · obtain ⟨hcount, hnil⟩ := hunlogged hcleared
    constructor
    · rw [hcount]
      exact Nat.zero_le _
    · rw [hcount, hnil, List.take_zero]
  · exact ⟨hlogged.counted hcleared, hlogged.sent hcleared⟩

theorem logged_ne_nil (context : TranContext) (record : Record) :
    (context.logged record).operations ≠ [] :=
  List.append_ne_nil_of_right_ne_nil _ (List.cons_ne_nil _ _)

end TranContext

namespace View

/-- What was cleared was never logged. -/
def Unlogged (view : View) : Prop := ∀ context ∈ view.contexts, context.Unlogged view.wal

namespace Unlogged

variable {view : View} {handle : ℕ} {context : TranContext}

private theorem update (hunlogged : Unlogged view) (hcoherent : Coherent view)
    (hcontext : view.contexts[handle]? = some context) (context' : TranContext)
    (added : List Record) (history : List Entry) (active aborted : Finset ℕ)
    (hadded : ∀ record ∈ added, record.trancId = context.trancId)
    (hself : context'.Unlogged (view.wal ++ added)) :
    Unlogged { view with
      contexts := view.contexts.set handle context'
      wal := view.wal ++ added
      history := history
      active := active
      aborted := aborted } := by
  intro other hmem
  rcases Coherent.mem_set_cases hcontext hcoherent hmem with rfl | ⟨hmem, hne⟩
  · exact hself
  · apply (hunlogged other hmem).frame
    intro record hrecord
    rw [hadded record hrecord]
    exact hne.symm

private theorem touch (hunlogged : Unlogged view) (hcoherent : Coherent view)
    (hcontext : view.contexts[handle]? = some context) (context' : TranContext)
    (active aborted : Finset ℕ) (hself : context'.Unlogged view.wal) :
    Unlogged { view.setContext handle context' with
      active := active
      aborted := aborted } := by
  have hupdate := hunlogged.update hcoherent hcontext context' [] view.history active aborted
    (fun _ hmem => by cases hmem) (by rwa [List.append_nil])
  rwa [List.append_nil] at hupdate

theorem step {view' : View} {call : Call} {outcome : Except Err Reply}
    (hunlogged : Unlogged view) (hcoherent : Coherent view) (hlogged : Logged view)
    (hstep : Step view call outcome view') (hkeeps : call.forgets view.contexts = false) :
    Unlogged view' := by
  have hof : ∀ {handle : ℕ} {context : TranContext}, view.contexts[handle]? = some context →
      context.Logged view.wal view.history :=
    fun hcontext => hlogged.contexts _ (List.mem_of_getElem? hcontext)
  have hopened : ∀ {handle : ℕ} {context : TranContext}, view.contexts[handle]? = some context →
      context.finished = false → context.operations ≠ [] :=
    fun hcontext hopen => (hof hcontext).alive (Bool.or_eq_false_iff.mp hopen).2
  cases hstep with
  | maintained | refused | plain | gotStaged | gotFresh | gotCached | alreadyOver =>
      exact hunlogged
  | begun isolationLevel =>
      intro context hmem
      rcases List.mem_append.mp hmem with hmem | hmem
      · exact hunlogged context hmem
      · rw [List.mem_singleton.mp hmem]
        intro hcleared
        cases hcleared
  | staged hcontext hopen hlevel hrecord =>
      exact hunlogged.touch hcoherent hcontext _ view.active view.aborted
        fun hcleared => absurd hcleared (TranContext.logged_ne_nil _ _)
  | unlogged hcontext hopen hlevel hrecord hwal =>
      exact hunlogged.touch hcoherent hcontext _ view.active view.aborted
        fun hcleared => absurd hcleared (TranContext.logged_ne_nil _ _)
  | @applied handle op walOk context record _ hcontext hopen hlevel hrecord =>
      have hlogs := WriteOp.record_eq_ok hrecord
      exact hunlogged.update hcoherent hcontext _ _ _ view.active view.aborted
        ((hof hcontext).pending_trancId hopen ⟨hlogs.2.1, Or.inl hlogs.1⟩)
        fun hcleared => absurd hcleared (TranContext.logged_ne_nil _ _)
  | gotFirst hcontext hopen hpending hlevel hcached hfound =>
      have hself := hunlogged _ (List.mem_of_getElem? hcontext)
      exact hunlogged.touch hcoherent hcontext _ view.active view.aborted hself
  | conflict hcontext hopen hfirst =>
      have hself := hunlogged _ (List.mem_of_getElem? hcontext)
      exact hunlogged.touch hcoherent hcontext _ _ _ hself
  | commitUnlogged hcontext hopen hfirst hwal =>
      exact hunlogged.touch hcoherent hcontext _ view.active view.aborted
        fun hcleared => absurd hcleared (TranContext.logged_ne_nil _ _)
  | committed hcontext hopen hfirst hpassed hwal hcount houtcome =>
      exact hunlogged.update hcoherent hcontext _ _ _ _ view.aborted
        ((hof hcontext).pending_trancId hopen ⟨rfl, Or.inr rfl⟩)
        fun hcleared => absurd hcleared (TranContext.logged_ne_nil _ _)
  | @rolledBack handle context hcontext hopen hfirst hcount =>
      -- The operations are cleared, so the counter must be zero already.
      have hzero : context.walWrittenCount = 0 := by
        simpa [Call.forgets, hcontext, hopen, hfirst] using hkeeps
      have hsent := (hof hcontext).sent (hopened hcontext hopen)
      rw [hzero, List.take_zero] at hsent
      exact hunlogged.touch hcoherent hcontext _ _ _ fun _ => ⟨hzero, hsent⟩

end Unlogged

end View

private theorem unlogged_of_keeps (config : Config) (calls : List Call)
    (hkeeps : ∀ front call rest, calls = front ++ call :: rest →
      call.forgets (runCalls config LSM.new front).1.contexts = false) :
    ((runCalls config LSM.new calls).1.view
      (runCalls config LSM.new calls).1.engine.records).Unlogged := by
  induction calls using List.reverseRecOn with
  | nil => exact fun _ hmem => by cases hmem
  | append_singleton front call ih =>
      have hfront := ih fun first other rest hsplit =>
        hkeeps first other (rest ++ [call]) (by rw [hsplit, List.append_assoc]; rfl)
      obtain ⟨history, hstep, -⟩ :=
        Call.run_refines config (runCalls_follows config front) call
      have hnext := hfront.step (runCalls_coherent config front) (runCalls_logged config front)
        hstep (hkeeps front call [] rfl)
      rw [runCalls_snoc]
      exact hnext

/-- Behind such a rollback the counter is larger than the number of operations. -/
private theorem not_confirmed_of_forgets (config : Config) (calls : List Call) {call : Call}
    (hforgets : call.forgets (runCalls config LSM.new calls).1.contexts = true) :
    ¬(runCalls config LSM.new (calls ++ [call])).1.Confirmed := by
  cases call with
  | abort handle =>
      intro hconfirmed
      rw [runCalls_snoc] at hconfirmed
      obtain ⟨context, hcontext, hchecks⟩ := (Option.any_eq_true _ _).mp hforgets
      simp only [Bool.and_eq_true, Bool.not_eq_true', decide_eq_true_eq] at hchecks
      obtain ⟨⟨hopen, hfirst⟩, hcounted⟩ := hchecks
      have hself := (runCalls_logged config calls).contexts context
        (List.mem_of_getElem? hcontext)
      have hcount := hself.counted (hself.alive (Bool.or_eq_false_iff.mp hopen).2)
      obtain ⟨hhandle, -⟩ := List.getElem?_eq_some_iff.mp hcontext
      generalize (runCalls config LSM.new calls).1 = lsm at *
      have habort : (TranContext.abort lsm handle).1.contexts =
          lsm.contexts.set handle { context with
            isAborted := true
            tempMap := ∅
            readMap := ∅
            operations := [] } := by
        simp [TranContext.abort, hcontext, hopen, hfirst, not_lt.mpr hcount]
      have hcleared := hconfirmed { context with
            isAborted := true
            tempMap := ∅
            readMap := ∅
            operations := [] } (by
        change _ ∈ (TranContext.abort lsm handle).1.contexts
        rw [habort]
        exact List.mem_set hhandle _)
      exact hcounted (Nat.le_zero.mp hcleared.counted)
  | _ => cases hforgets

/-- The counted operations of every transaction are its records in the log throughout a run
exactly when no transaction rolls back that has records in the log. -/
theorem confirmed_iff (config : Config) (calls : List Call) :
    (∀ front, front <+: calls → (runCalls config LSM.new front).1.Confirmed) ↔
      ∀ idx (hidx : idx < calls.length),
        calls[idx].forgets (runCalls config LSM.new (calls.take idx)).1.contexts = false := by
  constructor
  · intro hall idx hidx
    rw [← Bool.not_eq_true]
    intro hforgets
    apply not_confirmed_of_forgets config (calls.take idx) hforgets
    apply hall
    rw [List.take_append_getElem hidx]
    exact List.take_prefix _ _
  · rintro hkeeps front ⟨rest, rfl⟩ context hmem
    have hfront : ∀ first call back, front = first ++ call :: back →
        call.forgets (runCalls config LSM.new first).1.contexts = false := by
      rintro first call back rfl
      have hforgets := hkeeps first.length (by simp)
      simpa using hforgets
    exact (unlogged_of_keeps config front hfront context hmem).confirmed
      ((runCalls_logged config front).contexts context hmem)

/-- A write at the lowest level, and the rollback. -/
theorem confirmed_fails : ¬∀ calls : List Call,
    (runCalls smallConfig LSM.new calls).1.Confirmed := by
  intro hall
  have hconfirmed := hall
    [.beginTran .readUnopCommitted, .write 0 (.put [1] [7]) true, .abort 0]
  have hcounted := (hconfirmed _ List.mem_cons_self).counted
  revert hcounted
  decide

end KopiDb
