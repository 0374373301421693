import KopiDb.Isolation

/-!
# The log of a transaction

The records of a transaction that reached the log are the first ones of its operations.
Nothing is stored in the engine before its record is in the log.
-/

namespace KopiDb

/-- The records of one transaction, in the order of the log. -/
def walOf (trancId : ℕ) (wal : List Record) : List Record :=
  wal.filter fun record => decide (record.trancId = trancId)

/-- The `PUT` or `DELETE` of a stored version. -/
def Record.Logs (record : Record) (entry : Entry) : Prop :=
  record.isData = true ∧ record.trancId = entry.txid ∧ record.key = entry.key ∧
    record.value = entry.value

theorem WriteOp.record_eq_ok {op : WriteOp} {trancId : ℕ} {record : Record}
    (hrecord : op.record trancId = .ok record) :
    record.Logs ⟨op.key, op.value, trancId⟩ := by
  cases op with
  | put key value =>
      obtain ⟨hid, htype, hkey, hvalue⟩ := Record.putRecord_eq_ok hrecord
      exact ⟨by rw [Record.isData, htype]; rfl, hid, hkey, hvalue⟩
  | remove key =>
      obtain ⟨hid, htype, hkey, hvalue⟩ := Record.deleteRecord_eq_ok hrecord
      exact ⟨by rw [Record.isData, htype]; rfl, hid, hkey, hvalue⟩

section

variable {trancId : ℕ} {wal added : List Record}

theorem walOf_append (wal added : List Record) :
    walOf trancId (wal ++ added) = walOf trancId wal ++ walOf trancId added :=
  List.filter_append ..

theorem walOf_eq_self (hall : ∀ record ∈ added, record.trancId = trancId) :
    walOf trancId added = added :=
  List.filter_eq_self.mpr fun record hmem => decide_eq_true (hall record hmem)

theorem walOf_eq_nil (hnone : ∀ record ∈ added, record.trancId ≠ trancId) :
    walOf trancId added = [] :=
  List.filter_eq_nil_iff.mpr fun record hmem htrue =>
    hnone record hmem (of_decide_eq_true htrue)

theorem mem_walOf {record : Record} :
    record ∈ walOf trancId wal ↔ record ∈ wal ∧ record.trancId = trancId := by
  rw [walOf, List.mem_filter, decide_eq_true_iff]

end

namespace TranContext

/-- A record that a transaction may add to its operations behind the first one. -/
def Adds (context : TranContext) (record : Record) : Prop :=
  record.trancId = context.trancId ∧
    (record.isData = true ∨ record = Record.commitRecord context.trancId)

/-- The operations of a transaction, its records in the log and its versions fit together.
A rollback clears the operations. -/
structure Logged (context : TranContext) (wal : List Record) (history : List Entry) :
    Prop where
  alive : context.isAborted = false → context.operations ≠ []
  shape : context.operations ≠ [] → ∃ rest,
    context.operations = Record.createRecord context.trancId :: rest ∧
      ∀ record ∈ rest, context.Adds record
  counted : context.operations ≠ [] → context.walWrittenCount ≤ context.operations.length
  sent : context.operations ≠ [] →
    walOf context.trancId wal = context.operations.take context.walWrittenCount
  staged : ∀ staged ∈ context.tempMap.entries, ∃ record ∈ context.operations,
    record.Logs ⟨staged.1, staged.2, context.trancId⟩
  applied : ∀ entry ∈ history, entry.txid = context.trancId →
    (∃ record ∈ wal, record.Logs entry) ∨
      (entry = ⟨[], [], context.trancId⟩ ∧ context.isCommited = true ∧
        Record.commitRecord context.trancId ∈ wal)

namespace Logged

variable {context : TranContext} {wal added : List Record} {history written : List Entry}

/-- What others log and write does not matter. -/
theorem frame (hlogged : context.Logged wal history)
    (hadded : ∀ record ∈ added, record.trancId ≠ context.trancId)
    (hwritten : ∀ entry ∈ written, entry.txid ≠ context.trancId) :
    context.Logged (wal ++ added) (written ++ history) where
  alive := hlogged.alive
  shape := hlogged.shape
  counted := hlogged.counted
  sent hne := by
    rw [walOf_append, walOf_eq_nil hadded, List.append_nil]
    exact hlogged.sent hne
  staged := hlogged.staged
  applied entry hmem hid := by
    rcases List.mem_append.mp hmem with hmem | hmem
    · exact absurd hid (hwritten entry hmem)
    · rcases hlogged.applied entry hmem hid with ⟨record, hrecord, hlogs⟩ | ⟨hmarker, hover, hend⟩
      · exact Or.inl ⟨record, List.mem_append_left _ hrecord, hlogs⟩
      · exact Or.inr ⟨hmarker, hover, List.mem_append_left _ hend⟩

theorem record_trancId (hlogged : context.Logged wal history) :
    ∀ record ∈ context.operations, record.trancId = context.trancId := by
  intro record hmem
  obtain ⟨rest, hshape, hrest⟩ := hlogged.shape (List.ne_nil_of_mem hmem)
  rw [hshape] at hmem
  rcases List.mem_cons.mp hmem with rfl | hmem
  · rfl
  · exact (hrest record hmem).1

theorem not_rollback (hlogged : context.Logged wal history) :
    ∀ record ∈ context.operations, record.operationType ≠ .opRollback := by
  intro record hmem
  obtain ⟨rest, hshape, hrest⟩ := hlogged.shape (List.ne_nil_of_mem hmem)
  rw [hshape] at hmem
  rcases List.mem_cons.mp hmem with rfl | hmem
  · exact OperationType.noConfusion
  · rcases (hrest record hmem).2 with hdata | rfl
    · intro hrollback
      rw [Record.isData, hrollback] at hdata
      cases hdata
    · exact OperationType.noConfusion

/-- One more operation, not sent yet. -/
theorem logged (hlogged : context.Logged wal history) (hne : context.operations ≠ [])
    {record : Record} (hadds : context.Adds record) :
    (context.logged record).Logged wal history where
  alive _ := List.append_ne_nil_of_left_ne_nil hne _
  shape _ := by
    obtain ⟨rest, hshape, hrest⟩ := hlogged.shape hne
    refine ⟨rest ++ [record], ?_, ?_⟩
    · change context.operations ++ [record] = _
      rw [hshape]
      rfl
    · intro other hmem
      rcases List.mem_append.mp hmem with hmem | hmem
      · exact hrest other hmem
      · rw [List.mem_singleton.mp hmem]
        exact hadds
  counted _ := by
    change context.walWrittenCount ≤ (context.operations ++ [record]).length
    rw [List.length_append]
    exact (hlogged.counted hne).trans (Nat.le_add_right _ _)
  sent _ := by
    change _ = (context.operations ++ [record]).take context.walWrittenCount
    rw [List.take_append_of_le_length (hlogged.counted hne)]
    exact hlogged.sent hne
  staged staged hmem := by
    obtain ⟨other, hother, hlogs⟩ := hlogged.staged staged hmem
    exact ⟨other, List.mem_append_left _ hother, hlogs⟩
  applied := hlogged.applied

/-- All operations are sent. -/
theorem persisted (hlogged : context.Logged wal history) (hne : context.operations ≠ []) :
    walOf context.trancId (wal ++ context.pending) = context.operations ∧
      context.persisted.Logged (wal ++ context.pending) history := by
  have hpending : walOf context.trancId context.pending = context.pending :=
    walOf_eq_self fun record hmem => hlogged.record_trancId record (List.mem_of_mem_drop hmem)
  have hall : walOf context.trancId (wal ++ context.pending) = context.operations := by
    rw [walOf_append, hpending, hlogged.sent hne]
    exact List.take_append_drop ..
  refine ⟨hall, ⟨hlogged.alive, hlogged.shape, fun _ => le_rfl, fun _ => ?_, hlogged.staged, ?_⟩⟩
  · exact hall.trans (List.take_length).symm
  · intro entry hmem hid
    rcases hlogged.applied entry hmem hid with ⟨record, hrecord, hlogs⟩ | ⟨hmarker, hover, hend⟩
    · exact Or.inl ⟨record, List.mem_append_left _ hrecord, hlogs⟩
    · exact Or.inr ⟨hmarker, hover, List.mem_append_left _ hend⟩

/-- A call that reaches the log sends everything up to its own record. -/
theorem walOf_sent {record : Record} (hlogged : context.Logged wal history)
    (hopen : context.finished = false) (hadds : context.Adds record) :
    walOf context.trancId (wal ++ (context.logged record).pending) =
      context.operations ++ [record] := by
  have hne := hlogged.alive (Bool.or_eq_false_iff.mp hopen).2
  exact ((hlogged.logged hne hadds).persisted (List.append_ne_nil_of_left_ne_nil hne _)).1

/-- A version whose record is in the log is written. -/
theorem write (hlogged : context.Logged wal history)
    (hwritten : ∀ entry ∈ written, (∃ record ∈ wal, record.Logs entry) ∨
      (entry = ⟨[], [], context.trancId⟩ ∧ context.isCommited = true ∧
        Record.commitRecord context.trancId ∈ wal)) :
    context.Logged wal (written ++ history) :=
  { hlogged with
    applied := fun entry hmem hid => by
      rcases List.mem_append.mp hmem with hmem | hmem
      · exact hwritten entry hmem
      · exact hlogged.applied entry hmem hid }

end Logged

end TranContext

namespace View

/-- All transactions and the log. -/
structure Logged (view : View) : Prop where
  contexts : ∀ context ∈ view.contexts, context.Logged view.wal view.history
  known : ∀ record ∈ view.wal, ∃ context ∈ view.contexts, context.trancId = record.trancId
  noRollback : ∀ record ∈ view.wal, record.operationType ≠ .opRollback

theorem logged_empty : Logged empty where
  contexts _ hmem := by cases hmem
  known _ hmem := by cases hmem
  noRollback _ hmem := by cases hmem

namespace Logged

variable {view : View} {handle : ℕ} {context : TranContext}

/-- One transaction moves on, with its own records and versions only. -/
theorem update (hlogged : Logged view) (hcoherent : Coherent view)
    (hcontext : view.contexts[handle]? = some context) {context' : TranContext}
    (added : List Record) (written : List Entry) (active aborted : Finset ℕ)
    (hid : context'.trancId = context.trancId)
    (hadded : ∀ record ∈ added,
      record.trancId = context.trancId ∧ record.operationType ≠ .opRollback)
    (hwritten : ∀ entry ∈ written, entry.txid = context.trancId)
    (hself : context'.Logged (view.wal ++ added) (written ++ view.history)) :
    Logged { view with
      contexts := view.contexts.set handle context'
      wal := view.wal ++ added
      history := written ++ view.history
      active := active
      aborted := aborted } where
  contexts other hmem := by
    rcases Coherent.mem_set_cases hcontext hcoherent hmem with rfl | ⟨hmem, hne⟩
    · exact hself
    · apply (hlogged.contexts other hmem).frame
      · intro record hrecord
        rw [(hadded record hrecord).1]
        exact hne.symm
      · intro entry hentry
        rw [hwritten entry hentry]
        exact hne.symm
  known record hmem := by
    apply (Coherent.known_set hcontext hid).mpr
    rcases List.mem_append.mp hmem with hmem | hmem
    · exact hlogged.known record hmem
    · exact ⟨context, List.mem_of_getElem? hcontext, (hadded record hmem).1.symm⟩
  noRollback record hmem := by
    rcases List.mem_append.mp hmem with hmem | hmem
    · exact hlogged.noRollback record hmem
    · exact (hadded record hmem).2

/-- The same without anything for the log or the engine. -/
private theorem touch (hlogged : Logged view) (hcoherent : Coherent view)
    (hcontext : view.contexts[handle]? = some context) {context' : TranContext}
    (active aborted : Finset ℕ) (hid : context'.trancId = context.trancId)
    (hself : context'.Logged view.wal view.history) :
    Logged { view.setContext handle context' with
      active := active
      aborted := aborted } := by
  have hupdate := hlogged.update hcoherent hcontext [] [] active aborted hid
    (fun _ hmem => by cases hmem) (fun _ hmem => by cases hmem) (by rwa [List.append_nil])
  rwa [List.append_nil] at hupdate

theorem step {view' : View} {call : Call} {outcome : Except Err Reply}
    (hlogged : Logged view) (hcoherent : Coherent view)
    (hstep : Step view call outcome view') : Logged view' := by
  have hof : ∀ {handle : ℕ} {context : TranContext}, view.contexts[handle]? = some context →
      context.Logged view.wal view.history :=
    fun hcontext => hlogged.contexts _ (List.mem_of_getElem? hcontext)
  have hne : ∀ {handle : ℕ} {context : TranContext}, view.contexts[handle]? = some context →
      context.finished = false → context.operations ≠ [] :=
    fun hcontext hopen => (hof hcontext).alive (Bool.or_eq_false_iff.mp hopen).2
  have hpendingOf : ∀ {context : TranContext}, context.Logged view.wal view.history →
      ∀ record ∈ context.pending,
        record.trancId = context.trancId ∧ record.operationType ≠ .opRollback :=
    fun hself record hmem => ⟨hself.record_trancId record (List.mem_of_mem_drop hmem),
      hself.not_rollback record (List.mem_of_mem_drop hmem)⟩
  cases hstep with
  | maintained hcall => exact hlogged
  | refused hcall => exact hlogged
  | plain hcall =>
      refine ⟨fun context hmem => ?_, hlogged.known, hlogged.noRollback⟩
      rw [← List.append_nil view.wal]
      apply (hlogged.contexts context hmem).frame (fun _ hrecord => by cases hrecord)
      intro entry hentry
      rw [Call.txid_of_mem_plainEntries hentry]
      exact (hcoherent.id_lt context hmem).ne'
  | begun isolationLevel =>
      refine ⟨fun context hmem => ?_, fun record hmem => ?_, hlogged.noRollback⟩
      · rcases List.mem_append.mp hmem with hmem | hmem
        · exact hlogged.contexts context hmem
        · rw [List.mem_singleton.mp hmem]
          exact
            { alive := fun _ => List.cons_ne_nil _ _
              shape := fun _ => ⟨[], rfl, fun _ hmem => by cases hmem⟩
              counted := fun _ => Nat.zero_le _
              sent := fun _ => walOf_eq_nil fun record hrecord => by
                obtain ⟨other, hother, hid⟩ := hlogged.known record hrecord
                rw [← hid]
                exact (hcoherent.id_lt other hother).ne
              staged := fun _ hmem => by cases hmem
              applied := fun entry hentry hid =>
                absurd hid (hcoherent.written_lt entry hentry).ne }
      · obtain ⟨other, hother, hid⟩ := hlogged.known record hmem
        exact ⟨other, List.mem_append_left _ hother, hid⟩
  | @staged handle op _ context record hcontext hopen hlevel hrecord =>
      have hlogs := WriteOp.record_eq_ok hrecord
      have hself := (hof hcontext).logged (hne hcontext hopen) ⟨hlogs.2.1, Or.inl hlogs.1⟩
      refine hlogged.touch hcoherent hcontext view.active view.aborted rfl ?_
      refine { hself with staged := fun staged hmem => ?_ }
      have hfind := OrdMap.find?_eq_some_iff.mpr hmem
      dsimp only at hfind
      rw [OrdMap.find?_insert] at hfind
      split_ifs at hfind with hkey
      · refine ⟨record, List.mem_append_right _ (List.mem_singleton_self _), ?_⟩
        rw [hkey, ← Option.some.inj hfind]
        exact hlogs
      · exact hself.staged staged (OrdMap.find?_eq_some_iff.mp hfind)
  | unlogged hcontext hopen hlevel hrecord hwal =>
      have hlogs := WriteOp.record_eq_ok hrecord
      exact hlogged.touch hcoherent hcontext _ _ rfl
        ((hof hcontext).logged (hne hcontext hopen) ⟨hlogs.2.1, Or.inl hlogs.1⟩)
  | @applied handle op _ context record _ hcontext hopen hlevel hrecord hwal hcount houtcome =>
      have hlogs := WriteOp.record_eq_ok hrecord
      have hself := (hof hcontext).logged (hne hcontext hopen) ⟨hlogs.2.1, Or.inl hlogs.1⟩
      obtain ⟨hall, hpersisted⟩ := hself.persisted (List.append_ne_nil_of_left_ne_nil
        (hne hcontext hopen) _)
      refine hlogged.update hcoherent hcontext (context.logged record).pending
        [⟨op.key, op.value, context.trancId⟩] view.active view.aborted rfl (hpendingOf hself)
          ?_ ?_
      · intro entry hmem
        rw [List.mem_singleton.mp hmem]
      · apply hpersisted.write
        intro entry hmem
        rw [List.mem_singleton.mp hmem]
        have hsent : record ∈ walOf context.trancId
            (view.wal ++ (context.logged record).pending) :=
          hall ▸ List.mem_append_right _ (List.mem_singleton_self _)
        exact Or.inl ⟨record, (mem_walOf.mp hsent).1, hlogs⟩
  | gotStaged hcontext hopen hpending => exact hlogged
  | gotFresh hcontext hopen hpending hlevel hfound => exact hlogged
  | gotCached hcontext hopen hpending hlevel hcached => exact hlogged
  | gotFirst hcontext hopen hpending hlevel hcached hfound =>
      have hself := hof hcontext
      exact hlogged.touch hcoherent hcontext _ _ rfl ⟨hself.alive, hself.shape, hself.counted,
        hself.sent, hself.staged, hself.applied⟩
  | alreadyOver hcall hcontext hfinished => exact hlogged
  | conflict hcontext hopen hfirst =>
      have hself := hof hcontext
      exact hlogged.touch hcoherent hcontext _ _ rfl ⟨fun haborted => (by cases haborted),
        hself.shape, hself.counted, hself.sent, hself.staged, hself.applied⟩
  | commitUnlogged hcontext hopen hfirst hwal =>
      exact hlogged.touch hcoherent hcontext _ _ rfl
        ((hof hcontext).logged (hne hcontext hopen) ⟨rfl, Or.inr rfl⟩)
  | @committed handle _ context _ hcontext hopen hfirst hpassed hwal hcount houtcome =>
      have hself := (hof hcontext).logged (hne hcontext hopen)
        (⟨rfl, Or.inr rfl⟩ : context.Adds (Record.commitRecord context.trancId))
      obtain ⟨hall, hpersisted⟩ := hself.persisted (List.append_ne_nil_of_left_ne_nil
        (hne hcontext hopen) _)
      have hsent : ∀ record ∈ context.operations ++ [Record.commitRecord context.trancId],
          record ∈ view.wal ++
            (context.logged (Record.commitRecord context.trancId)).pending :=
        fun record hmem => (mem_walOf.mp (hall ▸ hmem :
          record ∈ walOf context.trancId (view.wal ++
            (context.logged (Record.commitRecord context.trancId)).pending))).1
      refine hlogged.update hcoherent hcontext
        (context.logged (Record.commitRecord context.trancId)).pending context.committedEntries
        (view.active.erase context.trancId) view.aborted rfl (hpendingOf hself)
        (fun entry hmem => TranContext.txid_of_mem_committedEntries hmem) ?_
      have hover : ({ (context.logged (Record.commitRecord context.trancId)).persisted with
          isCommited := true } : TranContext).Logged (view.wal ++
            (context.logged (Record.commitRecord context.trancId)).pending) view.history :=
        ⟨hpersisted.alive, hpersisted.shape, hpersisted.counted, hpersisted.sent,
          hpersisted.staged, fun entry hmem hid => by
            rcases hpersisted.applied entry hmem hid with hlogs | ⟨hmarker, -, hend⟩
            · exact Or.inl hlogs
            · exact Or.inr ⟨hmarker, rfl, hend⟩⟩
      apply hover.write
      intro entry hmem
      rcases TranContext.mem_committedEntries.mp hmem with rfl | ⟨-, staged, hstaged, rfl⟩
      · exact Or.inr ⟨rfl, rfl, hsent _ (List.mem_append_right _ (List.mem_singleton_self _))⟩
      · obtain ⟨record, hrecord, hlogs⟩ := (hof hcontext).staged staged hstaged
        exact Or.inl ⟨record, hsent record (List.mem_append_left _ hrecord), hlogs⟩
  | rolledBack hcontext hopen hfirst hcount =>
      have hself := hof hcontext
      exact hlogged.touch hcoherent hcontext _ _ rfl ⟨fun haborted => (by cases haborted),
        fun hne => absurd rfl hne, fun hne => absurd rfl hne, fun hne => absurd rfl hne,
        fun _ hmem => (by cases hmem), hself.applied⟩

theorem run {view' : View} {events : List Event} (hlogged : Logged view)
    (hcoherent : Coherent view) (hrun : Run view events view') : Logged view' := by
  induction hrun with
  | nil => exact hlogged
  | cons hstep hrest ih => exact ih (hlogged.step hcoherent hstep) (hcoherent.step hstep)

end Logged

end View

/-- The log of a store that calls have reached. -/
theorem runCalls_logged (config : Config) (calls : List Call) :
    ((runCalls config LSM.new calls).1.view
      (runCalls config LSM.new calls).1.engine.records).Logged := by
  obtain ⟨history, hrun, hfollows⟩ := runCalls_refines config LSM.follows_new calls
  have hlogged := View.logged_empty.run View.coherent_empty hrun
  refine ⟨fun context hmem => ?_, hlogged.known, hlogged.noRollback⟩
  have hself := hlogged.contexts context hmem
  exact { hself with
    applied := fun entry hentry => hself.applied entry (hfollows.reflects.subset entry hentry) }

namespace TranContext

/-- A call that only works on its own context. -/
structure Untouched (lsm after : LSM) : Prop where
  engine : after.engine = lsm.engine
  tranManager : after.tranManager = lsm.tranManager
  wal : after.wal = lsm.wal
  ended : after.contexts.map (fun context => (context.isCommited, context.isAborted)) =
    lsm.contexts.map fun context => (context.isCommited, context.isAborted)

theorem Untouched.refl (lsm : LSM) : Untouched lsm lsm := ⟨rfl, rfl, rfl, rfl⟩

private theorem untouched_setContext {lsm : LSM} {handle : ℕ} {context : TranContext}
    (hcontext : lsm.contexts[handle]? = some context) (context' : TranContext)
    (hcommited : context'.isCommited = context.isCommited)
    (haborted : context'.isAborted = context.isAborted) :
    Untouched lsm (lsm.setContext handle context') where
  engine := rfl
  tranManager := rfl
  wal := rfl
  ended := by
    obtain ⟨hlt, rfl⟩ := List.getElem?_eq_some_iff.mp hcontext
    change (lsm.contexts.set handle context').map _ = _
    rw [List.map_set, hcommited, haborted]
    have hself : handle < (lsm.contexts.map fun context =>
        (context.isCommited, context.isAborted)).length := by
      rwa [List.length_map]
    have hget := List.set_getElem_self hself
    rwa [List.getElem_map] at hget

section

variable {config : Config} {lsm : LSM} {handle : ℕ} {context : TranContext}

/-- The log fails: the record stays pending. -/
private theorem persist_fails (hcount : context.walWrittenCount ≤ context.operations.length)
    (record : Record) :
    ∃ err, persist lsm handle (context.logged record) false =
      (lsm.setContext handle (context.logged record), .error err) := by
  rcases persist_cases lsm handle (context.logged record) false with
    ⟨-, hwal, -⟩ | ⟨err, hpersist, -⟩
  · rcases hwal with hwal | hwal
    · cases hwal
    · change context.walWrittenCount = (context.operations ++ [record]).length at hwal
      rw [List.length_append, List.length_singleton] at hwal
      omega
  · exact ⟨err, hpersist⟩

private theorem write_untouched (hlogged : (lsm.view lsm.engine.records).Logged)
    (op : WriteOp) : Untouched lsm (write config lsm handle op false).1 := by
  unfold write
  split
  · exact Untouched.refl lsm
  next context hcontext =>
    split
    · exact Untouched.refl lsm
    next hopen =>
      split
      · exact Untouched.refl lsm
      next record hrecord =>
        have hself := hlogged.contexts context (List.mem_of_getElem? hcontext)
        have hopen := Bool.or_eq_false_iff.mp (Bool.not_eq_true _ ▸ hopen)
        have hcount := hself.counted (hself.alive hopen.2)
        dsimp only
        split
        · obtain ⟨err, hpersist⟩ := persist_fails hcount record
          rw [hpersist]
          exact untouched_setContext hcontext _ rfl rfl
        · exact untouched_setContext hcontext _ rfl rfl

private theorem commit_untouched (hlogged : (lsm.view lsm.engine.records).Logged)
    {testFail : Bool} (hfails : (commit config lsm handle testFail false).2 ≠ .ok false) :
    Untouched lsm (commit config lsm handle testFail false).1 := by
  unfold commit at hfails ⊢
  split
  · exact Untouched.refl lsm
  next context hcontext =>
    simp only [hcontext] at hfails
    split at hfails
    · exact absurd rfl hfails
    next hopen =>
      rw [if_neg hopen]
      have hself := hlogged.contexts context (List.mem_of_getElem? hcontext)
      have hopen := Bool.or_eq_false_iff.mp (Bool.not_eq_true _ ▸ hopen)
      have hcount := hself.counted (hself.alive hopen.2)
      split
      · exact Untouched.refl lsm
      next htest =>
        rw [if_neg htest] at hfails
        split
        · exact Untouched.refl lsm
        next hfirst =>
          rw [if_neg hfirst] at hfails
          unfold commitLocked at hfails ⊢
          split
          · exact Untouched.refl lsm
          next hconflict =>
            rw [hconflict] at hfails
            exact absurd rfl hfails
          next hpassed =>
            obtain ⟨err, hpersist⟩ :=
              persist_fails hcount (Record.commitRecord context.trancId)
            dsimp only
            rw [hpersist]
            exact untouched_setContext hcontext _ rfl rfl

end

/-- Write-ahead order: a stored version has its record in the log, the log holds the first
operations of a transaction, and a call whose log write fails changes nothing else. -/
theorem log_before_engine (config : Config) (calls : List Call) :
    let lsm := (runCalls config LSM.new calls).1
    (∀ context ∈ lsm.contexts, ∀ entry ∈ lsm.engine.records,
      entry.txid = context.trancId → (∃ record ∈ lsm.wal, record.Logs entry) ∨
        (entry = ⟨[], [], context.trancId⟩ ∧ context.isCommited = true ∧
          Record.commitRecord context.trancId ∈ lsm.wal)) ∧
    (∀ context ∈ lsm.contexts, context.isAborted = false →
      context.walWrittenCount ≤ context.operations.length ∧
      walOf context.trancId lsm.wal = context.operations.take context.walWrittenCount) ∧
    (∀ handle op, Untouched lsm (write config lsm handle op false).1) ∧
    ∀ handle testFail, (commit config lsm handle testFail false).2 ≠ .ok false →
      Untouched lsm (commit config lsm handle testFail false).1 := by
  intro lsm
  have hlogged := runCalls_logged config calls
  refine ⟨fun context hmem => (hlogged.contexts context hmem).applied, ?_,
    fun handle op => write_untouched hlogged op,
    fun handle testFail hfails => commit_untouched hlogged hfails⟩
  intro context hmem hkept
  have hself := hlogged.contexts context hmem
  exact ⟨hself.counted (hself.alive hkept), hself.sent (hself.alive hkept)⟩

/-- Two writes go through, the log fails for the commit, and the second attempt to log
is another write. -/
theorem log_before_engine_sample :
    let lsm := (runCalls smallConfig LSM.new
      [.beginTran .readUnopCommitted, .write 0 (.put [1] [7]) true,
        .write 0 (.remove [2]) false, .commit 0 false]).1
    (walOf 1 lsm.wal).length = 2 ∧ ∀ context ∈ lsm.contexts, context.isAborted = false →
      context.walWrittenCount ≤ context.operations.length ∧
      walOf context.trancId lsm.wal = context.operations.take context.walWrittenCount :=
  ⟨by decide, (log_before_engine smallConfig
    [.beginTran .readUnopCommitted, .write 0 (.put [1] [7]) true,
      .write 0 (.remove [2]) false, .commit 0 false]).2.1⟩

end TranContext

end KopiDb
