import KopiDb.Isolation
import KopiDb.Scan
import KopiDb.StateFile

/-!
# Rolled-back transactions

A rollback deletes nothing.  What keeps the versions of a transaction from being read is
that its number stays in the set of rolled-back numbers, through all flushes and
compactions and also through a state file that was written behind the rollback.
-/

namespace KopiDb

/-! ## Runs with a state file -/

/-- The store and the words of its state file. -/
structure SavedLSM where
  lsm : LSM
  file : List ℕ

/-- A call on the store, or one on the state file of its manager. -/
inductive StateOp where
  | onStore (call : Call)
  | writeTrancIdFile (torn : Option (List ℕ))
  | readTrancIdFile

namespace StateOp

def run (config : Config) (store : SavedLSM) : StateOp → SavedLSM
  | onStore call => { store with lsm := (call.run config store.lsm).1 }
  | writeTrancIdFile torn =>
      { store with file := (store.lsm.tranManager.writeTrancIdFile store.file torn).1 }
  | readTrancIdFile =>
      { store with lsm := { store.lsm with
          tranManager := (store.lsm.tranManager.readTrancIdFile store.file).1 } }

/-- The calls on the store among the operations. -/
def calls (ops : List StateOp) : List Call :=
  ops.filterMap fun
    | onStore call => some call
    | _ => none

/-- Only files are read that were written before, and completely; `written` tells whether
the present file was. -/
def ReadsWritten : Bool → List StateOp → Prop
  | _, [] => True
  | written, onStore _ :: rest => ReadsWritten written rest
  | _, writeTrancIdFile torn :: rest => ReadsWritten torn.isNone rest
  | written, readTrancIdFile :: rest => written = true ∧ ReadsWritten written rest

end StateOp

/-- The constructor on an empty directory leaves an empty state file. -/
def SavedLSM.new : SavedLSM := ⟨LSM.new, []⟩

def runSaved (config : Config) (store : SavedLSM) (ops : List StateOp) : SavedLSM :=
  ops.foldl (StateOp.run config) store

/-- Without reading the file, the store runs as it does without a file. -/
theorem lsm_runSaved (config : Config) (store : SavedLSM) {ops : List StateOp}
    (hreads : StateOp.readTrancIdFile ∉ ops) :
    (runSaved config store ops).lsm = (runCalls config store.lsm (StateOp.calls ops)).1 := by
  induction ops generalizing store with
  | nil => rfl
  | cons op rest ih =>
      have hrest : StateOp.readTrancIdFile ∉ rest := fun hmem =>
        hreads (List.mem_cons_of_mem _ hmem)
      rw [runSaved, List.foldl_cons]
      cases op with
      | onStore call => exact ih _ hrest
      | writeTrancIdFile torn => exact ih _ hrest
      | readTrancIdFile => exact absurd List.mem_cons_self hreads

/-! ## The ended transactions -/

namespace LSM

variable {lsm : LSM} {id : ℕ} {state : TransactionState}

/-- A notification adds no ended transaction. -/
theorem ready_notify {outcome : Engine × Except Err Flushed}
    (hfind : (lsm.notify outcome).1.tranManager.readyToFlushTrancIds.find? id = some state) :
    lsm.tranManager.readyToFlushTrancIds.find? id = some state := by
  have hfold : ∀ (ids : List ℕ) (manager : TranManager),
      (ids.foldl TranManager.addFlushedTrancId manager).readyToFlushTrancIds.find? id =
        some state → manager.readyToFlushTrancIds.find? id = some state := by
    intro ids
    induction ids with
    | nil => exact fun _ hfind => hfind
    | cons first rest ih =>
        exact fun manager hfind => manager.ready_addFlushedTrancId first (ih _ hfind)
  unfold notify at hfind
  split at hfind
  · exact hfind
  · exact hfold _ _ hfind

end LSM

namespace TranContext

variable {config : Config} {lsm : LSM} {handle : ℕ} {id : ℕ}

/-- Under its locks a commit makes at most its own number ready as committed. -/
private theorem commitLocked_ready {context : TranContext}
    (hcontext : lsm.contexts[handle]? = some context) (walOk : Bool)
    (hfind : (commitLocked config lsm handle context walOk).1.tranManager.readyToFlushTrancIds.find?
      id = some .opCommitted) :
    lsm.tranManager.readyToFlushTrancIds.find? id = some .opCommitted ∨
      id = context.trancId ∧
        ∃ next ∈ (commitLocked config lsm handle context walOk).1.contexts,
          next.trancId = id ∧ next.isCommited = true := by
  have hlt := (List.getElem?_eq_some_iff.mp hcontext).1
  unfold commitLocked at hfind ⊢
  split at hfind
  · exact Or.inl hfind
  · change (lsm.tranManager.readyToFlushTrancIds.insert context.trancId .aborted).find? id = _
      at hfind
    rw [OrdMap.find?_insert] at hfind
    split_ifs at hfind
    · cases hfind
    · exact Or.inl hfind
  · dsimp only at hfind ⊢
    rcases persist_cases lsm handle (context.logged (Record.commitRecord context.trancId)) walOk
      with ⟨hpersist, -⟩ | ⟨err, hpersist, -⟩
    · rw [hpersist] at hfind ⊢
      change (lsm.tranManager.readyToFlushTrancIds.insert context.trancId .opCommitted).find? id =
        _ at hfind
      rw [OrdMap.find?_insert] at hfind
      split_ifs at hfind with hid
      · refine Or.inr ⟨hid, { (context.logged (Record.commitRecord context.trancId)).persisted
          with isCommited := true }, ?_, hid.symm, rfl⟩
        exact List.mem_set (by rwa [List.length_set]) _
      · exact Or.inl hfind
    · rw [hpersist] at hfind
      exact Or.inl hfind

/-- A number that becomes ready as committed is that of a transaction that was open and has
committed. -/
private theorem commit_ready (walOk : Bool)
    (hfind : (commit config lsm handle false walOk).1.tranManager.readyToFlushTrancIds.find? id =
      some .opCommitted) :
    lsm.tranManager.readyToFlushTrancIds.find? id = some .opCommitted ∨
      ∃ context ∈ lsm.contexts, context.trancId = id ∧ context.finished = false ∧
        ∃ next ∈ (commit config lsm handle false walOk).1.contexts,
          next.trancId = id ∧ next.isCommited = true := by
  unfold commit at hfind ⊢
  cases hcontext : lsm.contexts[handle]? with
  | none =>
      rw [hcontext] at hfind
      exact Or.inl hfind
  | some context =>
      rw [hcontext] at hfind
      dsimp only at hfind ⊢
      by_cases hopen : context.finished = true
      · rw [if_pos hopen] at hfind
        exact Or.inl hfind
      · rw [if_neg hopen, if_neg Bool.false_ne_true] at hfind ⊢
        by_cases hfirst : context.endAttempted = true
        · rw [if_pos hfirst] at hfind
          exact Or.inl hfind
        · rw [if_neg hfirst] at hfind ⊢
          have hmem := List.mem_of_getElem? hcontext
          have hlocked := @commitLocked_ready config lsm handle id context hcontext walOk
          generalize commitLocked config lsm handle context walOk = locked at hlocked hfind ⊢
          have hflush : ∀ next : LSM, (next.contexts = locked.1.contexts ∧
              (next.tranManager.readyToFlushTrancIds.find? id = some .opCommitted →
                locked.1.tranManager.readyToFlushTrancIds.find? id = some .opCommitted)) →
              (next.flush config).1.contexts = locked.1.contexts ∧
              ((next.flush config).1.tranManager.readyToFlushTrancIds.find? id =
                some .opCommitted →
                  locked.1.tranManager.readyToFlushTrancIds.find? id = some .opCommitted) :=
            fun next hkept => ⟨(LSM.contexts_notify _).trans hkept.1,
              fun hfind => hkept.2 (LSM.ready_notify hfind)⟩
          obtain ⟨hcontexts, hready⟩ := finish_rule hflush locked ⟨rfl, fun hfind => hfind⟩
          rw [hcontexts]
          refine (hlocked (hready hfind)).imp_right ?_
          rintro ⟨rfl, hnext⟩
          exact ⟨context, hmem, rfl, Bool.not_eq_true _ ▸ hopen, hnext⟩

private theorem write_ready (op : WriteOp) (walOk : Bool) {state : TransactionState}
    (hfind : (write config lsm handle op walOk).1.tranManager.readyToFlushTrancIds.find? id =
      some state) : lsm.tranManager.readyToFlushTrancIds.find? id = some state := by
  unfold write at hfind
  split at hfind
  · exact hfind
  next context hcontext =>
    split at hfind
    · exact hfind
    · split at hfind
      · exact hfind
      next record hrecord =>
        dsimp only at hfind
        split at hfind
        · rcases persist_cases lsm handle (context.logged record) walOk with
            ⟨hpersist, -⟩ | ⟨err, hpersist, -⟩
          · rw [hpersist] at hfind
            simp only [andThen] at hfind
            have hready := LSM.ready_notify hfind
            exact hready
          · rw [hpersist] at hfind
            exact hfind
        · exact hfind

private theorem get_ready (key : Bytes) :
    (get lsm handle key).1.tranManager = lsm.tranManager := by
  unfold get
  split
  · rfl
  · split
    · rfl
    · split
      · rfl
      · dsimp only
        split
        · rfl
        · split
          · rfl
          · split <;> rfl

private theorem abort_ready
    (hfind : (abort lsm handle).1.tranManager.readyToFlushTrancIds.find? id =
      some .opCommitted) :
    lsm.tranManager.readyToFlushTrancIds.find? id = some .opCommitted := by
  unfold abort at hfind
  split at hfind
  · exact hfind
  next context hcontext =>
    split_ifs at hfind
    · exact hfind
    · exact hfind
    · exact hfind
    · change (lsm.tranManager.readyToFlushTrancIds.insert context.trancId .aborted).find? id = _
        at hfind
      rw [OrdMap.find?_insert] at hfind
      split_ifs at hfind
      · cases hfind
      · exact hfind

end TranContext

/-- Only a commit of an open transaction makes a number ready as committed. -/
theorem Call.run_ready (config : Config) {lsm : LSM} (call : Call) {id : ℕ}
    (hfind : (call.run config lsm).1.tranManager.readyToFlushTrancIds.find? id =
      some .opCommitted) :
    lsm.tranManager.readyToFlushTrancIds.find? id = some .opCommitted ∨
      ∃ context ∈ lsm.contexts, context.trancId = id ∧ context.finished = false ∧
        ∃ next ∈ (call.run config lsm).1.contexts,
          next.trancId = id ∧ next.isCommited = true := by
  cases call with
  | commit handle walOk => exact TranContext.commit_ready walOk hfind
  | write handle op walOk => exact Or.inl (TranContext.write_ready op walOk hfind)
  | get handle key =>
      change (TranContext.get lsm handle key).1.tranManager.readyToFlushTrancIds.find? id = _
        at hfind
      rw [TranContext.get_ready] at hfind
      exact Or.inl hfind
  | abort handle => exact Or.inl (TranContext.abort_ready hfind)
  | plainPut key value =>
      exact Or.inl (@LSM.ready_notify lsm.takeTrancId.1 _ _ _ hfind)
  | plainPutBatch kvs =>
      exact Or.inl (@LSM.ready_notify lsm.takeTrancId.1 _ _ _ hfind)
  | plainRemove key =>
      exact Or.inl (@LSM.ready_notify lsm.takeTrancId.1 _ _ _ hfind)
  | plainRemoveBatch keys =>
      exact Or.inl (@LSM.ready_notify lsm.takeTrancId.1 _ _ _ hfind)
  | flush => exact Or.inl (LSM.ready_notify hfind)
  | beginTran | plainGet | plainGetBatch | freeze | compact => exact Or.inl hfind

/-! ## A rolled-back number -/

/-- What holds of a number once it is rolled back, as far as the view shows it. -/
structure View.RolledBack (view : View) (id : ℕ) : Prop where
  aborted : id ∈ view.aborted
  inactive : id ∉ view.active
  passed : id < view.nextTrancId
  contexts : ∀ context ∈ view.contexts, context.trancId = id →
    context.isAborted = true ∧ context.isCommited = false

namespace View.RolledBack

variable {view : View} {id : ℕ} {handle : ℕ} {context : TranContext}

theorem of_coherent (hcoherent : Coherent view) (haborted : id ∈ view.aborted) :
    RolledBack view id := by
  obtain ⟨context, hmem, rfl⟩ := hcoherent.aborted_known id haborted
  have hrolled := (hcoherent.aborted_iff context hmem).mp haborted
  refine ⟨haborted, fun hactive => ?_, hcoherent.id_lt context hmem, fun other hother hid => ?_⟩
  · have hopen := (hcoherent.active_iff context hmem).mp hactive
    exact Bool.false_ne_true ((Bool.or_eq_false_iff.mp hopen).2.symm.trans hrolled)
  · obtain rfl := hcoherent.eq_of_trancId hother hmem hid
    refine ⟨hrolled, ?_⟩
    rw [← Bool.not_eq_true]
    exact fun hcommitted => hcoherent.exclusive other hmem ⟨hcommitted, hrolled⟩

/-- No open transaction has the number. -/
theorem ne_of_open (hrolled : RolledBack view id)
    (hcontext : view.contexts[handle]? = some context) (hopen : context.finished = false) :
    context.trancId ≠ id := by
  intro hid
  have haborted := (hrolled.contexts context (List.mem_of_getElem? hcontext) hid).1
  exact Bool.false_ne_true ((Bool.or_eq_false_iff.mp hopen).2.symm.trans haborted)

private theorem set (hrolled : RolledBack view id)
    (hcontext : view.contexts[handle]? = some context) (hopen : context.finished = false)
    (context' : TranContext) (history : List Entry) (active aborted : Finset ℕ)
    (wal : List Record) (hid : context'.trancId = context.trancId)
    (hactive : active ⊆ view.active) (haborted : view.aborted ⊆ aborted) :
    RolledBack { view with
      contexts := view.contexts.set handle context'
      history := history
      active := active
      aborted := aborted
      wal := wal } id where
  aborted := haborted hrolled.aborted
  inactive hmem := hrolled.inactive (hactive hmem)
  passed := hrolled.passed
  contexts other hmem hother := by
    rcases List.mem_or_eq_of_mem_set hmem with hold | rfl
    · exact hrolled.contexts other hold hother
    · exact absurd (hid.symm.trans hother) (hrolled.ne_of_open hcontext hopen)

/-- No step of the view gives the number back. -/
theorem step {view' : View} {call : Call} {outcome : Except Err Reply}
    (hrolled : RolledBack view id) (hstep : Step view call outcome view') :
    RolledBack view' id := by
  have hsame : ∀ ids : Finset ℕ, ids ⊆ ids := fun ids => Finset.Subset.refl ids
  cases hstep with
  | maintained | refused | gotStaged | gotFresh | gotCached | alreadyOver => exact hrolled
  | plain hcall =>
      exact ⟨hrolled.aborted, hrolled.inactive, hrolled.passed.trans (Nat.lt_succ_self _),
        hrolled.contexts⟩
  | begun isolationLevel =>
      refine ⟨hrolled.aborted, fun hmem => ?_, hrolled.passed.trans (Nat.lt_succ_self _),
        fun context hmem hid => ?_⟩
      · rcases Finset.mem_insert.mp hmem with rfl | hold
        · exact hrolled.passed.false
        · exact hrolled.inactive hold
      · rcases List.mem_append.mp hmem with hold | hnew
        · exact hrolled.contexts context hold hid
        · rw [List.mem_singleton.mp hnew] at hid
          exact absurd hid hrolled.passed.ne'
  | staged hcontext hopen => exact hrolled.set hcontext hopen _ _ _ _ _ rfl (hsame _) (hsame _)
  | unlogged hcontext hopen =>
      exact hrolled.set hcontext hopen _ _ _ _ _ rfl (hsame _) (hsame _)
  | applied hcontext hopen => exact hrolled.set hcontext hopen _ _ _ _ _ rfl (hsame _) (hsame _)
  | gotFirst hcontext hopen =>
      exact hrolled.set hcontext hopen _ _ _ _ _ rfl (hsame _) (hsame _)
  | conflict hcontext hopen =>
      exact hrolled.set hcontext hopen _ _ _ _ _ rfl (Finset.erase_subset _ _)
        (Finset.subset_insert _ _)
  | commitUnlogged hcontext hopen =>
      exact hrolled.set hcontext hopen _ _ _ _ _ rfl (hsame _) (hsame _)
  | committed hcontext hopen =>
      exact hrolled.set hcontext hopen _ _ _ _ _ rfl (Finset.erase_subset _ _) (hsame _)
  | rolledBack hcontext hopen =>
      exact hrolled.set hcontext hopen _ _ _ _ _ rfl (Finset.erase_subset _ _)
        (Finset.subset_insert _ _)

end View.RolledBack

/-! ## Reads without a writer -/

/-- Every read answers as if one number had never written. -/
structure Engine.ReadsWithout (engine : Engine) (man : ReadPolicy) (id : ℕ) : Prop where
  get : ∀ key bound requireCommitted, ∃ found,
    engine.get (some man) key bound requireCommitted = .ok found ∧
      (∀ pair ∈ found, pair.2 ≠ id) ∧
      (key ≠ [] → found =
        reference (engine.records.filter fun entry => decide (entry.txid ≠ id)) key bound
          fun other => man.shouldSkipRead other requireCommitted)
  getBatch : ∀ keys bound, ∃ results, engine.getBatch (some man) keys bound = .ok results ∧
    results.map Prod.fst = keys ∧ ∀ result ∈ results, (∀ pair ∈ result.2, pair.2 ≠ id) ∧
      (result.1 ≠ [] → result.2 =
        reference (engine.records.filter fun entry => decide (entry.txid ≠ id)) result.1 bound
          man.isAborted)
  begin : ∀ bound, ∃ it, engine.begin (some man) bound = .ok it ∧
    (∀ entry ∈ Cursor.toList it, entry.txid ≠ id) ∧
    ∀ key, key ≠ [] → (Cursor.toList it).find? (fun entry => entry.key = key) =
      (Versions.read (engine.records.filter fun entry => decide (entry.txid ≠ id)) key bound
        man.isAborted).filter fun entry => decide (entry.value ≠ [])
  range : ∀ bound userPredicate sameBlock, Engine.MonotoneOnKeys userPredicate →
    ∃ result entries, engine.lsmItersMonotonyPredicate (some man) bound userPredicate
        sameBlock = .ok result ∧
      (result = none ↔ entries = []) ∧ (∀ it, result = some it → Cursor.toList it = entries) ∧
      (∀ entry ∈ entries, entry.txid ≠ id) ∧
      ∀ key, key ≠ [] → userPredicate key = 0 →
        entries.find? (fun entry => entry.key = key) =
          (Versions.read (engine.records.filter fun entry => decide (entry.txid ≠ id)) key bound
            man.isAborted).filter fun entry => decide (entry.value ≠ [])

namespace Engine

variable {engine : Engine} {man : ReadPolicy} {id : ℕ}

/-- A point read, and a position of a batch read. -/
private theorem get_without (hinv : LevelInvariant engine) (key : Bytes) (bound : ℕ)
    (requireCommitted : Bool) (hskip : man.shouldSkipRead id requireCommitted = true) :
    ∃ found, engine.get (some man) key bound requireCommitted = .ok found ∧
      (∀ pair ∈ found, pair.2 ≠ id) ∧
      (key ≠ [] → found =
        reference (engine.records.filter fun entry => decide (entry.txid ≠ id)) key bound
          fun other => man.shouldSkipRead other requireCommitted) := by
  have hhidden : ∀ other, Versions.visible bound
      (fun id => man.shouldSkipRead id requireCommitted) other = true → other ≠ id := by
    rintro other hvisible rfl
    simp [Versions.visible, hskip] at hvisible
  by_cases hkey : key = []
  · subst hkey
    obtain ⟨found, hrun, hfound⟩ := get_empty_key_mem bound hinv man requireCommitted
    refine ⟨found, hrun, fun pair hpair => ?_, fun hne => absurd rfl hne⟩
    obtain ⟨entry, -, -, rfl, hvisible⟩ := hfound pair hpair
    exact hhidden _ hvisible
  · refine ⟨_, get_eq bound hinv hkey man requireCommitted, fun pair hpair => ?_, fun _ => ?_⟩
    · cases hread : Versions.read engine.records key bound
          (fun id => man.shouldSkipRead id requireCommitted) with
      | none =>
          rw [hread] at hpair
          cases hpair
      | some entry =>
          rw [hread, live, answer_some] at hpair
          obtain ⟨-, -, hvisible⟩ := Versions.read_eq_some hread
          obtain rfl := Option.mem_some_iff.mp (Option.mem_filter_iff.mp hpair).1
          exact hhidden _ hvisible
    · rw [reference, Versions.read_filter_ne _ _ _ hskip]

private theorem mapM_get {lookup : Bytes → Except Err (Option (Bytes × ℕ))}
    {property : Bytes → Option (Bytes × ℕ) → Prop}
    (hlookup : ∀ key, ∃ found, lookup key = .ok found ∧ property key found)
    (keys : List Bytes) :
    ∃ results, (keys.mapM fun key => (lookup key).map fun found => (key, found)) = .ok results ∧
      results.map Prod.fst = keys ∧ ∀ result ∈ results, property result.1 result.2 := by
  induction keys with
  | nil => exact ⟨[], rfl, rfl, fun _ hmem => absurd hmem List.not_mem_nil⟩
  | cons key rest ih =>
      obtain ⟨results, hrest, hkeys, hresults⟩ := ih
      obtain ⟨found, hfound, hproperty⟩ := hlookup key
      refine ⟨(key, found) :: results, ?_, congrArg (key :: ·) hkeys, fun result hmem => ?_⟩
      · rw [List.mapM_cons, hfound, hrest]
        rfl
      · rcases List.mem_cons.mp hmem with rfl | hmem
        · exact hproperty
        · exact hresults result hmem

/-- A scan shows only what a read finds. -/
private theorem shown_without {shown : List Entry} {bound : ℕ} {skip : ℕ → Bool}
    (hskip : skip id = true)
    (hstrict : Versions.StrictKeys shown)
    (hfind : ∀ entry ∈ shown, shown.find? (fun other => other.key = entry.key) =
      (Versions.read engine.records entry.key bound skip).filter fun entry =>
        decide (entry.value ≠ [])) : ∀ entry ∈ shown, entry.txid ≠ id := by
  rintro entry hmem rfl
  have hread := (hstrict.mem_iff_find? entry).mp hmem
  rw [hfind entry hmem] at hread
  obtain ⟨-, -, hvisible⟩ := Versions.read_eq_some (Option.mem_filter_iff.mp hread).1
  simp [Versions.visible, hskip] at hvisible

/-- A skipped writer is not read, and hides nothing. -/
theorem readsWithout (hinv : LevelInvariant engine) (haborted : man.isAborted id = true)
    (hskip : ∀ requireCommitted, man.shouldSkipRead id requireCommitted = true) :
    engine.ReadsWithout man id where
  get key bound requireCommitted :=
    get_without hinv key bound requireCommitted (hskip requireCommitted)
  getBatch keys bound := by
    rw [getBatch_eq_mapM engine man keys bound false]
    exact mapM_get (fun key => get_without hinv key bound false haborted) keys
  begin bound := by
    obtain ⟨it, hrun, hstrict, hshown, hfind⟩ := levelIterator_spec bound man.isAborted hinv
    refine ⟨it, hrun, ?_, fun key hkey => ?_⟩
    · exact shown_without haborted hstrict fun entry hmem =>
        hfind entry.key (hshown entry hmem).1
    · rw [hfind key hkey, Versions.read_filter_ne _ _ _ haborted]
  range bound userPredicate sameBlock hmono := by
    obtain ⟨result, entries, hrun, hnone, hsome, hstrict, hshown, hfind⟩ :=
      lsmItersMonotonyPredicate_spec bound sameBlock hinv hmono man
    refine ⟨result, entries, hrun, hnone, hsome, ?_, fun key hkey hzero => ?_⟩
    · exact shown_without haborted hstrict fun entry hmem =>
        hfind entry.key (hshown entry hmem).1 (hshown entry hmem).2.2
    · rw [hfind key hkey hzero, Versions.read_filter_ne _ _ _ haborted]

end Engine

/-! ## Runs -/

/-- What holds of the store once a number is rolled back; `written` tells whether the state
file was written since. -/
structure SavedLSM.RolledBack (store : SavedLSM) (id : ℕ) (written : Bool) : Prop where
  follows : ∃ history, Engine.Follows store.lsm.engine history
  view : (store.lsm.view []).RolledBack id
  ready : store.lsm.tranManager.readyToFlushTrancIds.find? id ≠ some .opCommitted
  file : written = true → ∃ saved : TranManager, store.file = saved.fileWords ∧
    id ∈ saved.abortedTrancIds ∧ id < saved.nextTransactionId ∧
    saved.readyToFlushTrancIds.find? id ≠ some .opCommitted

namespace SavedLSM.RolledBack

variable {config : Config} {store : SavedLSM} {id : ℕ} {written : Bool}

private theorem onStore (config : Config) (hrolled : store.RolledBack id written)
    (call : Call) : (StateOp.run config store (.onStore call)).RolledBack id written := by
  obtain ⟨history, hfollows⟩ := hrolled.follows
  obtain ⟨history', hstep, hnext⟩ := Call.run_refines config hfollows call
  have hview : (store.lsm.view history).RolledBack id :=
    ⟨hrolled.view.aborted, hrolled.view.inactive, hrolled.view.passed, hrolled.view.contexts⟩
  have hview := hview.step hstep
  refine ⟨⟨history', hnext⟩, ⟨hview.aborted, hview.inactive, hview.passed, hview.contexts⟩,
    fun hready => ?_, hrolled.file⟩
  rcases Call.run_ready config call hready with hold | ⟨_, -, -, -, next, hmem, hid, hcommitted⟩
  · exact hrolled.ready hold
  · exact Bool.false_ne_true ((hview.contexts next hmem hid).2.symm.trans hcommitted)

private theorem write (hrolled : store.RolledBack id written) (torn : Option (List ℕ)) :
    (StateOp.run config store (.writeTrancIdFile torn)).RolledBack id torn.isNone where
  follows := hrolled.follows
  view := hrolled.view
  ready := hrolled.ready
  file hwritten := by
    obtain rfl := Option.isNone_iff_eq_none.mp hwritten
    have hnext : store.lsm.tranManager.nextTransactionId ≠ 0 :=
      Nat.ne_zero_of_lt hrolled.view.passed
    refine ⟨store.lsm.tranManager, ?_, hrolled.view.aborted, hrolled.view.passed, hrolled.ready⟩
    change (store.lsm.tranManager.writeTrancIdFile store.file none).1 = _
    rw [TranManager.writeTrancIdFile, TranManager.saveFile_of_ne hnext]

private theorem read (hrolled : store.RolledBack id true) :
    (StateOp.run config store .readTrancIdFile).RolledBack id true := by
  obtain ⟨saved, hfile, haborted, hpassed, hready⟩ := hrolled.file rfl
  have hrun : StateOp.run config store .readTrancIdFile = { store with lsm := { store.lsm with
      tranManager := { saved with activeTrans := store.lsm.tranManager.activeTrans } } } := by
    rw [StateOp.run, hfile, TranManager.readTrancIdFile_fileWords _ _ (Nat.ne_zero_of_lt hpassed)]
  rw [hrun]
  exact ⟨hrolled.follows, ⟨haborted, hrolled.view.inactive, hpassed, hrolled.view.contexts⟩,
    hready, hrolled.file⟩

theorem run (config : Config) {ops : List StateOp} (hrolled : store.RolledBack id written)
    (hreads : StateOp.ReadsWritten written ops) :
    ∃ written', (runSaved config store ops).RolledBack id written' := by
  induction ops generalizing store written with
  | nil => exact ⟨written, hrolled⟩
  | cons op rest ih =>
      cases op with
      | onStore call => exact ih (hrolled.onStore config call) hreads
      | writeTrancIdFile torn => exact ih (hrolled.write torn) hreads
      | readTrancIdFile =>
          obtain ⟨rfl, hrest⟩ := hreads
          exact ih hrolled.read hrest

end SavedLSM.RolledBack

/-- A number that is ready as committed has committed. -/
private theorem committed_of_ready (config : Config) (calls : List Call) {id : ℕ}
    (hfind : (runCalls config LSM.new calls).1.tranManager.readyToFlushTrancIds.find? id =
      some .opCommitted) :
    ∃ context ∈ (runCalls config LSM.new calls).1.contexts,
      context.trancId = id ∧ context.isCommited = true := by
  induction calls using List.reverseRecOn with
  | nil => cases hfind
  | append_singleton front call ih =>
      rw [runCalls_snoc] at hfind ⊢
      rcases Call.run_ready config call hfind with hold | ⟨_, -, -, -, hnext⟩
      · obtain ⟨context, hmem, hid, hcommitted⟩ := ih hold
        obtain ⟨history, hrun, hfollows⟩ := runCalls_refines config LSM.follows_new front
        obtain ⟨history', hstep, -⟩ := Call.run_refines config hfollows call
        obtain ⟨handle, hlt, rfl⟩ := List.mem_iff_getElem.mp hmem
        obtain ⟨next, hnext, hgoes⟩ := hstep.grows.contexts handle _
          (List.getElem?_eq_getElem hlt)
        exact ⟨next, List.mem_of_getElem? hnext, hgoes.trancId.trans hid,
          hgoes.isCommited hcommitted⟩
      · exact hnext

private theorem rolledBack_before (config : Config) {before : List StateOp}
    (hbefore : StateOp.readTrancIdFile ∉ before) {id : ℕ}
    (haborted : id ∈ (runSaved config SavedLSM.new before).lsm.tranManager.abortedTrancIds) :
    (runSaved config SavedLSM.new before).RolledBack id false := by
  have hlsm := lsm_runSaved config SavedLSM.new hbefore
  obtain ⟨history, hrun, hfollows⟩ :=
    runCalls_refines config LSM.follows_new (StateOp.calls before)
  have hcoherent := View.coherent_empty.run hrun
  change (runSaved config SavedLSM.new before).lsm =
    (runCalls config LSM.new (StateOp.calls before)).1 at hlsm
  rw [hlsm] at haborted
  have hview := View.RolledBack.of_coherent hcoherent haborted
  refine ⟨⟨history, hlsm ▸ hfollows⟩, ?_, ?_, fun hwritten => absurd hwritten Bool.false_ne_true⟩
  · rw [hlsm]
    exact ⟨hview.aborted, hview.inactive, hview.passed, hview.contexts⟩
  · rw [hlsm]
    intro hready
    obtain ⟨context, hmem, hid, hcommitted⟩ := committed_of_ready config _ hready
    exact Bool.false_ne_true ((hview.contexts context hmem hid).2.symm.trans hcommitted)

/-- Once a number is rolled back, it stays so through every later run that reads only state
files written since: it is neither active nor committed, and every read answers as if it
had never written. -/
theorem rolledBack_forever (config : Config) {before after : List StateOp} {id : ℕ}
    (hbefore : StateOp.readTrancIdFile ∉ before)
    (haborted : id ∈ (runSaved config SavedLSM.new before).lsm.tranManager.abortedTrancIds)
    (hafter : StateOp.ReadsWritten false after) :
    let lsm := (runSaved config SavedLSM.new (before ++ after)).lsm
    id ∈ lsm.tranManager.abortedTrancIds ∧ id ∉ lsm.tranManager.activeTrans ∧
      lsm.tranManager.readyToFlushTrancIds.find? id ≠ some .opCommitted ∧
      (∀ context ∈ lsm.contexts, context.trancId = id → context.isCommited = false) ∧
      lsm.engine.ReadsWithout lsm.tranManager.policy id := by
  intro lsm
  obtain ⟨written, hrolled⟩ := (rolledBack_before config hbefore haborted).run config hafter
  rw [runSaved, runSaved, ← List.foldl_append, ← runSaved] at hrolled
  obtain ⟨history, hfollows⟩ := hrolled.follows
  have hmem : id ∈ lsm.tranManager.abortedTrancIds := hrolled.view.aborted
  refine ⟨hmem, hrolled.view.inactive, hrolled.ready,
    fun context hcontext hid => (hrolled.view.contexts context hcontext hid).2, ?_⟩
  apply Engine.readsWithout hfollows.invariant
  · exact decide_eq_true hmem
  · exact TranManager.shouldSkipRead_of_aborted hmem

/-- A write at the lowest level that is flushed and merged before the rollback, and a state
file that is read behind it. -/
theorem rolledBack_forever_sample :
    let before : List StateOp := [.onStore (.beginTran .readUnopCommitted),
      .onStore (.write 0 (.put [1] [7]) true), .onStore .flush, .onStore (.compact 0),
      .onStore (.abort 0)]
    let after : List StateOp := [.writeTrancIdFile none, .onStore (.plainPut [2] [8]),
      .onStore .flush, .readTrancIdFile, .onStore (.plainGet [1])]
    let lsm := (runSaved smallConfig SavedLSM.new (before ++ after)).lsm
    1 ∈ lsm.tranManager.abortedTrancIds ∧ 1 ∉ lsm.tranManager.activeTrans ∧
      lsm.tranManager.readyToFlushTrancIds.find? 1 ≠ some .opCommitted ∧
      (∀ context ∈ lsm.contexts, context.trancId = 1 → context.isCommited = false) ∧
      lsm.engine.ReadsWithout lsm.tranManager.policy 1 := by
  apply rolledBack_forever
  · simp
  · decide
  · exact ⟨rfl, trivial⟩

end KopiDb
