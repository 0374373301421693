import KopiDb.Serial

/-!
# Lost updates

Repeatable reads check the writes of a transaction, not its reads, and versions are
compared by number.  A transaction that began earlier can therefore commit a write of a
key between the read and the commit of a later one; one that began later cannot.
-/

namespace KopiDb

/-- A read of the key that has returned. -/
def Event.reads (handle : ℕ) (key : Bytes) (event : Event) : Bool :=
  match event.call, event.outcome with
  | .get reader read, .ok _ => decide (reader = handle ∧ read = key)
  | _, _ => false

/-- The transaction at `other` commits a write of a key between the first read of the key
by the one at `handle` and its own commit. -/
structure LostUpdate (config : Config) (before window : List Call) (walOk : Bool)
    (handle other : ℕ) (key : Bytes) (mine theirs : TranContext) : Prop where
  firstRead : ∀ event ∈ (runCalls config LSM.new before).2, event.reads handle key = false
  read : ((Call.get handle key).run config (runCalls config LSM.new before).1).2.isOk = true
  staged : ∃ event ∈ (runCalls config LSM.new (before ++ .get handle key :: window)).2.drop
    (before.length + 1), ∃ op walOk, event = ⟨.write handle op walOk, .ok .done⟩ ∧ op.key = key
  mineOpen : (runCalls config LSM.new (before ++ .get handle key :: window)).1.contexts[handle]? =
    some mine
  committed : (TranContext.commit config
    (runCalls config LSM.new (before ++ .get handle key :: window)).1 handle false walOk).2 =
      .ok true
  other_ne : other ≠ handle
  running : ∀ context ∈ (runCalls config LSM.new before).1.contexts[other]?,
    context.isCommited = false
  theirsKnown : (runCalls config LSM.new (before ++ .get handle key :: window)).1.contexts[other]? =
    some theirs
  theirCommit : theirs.isCommited = true
  theirWrite : (sessionOf other
    (runCalls config LSM.new (before ++ .get handle key :: window)).2).staged key ≠ none
  mineLevel : mine.isolationLevel = .repeatableRead
  theirLevel : theirs.isolationLevel = .repeatableRead

namespace Session

/-- A write stays in the session, or a later one of the key takes its place. -/
private theorem staged_observe {handle : ℕ} {session : Session} {key : Bytes}
    (hstaged : session.staged key ≠ none) (event : Event) :
    (session.observe handle event).staged key ≠ none := by
  unfold observe
  split
  next op _ _ _ =>
      split_ifs
      · dsimp only
        rw [Function.update_apply]
        split_ifs
        · exact Option.some_ne_none op
        · exact hstaged
      · exact hstaged
  next =>
      split_ifs <;> exact hstaged
  next => exact hstaged

private theorem staged_foldl {handle : ℕ} {key : Bytes} {events : List Event}
    {session : Session} (hstaged : session.staged key ≠ none) :
    (events.foldl (observe handle) session).staged key ≠ none := by
  induction events generalizing session with
  | nil => exact hstaged
  | cons event rest ih => exact ih (staged_observe hstaged event)

theorem staged_of_mem {handle : ℕ} {op : WriteOp} {walOk : Bool} {events : List Event}
    (hmem : ⟨.write handle op walOk, .ok .done⟩ ∈ events) :
    (sessionOf handle events).staged op.key ≠ none := by
  obtain ⟨front, back, rfl⟩ := List.append_of_mem hmem
  rw [sessionOf, List.foldl_append, List.foldl_cons]
  apply staged_foldl
  rw [observe_write]
  dsimp only
  rw [Function.update_self]
  exact Option.some_ne_none op

end Session

variable {config : Config} {before window : List Call} {walOk : Bool} {handle other : ℕ}
  {key : Bytes} {mine theirs : TranContext}

/-- Only a transaction that began earlier can get between a read and the commit. -/
theorem LostUpdate.trancId_lt (hlost : LostUpdate config before window walOk handle other key
    mine theirs) (hkey : key ≠ []) : theirs.trancId < mine.trancId := by
  let calls := before ++ .get handle key :: window
  have hfollows := runCalls_follows config calls
  have hcoherent := runCalls_coherent config calls
  have htracks := runCalls_tracks config calls
  have hmine := List.mem_of_getElem? hlost.mineOpen
  have htheirs := List.mem_of_getElem? hlost.theirsKnown
  have hmineStages : mine.isolationLevel ≠ .readUnopCommitted := by
    rw [hlost.mineLevel]
    exact IsolationLevel.noConfusion
  have htheirStages : theirs.isolationLevel ≠ .readUnopCommitted := by
    rw [hlost.theirLevel]
    exact IsolationLevel.noConfusion
  obtain ⟨hpassed, hopen, -⟩ := TranContext.commit_ok_true hfollows hlost.mineOpen hlost.committed
  -- The write of the other transaction is in the engine, and it did not roll back.
  have hkept : theirs.isAborted = false := by
    by_contra haborted
    exact hcoherent.exclusive theirs htheirs ⟨hlost.theirCommit, Bool.not_eq_false _ ▸ haborted⟩
  have htheirEntry : ∃ entry ∈ (runCalls config LSM.new calls).1.engine.records,
      entry.key = key ∧ entry.txid = theirs.trancId := by
    obtain ⟨op, hop⟩ := Option.ne_none_iff_exists'.mp hlost.theirWrite
    have hfind := (htracks.kept other theirs hlost.theirsKnown hkept).staged htheirStages key
    rw [hop, Option.map_some] at hfind
    exact hcoherent.published theirs htheirs htheirStages hlost.theirCommit _
      (OrdMap.find?_eq_some_iff.mp hfind)
  obtain ⟨entry, hentry, hentryKey, htxid⟩ := htheirEntry
  have hvisible : Versions.visible 0 (((runCalls config LSM.new calls).1.view
      (runCalls config LSM.new calls).1.engine.records).skip false) entry.txid = true := by
    have hclear : theirs.trancId ∉ (runCalls config LSM.new calls).1.tranManager.abortedTrancIds :=
      fun hmem => Bool.false_ne_true
        (hkept.symm.trans ((hcoherent.aborted_iff theirs htheirs).mp hmem))
    simp [Versions.visible, View.skip, LSM.view, htxid, hclear]
  -- The check of the commit has seen a version that is at least as new.
  have hmineStaged : ∃ value, mine.tempMap.find? key = some value := by
    obtain ⟨event, hevent, op, eventOk, rfl, rfl⟩ := hlost.staged
    obtain ⟨last, hlast⟩ := Option.ne_none_iff_exists'.mp
      (Session.staged_of_mem (List.mem_of_mem_drop hevent))
    refine ⟨last.value, ?_⟩
    rw [(htracks.opened hlost.mineOpen hopen).staged hmineStages, hlast, Option.map_some]
  obtain ⟨value, hvalue⟩ := hmineStaged
  have hle : theirs.trancId ≤ mine.trancId := by
    cases hlatest : Versions.read (runCalls config LSM.new calls).1.engine.records key 0
        (((runCalls config LSM.new calls).1.view
          (runCalls config LSM.new calls).1.engine.records).skip false) with
    | none =>
        have hhidden := Versions.read_eq_none_iff.mp hlatest entry hentry hentryKey
        exact absurd (hhidden.symm.trans hvisible) Bool.false_ne_true
    | some latest =>
        have hentryLe := Versions.le_of_read_eq_some hlatest hentry hentryKey hvisible
        have hlatestLe := hpassed.writes hmineStages (key, value)
          (OrdMap.find?_eq_some_iff.mp hvalue) hkey latest hlatest
        rw [← htxid]
        exact hentryLe.trans hlatestLe
  apply lt_of_le_of_ne hle
  intro hid
  have hsame := hcoherent.eq_of_trancId htheirs hmine hid
  rw [hsame] at hkept hlost
  have hcommitted := hlost.theirCommit
  rw [(Bool.or_eq_false_iff.mp hopen).1] at hcommitted
  cases hcommitted

/-- Calls of transactions at this level, and maintenance. -/
def Call.repeatablePoint : Call → Bool
  | .beginTran isolationLevel => decide (isolationLevel = .repeatableRead)
  | .write _ _ _ | .get _ _ | .commit _ _ | .abort _ => true
  | .flush | .freeze | .compact _ => true
  | _ => false

private theorem lostUpdate_first : ∃ mine theirs, LostUpdate smallConfig
    [.beginTran .repeatableRead, .beginTran .repeatableRead]
    [.write 0 (.put [1] [7]) true, .commit 0 true, .write 1 (.put [1] [8]) true] true 1 0 [1]
    mine theirs :=
  ⟨_, _,
    { firstRead := by decide
      read := by decide
      staged := ⟨_, List.mem_of_getElem? (i := 2) rfl, .put [1] [8], true, rfl, rfl⟩
      mineOpen := rfl
      committed := by decide
      other_ne := by decide
      running := by decide
      theirsKnown := rfl
      theirCommit := rfl
      theirWrite := by decide
      mineLevel := rfl
      theirLevel := rfl }⟩

/-- A transaction that began first can commit in between. -/
theorem lostUpdate_possible : ¬∀ before window walOk handle other key mine theirs,
    (∀ call ∈ before ++ window, call.repeatablePoint = true) →
      ¬LostUpdate smallConfig before window walOk handle other key mine theirs := by
  intro hnever
  obtain ⟨mine, theirs, hlost⟩ := lostUpdate_first
  exact hnever _ _ _ _ _ _ mine theirs (by decide) hlost

theorem LostUpdate.trancId_lt_first : ∃ mine theirs, LostUpdate smallConfig
      [.beginTran .repeatableRead, .beginTran .repeatableRead]
      [.write 0 (.put [1] [7]) true, .commit 0 true, .write 1 (.put [1] [8]) true] true 1 0 [1]
      mine theirs ∧ theirs.trancId < mine.trancId := by
  obtain ⟨mine, theirs, hlost⟩ := lostUpdate_first
  exact ⟨mine, theirs, hlost, hlost.trancId_lt (by decide)⟩

end KopiDb
