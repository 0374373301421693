import KopiDb.Isolation
import KopiDb.TranLog

/-!
# What a commit is decided by

The checks of a commit compare the newest versions of the staged keys with the number of
the transaction and, at the highest level, what is stored now with what was read.  A commit
is refused for one of these reasons and for no other.
-/

namespace KopiDb.TranContext

/-- What a transaction loses to: a staged key has a newer version, or a key that a
serializable transaction read shows something else now. -/
inductive Conflicts (lsm : LSM) (context : TranContext) : Prop where
  | newer {staged : Bytes × Bytes} {entry : Entry}
      (hlevel : context.isolationLevel ≠ .readUnopCommitted)
      (hstaged : staged ∈ context.tempMap.entries)
      (hread : Versions.read lsm.engine.records staged.1 0 lsm.tranManager.isAborted = some entry)
      (hnewer : context.trancId < entry.txid)
  | changed {pair : Bytes × Option (Bytes × ℕ)}
      (hlevel : context.isolationLevel = .serializable)
      (hpair : pair ∈ context.readMap.entries)
      (hchanged : reference lsm.engine.records pair.1 0 lsm.tranManager.isAborted ≠ pair.2)

/-- How the commit of an open transaction ends: refused, through, or stopped by the log.  Behind
a commit that is through only the flushes decide whether `true` or an exception comes back. -/
structure Decided (config : Config) (lsm : LSM) (handle : ℕ) (context : TranContext)
    (walOk : Bool) (outcome : LSM × Except Err Bool) : Prop where
  refused : Conflicts lsm context → outcome.2 = .ok false ∧ outcome.1.engine = lsm.engine ∧
    outcome.1.contexts[handle]? = some { context with isAborted := true }
  through : ¬Conflicts lsm context → walOk = true →
    (∃ context', outcome.1.contexts[handle]? = some context' ∧ context'.isCommited = true) ∧
    ∃ applied : LSM, outcome.1 = (flushWhileFull config (flushFuel applied) applied).1 ∧
      outcome.2 = (flushWhileFull config (flushFuel applied) applied).2.map fun _ => true
  stopped : ¬Conflicts lsm context → walOk = false → (∃ err, outcome.2 = .error err) ∧
    outcome.1.engine = lsm.engine ∧
    ∃ context', outcome.1.contexts[handle]? = some context' ∧ context'.finished = false

variable {config : Config} {lsm : LSM} {context : TranContext}

/-! ## The checks -/

theorem latestRecord_records (hfollows : Engine.Follows lsm.engine lsm.engine.records)
    {key : Bytes} (hkey : key ≠ []) :
    latestRecord lsm key =
      .ok (answer (Versions.read lsm.engine.records key 0 lsm.tranManager.isAborted)) := by
  have hskip : (lsm.view lsm.engine.records).skip false = lsm.tranManager.isAborted := by
    funext id
    exact Bool.or_false _
  rw [LSM.latestRecord_eq hfollows hkey, hskip]

/-- The check of the staged keys says whether one of them has a newer version. -/
theorem writeConflict_spec (hfollows : Engine.Follows lsm.engine lsm.engine.records)
    (trancId : ℕ) {staged : List (Bytes × Bytes)} (hkeys : ∀ pair ∈ staged, pair.1 ≠ []) :
    (writeConflict lsm trancId staged = .ok true ∧ ∃ pair ∈ staged, ∃ entry,
      Versions.read lsm.engine.records pair.1 0 lsm.tranManager.isAborted = some entry ∧
        trancId < entry.txid) ∨
    (writeConflict lsm trancId staged = .ok false ∧ ∀ pair ∈ staged, ∀ entry,
      Versions.read lsm.engine.records pair.1 0 lsm.tranManager.isAborted = some entry →
        entry.txid ≤ trancId) := by
  induction staged with
  | nil => exact Or.inr ⟨rfl, fun _ hmem => by cases hmem⟩
  | cons first rest ih =>
      obtain ⟨key, value⟩ := first
      have hlatest := latestRecord_records hfollows (hkeys _ List.mem_cons_self)
      have hrest := ih fun pair hmem => hkeys pair (List.mem_cons_of_mem _ hmem)
      rw [writeConflict, hlatest]
      dsimp only
      cases hread : Versions.read lsm.engine.records key 0 lsm.tranManager.isAborted with
      | none =>
          rcases hrest with ⟨htrue, pair, hmem, hnewer⟩ | ⟨hfalse, hold⟩
          · exact Or.inl ⟨htrue, pair, List.mem_cons_of_mem _ hmem, hnewer⟩
          · refine Or.inr ⟨hfalse, fun pair hmem entry hentry => ?_⟩
            rcases List.mem_cons.mp hmem with rfl | hmem
            · cases hread.symm.trans hentry
            · exact hold pair hmem entry hentry
      | some entry =>
          by_cases hnewer : trancId < entry.txid
          · refine Or.inl ⟨?_, _, List.mem_cons_self, entry, hread, hnewer⟩
            rw [if_pos (by simpa using hnewer)]
          · rw [if_neg (by simpa using hnewer)]
            rcases hrest with ⟨htrue, pair, hmem, hlater⟩ | ⟨hfalse, hold⟩
            · exact Or.inl ⟨htrue, pair, List.mem_cons_of_mem _ hmem, hlater⟩
            · refine Or.inr ⟨hfalse, fun pair hmem other hother => ?_⟩
              rcases List.mem_cons.mp hmem with rfl | hmem
              · obtain rfl := Option.some.inj (hread.symm.trans hother)
                exact not_lt.mp hnewer
              · exact hold pair hmem other hother

/-- The check of the keys that were read says whether one of them shows something else. -/
theorem readConflict_spec (hfollows : Engine.Follows lsm.engine lsm.engine.records)
    {expected : List (Bytes × Option (Bytes × ℕ))} (hkeys : ∀ pair ∈ expected, pair.1 ≠ []) :
    (readConflict lsm expected = .ok true ∧ ∃ pair ∈ expected,
      reference lsm.engine.records pair.1 0 lsm.tranManager.isAborted ≠ pair.2) ∨
    (readConflict lsm expected = .ok false ∧ ∀ pair ∈ expected,
      reference lsm.engine.records pair.1 0 lsm.tranManager.isAborted = pair.2) := by
  induction expected with
  | nil => exact Or.inr ⟨rfl, fun _ hmem => by cases hmem⟩
  | cons first rest ih =>
      obtain ⟨key, value⟩ := first
      have hlatest := latestRecord_records hfollows (hkeys _ List.mem_cons_self)
      have hrest := ih fun pair hmem => hkeys pair (List.mem_cons_of_mem _ hmem)
      have hlive : (answer (Versions.read lsm.engine.records key 0
          lsm.tranManager.isAborted)).filter (fun found => decide (found.1 ≠ [])) =
          reference lsm.engine.records key 0 lsm.tranManager.isAborted := rfl
      rw [readConflict, hlatest]
      dsimp only
      rw [hlive]
      by_cases hchanged : reference lsm.engine.records key 0 lsm.tranManager.isAborted = value
      · rw [if_neg (not_not.mpr hchanged)]
        rcases hrest with ⟨htrue, pair, hmem, hother⟩ | ⟨hfalse, hsame⟩
        · exact Or.inl ⟨htrue, pair, List.mem_cons_of_mem _ hmem, hother⟩
        · refine Or.inr ⟨hfalse, fun pair hmem => ?_⟩
          rcases List.mem_cons.mp hmem with rfl | hmem
          · exact hchanged
          · exact hsame pair hmem
      · rw [if_pos hchanged]
        exact Or.inl ⟨rfl, _, List.mem_cons_self, hchanged⟩

/-- Both checks together find a conflict when there is one. -/
theorem hasConflict_spec (hfollows : Engine.Follows lsm.engine lsm.engine.records)
    (hstaged : ∀ staged ∈ context.tempMap.entries, staged.1 ≠ [])
    (hread : ∀ pair ∈ context.readMap.entries, pair.1 ≠ []) :
    (hasConflict lsm context = .ok true ∧ Conflicts lsm context) ∨
      (hasConflict lsm context = .ok false ∧ ¬Conflicts lsm context) := by
  have hreads : (if context.isolationLevel = .serializable then
        readConflict lsm context.readMap.entries else .ok false) = .ok true ∧
        Conflicts lsm context ∨
      (if context.isolationLevel = .serializable then
        readConflict lsm context.readMap.entries else .ok false) = .ok false ∧
        ∀ pair ∈ context.readMap.entries, context.isolationLevel = .serializable →
          reference lsm.engine.records pair.1 0 lsm.tranManager.isAborted = pair.2 := by
    split_ifs with hlevel
    · rcases readConflict_spec hfollows hread with ⟨htrue, pair, hmem, hchanged⟩ | ⟨hfalse, hsame⟩
      · exact Or.inl ⟨htrue, Conflicts.changed hlevel hmem hchanged⟩
      · exact Or.inr ⟨hfalse, fun pair hmem _ => hsame pair hmem⟩
    · exact Or.inr ⟨rfl, fun _ _ htrue => absurd htrue hlevel⟩
  have hwrites : (if context.isolationLevel = .readUnopCommitted then .ok false
        else writeConflict lsm context.trancId context.tempMap.entries) = .ok true ∧
        Conflicts lsm context ∨
      (if context.isolationLevel = .readUnopCommitted then .ok false
        else writeConflict lsm context.trancId context.tempMap.entries) = .ok false ∧
        (context.isolationLevel ≠ .readUnopCommitted → ∀ staged ∈ context.tempMap.entries,
          ∀ entry, Versions.read lsm.engine.records staged.1 0 lsm.tranManager.isAborted =
            some entry → entry.txid ≤ context.trancId) := by
    split_ifs with hlevel
    · exact Or.inr ⟨rfl, fun hne => absurd hlevel hne⟩
    · rcases writeConflict_spec hfollows context.trancId hstaged with
        ⟨htrue, pair, hmem, entry, hentry, hnewer⟩ | ⟨hfalse, hold⟩
      · exact Or.inl ⟨htrue, Conflicts.newer hlevel hmem hentry hnewer⟩
      · exact Or.inr ⟨hfalse, fun _ => hold⟩
  unfold hasConflict
  dsimp only
  rcases hwrites with ⟨hwritten, hconflict⟩ | ⟨hwritten, hold⟩
  · rw [hwritten]
    exact Or.inl ⟨rfl, hconflict⟩
  · rw [hwritten]
    rcases hreads with ⟨hchanged, hconflict⟩ | ⟨hsame, hunchanged⟩
    · exact Or.inl ⟨hchanged, hconflict⟩
    · refine Or.inr ⟨hsame, fun hconflict => ?_⟩
      cases hconflict with
      | newer hlevel hmem hentry hnewer =>
          exact absurd (hold hlevel _ hmem _ hentry) (not_le.mpr hnewer)
      | changed hlevel hmem hchanged => exact hchanged (hunchanged _ hmem hlevel)

/-! ## The commit -/

/-- The log takes the `COMMIT` record exactly when its call succeeds. -/
theorem persist_commitRecord (handle : ℕ) (walOk : Bool)
    (hcount : context.walWrittenCount ≤ context.operations.length) :
    let logged := context.logged (Record.commitRecord context.trancId)
    (walOk = true ∧ persist lsm handle logged walOk =
      ({ lsm with
          contexts := lsm.contexts.set handle logged.persisted
          wal := lsm.wal ++ logged.pending }, .ok ())) ∨
    (walOk = false ∧ ∃ err, persist lsm handle logged walOk =
      (lsm.setContext handle logged, .error err)) := by
  intro logged
  have hlength : logged.operations.length = context.operations.length + 1 := List.length_append
  have hwritten : logged.walWrittenCount = context.walWrittenCount := rfl
  rcases persist_cases lsm handle logged walOk with ⟨hpersist, hwal, -⟩ | ⟨err, hpersist, hwal⟩
  · exact Or.inl ⟨hwal.resolve_right (by omega), hpersist⟩
  · exact Or.inr ⟨hwal.resolve_right (by omega), err, hpersist⟩

/-- A commit that was logged ends the transaction, whatever the flushes behind it do. -/
theorem isCommited_applied (config : Config) {handle : ℕ} (hhandle : handle < lsm.contexts.length)
    (hfollows : Engine.Follows lsm.engine lsm.engine.records) (context : TranContext) :
    let applied := applyCommit config lsm handle context
    (flushWhileFull config (flushFuel applied) applied).1.contexts[handle]? =
      some { context with isCommited := true } := by
  intro applied
  have hcommitted := follows_applyCommit config hfollows handle context
  obtain ⟨-, hview⟩ := flushWhileFull_kept config (flushFuel applied) hcommitted
  have hcontexts : (flushWhileFull config (flushFuel applied) applied).1.contexts =
      lsm.contexts.set handle { context with isCommited := true } :=
    congrArg View.contexts hview
  rw [hcontexts, List.getElem?_set_self hhandle]

/-- The outcome of a commit in a store that calls have reached. -/
theorem commit_decided (config : Config) (calls : List Call) {handle : ℕ} {context : TranContext}
    (walOk : Bool)
    (hcontext : (runCalls config LSM.new calls).1.contexts[handle]? = some context)
    (hopen : context.finished = false) (hfirst : context.endAttempted = false)
    (hstaged : ∀ staged ∈ context.tempMap.entries, staged.1 ≠ [])
    (hread : ∀ pair ∈ context.readMap.entries, pair.1 ≠ []) :
    Decided config (runCalls config LSM.new calls).1 handle context walOk
      (commit config (runCalls config LSM.new calls).1 handle false walOk) := by
  have hfollows := @runCalls_follows config calls
  have hself := (runCalls_logged config calls).contexts context (List.mem_of_getElem? hcontext)
  generalize (runCalls config LSM.new calls).1 = lsm at hcontext hfollows hself ⊢
  obtain ⟨hhandle, -⟩ := List.getElem?_eq_some_iff.mp hcontext
  have hkept := (Bool.or_eq_false_iff.mp hopen).2
  have hcount := hself.counted (hself.alive hkept)
  have hcommit : commit config lsm handle false walOk =
      andThen (commitLocked config lsm handle context walOk) fun lsm committed =>
        if committed then
          andThen (flushWhileFull config (flushFuel lsm) lsm) fun lsm _ => (lsm, .ok true)
        else (lsm, .ok false) := by
    rw [commit, hcontext]
    simp only [hopen, hfirst, Bool.false_eq_true, if_false]
  rw [hcommit, commitLocked]
  rcases hasConflict_spec hfollows hstaged hread with ⟨hconflict, hreason⟩ | ⟨hpassed, hreason⟩
  · rw [hconflict]
    exact
      { refused := fun _ => ⟨rfl, rfl, List.getElem?_set_self hhandle⟩
        through := fun hnone => absurd hreason hnone
        stopped := fun hnone => absurd hreason hnone }
  · rw [hpassed]
    dsimp only
    rcases @persist_commitRecord lsm context handle walOk hcount with
      ⟨rfl, hpersist⟩ | ⟨rfl, err, hpersist⟩
    · let ended := (context.logged (Record.commitRecord context.trancId)).persisted
      let persisted : LSM :=
        { lsm with
          contexts := lsm.contexts.set handle ended
          wal := lsm.wal ++ (context.logged (Record.commitRecord context.trancId)).pending }
      let applied := applyCommit config persisted handle ended
      have hended := @isCommited_applied persisted config handle
        (hhandle.trans_eq List.length_set.symm) hfollows ended
      rw [hpersist]
      change Decided config lsm handle context true
        (andThen (flushWhileFull config (flushFuel applied) applied) fun lsm _ => (lsm, .ok true))
      rw [andThen_pure]
      exact
        { refused := fun hconflict => absurd hconflict hreason
          through := fun _ _ => ⟨⟨_, hended, rfl⟩, applied, rfl, rfl⟩
          stopped := fun _ hfails => absurd hfails Bool.false_ne_true.symm }
    · rw [hpersist]
      exact
        { refused := fun hconflict => absurd hconflict hreason
          through := fun _ hworks => absurd hworks Bool.false_ne_true
          stopped := fun _ _ => ⟨⟨err, rfl⟩, rfl, _, List.getElem?_set_self hhandle, hopen⟩ }

/-- Two transactions stage one key, and the younger one has committed. -/
def rivals : List Call :=
  [.beginTran .repeatableRead, .write 0 (.put [1] [7]) true, .beginTran .repeatableRead,
    .write 1 (.put [1] [8]) true, .commit 1 true]

theorem commit_decided_sample :
    ∃ context, (runCalls smallConfig LSM.new rivals).1.contexts[0]? = some context ∧
      Decided smallConfig (runCalls smallConfig LSM.new rivals).1 0 context true
        (commit smallConfig (runCalls smallConfig LSM.new rivals).1 0 false true) ∧
      (commit smallConfig (runCalls smallConfig LSM.new rivals).1 0 false true).2 = .ok false :=
  ⟨_, rfl, commit_decided smallConfig rivals true rfl rfl rfl (by decide) (by decide), rfl⟩

end KopiDb.TranContext
