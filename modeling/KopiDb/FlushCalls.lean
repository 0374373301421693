import KopiDb.FlushRoom

/-!
# Calls that do not throw length errors

Every call keeps room for the keys it writes.  As long as each flush and each merge it starts
brings few markers together, it throws no length error.
-/

namespace KopiDb

/-! ## Reads do not throw -/

namespace Engine

variable {engine : Engine}

theorem get_isOk (hinv : LevelInvariant engine) (man : ReadPolicy) (key : Bytes) (trancId : ℕ)
    (requireCommitted : Bool) :
    ∃ found, engine.get (some man) key trancId requireCommitted = .ok found := by
  obtain ⟨sstRet, hget⟩ := sstGet_isOk hinv key trancId
    fun id => man.shouldSkipRead id requireCommitted
  rw [get_some, hget]
  exact ⟨_, rfl⟩

theorem resolveBatch_isOk (hinv : LevelInvariant engine) (trancId : ℕ) (isAborted : ℕ → Bool)
    (candidates : List (Bytes × Option (Bytes × ℕ))) :
    ∃ results, engine.resolveBatch trancId isAborted candidates = .ok results := by
  induction candidates with
  | nil => exact ⟨[], rfl⟩
  | cons candidate rest ih =>
      obtain ⟨key, best⟩ := candidate
      obtain ⟨sstRet, hget⟩ := sstGet_isOk hinv key trancId isAborted
      obtain ⟨results, hrest⟩ := ih
      rw [resolveBatch_cons, hget]
      dsimp only
      rw [hrest]
      exact ⟨_, rfl⟩

end Engine

namespace TranContext

variable {lsm : LSM}

theorem latestRecord_isOk (hinv : Engine.LevelInvariant lsm.engine) (key : Bytes) :
    ∃ latest, latestRecord lsm key = .ok latest := by
  obtain ⟨latest, hget⟩ := Engine.sstGet_isOk hinv key 0 lsm.tranManager.isAborted
  unfold latestRecord
  rw [hget]
  dsimp only
  split
  next => exact ⟨_, rfl⟩
  next => split_ifs <;> exact ⟨_, rfl⟩

theorem writeConflict_isOk (hinv : Engine.LevelInvariant lsm.engine) (trancId : ℕ)
    (staged : List (Bytes × Bytes)) : ∃ found, writeConflict lsm trancId staged = .ok found := by
  induction staged with
  | nil => exact ⟨false, rfl⟩
  | cons pair rest ih =>
      obtain ⟨latest, hlatest⟩ := latestRecord_isOk hinv pair.1
      rw [writeConflict, hlatest]
      dsimp only
      split_ifs
      · exact ⟨true, rfl⟩
      · exact ih

theorem readConflict_isOk (hinv : Engine.LevelInvariant lsm.engine)
    (expected : List (Bytes × Option (Bytes × ℕ))) :
    ∃ found, readConflict lsm expected = .ok found := by
  induction expected with
  | nil => exact ⟨false, rfl⟩
  | cons pair rest ih =>
      obtain ⟨current, hcurrent⟩ := latestRecord_isOk hinv pair.1
      rw [readConflict, hcurrent]
      dsimp only
      split_ifs
      · exact ⟨true, rfl⟩
      · exact ih

theorem hasConflict_isOk (hinv : Engine.LevelInvariant lsm.engine) (context : TranContext) :
    ∃ found, hasConflict lsm context = .ok found := by
  have hwritten : ∃ found, (if context.isolationLevel = .readUnopCommitted then .ok false
      else writeConflict lsm context.trancId context.tempMap.entries) = .ok found := by
    split_ifs
    · exact ⟨false, rfl⟩
    · exact writeConflict_isOk hinv _ _
  obtain ⟨written, hwritten⟩ := hwritten
  unfold hasConflict
  dsimp only
  rw [hwritten]
  cases written with
  | true => exact ⟨true, rfl⟩
  | false =>
      dsimp only
      split_ifs
      · exact readConflict_isOk hinv _
      · exact ⟨false, rfl⟩

/-- The log reports its failures under other types. -/
theorem persist_noLengthError (lsm : LSM) (handle : ℕ) (context : TranContext) (walOk : Bool) :
    Engine.NoLengthError (persist lsm handle context walOk).2 := by
  unfold persist persistPendingWal_
  split_ifs
  · intro text heq
    cases heq
  · exact Engine.noLengthError_ok ()
  · cases walOk with
    | true => exact Engine.noLengthError_ok ()
    | false =>
        intro text heq
        cases heq

end TranContext

/-! ## The calls -/

/-- A call that leaves room for its keys and does not throw a length error. -/
structure Call.Survives (config : Config) (lsm : LSM) (keys : Multiset Bytes) (call : Call) :
    Prop where
  room : (call.run config lsm).1.Room (keys + call.writtenKeys)
  outcome : Engine.NoLengthError (call.run config lsm).2

namespace Call

variable {config : Config} {lsm : LSM} {keys : Multiset Bytes} {handle : ℕ}

theorem survives_beginTran (hroom : lsm.Room keys) (isolationLevel : IsolationLevel) :
    Survives config lsm keys (.beginTran isolationLevel) where
  room := by
    have hstart : (TranContext.start lsm.takeTrancId.2 isolationLevel).stagedKeys = 0 := rfl
    refine ⟨hroom.sound, ?_, ?_⟩
    · intro context hmem
      rcases List.mem_append.mp hmem with hmem | hmem
      · exact hroom.staged context hmem
      · rw [List.mem_singleton.mp hmem]
        intro pair hpair
        cases hpair
    · have hkeys : stagedKeys (lsm.contexts ++
          [TranContext.start lsm.takeTrancId.2 isolationLevel]) = stagedKeys lsm.contexts := by
        rw [stagedKeys_append, stagedKeys_singleton, hstart, add_zero]
      exact (add_le_add_right hkeys.le _).trans
        (hroom.keys_le.trans (Multiset.le_add_right keys _))
  outcome := Engine.noLengthError_ok _

/-- A call that leaves the store as it is and writes nothing. -/
private theorem survives_same (hroom : lsm.Room keys) {call : Call} {lsm' : LSM}
    {outcome : Except Err Reply} (hrun : call.run config lsm = (lsm', outcome))
    (hengine : lsm'.engine = lsm.engine) (hcontexts : lsm'.contexts = lsm.contexts)
    (hnone : Engine.NoLengthError outcome) : Survives config lsm keys call where
  room := by
    rw [hrun]
    refine LSM.Room.mono ?_ (Multiset.le_add_right keys _)
    exact ⟨by rw [hengine]; exact hroom.sound, by rw [hcontexts]; exact hroom.staged,
      by rw [hengine, hcontexts]; exact hroom.keys_le⟩
  outcome := by
    rw [hrun]
    exact hnone

theorem survives_plain (hroom : lsm.Room keys) (hcapacity : config.lsmBlockSize ≤ uint16Max)
    {call : Call} (hcall : call.isPlain = true) (hpasses : ∀ op ∈ call.writes, op.Passes)
    (honce : (keys + call.writtenKeys).Nodup) (hfits : call.Fits config lsm) :
    Survives config lsm keys call := by
  -- All four writes put the records of a batch into the memory tables.
  have hwrite {mem : MemTable}
      (hrecords : mem.records.Subperm
        (call.writes.map (WriteOp.entry lsm.takeTrancId.2) ++ lsm.engine.memtable.records))
      (hrun : call.run config lsm = reply (fun _ => .done) (lsm.takeTrancId.1.notify
        (Engine.flushIfFull config { lsm.engine with memtable := mem })))
      (hstates : call.flushStates config lsm =
        Engine.flushStates config { lsm.engine with memtable := mem }) :
      Survives config lsm keys call := by
    have hfits := hfits.flushes
    rw [hstates] at hfits
    obtain ⟨hnext, hnone⟩ := hroom.write hcapacity hpasses hrecords honce hfits
      (show lsm.takeTrancId.1.contexts = lsm.contexts from rfl)
    constructor
    · rw [hrun]
      exact hnext
    · rw [hrun]
      exact Engine.noLengthError_map hnone _
  cases call with
  | plainPut key value =>
      refine hwrite ?_ rfl rfl
      rw [MemTable.put, MemTable.records_freezeIfFull]
      exact lsm.engine.memtable.put_subperm key value _
  | plainPutBatch kvs =>
      refine hwrite ?_ rfl rfl
      rw [MemTable.putBatch, MemTable.records_freezeIfFull, Call.writes, List.map_map]
      exact lsm.engine.memtable.foldl_put_subperm Prod.fst Prod.snd _ kvs
  | plainRemove key =>
      refine hwrite ?_ rfl rfl
      rw [MemTable.remove, MemTable.records_freezeIfFull]
      exact lsm.engine.memtable.put_subperm key [] _
  | plainRemoveBatch removed =>
      refine hwrite ?_ rfl rfl
      rw [MemTable.removeBatch, MemTable.records_freezeIfFull, Call.writes, List.map_map]
      exact lsm.engine.memtable.foldl_put_subperm id (fun _ => []) _ removed
  | plainGet key =>
      obtain ⟨found, hget⟩ := Engine.get_isOk hroom.sound.inv lsm.takeTrancId.1.tranManager.policy
        key lsm.takeTrancId.2 false
      refine survives_same hroom rfl rfl rfl ?_
      rw [LSM.get]
      dsimp only
      rw [show lsm.takeTrancId.1.engine = lsm.engine from rfl, hget]
      exact Engine.noLengthError_ok _
  | plainGetBatch wanted =>
      obtain ⟨results, hget⟩ := Engine.resolveBatch_isOk hroom.sound.inv lsm.takeTrancId.2
        lsm.takeTrancId.1.tranManager.policy.isAborted
        (lsm.engine.memtable.getBatch wanted lsm.takeTrancId.2
          lsm.takeTrancId.1.tranManager.policy.isAborted)
      refine survives_same hroom rfl rfl rfl ?_
      rw [LSM.getBatch]
      dsimp only
      rw [show lsm.takeTrancId.1.engine = lsm.engine from rfl, Engine.getBatch_some, hget]
      exact Engine.noLengthError_ok _
  | _ => cases hcall

theorem survives_maintenance (hroom : lsm.Room keys)
    (hcapacity : config.lsmBlockSize ≤ uint16Max) {call : Call}
    (hcall : call.isMaintenance = true) (hnodup : keys.Nodup) (hfits : call.Fits config lsm) :
    Survives config lsm keys call := by
  have hkept {lsm : LSM} (hroom : lsm.Room keys) : lsm.Room (keys + call.writtenKeys) :=
    hroom.mono (Multiset.le_add_right keys _)
  cases call with
  | flush =>
      exact ⟨hkept hroom.flush, Engine.noLengthError_map (hroom.flush_light hcapacity hnodup
        (hfits.flushes lsm.engine List.mem_cons_self)) _⟩
  | freeze =>
      have hrecords : ({ lsm.engine with memtable := lsm.engine.memtable.frozenCurTable_ } :
          Engine).records = lsm.engine.records :=
        congrArg (· ++ lsm.engine.fileRecords) (MemTable.records_frozenCurTable_ _)
      refine ⟨hkept (hroom.keepKeys ?_ rfl (congrArg userKeys hrecords)),
        Engine.noLengthError_ok _⟩
      exact hroom.sound.perm (hroom.sound.inv.withMemtable _) (List.Perm.of_eq hrecords)
  | compact srcLevel =>
      obtain ⟨hsound, hkeys⟩ := @Engine.Sound.compact config lsm.engine hroom.sound srcLevel
      refine ⟨hkept (hroom.keepKeys hsound rfl hkeys), Engine.noLengthError_map ?_ _⟩
      have hlight := hroom.light hnodup
      exact Engine.fullCompact_light hcapacity hroom.sound.inv
        (hlight.sublist (List.sublist_append_right _ _)) (hfits.compacts srcLevel rfl)
  | _ => cases hcall

end Call

/-! ## Calls of transactions -/

namespace TranContext

variable {config : Config} {lsm : LSM} {keys : Multiset Bytes} {handle : ℕ}
  {context : TranContext}

theorem get_room (hroom : lsm.Room keys) (handle : ℕ) (key : Bytes) :
    (get lsm handle key).1.Room keys ∧ Engine.NoLengthError (get lsm handle key).2 := by
  unfold get
  split
  next => exact ⟨hroom, Engine.noLengthError_of_ne (by simp)⟩
  next context hcontext =>
    split
    next => exact ⟨hroom, Engine.noLengthError_of_ne (by simp)⟩
    next hopen =>
      split
      next pending hpending => exact ⟨hroom, Engine.noLengthError_ok _⟩
      next =>
        dsimp only
        split
        next hlevel =>
          obtain ⟨found, hget⟩ := Engine.get_isOk hroom.sound.inv lsm.tranManager.policy key 0
            (decide (context.isolationLevel ≠ .readUnopCommitted))
          rw [hget]
          exact ⟨hroom, Engine.noLengthError_ok _⟩
        next hlevel =>
          split
          next query hcached => exact ⟨hroom, Engine.noLengthError_ok _⟩
          next =>
            obtain ⟨found, hget⟩ := Engine.get_isOk hroom.sound.inv lsm.tranManager.policy key
              context.trancId (decide (context.isolationLevel ≠ .readUnopCommitted))
            rw [hget]
            have hstaged := hroom.staged context (List.mem_of_getElem? hcontext)
            exact ⟨hroom.setContext hcontext rfl rfl hstaged le_rfl, Engine.noLengthError_ok _⟩

theorem abort_room (hroom : lsm.Room keys) (handle : ℕ) :
    (abort lsm handle).1.Room keys ∧ Engine.NoLengthError (abort lsm handle).2 := by
  unfold abort
  split
  next => exact ⟨hroom, Engine.noLengthError_of_ne (by simp)⟩
  next context hcontext =>
    split
    next => exact ⟨hroom, Engine.noLengthError_ok _⟩
    next hopen =>
      split
      next => exact ⟨hroom, Engine.noLengthError_of_ne (by simp)⟩
      next =>
        split
        next => exact ⟨hroom, Engine.noLengthError_of_ne (by simp)⟩
        next =>
          refine ⟨hroom.setContext hcontext rfl rfl ?_ ?_, Engine.noLengthError_ok _⟩
          · intro pair hmem
            cases hmem
          · rw [stagedKeys_of_finished]
            · exact Multiset.zero_le _
            · exact Bool.or_true _

/-- A write of a transaction. -/
theorem write_room (hroom : lsm.Room keys) (hcapacity : config.lsmBlockSize ≤ uint16Max)
    {op : WriteOp} (hpasses : op.Passes) (walOk : Bool) (honce : (keys + {op.key}).Nodup)
    (hfits : (Call.write handle op walOk).Fits config lsm) :
    (write config lsm handle op walOk).1.Room (keys + {op.key}) ∧
      Engine.NoLengthError (write config lsm handle op walOk).2 := by
  have hmore : lsm.Room (keys + {op.key}) := hroom.mono (Multiset.le_add_right keys _)
  have hfits := hfits.flushes
  unfold write
  rw [Call.flushStates] at hfits
  split
  next => exact ⟨hmore, Engine.noLengthError_of_ne (by simp)⟩
  next context hcontext =>
    rw [hcontext] at hfits
    have hstaged := hroom.staged context (List.mem_of_getElem? hcontext)
    split
    next => exact ⟨hmore, Engine.noLengthError_of_ne (by simp)⟩
    next hopen =>
      rw [Bool.not_eq_true] at hopen
      obtain ⟨record, hrecord⟩ := hpasses.record context.trancId
      dsimp only at hfits
      rw [hopen, hrecord] at hfits
      rw [hrecord]
      dsimp only at hfits ⊢
      by_cases hlevel : context.isolationLevel = .readUnopCommitted
      · rw [if_pos hlevel] at hfits
        rw [if_pos (show (context.logged record).isolationLevel = .readUnopCommitted from hlevel)]
        rcases persist_cases lsm handle (context.logged record) walOk with
          ⟨hpersist, -, -⟩ | ⟨err, hpersist, -⟩
        · have hlogged : LSM.Room { lsm with
              contexts := lsm.contexts.set handle (context.logged record).persisted
              wal := lsm.wal ++ (context.logged record).pending } keys :=
            hroom.setContext hcontext rfl rfl hstaged le_rfl
          have hput : (lsm.engine.memtable.put config op.key op.value
              context.trancId).records.Subperm
                ([op].map (WriteOp.entry context.trancId) ++ lsm.engine.memtable.records) := by
            rw [MemTable.put, MemTable.records_freezeIfFull]
            exact lsm.engine.memtable.put_subperm op.key op.value context.trancId
          have happly : op.apply config lsm.engine context.trancId =
              Engine.flushIfFull config { lsm.engine with
                memtable := lsm.engine.memtable.put config op.key op.value context.trancId } := by
            cases op with
            | put key value => rfl
            | remove key => rfl
          rw [hpersist] at hfits ⊢
          simp only [andThen]
          rw [show (context.logged record).trancId = context.trancId from rfl, happly]
          exact hlogged.write hcapacity (List.forall_mem_singleton.mpr hpasses) hput honce hfits rfl
        · have hnone := persist_noLengthError lsm handle (context.logged record) walOk
          rw [hpersist] at hnone ⊢
          exact ⟨hmore.setContext hcontext rfl rfl hstaged le_rfl, hnone⟩
      · rw [if_neg (show ¬(context.logged record).isolationLevel = .readUnopCommitted from hlevel)]
        refine ⟨hroom.withContext hcontext hroom.sound rfl ?_ ?_, Engine.noLengthError_ok ()⟩
        · intro pair hmem
          rcases OrdMap.eq_or_mem_of_mem_insert hmem with rfl | hmem
          · exact ⟨hpasses.key_ne, hpasses.key_le, hpasses.value_le⟩
          · exact hstaged pair hmem
        · have hinsert := OrdMap.keys_insert_le context.tempMap op.key op.value
          have hnext : stagedKeys { context.logged record with
              tempMap := context.tempMap.insert op.key op.value } =
                ((context.tempMap.insert op.key op.value).keys : Multiset Bytes) :=
            stagedKeys_of_open hopen
          rw [stagedKeys_of_open hopen]
          calc
            userKeys lsm.engine.records + stagedKeys { context.logged record with
                tempMap := context.tempMap.insert op.key op.value }
              = userKeys lsm.engine.records +
                ((context.tempMap.insert op.key op.value).keys : Multiset Bytes) := by rw [hnext]
            _ ≤ userKeys lsm.engine.records + op.key ::ₘ (context.tempMap.keys : Multiset Bytes) :=
                add_le_add_right hinsert _
            _ = {op.key} + (userKeys lsm.engine.records +
                (context.tempMap.keys : Multiset Bytes)) := by
              rw [← Multiset.singleton_add]
              abel

/-! ## Commits -/

/-- What a commit adds to the memory tables. -/
theorem applyStaged_subperm (context : TranContext) (mem : MemTable) :
    (context.applyStaged mem).records.Subperm (context.committedEntries ++ mem.records) := by
  unfold applyStaged committedEntries stagedEntries
  dsimp only
  refine (MemTable.put_subperm _ [] [] context.trancId).trans ?_
  rw [List.cons_append]
  apply (List.subperm_cons _).mpr
  split_ifs
  · exact List.Subperm.refl _
  · have hput := mem.foldl_put_subperm Prod.fst Prod.snd context.trancId context.tempMap.entries
    exact hput.trans ((List.reverse_perm _).symm.append_right mem.records).subperm

/-- A commit applies staged keys only. -/
theorem userKeys_committedEntries (hopen : context.finished = false) :
    userKeys context.committedEntries ≤ context.stagedKeys := by
  have hmarker : userKeys context.committedEntries = userKeys context.stagedEntries.reverse := rfl
  rw [hmarker, userKeys_perm (List.reverse_perm _), stagedKeys_of_open hopen, stagedEntries]
  split_ifs
  · exact Multiset.zero_le _
  · have hkeys : (context.tempMap.entries.map fun staged =>
        (⟨staged.1, staged.2, context.trancId⟩ : Entry)).map Version.key =
          context.tempMap.keys := by
      rw [List.map_map]
      rfl
    rw [userKeys, hkeys]
    exact Multiset.coe_le.mpr List.filter_sublist.subperm

theorem applyCommit_room (hroom : lsm.Room keys) (hcontext : lsm.contexts[handle]? = some context)
    (hopen : context.finished = false) :
    (applyCommit config lsm handle context).Room keys := by
  have hstaged := hroom.staged context (List.mem_of_getElem? hcontext)
  have hentries : ∀ entry ∈ context.committedEntries,
      entry.Accepted ∧ (entry.key = [] → entry.value = []) := by
    intro entry hmem
    rcases List.mem_cons.mp hmem with rfl | hmem
    · exact ⟨⟨Nat.zero_le _, Nat.zero_le _⟩, fun _ => rfl⟩
    · have hmem := List.mem_reverse.mp hmem
      rw [stagedEntries] at hmem
      split_ifs at hmem
      · cases hmem
      · obtain ⟨pair, hpair, rfl⟩ := List.mem_map.mp hmem
        obtain ⟨hne, hkey, hvalue⟩ := hstaged pair hpair
        exact ⟨⟨hkey, hvalue⟩, fun hnil => absurd hnil hne⟩
  have hsub := context.applyStaged_subperm lsm.engine.memtable
  rw [← MemTable.records_freezeIfFull _ config] at hsub
  obtain ⟨hsound, hkeys⟩ := hroom.sound.write hsub (fun entry hmem => (hentries entry hmem).1)
    fun entry hmem => (hentries entry hmem).2
  have hover : stagedKeys { context with isCommited := true } = 0 := stagedKeys_of_finished rfl
  rw [← add_zero keys]
  refine hroom.withContext hcontext hsound rfl hstaged ?_
  rw [hover, add_zero, zero_add, add_comm]
  exact hkeys.trans (add_le_add_left (userKeys_committedEntries hopen) _)

theorem commitLocked_room (hroom : lsm.Room keys)
    (hcontext : lsm.contexts[handle]? = some context) (hopen : context.finished = false)
    (walOk : Bool) :
    (commitLocked config lsm handle context walOk).1.Room keys ∧
      Engine.NoLengthError (commitLocked config lsm handle context walOk).2 := by
  have hstaged := hroom.staged context (List.mem_of_getElem? hcontext)
  obtain ⟨found, hconflict⟩ := hasConflict_isOk hroom.sound.inv context
  rw [commitLocked, hconflict]
  cases found with
  | true =>
      refine ⟨hroom.setContext hcontext rfl rfl hstaged ?_, Engine.noLengthError_ok _⟩
      rw [stagedKeys_of_finished]
      · exact Multiset.zero_le _
      · exact Bool.or_true _
  | false =>
      dsimp only
      rcases persist_cases lsm handle (context.logged (Record.commitRecord context.trancId))
          walOk with ⟨hpersist, -, -⟩ | ⟨err, hpersist, -⟩
      · rw [hpersist]
        simp only [andThen]
        refine ⟨?_, Engine.noLengthError_ok _⟩
        have hlogged : LSM.Room { lsm with
            contexts := lsm.contexts.set handle
              (context.logged (Record.commitRecord context.trancId)).persisted
            wal := lsm.wal ++
              (context.logged (Record.commitRecord context.trancId)).pending } keys :=
          hroom.setContext hcontext rfl rfl hstaged le_rfl
        exact applyCommit_room hlogged
          (List.getElem?_set_self (List.getElem?_eq_some_iff.mp hcontext).1) hopen
      · have hnone := persist_noLengthError lsm handle
          (context.logged (Record.commitRecord context.trancId)) walOk
        rw [hpersist] at hnone ⊢
        exact ⟨hroom.setContext hcontext rfl rfl hstaged le_rfl, hnone.error rfl⟩

/-- The flushes at the end of a commit. -/
theorem flushWhileFull_room (hcapacity : config.lsmBlockSize ≤ uint16Max) (hnodup : keys.Nodup)
    (fuel : ℕ) (hroom : lsm.Room keys)
    (hfits : ∀ start ∈ flushStates config fuel lsm, start.FlushFits config) :
    (flushWhileFull config fuel lsm).1.Room keys ∧
      Engine.NoLengthError (flushWhileFull config fuel lsm).2 := by
  induction fuel generalizing lsm with
  | zero => exact ⟨hroom, Engine.noLengthError_of_ne (by simp)⟩
  | succ fuel ih =>
      rw [flushStates] at hfits
      rw [flushWhileFull]
      split_ifs at hfits ⊢ with hdone
      · exact ⟨hroom, Engine.noLengthError_ok ()⟩
      · obtain ⟨hfirst, hrest⟩ := List.forall_mem_cons.mp hfits
        have hflush := hroom.flush_light hcapacity hnodup hfirst
        rcases andThen_cases (lsm.flush config) fun lsm _ => flushWhileFull config fuel lsm with
          ⟨err, herr, hrun⟩ | ⟨done, hok, hrun⟩
        · rw [hrun]
          exact ⟨hroom.flush, hflush.error herr⟩
        · rw [hrun]
          rw [hok] at hrest
          exact ih hroom.flush hrest

theorem commit_room (hroom : lsm.Room keys) (hcapacity : config.lsmBlockSize ≤ uint16Max)
    (hnodup : keys.Nodup) (handle : ℕ) (walOk : Bool)
    (hfits : (Call.commit handle walOk).Fits config lsm) :
    (commit config lsm handle false walOk).1.Room keys ∧
      Engine.NoLengthError (commit config lsm handle false walOk).2 := by
  have hfits := hfits.flushes
  rw [Call.flushStates] at hfits
  unfold commit
  split
  next => exact ⟨hroom, Engine.noLengthError_of_ne (by simp)⟩
  next context hcontext =>
    rw [hcontext] at hfits
    dsimp only at hfits
    split
    next => exact ⟨hroom, Engine.noLengthError_ok _⟩
    next hopen =>
      rw [if_neg Bool.false_ne_true]
      split
      next => exact ⟨hroom, Engine.noLengthError_of_ne (by simp)⟩
      next hfirst =>
        rw [if_neg (not_or.mpr ⟨hopen, hfirst⟩)] at hfits
        rw [Bool.not_eq_true] at hopen
        obtain ⟨hlocked, hnone⟩ := @commitLocked_room config lsm keys handle context hroom hcontext
          hopen walOk
        rcases andThen_cases (commitLocked config lsm handle context walOk) fun lsm committed =>
            if committed then
              andThen (flushWhileFull config (flushFuel lsm) lsm) fun lsm _ =>
                (lsm, (.ok true : Except Err Bool))
            else (lsm, .ok false) with ⟨err, herr, hrun⟩ | ⟨committed, hok, hrun⟩
        · rw [hrun]
          exact ⟨hlocked, hnone.error herr⟩
        · rw [hrun]
          cases committed with
          | false => exact ⟨hlocked, Engine.noLengthError_ok _⟩
          | true =>
              have hlocked' : commitLocked config lsm handle context walOk =
                  ((commitLocked config lsm handle context walOk).1, .ok true) :=
                Prod.ext rfl hok
              rw [hlocked'] at hfits
              rw [if_pos rfl]
              obtain ⟨hflushed, hnone⟩ := flushWhileFull_room hcapacity hnodup _ hlocked hfits
              rcases andThen_cases (flushWhileFull config (flushFuel
                  (commitLocked config lsm handle context walOk).1)
                    (commitLocked config lsm handle context walOk).1) fun lsm _ =>
                      (lsm, (.ok true : Except Err Bool)) with
                ⟨err, herr, hfinish⟩ | ⟨done, -, hfinish⟩
              · rw [hfinish]
                exact ⟨hflushed, hnone.error herr⟩
              · rw [hfinish]
                exact ⟨hflushed, Engine.noLengthError_ok _⟩

end TranContext

end KopiDb
