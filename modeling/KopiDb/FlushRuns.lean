import KopiDb.FlushCalls

/-!
# Flushes along runs

A run throws no length error as long as its flushes and merges bring few commit markers
together.  Transactions that only read leave markers too, and enough of them block every
flush.
-/

namespace KopiDb

theorem Call.survives {config : Config} {lsm : LSM} {keys : Multiset Bytes} {call : Call}
    (hroom : lsm.Room keys) (hcapacity : config.lsmBlockSize ≤ uint16Max)
    (hpasses : ∀ op ∈ call.writes, op.Passes) (honce : (keys + call.writtenKeys).Nodup)
    (hfits : call.Fits config lsm) : call.Survives config lsm keys := by
  have hkeys : keys.Nodup := Multiset.nodup_of_le (Multiset.le_add_right keys _) honce
  -- A call of a transaction that writes nothing itself.
  have hsilent {call : Call} {lsm' : LSM} {outcome : Except Err Reply}
      (hrun : call.run config lsm = (lsm', outcome)) (hnext : lsm'.Room keys)
      (hnone : Engine.NoLengthError outcome) : call.Survives config lsm keys := by
    constructor
    · rw [hrun]
      exact hnext.mono (Multiset.le_add_right keys _)
    · rw [hrun]
      exact hnone
  cases call with
  | beginTran isolationLevel => exact survives_beginTran hroom isolationLevel
  | write handle op walOk =>
      have hop := hpasses op List.mem_cons_self
      obtain ⟨hnext, hnone⟩ := TranContext.write_room hroom hcapacity hop walOk honce hfits
      exact ⟨hnext, Engine.noLengthError_map hnone _⟩
  | get handle key =>
      obtain ⟨hnext, hnone⟩ := TranContext.get_room hroom handle key
      exact hsilent rfl hnext (Engine.noLengthError_map hnone _)
  | commit handle walOk =>
      obtain ⟨hnext, hnone⟩ := TranContext.commit_room hroom hcapacity hkeys handle walOk hfits
      exact hsilent rfl hnext (Engine.noLengthError_map hnone _)
  | abort handle =>
      obtain ⟨hnext, hnone⟩ := TranContext.abort_room hroom handle
      exact hsilent rfl hnext (Engine.noLengthError_map hnone _)
  | plainPut | plainPutBatch | plainRemove | plainRemoveBatch | plainGet | plainGetBatch =>
      exact survives_plain hroom hcapacity rfl hpasses honce hfits
  | flush | freeze | compact => exact survives_maintenance hroom hcapacity rfl hkeys hfits

/-- What a list of calls asks to write. -/
def writesOf (calls : List Call) : List WriteOp := calls.flatMap Call.writes

/-- Every call of a run fits when its turn comes. -/
def FitRun (config : Config) : LSM → List Call → Prop
  | _, [] => True
  | lsm, call :: rest => call.Fits config lsm ∧ FitRun config (call.run config lsm).1 rest

/-- The engines whose tables the calls of a run and their flushes read. -/
def readStates (config : Config) : LSM → List Call → List Engine
  | _, [] => []
  | lsm, call :: rest =>
      (lsm.engine :: call.flushStates config lsm) ++ readStates config (call.run config lsm).1 rest

theorem FitRun.blocksReadable {config : Config} {calls : List Call} {lsm : LSM}
    (hfits : FitRun config lsm calls) :
    ∀ engine ∈ readStates config lsm calls, engine.BlocksReadable := by
  induction calls generalizing lsm with
  | nil => exact List.forall_mem_nil _
  | cons call rest ih =>
      obtain ⟨hfirst, hrest⟩ := hfits
      exact List.forall_mem_append.mpr
        ⟨fun engine hmem => (hfirst.addressable engine hmem).blocksReadable, ih hrest⟩

theorem LSM.Room.run {config : Config} (hcapacity : config.lsmBlockSize ≤ uint16Max)
    {calls : List Call} {lsm : LSM} {keys : Multiset Bytes} (hroom : lsm.Room keys)
    (hpasses : ∀ op ∈ writesOf calls, op.Passes)
    (honce : (keys + ((writesOf calls).map WriteOp.key : List Bytes)).Nodup)
    (hfits : FitRun config lsm calls) :
    ∀ event ∈ (runCalls config lsm calls).2, Engine.NoLengthError event.outcome := by
  induction calls generalizing lsm keys with
  | nil =>
      intro event hmem
      cases hmem
  | cons call rest ih =>
      obtain ⟨hfirst, hrest⟩ := hfits
      rw [writesOf, List.flatMap_cons] at hpasses honce
      rw [List.map_append, ← Multiset.coe_add, ← add_assoc] at honce
      obtain ⟨hnext, hnone⟩ := Call.survives hroom hcapacity
        (fun op hmem => hpasses op (List.mem_append_left _ hmem))
        (Multiset.nodup_of_le (Multiset.le_add_right _ _) honce) hfirst
      intro event hmem
      rcases List.mem_cons.mp hmem with rfl | hmem
      · exact hnone
      · exact ih hnext (fun op hop => hpasses op (List.mem_append_right _ hop)) honce hrest
          event hmem

/-- Runs whose writes pass the length checks and go under different user keys throw no length
error as long as every flush and every merge finds few markers and no table outgrows its offsets:
the blocks that they read are then within reach. -/
theorem flush_fits {config : Config} (hcapacity : config.lsmBlockSize ≤ uint16Max)
    {calls : List Call} (hpasses : ∀ op ∈ writesOf calls, op.Passes)
    (honce : ((writesOf calls).map WriteOp.key).Nodup) (hfits : FitRun config LSM.new calls) :
    (∀ event ∈ (runCalls config LSM.new calls).2, ∀ text,
      event.outcome ≠ .error (.lengthError text)) ∧
    ∀ engine ∈ readStates config LSM.new calls, engine.BlocksReadable := by
  refine ⟨LSM.room_new.run hcapacity hpasses ?_ hfits, hfits.blocksReadable⟩
  rw [zero_add]
  exact Multiset.coe_nodup.mpr honce

/-- A transaction that writes one key, and a flush behind it. -/
def oneWrite : List Call :=
  [.beginTran .readOpCommitted, .write 0 (.put [1] [7]) true, .commit 0 true, .flush]

theorem fitRun_oneWrite : FitRun smallConfig LSM.new oneWrite := by
  have hempty (engine : Engine) (hssts : engine.ssts = ∅) : engine.Addressable := by
    intro id sst hfind
    rw [hssts] at hfind
    cases hfind
  have hcalm (lsm : LSM) (call : Call) (hstates : call.flushStates smallConfig lsm = [])
      (hcall : ∀ srcLevel, call ≠ .compact srcLevel) (hssts : lsm.engine.ssts = ∅) :
      call.Fits smallConfig lsm := by
    refine ⟨?_, fun srcLevel hcompact => absurd hcompact (hcall srcLevel), ?_⟩
    · rw [hstates]
      exact List.forall_mem_nil _
    · rw [hstates]
      exact List.forall_mem_singleton.mpr (hempty lsm.engine hssts)
  refine ⟨hcalm _ _ rfl (by simp) rfl, hcalm _ _ rfl (by simp) rfl, hcalm _ _ rfl (by simp) rfl,
    ⟨?_, by simp, ?_⟩, trivial⟩
  · refine List.forall_mem_singleton.mpr fun _ => ⟨by decide, fun hfull => ?_⟩
    exact absurd rfl hfull.1
  · exact List.forall_mem_cons.mpr
      ⟨hempty _ rfl, List.forall_mem_singleton.mpr (hempty _ rfl)⟩

theorem flush_fits_sample : ∃ event ∈ (runCalls smallConfig LSM.new oneWrite).2,
    event.call = .flush ∧ ∀ text, event.outcome ≠ .error (.lengthError text) := by
  have hmem : ∃ event ∈ (runCalls smallConfig LSM.new oneWrite).2, event.call = .flush :=
    ⟨_, List.mem_of_getElem? (i := 3) rfl, rfl⟩
  obtain ⟨event, hmem, hcall⟩ := hmem
  have hpasses : ∀ op ∈ writesOf oneWrite, op.Passes :=
    List.forall_mem_singleton.mpr ⟨by decide, fun _ => ⟨_, rfl⟩, by decide, by decide⟩
  exact ⟨event, hmem, hcall,
    (flush_fits (by decide) hpasses (by decide) fitRun_oneWrite).1 event hmem⟩

/-! ## Too many markers -/

/-- A builder takes no more markers than fit. -/
theorem SSTBuilder.addAll_overfull {config : Config} {builder : SSTBuilder}
    {run entries : List Entry}
    (hpacks : builder.Packs config.lsmBlockSize (Packing.ofRun config.lsmBlockSize run))
    (hrun : ∀ entry ∈ run, entry.key = [] ∧ entry.value = []) (hfew : run.length ≤ maxMarkers)
    (hsorted : Versions.Sorted entries)
    (hmarker : ∀ entry ∈ entries, entry.key = [] → entry.value = [])
    (hover : maxMarkers < run.length + markers entries) :
    ∃ text, builder.addAll entries = .error (.lengthError text) := by
  induction entries generalizing builder run with
  | nil => exact absurd hover (not_lt.mpr hfew)
  | cons entry rest ih =>
      obtain ⟨hfirst, hrest⟩ := List.pairwise_cons.mp hsorted
      by_cases hkey : entry.key = []
      · have hvalue := hmarker entry List.mem_cons_self hkey
        have hcount : markers (entry :: rest) = markers rest + 1 :=
          List.countP_cons_of_pos (decide_eq_true hkey)
        have hrun' : ∀ other ∈ run ++ [entry], other.key = [] ∧ other.value = [] :=
          List.forall_mem_append.mpr ⟨hrun, List.forall_mem_singleton.mpr ⟨hkey, hvalue⟩⟩
        have hlast : entry.key = finalKey run := by
          rw [hkey, finalKey]
          cases hback : run.getLast? with
          | none => rfl
          | some last => exact (hrun last (List.mem_of_getLast? hback)).1.symm
        obtain ⟨hdata, hsize⟩ := size_markers hpacks hrun
        rw [SSTBuilder.addAll, List.foldlM_cons]
        rcases add_sameKey hpacks (by rw [Entry.Accepted, hkey, hvalue]; decide) hlast with
          ⟨hroom, -, builder', hadd, -, -⟩ | ⟨-, text, hadd⟩
        · have hpacks' := hpacks.add hadd
          rw [← Packing.ofRun_append] at hpacks'
          rw [hadd]
          apply ih hpacks' hrun' ?_ hrest
            (fun other hmem => hmarker other (List.mem_cons_of_mem _ hmem)) ?_
          · rw [hdata, uint16Max] at hroom
            rw [List.length_append, List.length_singleton, maxMarkers, uint16Max]
            omega
          · rw [List.length_append, List.length_singleton]
            omega
        · rw [hadd]
          exact ⟨text, rfl⟩
      · -- Behind a user key there are no markers.
        have hnone : markers (entry :: rest) = 0 := by
          refine List.countP_eq_zero.mpr fun other hmem hother => ?_
          have hother := of_decide_eq_true hother
          rcases List.mem_cons.mp hmem with rfl | hmem
          · exact hkey hother
          · have hle := (hfirst other hmem).key_le
            rw [hother] at hle
            exact (nil_lt_of_ne_nil hkey).not_ge hle
        omega

/-- A flush with too many markers in the oldest memory table throws, whatever the user keys are;
the table stays, and so the next flush throws again. -/
theorem Engine.flush_overfull {config : Config} {engine : Engine} (hsound : engine.Sound)
    (hsize : engine.memtable.getTotalSize ≠ 0)
    (hcompact : (engine.compactFullL0 config).2 = .ok ())
    (hover : maxMarkers < markers engine.oldestRecords) :
    ∃ text, (engine.flush config).2 = .error (.lengthError text) := by
  have hkept := compactFullL0_kept config hsound.inv
  rw [flush_eq, if_neg hsize]
  rcases andThen_cases (engine.compactFullL0 config) fun engine _ => engine.flushTable config with
    ⟨err, herr, -⟩ | ⟨done, -, hrun⟩
  · rw [hcompact] at herr
    cases herr
  · rw [hrun]
    rw [oldestRecords] at hover
    have hlast : ∃ text, ∀ sstId, (engine.memtable.flushLast (SSTBuilder.new config) sstId
        []).2.2 = .error (.lengthError text) := by
      cases hback : engine.memtable.flushStart.frozenTables.getLast? with
      | none =>
          rw [hback] at hover
          exact absurd hover (Nat.not_lt_zero _)
      | some table =>
          rw [hback] at hover
          have htable : ∀ entry ∈ table.nodes, entry ∈ engine.records := by
            intro entry hmem
            have hstart : engine.memtable.flushStart.records = engine.memtable.records := by
              rw [MemTable.flushStart]
              split_ifs
              · exact engine.memtable.records_frozenCurTable_
              · rfl
            apply List.mem_append_left
            rw [← hstart]
            exact List.mem_flatMap.mpr
              ⟨table, List.mem_cons_of_mem _ (List.mem_of_getLast? hback), hmem⟩
          obtain ⟨text, hadds⟩ := @SSTBuilder.addAll_overfull config _ [] table.nodes
            (SSTBuilder.packs_new config) (List.forall_mem_nil _) (Nat.zero_le _)
            table.ordered.sorted (fun entry hmem => hsound.marker entry (htable entry hmem))
            (by rwa [List.length_nil, zero_add])
          refine ⟨text, fun sstId => ?_⟩
          rw [MemTable.flushLast]
          rw [show (if engine.memtable.frozenTables.isEmpty then engine.memtable.frozenCurTable_
            else engine.memtable) = engine.memtable.flushStart from rfl]
          split
          next hnone =>
            rw [hback] at hnone
            cases hnone
          next other hother =>
            rw [hback] at hother
            obtain rfl := Option.some.inj hother
            rw [SkipList.flush, hadds]
    obtain ⟨text, hlast⟩ := hlast
    refine ⟨text, ?_⟩
    unfold flushTable
    dsimp only
    rw [hkept.memtable, hlast]

/-! ## Transactions that only read -/

/-- Transactions that are begun and committed one after the other and do nothing else. -/
def readOnlyCalls (count : ℕ) : List Call :=
  (List.range count).flatMap fun handle => [.beginTran .repeatableRead, .commit handle true]

/-- A store that holds the markers of transactions that only read, all in one table. -/
structure OnlyMarkers (count : ℕ) (lsm : LSM) : Prop where
  levels : lsm.engine.levelSstIds = []
  frozen : lsm.engine.memtable.frozenTables = []
  marker : ∀ entry ∈ lsm.engine.memtable.currentTable.nodes,
    entry.key = [] ∧ entry.value = [] ∧ entry.txid < lsm.tranManager.nextTransactionId
  nodes : lsm.engine.memtable.currentTable.nodes.length = count
  contexts : lsm.contexts.length = count

namespace OnlyMarkers

variable {config : Config} {lsm : LSM} {count : ℕ}

theorem getSize (honly : OnlyMarkers count lsm) :
    lsm.engine.memtable.currentTable.getSize = count * 8 := by
  rw [SkipList.getSize, lsm.engine.memtable.currentTable.accounted,
    List.sum_eq_card_nsmul _ 8, List.length_map, honly.nodes, smul_eq_mul]
  intro size hsize
  obtain ⟨entry, hmem, rfl⟩ := List.mem_map.mp hsize
  obtain ⟨hkey, hvalue, -⟩ := honly.marker entry hmem
  rw [memSize, hkey, hvalue]
  rfl

theorem getTotalSize (honly : OnlyMarkers count lsm) :
    lsm.engine.memtable.getTotalSize = count * 8 := by
  have hfrozen : lsm.engine.memtable.frozenBytes = 0 := by
    rw [lsm.engine.memtable.accounted, honly.frozen]
    rfl
  rw [MemTable.getTotalSize, hfrozen, add_zero, honly.getSize]

/-- The marker of a new transaction is one more node. -/
theorem put_new {table : SkipList} {trancId : ℕ}
    (hnew : ∀ entry ∈ table.nodes, entry.txid < trancId) :
    (table.put [] [] trancId).nodes.Perm (⟨[], [], trancId⟩ :: table.nodes) := by
  rw [SkipList.put_nodes]
  have hafter : (SkipList.notSmaller table.nodes ⟨[], [], trancId⟩).filter (fun other =>
      !(decide (other.key = []) && decide (other.txid = trancId))) =
        SkipList.notSmaller table.nodes ⟨[], [], trancId⟩ := by
    refine List.filter_eq_self.mpr fun other hmem => ?_
    have hother : other ∈ table.nodes := by
      rw [← SkipList.smaller_append_notSmaller table.nodes ⟨[], [], trancId⟩]
      exact List.mem_append_right _ hmem
    simp [(hnew other hother).ne]
  rw [hafter]
  refine List.perm_middle.trans (List.Perm.of_eq ?_)
  rw [SkipList.smaller_append_notSmaller]

/-- What a transaction that only reads leaves behind. -/
theorem applyCommit (honly : OnlyMarkers count lsm)
    (htable : (count + 1) * 8 < config.lsmPerMemSizeLimit) {lsm' : LSM}
    {context : TranContext} (htrancId : context.trancId = lsm.tranManager.nextTransactionId)
    (hempty : context.tempMap = ∅) (hengine : lsm'.engine = lsm.engine)
    (hnext : lsm'.tranManager.nextTransactionId = lsm.tranManager.nextTransactionId + 1)
    (hcontexts : lsm'.contexts.length = count + 1) (handle : ℕ) :
    OnlyMarkers (count + 1) (TranContext.applyCommit config lsm' handle context) := by
  have hperm := @put_new lsm.engine.memtable.currentTable lsm.tranManager.nextTransactionId
    fun entry hmem => (honly.marker entry hmem).2.2
  have happlied : context.applyStaged lsm'.engine.memtable =
      lsm.engine.memtable.put_ [] [] lsm.tranManager.nextTransactionId := by
    rw [TranContext.applyStaged, hempty, htrancId, hengine]
    split_ifs <;> rfl
  have hkept : (lsm.engine.memtable.put_ [] []
      lsm.tranManager.nextTransactionId).freezeIfFull config =
        lsm.engine.memtable.put_ [] [] lsm.tranManager.nextTransactionId := by
    have hsize : (lsm.engine.memtable.put_ [] []
        lsm.tranManager.nextTransactionId).currentTable.getSize = (count + 1) * 8 := by
      have hbefore := honly.getSize
      rw [SkipList.getSize, SkipList.accounted] at hbefore ⊢
      rw [MemTable.put_, (hperm.map memSize).sum_eq, List.map_cons, List.sum_cons, hbefore]
      change 8 + count * 8 = (count + 1) * 8
      ring
    rw [MemTable.freezeIfFull, if_neg (by rw [hsize]; exact htable.not_ge)]
  have hmemtable : (TranContext.applyCommit config lsm' handle context).engine.memtable =
      lsm.engine.memtable.put_ [] [] lsm.tranManager.nextTransactionId := by
    rw [← hkept, ← happlied]
    rfl
  constructor
  · change lsm'.engine.levelSstIds = []
    rw [hengine]
    exact honly.levels
  · rw [hmemtable]
    exact honly.frozen
  · rw [hmemtable]
    intro entry hmem
    change _ ∧ _ ∧ entry.txid < lsm'.tranManager.nextTransactionId
    rw [hnext]
    rcases List.mem_cons.mp (hperm.subset hmem) with rfl | hmem
    · exact ⟨rfl, rfl, Nat.lt_succ_self _⟩
    · obtain ⟨hkey, hvalue, hlt⟩ := honly.marker entry hmem
      exact ⟨hkey, hvalue, Nat.lt_succ_of_lt hlt⟩
  · rw [hmemtable]
    exact hperm.length_eq.trans (congrArg (· + 1) honly.nodes)
  · exact List.length_set.trans hcontexts

/-- One more transaction that only reads. -/
theorem next (honly : OnlyMarkers count lsm)
    (htable : (count + 1) * 8 < config.lsmPerMemSizeLimit)
    (htotal : (count + 1) * 8 < config.lsmTolMemSizeLimit) :
    OnlyMarkers (count + 1) (runCalls config lsm
      [.beginTran .repeatableRead, .commit count true]).1 := by
  let begun := (lsm.beginTran .repeatableRead).1
  let context := TranContext.start lsm.tranManager.nextTransactionId .repeatableRead
  let logged := context.logged (Record.commitRecord context.trancId)
  let persisted : LSM := { begun with
    contexts := begun.contexts.set count logged.persisted
    wal := begun.wal ++ logged.pending }
  have hcontext : begun.contexts[count]? = some context := by
    rw [← honly.contexts]
    exact List.getElem?_concat_length
  have hlocked : TranContext.commitLocked config begun count context true =
      (TranContext.applyCommit config persisted count logged.persisted, .ok true) := rfl
  have honly' : OnlyMarkers (count + 1)
      (TranContext.applyCommit config persisted count logged.persisted) := by
    have hnext : persisted.tranManager.nextTransactionId =
        lsm.tranManager.nextTransactionId + 1 := rfl
    have hlength : persisted.contexts.length = count + 1 := by
      rw [List.length_set]
      exact List.length_append.trans (congrArg (· + 1) honly.contexts)
    exact @applyCommit config lsm count honly htable persisted logged.persisted rfl rfl rfl hnext
      hlength count
  have hrun : (runCalls config lsm [.beginTran .repeatableRead, .commit count true]).1 =
      (TranContext.commit config begun count false true).1 := rfl
  have hfull : ¬(TranContext.applyCommit config persisted count
      logged.persisted).engine.memtable.getTotalSize ≥ config.lsmTolMemSizeLimit := by
    rw [honly'.getTotalSize]
    exact htotal.not_ge
  rw [hrun, TranContext.commit, hcontext]
  change OnlyMarkers (count + 1) (andThen (TranContext.commitLocked config begun count context
    true) _).1
  rw [hlocked]
  simp only [andThen, if_true]
  rw [TranContext.flushFuel, TranContext.flushWhileFull,
    if_pos (Or.inr (not_le.mp hfull))]
  exact honly'

end OnlyMarkers

/-- Transactions that only read fill the memory table with markers. -/
theorem onlyMarkers_run {config : Config} (count : ℕ)
    (htable : count * 8 < config.lsmPerMemSizeLimit)
    (htotal : count * 8 < config.lsmTolMemSizeLimit) :
    OnlyMarkers count (runCalls config LSM.new (readOnlyCalls count)).1 := by
  induction count with
  | zero =>
      refine ⟨rfl, rfl, ?_, rfl, rfl⟩
      intro entry hmem
      cases hmem
  | succ count ih =>
      have hless : count * 8 < (count + 1) * 8 :=
        Nat.mul_lt_mul_of_pos_right (Nat.lt_succ_self count) (by decide)
      have honly := ih (hless.trans htable) (hless.trans htotal)
      rw [readOnlyCalls, List.range_succ, List.flatMap_append, runCalls_append]
      exact honly.next htable htotal

theorem OnlyMarkers.sound {lsm : LSM} {count : ℕ} (honly : OnlyMarkers count lsm)
    (hinv : Engine.LevelInvariant lsm.engine) : lsm.engine.Sound := by
  have hmarker : ∀ entry ∈ lsm.engine.records, entry.key = [] ∧ entry.value = [] := by
    intro entry hmem
    have hfiles : lsm.engine.fileRecords = [] := by
      rw [Engine.fileRecords_eq, honly.levels]
      rfl
    rw [Engine.records, hfiles, List.append_nil, MemTable.records, MemTable.tables, honly.frozen,
      List.flatMap_singleton] at hmem
    obtain ⟨hkey, hvalue, -⟩ := honly.marker entry hmem
    exact ⟨hkey, hvalue⟩
  refine ⟨hinv, fun entry hmem => ?_, fun entry hmem _ => (hmarker entry hmem).2⟩
  obtain ⟨hkey, hvalue⟩ := hmarker entry hmem
  rw [Entry.Accepted, hkey, hvalue]
  exact ⟨Nat.zero_le _, Nat.zero_le _⟩

theorem OnlyMarkers.markers_oldestRecords {lsm : LSM} {count : ℕ} (honly : OnlyMarkers count lsm)
    (hpos : 0 < count) : markers lsm.engine.oldestRecords = count := by
  have hstart : lsm.engine.memtable.flushStart.frozenTables =
      [lsm.engine.memtable.currentTable] := by
    rw [MemTable.flushStart, honly.frozen, List.isEmpty_nil, if_pos rfl, MemTable.frozenCurTable_,
      if_neg (by rw [honly.getSize]; omega)]
    exact congrArg (lsm.engine.memtable.currentTable :: ·) honly.frozen
  have holdest : lsm.engine.oldestRecords = lsm.engine.memtable.currentTable.nodes := by
    rw [Engine.oldestRecords, hstart]
    rfl
  rw [holdest, markers_of_all fun entry hmem => (honly.marker entry hmem).1, honly.nodes]

/-- With the sizes of `config.toml`, 5463 transactions that only read are enough: the flush behind
them throws, and nothing was ever written. -/
theorem flush_overfull_sample :
    writesOf (readOnlyCalls 5463 ++ [.flush]) = [] ∧
      ∃ event ∈ (runCalls Engine.shippedConfig LSM.new (readOnlyCalls 5463 ++ [.flush])).2,
        event.call = .flush ∧ ∃ text, event.outcome = .error (.lengthError text) := by
  have hwrites (count : ℕ) : writesOf (readOnlyCalls count) = [] := by
    rw [writesOf, readOnlyCalls, List.flatMap_assoc]
    exact List.flatMap_eq_nil_iff.mpr fun handle _ => rfl
  constructor
  · rw [writesOf, List.flatMap_append]
    exact congrArg (· ++ []) (hwrites 5463)
  · have honly := @onlyMarkers_run Engine.shippedConfig 5463 (by decide) (by decide)
    have hnew : Engine.Follows LSM.new.engine [] := Engine.follows_new
    obtain ⟨history, -, hfollows⟩ :=
      runCalls_refines Engine.shippedConfig hnew (readOnlyCalls 5463)
    rw [runCalls_append]
    generalize (runCalls Engine.shippedConfig LSM.new (readOnlyCalls 5463)).1 = lsm
      at honly hfollows ⊢
    have hsound := honly.sound hfollows.invariant
    have hover : maxMarkers < markers lsm.engine.oldestRecords := by
      rw [honly.markers_oldestRecords (by decide)]
      decide
    have hroom : (lsm.engine.compactFullL0 Engine.shippedConfig).2 = .ok () := by
      rw [Engine.compactFullL0, if_neg fun hfull => hfull.1 honly.levels]
    obtain ⟨text, hflush⟩ := Engine.flush_overfull hsound
      (by rw [honly.getTotalSize]; decide) hroom hover
    refine ⟨_, List.mem_append_right _ List.mem_cons_self, rfl, text, ?_⟩
    change ((lsm.notify (lsm.engine.flush Engine.shippedConfig)).2.map fun _ => Reply.done) = _
    rw [LSM.notify, hflush]
    rfl

end KopiDb
