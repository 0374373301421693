import KopiDb.MemAccounting
import KopiDb.Redis.Backing
import KopiDb.Reread
import KopiDb.Restart

/-!
# Orderly restarts

The store of the commands outlives its process.  The destructor of the `LSM` flushes what is
in memory and saves the numbers, and the constructor on the same directory reads the tables
and the numbers again.  No call can tell that this has happened.
-/

namespace KopiDb

/-- Memory tables without bytes hold no records. -/
theorem MemTable.records_of_getTotalSize {mem : MemTable} (hzero : mem.getTotalSize = 0) :
    mem.records = [] := by
  obtain ⟨hcurrent, hbytes⟩ := Nat.add_eq_zero_iff.mp hzero
  have hempty : ∀ table : SkipList, table.getSize = 0 → table.nodes = [] := by
    intro table hsize
    rw [SkipList.getSize, table.accounted, List.sum_eq_zero_iff] at hsize
    refine List.eq_nil_iff_forall_not_mem.mpr fun entry hmem => ?_
    have hnone := hsize (memSize entry) (List.mem_map_of_mem hmem)
    rw [memSize] at hnone
    omega
  rw [records, List.flatMap_eq_nil_iff]
  intro table hmem
  rcases List.mem_cons.mp hmem with rfl | hfrozen
  · exact hempty _ hcurrent
  · rw [mem.accounted, List.sum_eq_zero_iff] at hbytes
    exact hempty table (hbytes _ (List.mem_map_of_mem hfrozen))

namespace LSM

/-- The file operations of a loop that flushes. -/
def flushLoopOps (config : Config) (goOn : ℕ → Prop) [DecidablePred goOn] :
    ℕ → LSM → List FileOp
  | 0, _ => []
  | fuel + 1, lsm =>
      if goOn lsm.engine.memtable.getTotalSize then
        lsm.engine.flushOps config ++
          match lsm.flush config with
          | (_, .error _) => []
          | (lsm, .ok _) => flushLoopOps config goOn fuel lsm
      else []

/-- The file operations of `flush_all`. -/
def flushAllOps (config : Config) (lsm : LSM) : List FileOp :=
  flushLoopOps config (fun total => total > 0) (TranContext.flushFuel lsm) lsm

end LSM

namespace Redis

namespace StoreCall

/-- The engine operation behind a call that is not a read. -/
def engineOp (lsm : LSM) : StoreCall → Option EngineOp
  | put key value => some (.put key value lsm.takeTrancId.2)
  | putBatch kvs => some (.putBatch kvs lsm.takeTrancId.2)
  | remove key => some (.remove key lsm.takeTrancId.2)
  | removeBatch keys => some (.removeBatch keys lsm.takeTrancId.2)
  | clear => some .clear
  | flush => some .flush
  | freeze => some .freeze
  | compact srcLevel => some (.compact srcLevel)
  | _ => none

/-- The file operations of a call. -/
def fileOps (config : Config) (lsm : LSM) (call : StoreCall) : List FileOp :=
  match call.engineOp lsm with
  | none => []
  | some op => op.fileOps config lsm.engine

end StoreCall

/-- A store with its data directory. -/
structure Deployment where
  lsm : LSM
  dir : Directory

namespace Deployment

/-- `~LSM`: what is in memory goes to files, and the numbers to the state file. -/
def close (config : Config) (params : BloomParams) (leftover : Leftover) (order : List ℕ)
    (store : Deployment) : Except Err (Directory × Option Bytes) :=
  let flushed := store.lsm.flushAll config
  match flushed.2 with
  | .error err => .error err
  | .ok _ =>
      let saved := flushed.1.tranManager.writeTrancIdBytes order none none
      saved.2.map fun _ =>
        (store.dir.applyAll config params leftover (store.lsm.flushAllOps config), saved.1)

/-- The constructors of the engine and of the manager on a directory, as it is listed, and on the
content of the state file; the two are bound to each other, as `LSM::LSM` leaves to do. -/
def openLsm (config : Config) (listing : List (Bytes × Option Bytes)) (file : Option Bytes) :
    Except Err LSM :=
  match Engine.openDir config listing, (TranManager.construct file true).2 with
  | .ok engine, .ok manager => .ok ⟨engine, manager, [], []⟩
  | .error err, _ => .error err
  | _, .error err => .error err

end Deployment

/-- A call, or a restart with the order in which the directory is listed and the one in
which the hash set of the manager is. -/
inductive DeployStep where
  | serve (call : StoreCall)
  | restart (listing : Directory → List (Bytes × Option Bytes)) (order : List ℕ)

namespace DeployStep

/-- What a step leaves and what it answers. -/
def run (config : Config) (params : BloomParams) (leftover : Leftover) (store : Deployment) :
    DeployStep → Except Err (Deployment × List Answer)
  | serve call =>
      let after := call.runOn config store.lsm
      after.2.map fun answer =>
        (⟨after.1, store.dir.applyAll config params leftover (call.fileOps config store.lsm)⟩,
          [answer])
  | restart listing order =>
      match store.close config params leftover order with
      | .error err => .error err
      | .ok (dir, file) =>
          (Deployment.openLsm config (listing dir) file).map fun lsm => (⟨lsm, dir⟩, [])

/-- The calls of a step. -/
def calls : DeployStep → List StoreCall
  | serve call => [call]
  | restart _ _ => []

/-- Restarts list the directory as it is. -/
def Lists : DeployStep → Prop
  | serve _ => True
  | restart listing _ => Engine.ListsFiles listing

/-- A call that does not throw, on tables that 32-bit offsets reach, or a restart whose flushes
do not throw, with numbers and offsets that fit their fields. -/
def Orderly (config : Config) (store : Deployment) : DeployStep → Prop
  | serve call =>
      (∀ key ∈ call.keys, key ≠ []) ∧ store.lsm.engine.Addressable ∧
        (call.runOn config store.lsm).2.isOk = true
  | restart _ order =>
      let flushed := store.lsm.flushAll config
      flushed.2.isOk = true ∧
        (∀ stored ∈ flushed.1.engine.ssts.entries, stored.2.WithinFormat config) ∧
        flushed.1.tranManager.nextTransactionId < 256 ^ 8 ∧
        TranManager.Lists order flushed.1.tranManager.abortedTrancIds

end DeployStep

/-- Run the steps until one throws. -/
def runDeployed (config : Config) (params : BloomParams) (leftover : Leftover) :
    Deployment → List DeployStep → Except Err (Deployment × List Answer)
  | store, [] => .ok (store, [])
  | store, step :: rest =>
      match step.run config params leftover store with
      | .error err => .error err
      | .ok (next, answered) =>
          (runDeployed config params leftover next rest).map fun result =>
            (result.1, answered ++ result.2)

/-- Every step is orderly where it is taken. -/
def OrderlyRun (config : Config) (params : BloomParams) (leftover : Leftover) :
    Deployment → List DeployStep → Prop
  | _, [] => True
  | store, step :: rest => step.Orderly config store ∧
      match step.run config params leftover store with
      | .error _ => True
      | .ok (next, _) => OrderlyRun config params leftover next rest

section

variable (config : Config) (params : BloomParams) (leftover : Leftover)

instance (order : List ℕ) (ids : Finset ℕ) : Decidable (TranManager.Lists order ids) :=
  inferInstanceAs (Decidable (_ ∧ _))

instance (store : Deployment) : (step : DeployStep) → Decidable (step.Orderly config store)
  | .serve _ => inferInstanceAs (Decidable (_ ∧ _ ∧ _))
  | .restart _ _ => inferInstanceAs (Decidable (_ ∧ _ ∧ _ ∧ _))

instance decidableOrderlyRun : (store : Deployment) → (steps : List DeployStep) →
    Decidable (OrderlyRun config params leftover store steps)
  | _, [] => isTrue trivial
  | store, step :: rest =>
      @instDecidableAnd _ _ inferInstance <|
        match step.run config params leftover store with
        | .error _ => isTrue trivial
        | .ok (next, _) => decidableOrderlyRun next rest

end

/-! ## What a step keeps -/

/-- The store backs a map, its tables are in the directory, and its manager knows of no
transaction. -/
structure Deployed (config : Config) (params : BloomParams) (store : Deployment)
    (map : Store) : Prop where
  backs : ∃ history, Backs store.lsm history map
  disk : ∃ built, Engine.OnDisk config params store.lsm.engine store.dir built
  idle : store.lsm.tranManager = { TranManager.new with
    nextTransactionId := store.lsm.tranManager.nextTransactionId }
  counts : store.lsm.tranManager.nextTransactionId ≠ 0

namespace StoreCall

variable {lsm : LSM} {call : StoreCall}

theorem engine_runOn (config : Config) {op : EngineOp} (hop : call.engineOp lsm = some op) :
    (call.runOn config lsm).1.engine = (op.run config lsm.engine).1 ∧
      ∀ answer, (call.runOn config lsm).2 = .ok answer →
        ∃ flushed, (op.run config lsm.engine).2 = .ok flushed := by
  have hnotified : ∀ (lsm : LSM) (outcome : Engine × Except Err Flushed) (answer : Answer),
      ((lsm.notify outcome).2.map fun _ => Answer.done) = .ok answer →
        ∃ flushed, outcome.2 = .ok flushed := by
    intro lsm outcome answer hok
    unfold LSM.notify at hok
    split at hok
    next err herr => cases hok
    next flushed hflushed => exact ⟨flushed, hflushed⟩
  cases call with
  | put key value =>
      obtain rfl := Option.some.inj hop
      exact ⟨LSM.engine_notify _, hnotified _ _⟩
  | putBatch kvs =>
      obtain rfl := Option.some.inj hop
      exact ⟨LSM.engine_notify _, hnotified _ _⟩
  | remove key =>
      obtain rfl := Option.some.inj hop
      exact ⟨LSM.engine_notify _, hnotified _ _⟩
  | removeBatch keys =>
      obtain rfl := Option.some.inj hop
      exact ⟨LSM.engine_notify _, hnotified _ _⟩
  | clear =>
      obtain rfl := Option.some.inj hop
      exact ⟨rfl, fun _ _ => ⟨_, rfl⟩⟩
  | flush =>
      obtain rfl := Option.some.inj hop
      exact ⟨LSM.engine_notify _, hnotified _ _⟩
  | freeze =>
      obtain rfl := Option.some.inj hop
      exact ⟨rfl, fun _ _ => ⟨_, rfl⟩⟩
  | compact srcLevel =>
      obtain rfl := Option.some.inj hop
      rcases hcompact : lsm.engine.compact config srcLevel with ⟨engine, result⟩
      rw [runOn, EngineOp.run, hcompact]
      cases result with
      | error err => exact ⟨rfl, fun _ hok => by cases hok⟩
      | ok done => exact ⟨rfl, fun _ _ => ⟨_, rfl⟩⟩
  | get key => cases hop
  | getBatch keys => cases hop
  | scan preffix sameBlock => cases hop
  | scanAll => cases hop

theorem engine_runOn_read (config : Config) (hop : call.engineOp lsm = none) :
    (call.runOn config lsm).1.engine = lsm.engine := by
  cases call with
  | get key => rfl
  | getBatch keys => rfl
  | scan preffix sameBlock => rfl
  | scanAll => rfl
  | _ => cases hop

/-- Without transactions a manager only counts. -/
theorem manager_runOn (config : Config) (call : StoreCall)
    (hready : lsm.tranManager.readyToFlushTrancIds = ∅) :
    (call.runOn config lsm).1.tranManager = lsm.tranManager ∨
      (call.runOn config lsm).1.tranManager = lsm.tranManager.getNextTransactionId.1 := by
  have hnotified : ∀ (lsm : LSM) (outcome : Engine × Except Err Flushed),
      lsm.tranManager.readyToFlushTrancIds = ∅ →
        (lsm.notify outcome).1.tranManager = lsm.tranManager := by
    intro lsm outcome hready
    have hsettled : ∀ ids : List ℕ,
        ids.foldl TranManager.addFlushedTrancId lsm.tranManager = lsm.tranManager := by
      intro ids
      induction ids with
      | nil => rfl
      | cons id rest ih =>
          have hone : lsm.tranManager.addFlushedTrancId id = lsm.tranManager := by
            rw [TranManager.addFlushedTrancId, hready]
            rfl
          rw [List.foldl_cons, hone, ih]
    unfold LSM.notify
    split
    · rfl
    · exact hsettled _
  cases call with
  | put key value => exact Or.inr (hnotified lsm.takeTrancId.1 _ hready)
  | putBatch kvs => exact Or.inr (hnotified lsm.takeTrancId.1 _ hready)
  | remove key => exact Or.inr (hnotified lsm.takeTrancId.1 _ hready)
  | removeBatch keys => exact Or.inr (hnotified lsm.takeTrancId.1 _ hready)
  | get key => exact Or.inr rfl
  | getBatch keys => exact Or.inr rfl
  | flush => exact Or.inl (hnotified lsm _ hready)
  | scan preffix sameBlock => exact Or.inl rfl
  | scanAll => exact Or.inl rfl
  | clear => exact Or.inl rfl
  | freeze => exact Or.inl rfl
  | compact srcLevel => exact Or.inl rfl

end StoreCall

theorem runStore_append (store : Store) (first rest : List StoreCall) :
    runStore store (first ++ rest) =
      let before := runStore store first
      let after := runStore before.1 rest
      (after.1, before.2 ++ after.2) := by
  induction first generalizing store with
  | nil => rfl
  | cons call first ih =>
      rw [List.cons_append, runStore, ih]
      rfl

namespace Deployed

variable {config : Config} {params : BloomParams} {store : Deployment} {map : Store}

theorem new (config : Config) (params : BloomParams) :
    Deployed config params ⟨LSM.new, ∅⟩ ∅ where
  backs := ⟨[], backs_new⟩
  disk := ⟨∅, Engine.OnDisk.new config params⟩
  idle := rfl
  counts := one_ne_zero

/-- A call that does not throw is made on the map and in the directory. -/
theorem kept (hdeployed : Deployed config params store map) (leftover : Leftover)
    {call : StoreCall} {answer : Answer} (hkeys : ∀ key ∈ call.keys, key ≠ [])
    (hok : (call.runOn config store.lsm).2 = .ok answer) :
    Deployed config params
      ⟨(call.runOn config store.lsm).1,
        store.dir.applyAll config params leftover (call.fileOps config store.lsm)⟩
      (call.apply map).1 := by
  obtain ⟨history, hbacks⟩ := hdeployed.backs
  obtain ⟨built, hdisk⟩ := hdeployed.disk
  have hready : store.lsm.tranManager.readyToFlushTrancIds = ∅ := by
    rw [hdeployed.idle]
    rfl
  have hmanager := call.manager_runOn config hready
  refine ⟨hbacks.kept config call hkeys, ?_, ?_, ?_⟩
  · dsimp only
    rw [StoreCall.fileOps]
    cases hop : call.engineOp store.lsm with
    | none =>
        rw [call.engine_runOn_read config hop]
        exact ⟨built, hdisk⟩
    | some op =>
        obtain ⟨hengine, hflushed⟩ := call.engine_runOn config hop
        obtain ⟨flushed, hrun⟩ := hflushed answer hok
        rw [hengine]
        exact hdisk.run leftover hrun
  · rcases hmanager with hsame | hcounted
    · dsimp only
      rw [hsame]
      exact hdeployed.idle
    · dsimp only
      rw [hcounted, hdeployed.idle]
      rfl
  · rcases hmanager with hsame | hcounted
    · dsimp only
      rw [hsame]
      exact hdeployed.counts
    · dsimp only
      rw [hcounted]
      exact Nat.succ_ne_zero _

/-- It answers as the map does. -/
theorem answer_eq (hdeployed : Deployed config params store map)
    (hsmall : store.lsm.engine.Addressable) {call : StoreCall} {answer : Answer}
    (hok : (call.runOn config store.lsm).2 = .ok answer) : answer = (call.apply map).2 := by
  obtain ⟨history, hbacks⟩ := hdeployed.backs
  rcases hbacks.agrees hsmall config call with hsame | ⟨-, err, herr⟩
  · rw [hok] at hsame
    exact Except.ok.inj hsame
  · rw [hok] at herr
    cases herr

/-- The destructor leaves nothing in memory. -/
theorem flushAll (hdeployed : Deployed config params store map) (leftover : Leftover)
    (hok : (store.lsm.flushAll config).2 = .ok ()) :
    Deployed config params ⟨(store.lsm.flushAll config).1,
        store.dir.applyAll config params leftover (store.lsm.flushAllOps config)⟩ map ∧
      (store.lsm.flushAll config).1.engine.memtable.records = [] := by
  have hloop : ∀ (fuel : ℕ) (store : Deployment), Deployed config params store map →
      (LSM.flushLoop config (fun total => total > 0) fuel store.lsm).2 = .ok () →
      Deployed config params
          ⟨(LSM.flushLoop config (fun total => total > 0) fuel store.lsm).1,
            store.dir.applyAll config params leftover
              (LSM.flushLoopOps config (fun total => total > 0) fuel store.lsm)⟩ map ∧
        (LSM.flushLoop config (fun total => total > 0) fuel store.lsm).1.engine.memtable.records =
          [] := by
    intro fuel
    induction fuel with
    | zero => exact fun _ _ hok => by cases hok
    | succ fuel ih =>
        intro store hdeployed hok
        rw [LSM.flushLoop] at hok ⊢
        rw [LSM.flushLoopOps]
        split_ifs at hok ⊢ with hbytes
        · have hserved := fun answer => @kept config params store map hdeployed leftover .flush
            answer (List.forall_mem_nil _)
          rw [StoreCall.runOn] at hserved
          rcases hflush : store.lsm.flush config with ⟨lsm, result⟩
          rw [hflush] at hok hserved
          cases result with
          | error err => cases hok
          | ok done =>
              have hnext := hserved .done rfl
              rw [Directory.applyAll_append]
              exact ih _ hnext hok
        · exact ⟨hdeployed, MemTable.records_of_getTotalSize (Nat.le_zero.mp (not_lt.mp hbytes))⟩
  exact hloop _ store hdeployed hok

theorem eq_ok_of_isOk {result : Except Err Unit} (hok : result.isOk = true) :
    result = .ok () := by
  cases result with
  | error err => cases hok
  | ok done => rfl

/-- The numbers of a manager without transactions fit their fields. -/
theorem fits_counting {next : ℕ} (hnext : next < 256 ^ 8) :
    TranManager.Fits { TranManager.new with nextTransactionId := next } where
  next := hnext
  flushed := show ∀ id ∈ TranManager.new.flushedTrancIds.ids, id < 256 ^ 8 by decide
  ready := fun _ hmem => by cases hmem
  aborted := fun _ hmem => by cases hmem
  size := show 8 * (4 + (TranManager.new.flushedTrancIds.ids.length +
    (2 * TranManager.new.readyToFlushTrancIds.size + TranManager.new.abortedTrancIds.card))) <
      2 ^ 64 by decide

/-- An orderly restart is never refused, and the new store backs the same map. -/
theorem restart (hdeployed : Deployed config params store map) (hsizes : BloomSized config)
    (leftover : Leftover) {listing : Directory → List (Bytes × Option Bytes)} {order : List ℕ}
    (hlists : (DeployStep.restart listing order).Lists)
    (horderly : (DeployStep.restart listing order).Orderly config store) :
    ∃ next, (DeployStep.restart listing order).run config params leftover store = .ok (next, []) ∧
      Deployed config params next map := by
  obtain ⟨hisOk, hstored, hnext, horder⟩ := horderly
  have hok := eq_ok_of_isOk hisOk
  obtain ⟨hflushed, hempty⟩ := hdeployed.flushAll leftover hok
  obtain ⟨history, hbacks⟩ := hflushed.backs
  obtain ⟨built, hdisk⟩ := hflushed.disk
  have hidle := hflushed.idle
  have hcounts := hflushed.counts
  obtain ⟨reopened, hopen, hreopened, hinv, hmemory, hfiles⟩ :=
    hdisk.reopen hsizes hstored hlists
  have hrecords : reopened.records = (store.lsm.flushAll config).1.engine.records := by
    rw [Engine.records, Engine.records, hmemory, hempty, hfiles]
  dsimp only at hidle hcounts hbacks hopen hreopened
  generalize hmanager : (store.lsm.flushAll config).1.tranManager = manager
    at hidle hcounts hnext horder
  have hsaved : manager.Fits := by
    rw [hidle]
    exact fits_counting hnext
  have hconstruct := TranManager.construct_fileBytes hsaved hcounts horder
  refine ⟨⟨⟨reopened, manager.restarted, [], []⟩,
    store.dir.applyAll config params leftover (store.lsm.flushAllOps config)⟩, ?_, ?_⟩
  · rw [DeployStep.run, Deployment.close]
    dsimp only
    rw [hok, hmanager, TranManager.writeTrancIdBytes,
      TranManager.saveFile_of_ne hcounts]
    dsimp only [Except.map]
    rw [Deployment.openLsm, hopen, hconstruct]
  · refine ⟨⟨history, ?_⟩, ⟨built, hreopened⟩, ?_, hcounts⟩
    · exact
        { follows := ⟨hinv, hrecords ▸ hbacks.follows.reflects⟩
          unaborted := by
            have hnone := hbacks.unaborted
            rw [LSM.view, hmanager] at hnone
            exact hnone
          named := hbacks.named
          below := by
            have hbelow := hbacks.below
            rw [LSM.view, hmanager] at hbelow
            exact hbelow
          shows := hbacks.shows }
    · dsimp only
      rw [hidle]
      rfl

/-- Every step answers as the map. -/
theorem step (hdeployed : Deployed config params store map) (hsizes : BloomSized config)
    (leftover : Leftover) {step : DeployStep} (hlists : step.Lists)
    (horderly : step.Orderly config store) :
    ∃ next, step.run config params leftover store = .ok (next, (runStore map step.calls).2) ∧
      Deployed config params next (runStore map step.calls).1 := by
  cases step with
  | serve call =>
      obtain ⟨hkeys, hsmall, hisOk⟩ := horderly
      rcases hserved : call.runOn config store.lsm with ⟨lsm, _ | answer⟩
      · rw [hserved] at hisOk
        cases hisOk
      have hok := congrArg Prod.snd hserved
      obtain rfl := hdeployed.answer_eq hsmall hok
      refine ⟨_, ?_, hdeployed.kept leftover hkeys hok⟩
      rw [DeployStep.run, hok]
      rfl
  | restart listing order => exact hdeployed.restart hsizes leftover hlists horderly

theorem run (hdeployed : Deployed config params store map) (hsizes : BloomSized config)
    (leftover : Leftover) {steps : List DeployStep} (hlists : ∀ step ∈ steps, step.Lists)
    (horderly : OrderlyRun config params leftover store steps) :
    ∃ final, runDeployed config params leftover store steps =
      .ok (final, (runStore map (steps.flatMap DeployStep.calls)).2) := by
  induction steps generalizing store map with
  | nil => exact ⟨store, rfl⟩
  | cons step rest ih =>
      obtain ⟨hfirst, hrest⟩ := horderly
      obtain ⟨next, hstep, hnext⟩ :=
        hdeployed.step hsizes leftover (hlists step List.mem_cons_self) hfirst
      rw [hstep] at hrest
      obtain ⟨final, hrun⟩ :=
        ih hnext (fun other hother => hlists other (List.mem_cons_of_mem _ hother)) hrest
      refine ⟨final, ?_⟩
      rw [runDeployed, hstep]
      dsimp only
      rw [hrun, List.flatMap_cons, runStore_append]
      rfl

end Deployed

/-- A record in a file and one in memory survive a restart, and the deletion of the first
one another; the listings come in two orders and name the value log. -/
def sampleSteps : List DeployStep :=
  [.serve (.put [1] [7]), .serve .flush, .serve (.put [2] [6]),
    .restart (fun dir => dir.entries.reverse ++ [([118, 108, 111, 103], some [])]) [],
    .serve (.remove [1]),
    .restart (fun dir => dir.entries ++ [([118, 108, 111, 103], some [])]) [],
    .serve (.get [1]), .serve (.scan [] fun _ => false)]

end Redis

end KopiDb
