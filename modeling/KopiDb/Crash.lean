import KopiDb.MemContract
import KopiDb.Reread

/-!
# What a crash leaves

The process may end between two operations without a flush.  What a new engine on the
directory then holds are the operations up to one of them: flushes move the oldest records
first, and the records of one operation together.
-/

namespace KopiDb

/-! ## Operations in memory -/

theorem record_nil_append {op : EngineOp} (hclear : op ≠ .clear) (ops : List EngineOp) :
    historyOf (ops ++ [op]) = op.record [] ++ historyOf ops := by
  rw [historyOf, List.foldl_concat]
  exact Engine.record_append hclear _

/-- The history of operations is that of the later ones before that of the earlier ones. -/
theorem historyOf_append {ops later : List EngineOp} (hclear : ∀ op ∈ later, op ≠ .clear) :
    historyOf (ops ++ later) = historyOf later ++ historyOf ops := by
  induction later using List.reverseRecOn with
  | nil => rw [List.append_nil]; rfl
  | append_singleton later op ih =>
      have hop := hclear op (List.mem_append_right _ List.mem_cons_self)
      rw [← List.append_assoc, record_nil_append hop, record_nil_append hop,
        ih fun other hother => hclear other (List.mem_append_left _ hother), List.append_assoc]

namespace MemTable

variable {mem : MemTable} {ops : List EngineOp}

/-- The tables hold what the operations wrote, each table that of consecutive ones. -/
def HoldsOps (mem : MemTable) (ops : List EngineOp) : Prop :=
  (∀ op ∈ ops, op ≠ .clear) ∧ ∃ (active : List EngineOp) (frozen : List (List EngineOp)),
    ops = frozen.reverse.flatten ++ active ∧ mem.Follows ⟨historyOf active, frozen.map historyOf⟩

theorem holdsOps_empty (hempty : mem.records = []) : mem.HoldsOps [] := by
  have hnodes : ∀ table ∈ mem.tables, table.nodes = [] := List.flatMap_eq_nil_iff.mp hempty
  refine ⟨List.forall_mem_nil _, [], mem.frozenTables.map fun _ => [], ?_, ?_, ?_⟩
  · rw [List.append_nil, eq_comm, List.flatten_eq_nil_iff]
    intro segment hmem
    obtain ⟨table, -, rfl⟩ := List.mem_map.mp (List.mem_reverse.mp hmem)
    rfl
  · rw [hnodes _ List.mem_cons_self]
    exact Versions.Reflects.refl _
  · rw [List.map_map, List.forall₂_map_right_iff, List.forall₂_same]
    intro table hmem
    rw [hnodes _ (List.mem_cons_of_mem _ hmem)]
    exact Versions.Reflects.refl _

/-- All records together are those of the operations. -/
theorem HoldsOps.reflects (hholds : mem.HoldsOps ops) :
    Versions.Reflects mem.records (historyOf ops) := by
  obtain ⟨hclear, active, frozen, rfl, hfollows⟩ := hholds
  have hflatten : ∀ frozen : List (List EngineOp),
      (∀ op ∈ frozen.reverse.flatten, op ≠ .clear) →
        historyOf frozen.reverse.flatten = (frozen.map historyOf).flatten := by
    intro frozen
    induction frozen with
    | nil => exact fun _ => rfl
    | cons segment rest ih =>
        intro hclear
        rw [List.reverse_cons, List.flatten_append, List.flatten_singleton] at hclear ⊢
        rw [historyOf_append fun op hmem => hclear op (List.mem_append_right _ hmem),
          ih fun op hmem => hclear op (List.mem_append_left _ hmem)]
        rfl
  rw [historyOf_append fun op hmem => hclear op (List.mem_append_right _ hmem),
    hflatten frozen fun op hmem => hclear op (List.mem_append_left _ hmem)]
  exact hfollows.reflects

theorem HoldsOps.frozenCurTable_ (hholds : mem.HoldsOps ops) :
    mem.frozenCurTable_.HoldsOps ops := by
  obtain ⟨hclear, active, frozen, rfl, hfollows⟩ := hholds
  have hfrozen := hfollows.event .freeze
  rw [MemTable.event, VersionedMap.event] at hfrozen
  split_ifs at hfrozen
  · exact ⟨hclear, active, frozen, rfl, hfrozen⟩
  · refine ⟨hclear, [], active :: frozen, ?_, hfrozen⟩
    rw [List.reverse_cons, List.flatten_append, List.flatten_singleton, List.append_nil]

/-- An operation that writes entries into the active table. -/
theorem HoldsOps.write (hholds : mem.HoldsOps ops) {op : EngineOp} (hclear : op ≠ .clear)
    {written : MemTable} (hcurrent : Versions.Reflects written.currentTable.nodes
      (op.record [] ++ mem.currentTable.nodes))
    (hfrozen : written.frozenTables = mem.frozenTables) :
    written.HoldsOps (ops ++ [op]) := by
  obtain ⟨hclears, active, frozen, rfl, hfollows⟩ := hholds
  refine ⟨?_, active ++ [op], frozen, List.append_assoc .., ?_, ?_⟩
  · intro other hother
    rcases List.mem_append.mp hother with hold | hnew
    · exact hclears other hold
    · rw [List.mem_singleton.mp hnew]
      exact hclear
  · dsimp only
    rw [record_nil_append hclear]
    exact hcurrent.trans ((Versions.Reflects.refl _).append hfollows.active)
  · rw [hfrozen]
    exact hfollows.frozen

theorem reflects_current_foldl_put_ {α : Type} (keyOf valueOf : α → Bytes) (trancId : ℕ)
    (batch : List α) {mem : MemTable} {history : List Entry}
    (hreflects : Versions.Reflects mem.currentTable.nodes history) :
    Versions.Reflects
      (batch.foldl (fun mem item => mem.put_ (keyOf item) (valueOf item) trancId)
        mem).currentTable.nodes
      ((batch.map fun item => (⟨keyOf item, valueOf item, trancId⟩ : Entry)).reverse ++
        history) := by
  induction batch generalizing mem history with
  | nil => exact hreflects
  | cons item rest ih =>
      rw [List.map_cons, List.reverse_cons, List.append_assoc]
      exact @ih (mem.put_ (keyOf item) (valueOf item) trancId) _
        (SkipList.reflects_put hreflects ⟨keyOf item, valueOf item, trancId⟩)

/-- A batch goes into one table, which may be frozen behind it. -/
theorem HoldsOps.writeBatch (hholds : mem.HoldsOps ops) (config : Config) {op : EngineOp}
    (hclear : op ≠ .clear) {α : Type} (keyOf valueOf : α → Bytes) (trancId : ℕ)
    (batch : List α) (hrecord : op.record [] =
      (batch.map fun item => (⟨keyOf item, valueOf item, trancId⟩ : Entry)).reverse) :
    ((batch.foldl (fun mem item => mem.put_ (keyOf item) (valueOf item) trancId)
      mem).freezeIfFull config).HoldsOps (ops ++ [op]) := by
  have hwritten := hholds.write hclear
    (hrecord ▸ reflects_current_foldl_put_ keyOf valueOf trancId batch (Versions.Reflects.refl _))
    (frozenTables_foldl_put_ keyOf valueOf trancId batch mem)
  rw [freezeIfFull]
  split_ifs
  · exact hwritten.frozenCurTable_
  · exact hwritten

/-- The oldest table that leaves takes the earliest operations along. -/
theorem HoldsOps.popBack (hholds : mem.HoldsOps ops) {table : SkipList}
    (hback : mem.frozenTables.getLast? = some table) :
    ∃ first rest, ops = first ++ rest ∧ Versions.Reflects table.nodes (historyOf first) ∧
      (mem.popBack hback).HoldsOps rest := by
  obtain ⟨hclear, active, frozen, rfl, hactive, hfrozen⟩ := hholds
  obtain ⟨front, hfront⟩ := List.getLast?_eq_some_iff.mp hback
  dsimp only at hactive hfrozen
  rw [hfront, ← List.forall₂_reverse_iff, List.reverse_concat, ← List.map_reverse] at hfrozen
  cases hsegments : frozen.reverse with
  | nil =>
      rw [hsegments] at hfrozen
      cases hfrozen
  | cons first rest =>
      rw [hsegments, List.map_cons, List.forall₂_cons] at hfrozen
      obtain ⟨hfirst, hrest⟩ := hfrozen
      rw [hsegments] at hclear
      refine ⟨first, rest.flatten ++ active, ?_, hfirst, ?_, active, rest.reverse, ?_, hactive, ?_⟩
      · rw [List.flatten_cons, List.append_assoc]
      · intro op hmem
        rw [List.flatten_cons, List.append_assoc] at hclear
        exact hclear op (List.mem_append_right _ hmem)
      · rw [List.reverse_reverse]
      · change List.Forall₂ _ mem.frozenTables.dropLast (rest.reverse.map historyOf)
        rw [hfront, List.dropLast_concat, ← List.forall₂_reverse_iff, ← List.map_reverse,
          List.reverse_reverse]
        exact hrest

/-- A flush of the tables takes the earliest operations along, or none when it fails. -/
theorem HoldsOps.flushed (hholds : mem.HoldsOps ops) (built : Bool) :
    ∃ moved first rest, ops = first ++ rest ∧
      (mem.flushed built).records ++ moved = mem.records ∧
      Versions.Reflects moved (historyOf first) ∧ (mem.flushed built).HoldsOps rest := by
  have hstart : mem.flushStart.HoldsOps ops := by
    rw [flushStart]
    split_ifs
    · exact hholds.frozenCurTable_
    · exact hholds
  have hrecords : mem.flushStart.records = mem.records := by
    rw [flushStart]
    split_ifs
    · exact mem.records_frozenCurTable_
    · rfl
  have hnone : ∃ moved first rest, ops = first ++ rest ∧
      mem.flushStart.records ++ moved = mem.records ∧
      Versions.Reflects moved (historyOf first) ∧ mem.flushStart.HoldsOps rest :=
    ⟨[], [], ops, rfl, by rw [List.append_nil, hrecords], Versions.Reflects.refl _, hstart⟩
  rw [MemTable.flushed]
  split_ifs
  · cases hback : mem.flushStart.frozenTables.getLast? with
    | none =>
        rw [popOldest_of_none hback]
        exact hnone
    | some table =>
        rw [popOldest_of_some hback]
        obtain ⟨first, rest, hops, hmoved, hrest⟩ := hstart.popBack hback
        refine ⟨table.nodes, first, rest, hops, ?_, hmoved, hrest⟩
        obtain ⟨front, hfront⟩ := List.getLast?_eq_some_iff.mp hback
        rw [← hrecords]
        change mem.flushStart.currentTable.nodes ++
          mem.flushStart.frozenTables.dropLast.flatMap SkipList.nodes ++ table.nodes =
            mem.flushStart.currentTable.nodes ++
              mem.flushStart.frozenTables.flatMap SkipList.nodes
        rw [hfront, List.dropLast_concat, List.flatMap_append, List.flatMap_singleton,
          List.append_assoc]
  · exact hnone

end MemTable

/-! ## Operations of the engine -/

namespace Engine

variable {config : Config} {engine : Engine} {durable volatile : List EngineOp}

/-- The files hold what the earlier operations wrote and the memory what the later ones did. -/
structure WriteBack (engine : Engine) (durable volatile : List EngineOp) : Prop where
  invariant : LevelInvariant engine
  files : Versions.Reflects engine.fileRecords (historyOf durable)
  memory : engine.memtable.HoldsOps volatile

namespace WriteBack

theorem new : WriteBack Engine.new [] [] :=
  ⟨levelInvariant_new, Versions.Reflects.refl _, MemTable.holdsOps_empty rfl⟩

/-- Engine and operations agree as a whole. -/
theorem follows (hback : WriteBack engine durable volatile) :
    Follows engine (historyOf (durable ++ volatile)) := by
  refine ⟨hback.invariant, ?_⟩
  rw [historyOf_append hback.memory.1]
  exact hback.memory.reflects.append hback.files

theorem withMemtable (hback : WriteBack engine durable volatile) {mem : MemTable}
    {volatile' : List EngineOp} (hmemory : mem.HoldsOps volatile') :
    WriteBack { engine with memtable := mem } durable volatile' :=
  ⟨hback.invariant.withMemtable mem, hback.files, hmemory⟩

theorem kept (hback : WriteBack engine durable volatile) {engine' : Engine}
    (hkept : Kept engine engine') : WriteBack engine' durable volatile :=
  ⟨hkept.invariant, hkept.sameVersions.reflects.trans hback.files, hkept.memtable ▸ hback.memory⟩

/-- The earliest operations in memory become durable together. -/
theorem flushTable (hback : WriteBack engine durable volatile) (config : Config) :
    ∃ first rest, volatile = first ++ rest ∧
      WriteBack (engine.flushTable config).1 (durable ++ first) rest := by
  have hmemory : ∃ built, (engine.flushTable config).1.memtable =
      engine.memtable.flushed built := by
    unfold Engine.flushTable
    dsimp only
    rcases engine.memtable.flushLast_eq_flushed (SSTBuilder.new config)
      (engine.takeSstId 0).2 [] with ⟨hmem, err, herr⟩ | ⟨hmem, found, hfound⟩
    · rw [herr]
      exact ⟨false, hmem⟩
    · rw [hfound]
      cases found with
      | none => exact ⟨true, hmem⟩
      | some sst => exact ⟨true, hmem⟩
  obtain ⟨built, hmemory⟩ := hmemory
  obtain ⟨moved, first, rest, hops, hrecords, hmoved, hrest⟩ := hback.memory.flushed built
  obtain ⟨hinv, hcases⟩ := flushTable_cases config hback.invariant
  rw [← hmemory] at hrecords hrest
  have hfiles : (engine.flushTable config).1.fileRecords = moved ++ engine.fileRecords := by
    rcases hcases with ⟨hsame, hfiles, -⟩ | ⟨other, hother, hfiles, -⟩
    · rw [hsame, List.append_right_eq_self] at hrecords
      rw [hfiles, hrecords, List.nil_append]
    · rw [hfiles, List.append_cancel_left (hother.trans hrecords.symm)]
  refine ⟨first, rest, hops, hinv, ?_, hrest⟩
  have hclear : ∀ op ∈ first, op ≠ .clear := fun op hmem =>
    hback.memory.1 op (hops ▸ List.mem_append_left _ hmem)
  rw [hfiles, historyOf_append hclear]
  exact hmoved.append hback.files

theorem flush (hback : WriteBack engine durable volatile) (config : Config) :
    ∃ first rest, volatile = first ++ rest ∧
      WriteBack (engine.flush config).1 (durable ++ first) rest := by
  have hnone : ∀ {engine}, WriteBack engine durable volatile → ∃ first rest,
      volatile = first ++ rest ∧ WriteBack engine (durable ++ first) rest := fun hback =>
    ⟨[], volatile, rfl, (List.append_nil durable).symm ▸ hback⟩
  have hroom := hback.kept (compactFullL0_kept config hback.invariant)
  rw [flush_eq]
  split_ifs
  · exact hnone hback
  · rcases andThen_cases (engine.compactFullL0 config) fun engine _ =>
        engine.flushTable config with ⟨err, -, hrun⟩ | ⟨done, -, hrun⟩
    · rw [hrun]
      exact hnone hroom
    · rw [hrun]
      exact hroom.flushTable config

theorem flushIfFull (hback : WriteBack engine durable volatile) (config : Config) :
    ∃ first rest, volatile = first ++ rest ∧
      WriteBack (engine.flushIfFull config).1 (durable ++ first) rest := by
  unfold Engine.flushIfFull
  split_ifs
  · exact hback.flush config
  · exact ⟨[], volatile, rfl, (List.append_nil durable).symm ▸ hback⟩

/-- An operation that writes nothing. -/
theorem idle (hback : WriteBack engine durable volatile) {op : EngineOp} (hclear : op ≠ .clear)
    (hrecord : op.record [] = []) : WriteBack engine durable (volatile ++ [op]) :=
  ⟨hback.invariant, hback.files,
    hback.memory.write hclear (by rw [hrecord]; exact Versions.Reflects.refl _) rfl⟩

/-- An operation comes behind the others, and any of the earliest ones may become durable with
it, also when it throws. -/
theorem run (hback : WriteBack engine durable volatile) (config : Config) (op : EngineOp) :
    ∃ durable' volatile', durable <+: durable' ∧
      durable' ++ volatile' = durable ++ volatile ++ [op] ∧
      WriteBack (op.run config engine).1 durable' volatile' := by
  have hmoved : ∀ {engine' : Engine}, (∃ first rest, volatile ++ [op] = first ++ rest ∧
      WriteBack engine' (durable ++ first) rest) → ∃ durable' volatile', durable <+: durable' ∧
        durable' ++ volatile' = durable ++ volatile ++ [op] ∧
        WriteBack engine' durable' volatile' := by
    rintro engine' ⟨first, rest, hops, hmoved⟩
    refine ⟨durable ++ first, rest, List.prefix_append _ _, ?_, hmoved⟩
    rw [List.append_assoc, ← hops, List.append_assoc]
  have hwrite : ∀ {mem : MemTable}, mem.HoldsOps (volatile ++ [op]) →
      ∃ durable' volatile', durable <+: durable' ∧
        durable' ++ volatile' = durable ++ volatile ++ [op] ∧
        WriteBack (Engine.flushIfFull config { engine with memtable := mem }).1 durable'
          volatile' := fun hmemory =>
    hmoved ((hback.withMemtable hmemory).flushIfFull config)
  cases op with
  | put key value trancId =>
      exact hwrite (hback.memory.writeBatch config EngineOp.noConfusion Prod.fst Prod.snd trancId
        [(key, value)] rfl)
  | putBatch kvs trancId =>
      exact hwrite (hback.memory.writeBatch config EngineOp.noConfusion Prod.fst Prod.snd trancId
        kvs (List.append_nil _))
  | remove key trancId =>
      exact hwrite (hback.memory.writeBatch config EngineOp.noConfusion id (fun _ => []) trancId
        [key] rfl)
  | removeBatch keys trancId =>
      exact hwrite (hback.memory.writeBatch config EngineOp.noConfusion id (fun _ => []) trancId
        keys (List.append_nil _))
  | freeze =>
      have hidle : WriteBack engine durable (volatile ++ [.freeze]) :=
        hback.idle EngineOp.noConfusion rfl
      exact ⟨durable, _, List.prefix_rfl, (List.append_assoc ..).symm,
        hidle.withMemtable hidle.memory.frozenCurTable_⟩
  | flush => exact hmoved ((hback.idle EngineOp.noConfusion rfl).flush config)
  | compact srcLevel =>
      have hidle : WriteBack engine durable (volatile ++ [.compact srcLevel]) :=
        hback.idle EngineOp.noConfusion rfl
      have hkept := fullCompact_kept config hback.invariant (engine.levelSstIds.length + 1) srcLevel
      refine ⟨durable, _, List.prefix_rfl, (List.append_assoc ..).symm, ?_⟩
      rcases andThen_cases (engine.compact config srcLevel) fun engine _ =>
          (engine, (.ok ⟨0, []⟩ : Except Err Flushed)) with ⟨err, -, hrun⟩ | ⟨done, -, hrun⟩
      · rw [EngineOp.run, hrun]
        exact hidle.kept hkept
      · rw [EngineOp.run, hrun]
        exact hidle.kept hkept
  | clear =>
      refine ⟨durable ++ volatile ++ [.clear], [], ?_, List.append_nil _, ?_⟩
      · rw [List.append_assoc]
        exact List.prefix_append _ _
      · refine ⟨hback.invariant.clear, ?_, MemTable.holdsOps_empty rfl⟩
        rw [historyOf, List.foldl_concat]
        exact Versions.Reflects.refl _

end WriteBack

end Engine

/-! ## Runs with crashes -/

/-- An operation, or the end of the process and a new engine on the directory, as it is
listed. -/
inductive CrashStep where
  | perform (op : EngineOp)
  | crash (listing : Directory → List (Bytes × Option Bytes))

namespace CrashStep

/-- The engine and the directory after a step. -/
def run (config : Config) (params : BloomParams) (leftover : Leftover)
    (store : Engine × Directory) : CrashStep → Except Err (Engine × Directory)
  | perform op =>
      let outcome := op.run config store.1
      outcome.2.map fun _ =>
        (outcome.1, store.2.applyAll config params leftover (op.fileOps config store.1))
  | crash listing => (Engine.openDir config (listing store.2)).map fun engine => (engine, store.2)

/-- Starts list the directory as it is. -/
def Lists : CrashStep → Prop
  | perform _ => True
  | crash listing => Engine.ListsFiles listing

/-- An operation that does not throw, or a crash when the tables fit their format. -/
def Orderly (config : Config) (store : Engine × Directory) : CrashStep → Prop
  | perform op => (op.run config store.1).2.isOk = true
  | crash _ => ∀ stored ∈ store.1.ssts.entries, stored.2.WithinFormat config

end CrashStep

/-- Run the steps until one throws. -/
def runCrashing (config : Config) (params : BloomParams) (leftover : Leftover) :
    Engine × Directory → List CrashStep → Except Err (Engine × Directory)
  | store, [] => .ok store
  | store, step :: rest =>
      match step.run config params leftover store with
      | .error err => .error err
      | .ok next => runCrashing config params leftover next rest

/-- Every step is orderly where it is taken. -/
def OrderlyCrashes (config : Config) (params : BloomParams) (leftover : Leftover) :
    Engine × Directory → List CrashStep → Prop
  | _, [] => True
  | store, step :: rest => step.Orderly config store ∧
      match step.run config params leftover store with
      | .error _ => True
      | .ok next => OrderlyCrashes config params leftover next rest

section

variable (config : Config) (params : BloomParams) (leftover : Leftover)

instance (store : Engine × Directory) : (step : CrashStep) → Decidable (step.Orderly config store)
  | .perform _ => inferInstanceAs (Decidable (_ = true))
  | .crash _ => inferInstanceAs (Decidable (∀ stored ∈ store.1.ssts.entries, _))

instance decidableOrderlyCrashes : (store : Engine × Directory) → (steps : List CrashStep) →
    Decidable (OrderlyCrashes config params leftover store steps)
  | _, [] => isTrue trivial
  | store, step :: rest =>
      @instDecidableAnd _ _ inferInstance <|
        match step.run config params leftover store with
        | .error _ => isTrue trivial
        | .ok next => decidableOrderlyCrashes next rest

end

/-- What may be left of the operations of a run: a step brings one more, and any of the
earliest in memory may become durable with it; a crash takes those in memory. -/
inductive Survive : List CrashStep → List EngineOp → List EngineOp → Prop
  | start : Survive [] [] []
  | perform {steps : List CrashStep} {durable volatile durable' volatile' : List EngineOp}
      {op : EngineOp} (hbefore : Survive steps durable volatile)
      (hdurable : durable <+: durable')
      (hops : durable' ++ volatile' = durable ++ volatile ++ [op]) :
      Survive (steps ++ [.perform op]) durable' volatile'
  | crash {steps : List CrashStep} {durable volatile : List EngineOp}
      {listing : Directory → List (Bytes × Option Bytes)}
      (hbefore : Survive steps durable volatile) :
      Survive (steps ++ [.crash listing]) durable []

namespace Engine

variable {config : Config} {params : BloomParams} {store : Engine × Directory}
  {built : OrdMap ℕ SST} {steps : List CrashStep} {durable volatile : List EngineOp}

/-- A step keeps engine, directory and surviving operations together. -/
theorem WriteBack.step (hsizes : BloomSized config) (leftover : Leftover)
    (hback : WriteBack store.1 durable volatile)
    (hdisk : OnDisk config params store.1 store.2 built)
    (hsurvive : Survive steps durable volatile) {step : CrashStep} (hlists : step.Lists)
    (horderly : step.Orderly config store) :
    ∃ next built' durable' volatile', step.run config params leftover store = .ok next ∧
      WriteBack next.1 durable' volatile' ∧ OnDisk config params next.1 next.2 built' ∧
      Survive (steps ++ [step]) durable' volatile' := by
  cases step with
  | perform op =>
      obtain ⟨durable', volatile', hdurable, hops, hnext⟩ := hback.run config op
      rcases hop : op.run config store.1 with ⟨engine, err | flushed⟩
      · rw [CrashStep.Orderly, hop] at horderly
        cases horderly
      · obtain ⟨built', hkept⟩ := hdisk.run leftover (congrArg Prod.snd hop)
        refine ⟨((op.run config store.1).1,
            store.2.applyAll config params leftover (op.fileOps config store.1)), built', durable',
          volatile', ?_, hnext, hkept, hsurvive.perform hdurable hops⟩
        rw [CrashStep.run, hop]
        rfl
  | crash listing =>
      obtain ⟨reopened, hopen, hkept, hinv, hmemory, hfiles⟩ :=
        hdisk.reopen hsizes horderly hlists
      refine ⟨(reopened, store.2), built, durable, [], ?_,
        ⟨hinv, hfiles ▸ hback.files, MemTable.holdsOps_empty hmemory⟩, hkept, hsurvive.crash⟩
      rw [CrashStep.run, hopen]
      rfl

theorem WriteBack.runSteps (hsizes : BloomSized config) (leftover : Leftover)
    (hback : WriteBack store.1 durable volatile)
    (hdisk : OnDisk config params store.1 store.2 built)
    (hsurvive : Survive steps durable volatile) {rest : List CrashStep}
    (hlists : ∀ step ∈ rest, step.Lists)
    (horderly : OrderlyCrashes config params leftover store rest) :
    ∃ final durable' volatile', runCrashing config params leftover store rest = .ok final ∧
      Survive (steps ++ rest) durable' volatile' ∧ WriteBack final.1 durable' volatile' := by
  induction rest generalizing store built steps durable volatile with
  | nil => exact ⟨store, durable, volatile, rfl, (List.append_nil steps).symm ▸ hsurvive, hback⟩
  | cons step rest ih =>
      obtain ⟨hfirst, hrest⟩ := horderly
      obtain ⟨next, built', durable', volatile', hstep, hback', hdisk', hsurvive'⟩ :=
        hback.step hsizes leftover hdisk hsurvive (hlists step List.mem_cons_self) hfirst
      rw [hstep] at hrest
      obtain ⟨final, durable'', volatile'', hrun, hsurvive'', hfinal⟩ :=
        ih hback' hdisk' hsurvive'
          (fun other hother => hlists other (List.mem_cons_of_mem _ hother)) hrest
      refine ⟨final, durable'', volatile'', ?_, ?_, hfinal⟩
      · rw [runCrashing, hstep]
        exact hrun
      · rw [← List.append_cons] at hsurvive''
        exact hsurvive''

/-- An overwritten record comes back when the crash takes the write that is in memory; what
was flushed and what comes after the crash stays. -/
def sampleCrash : List CrashStep :=
  [.perform (.put [1] [7] 3), .perform .flush, .perform (.put [1] [8] 4),
    .crash (fun dir => dir.entries.reverse), .perform (.put [2] [6] 5)]

end Engine

end KopiDb
