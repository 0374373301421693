import KopiDb.Reads

/-!
# Flushes and writes

A flush moves the oldest frozen table into a new file of level 0.  Every operation of
the engine keeps the level invariant, also when it throws, and acts on the records
like the writes it stands for.
-/

namespace KopiDb

namespace Engine

variable {config : Config} {engine engine' : Engine}

/-! ## A new file in level 0 -/

/-- A flushed file with the number that was given out for it. -/
structure FlushedFile (engine : Engine) (sst : SST) : Prop where
  wellFormed : sst.WellFormed
  distinct : NodesOrdered sst.records
  absent : engine.ssts.contains sst.sstId = false
  newest : ∀ id ∈ engine.level 0, id < sst.sstId
  lt_next : sst.sstId < engine.nextSstId

/-- The bookkeeping of `flush` after the file was built. -/
def installL0 (engine : Engine) (sst : SST) : Engine :=
  { engine with
    ssts := engine.ssts.insert sst.sstId sst
    levelSstIds := setLevel engine.levelSstIds 0 (sst.sstId :: engine.level 0) }

section InstallL0

variable {sst : SST}

theorem find?_installL0 (engine : Engine) (sst : SST) (id : ℕ) :
    (engine.installL0 sst).ssts.find? id =
      if id = sst.sstId then some sst else engine.ssts.find? id :=
  OrdMap.find?_insert _ _ _ _

theorem level_installL0 (engine : Engine) (sst : SST) (other : ℕ) :
    (engine.installL0 sst).level other =
      if other = 0 then sst.sstId :: engine.level 0 else engine.level other :=
  getD_setLevel _ _ _ _

private theorem flatten_installL0 (engine : Engine) (sst : SST) :
    (engine.installL0 sst).levelSstIds.flatten = sst.sstId :: engine.levelSstIds.flatten := by
  obtain ⟨back, pad, hpad, hset⟩ :=
    setLevel_zero engine.levelSstIds (sst.sstId :: engine.level 0)
  have hflat := congrArg List.flatten hpad
  have hnil : (List.replicate pad ([] : List ℕ)).flatten = [] := by simp
  rw [List.flatten_append, hnil, List.append_nil, List.flatten_cons] at hflat
  rw [installL0, hset, List.flatten_cons, List.cons_append, hflat]
  rfl

/-- Files that were there keep their place in the map. -/
private theorem sstsOf_installL0 (hfile : FlushedFile engine sst) {ids : List ℕ}
    (hstored : ∀ id ∈ ids, engine.ssts.contains id = true) :
    (engine.installL0 sst).sstsOf ids = engine.sstsOf ids := by
  apply sstsOf_congr
  intro id hmem
  have hne : id ≠ sst.sstId := by
    rintro rfl
    have hcontains := hstored _ hmem
    rw [hfile.absent] at hcontains
    cases hcontains
  rw [find?_installL0, if_neg hne]

private theorem stored_of_level (hinv : LevelInvariant engine) {level : ℕ} :
    ∀ id ∈ engine.level level, engine.ssts.contains id = true :=
  fun id hmem => (hinv.mem_iff id).mp (mem_level_flatten hmem)

private theorem sstsOf_cons_installL0 (engine : Engine) (sst : SST) (ids : List ℕ) :
    (engine.installL0 sst).sstsOf (sst.sstId :: ids) =
      sst :: (engine.installL0 sst).sstsOf ids := by
  apply List.filterMap_cons_some
  rw [find?_installL0, if_pos rfl]

theorem LevelInvariant.installL0 (hinv : LevelInvariant engine)
    (hfile : FlushedFile engine sst) : LevelInvariant (engine.installL0 sst) where
  nodup := by
    rw [flatten_installL0, List.nodup_cons]
    refine ⟨?_, hinv.nodup⟩
    rw [hinv.mem_iff, hfile.absent]
    exact Bool.false_ne_true
  mem_iff id := by
    rw [flatten_installL0, List.mem_cons, hinv.mem_iff, OrdMap.contains_eq_isSome,
      OrdMap.contains_eq_isSome, find?_installL0]
    by_cases hid : id = sst.sstId <;> simp [hid]
  keyed id other hfind := by
    rw [find?_installL0] at hfind
    split_ifs at hfind with hid
    · rw [hid, Option.some.inj hfind]
    · exact hinv.keyed id other hfind
  wellFormed id other hfind := by
    rw [find?_installL0] at hfind
    split_ifs at hfind with hid
    · exact Option.some.inj hfind ▸ hfile.wellFormed
    · exact hinv.wellFormed id other hfind
  descending := by
    rw [level_installL0, if_pos rfl]
    exact List.pairwise_cons.mpr ⟨hfile.newest, hinv.descending⟩
  distinct := by
    rw [level_installL0, if_pos rfl, sstsOf_cons_installL0,
      sstsOf_installL0 hfile (stored_of_level hinv)]
    intro other hmem
    rcases List.mem_cons.mp hmem with rfl | hmem
    · exact hfile.distinct
    · exact hinv.distinct other hmem
  separated level hlevel := by
    rw [level_installL0, if_neg hlevel, sstsOf_installL0 hfile (stored_of_level hinv)]
    exact hinv.separated level hlevel
  paths_lt := hinv.paths_lt
  paths_nodup := hinv.paths_nodup
  stored_lt id hcontains := by
    rw [OrdMap.contains_eq_isSome, find?_installL0] at hcontains
    split_ifs at hcontains with hid
    · rw [hid]
      exact hfile.lt_next
    · exact hinv.stored_lt id hcontains

theorem fileRecords_installL0 (hinv : LevelInvariant engine) (hfile : FlushedFile engine sst) :
    (engine.installL0 sst).fileRecords = sst.records ++ engine.fileRecords := by
  have hold := sstsOf_installL0 hfile fun id hmem => (hinv.mem_iff id).mp hmem
  rw [fileRecords_eq, fileRecords_eq, flatten_installL0, recordsOf, sstsOf_cons_installL0,
    hold, List.flatMap_cons]
  rfl

end InstallL0

/-! ## Flushes -/

/-- The compaction that `flush` starts when level 0 is full. -/
def compactFullL0 (config : Config) (engine : Engine) : Engine × Except Err Unit :=
  if engine.levelSstIds ≠ [] ∧ (engine.level 0).length ≥ config.lsmSstLevelRatio then
    engine.compact config 0
  else (engine, .ok ())

theorem compactFullL0_kept (config : Config) (hinv : LevelInvariant engine) :
    Kept engine (engine.compactFullL0 config).1 := by
  unfold compactFullL0
  split_ifs
  · exact fullCompact_kept config hinv _ 0
  · exact Kept.refl hinv

/-- The part of `flush` after the compaction. -/
def flushTable (config : Config) (engine : Engine) : Engine × Except Err Flushed :=
  let taken := engine.takeSstId 0
  let flushed := engine.memtable.flushLast (SSTBuilder.new config) taken.2 []
  let engine := { taken.1 with memtable := flushed.1 }
  match flushed.2.2 with
  | .error err => (engine, .error err)
  | .ok none => (engine, .ok ⟨0, []⟩)
  | .ok (some sst) =>
      ({ engine with
          ssts := engine.ssts.insert taken.2 sst
          levelSstIds := setLevel engine.levelSstIds 0 (taken.2 :: engine.level 0) },
        .ok ⟨sst.maxTrancId, flushed.2.1⟩)

theorem flush_eq (config : Config) (engine : Engine) :
    engine.flush config =
      if engine.memtable.getTotalSize = 0 then (engine, .ok ⟨0, []⟩)
      else andThen (engine.compactFullL0 config) fun engine _ => engine.flushTable config :=
  rfl

/-- What moving one table can do: change no record, or put the records of the oldest
table into a file. -/
theorem flushTable_cases (config : Config) (hinv : LevelInvariant engine) :
    let outcome := engine.flushTable config
    LevelInvariant outcome.1 ∧
      ((outcome.1.memtable.records = engine.memtable.records ∧
          outcome.1.fileRecords = engine.fileRecords ∧
          ∀ flushed, outcome.2 = .ok flushed → flushed.flushedTrancIds = []) ∨
        ∃ moved, outcome.1.memtable.records ++ moved = engine.memtable.records ∧
          outcome.1.fileRecords = moved ++ engine.fileRecords ∧
          ∃ flushed, outcome.2 = .ok flushed ∧
            flushed.flushedTrancIds = MemTable.markerIds moved) := by
  have htaken := hinv.advance (advanced_takeSstId engine 0)
  simp only [flushTable]
  generalize hflush : engine.memtable.flushLast (SSTBuilder.new config)
    (engine.takeSstId 0).2 [] = moved
  obtain ⟨mem, ids, result⟩ := moved
  have hcases := engine.memtable.flushLast_cases config _ [] hflush
  rcases hcases with ⟨hrecords, -, hresult⟩ |
    ⟨sst, rfl, hsst, hid, hdistinct, hrecords, hids⟩
  · cases result with
    | error err =>
        exact ⟨htaken.withMemtable mem, Or.inl ⟨hrecords, rfl, fun flushed hok => by cases hok⟩⟩
    | ok found =>
        cases found with
        | none =>
            refine ⟨htaken.withMemtable mem, Or.inl ⟨hrecords, rfl, fun flushed hok => ?_⟩⟩
            rw [← Except.ok.inj hok]
        | some sst => exact absurd rfl (hresult sst)
  · have hfile : FlushedFile { (engine.takeSstId 0).1 with memtable := mem } sst :=
      { wellFormed := hsst
        distinct := hdistinct
        absent := by
          rw [hid, ← Bool.not_eq_true]
          exact fun hcontains => (hinv.stored_lt _ hcontains).false
        newest := by
          intro id hmem
          rw [hid]
          exact hinv.stored_lt id ((hinv.mem_iff id).mp (mem_level_flatten hmem))
        lt_next := by
          rw [hid]
          exact Nat.lt_succ_self _ }
    have hinstalled := (htaken.withMemtable mem).installL0 hfile
    have hfiles := fileRecords_installL0 (htaken.withMemtable mem) hfile
    rw [installL0, hid] at hinstalled hfiles
    exact ⟨hinstalled, Or.inr ⟨sst.records, hrecords, hfiles, _, rfl, hids⟩⟩

/-- A flush keeps the invariant and the records, also when it throws. -/
theorem flush_kept (config : Config) (hinv : LevelInvariant engine) :
    LevelInvariant (engine.flush config).1 ∧
      Versions.SameVersions (engine.flush config).1.records engine.records := by
  rw [flush_eq]
  split_ifs
  · exact ⟨hinv, Versions.SameVersions.refl _⟩
  · have hkept := compactFullL0_kept config hinv
    have hcompacted : Versions.SameVersions (engine.compactFullL0 config).1.records
        engine.records := by
      rw [records, records, hkept.memtable]
      exact (Versions.SameVersions.refl _).append hkept.sameVersions
    rcases andThen_cases (engine.compactFullL0 config) fun engine _ =>
        engine.flushTable config with ⟨err, -, hrun⟩ | ⟨done, -, hrun⟩
    · rw [hrun]
      exact ⟨hkept.invariant, hcompacted⟩
    · rw [hrun]
      obtain ⟨hinv', hcases⟩ := flushTable_cases config hkept.invariant
      refine ⟨hinv', Versions.SameVersions.trans ?_ hcompacted⟩
      rcases hcases with ⟨hmemory, hfiles, -⟩ | ⟨moved, hmemory, hfiles, -⟩
      · rw [records, records, hmemory, hfiles]
        exact Versions.SameVersions.refl _
      · rw [records, records, ← hmemory, hfiles, List.append_assoc]
        exact Versions.SameVersions.refl _

theorem flushIfFull_kept (config : Config) (hinv : LevelInvariant engine) :
    LevelInvariant (engine.flushIfFull config).1 ∧
      Versions.SameVersions (engine.flushIfFull config).1.records engine.records := by
  unfold flushIfFull
  split_ifs
  · exact flush_kept config hinv
  · exact ⟨hinv, Versions.SameVersions.refl _⟩

/-- What a flush does to the memory: the oldest records leave, and the markers among them
are reported. -/
theorem flush_moves (config : Config) (hinv : LevelInvariant engine) :
    ∃ moved, (engine.flush config).1.memtable.records ++ moved = engine.memtable.records ∧
      ∀ flushed, (engine.flush config).2 = .ok flushed →
        flushed.flushedTrancIds = MemTable.markerIds moved := by
  rw [flush_eq]
  split_ifs
  · exact ⟨[], List.append_nil _, fun flushed hok => by rw [← Except.ok.inj hok]; rfl⟩
  · have hkept := compactFullL0_kept config hinv
    rcases andThen_cases (engine.compactFullL0 config) fun engine _ =>
        engine.flushTable config with ⟨err, -, hrun⟩ | ⟨done, -, hrun⟩
    · rw [hrun]
      exact ⟨[], by rw [List.append_nil, hkept.memtable], fun flushed hok => by cases hok⟩
    · rw [hrun, ← hkept.memtable]
      obtain ⟨-, hcases⟩ := flushTable_cases config hkept.invariant
      rcases hcases with ⟨hmemory, -, hids⟩ | ⟨moved, hmemory, -, flushed, hok, hids⟩
      · exact ⟨[], by rw [List.append_nil, hmemory], hids⟩
      · refine ⟨moved, hmemory, fun other hother => ?_⟩
        rw [← Except.ok.inj (hok.symm.trans hother), hids]

theorem flushIfFull_moves (config : Config) (hinv : LevelInvariant engine) :
    ∃ moved, (engine.flushIfFull config).1.memtable.records ++ moved =
        engine.memtable.records ∧
      ∀ flushed, (engine.flushIfFull config).2 = .ok flushed →
        flushed.flushedTrancIds = MemTable.markerIds moved := by
  unfold flushIfFull
  split_ifs
  · exact flush_moves config hinv
  · exact ⟨[], List.append_nil _, fun flushed hok => by rw [← Except.ok.inj hok]; rfl⟩

end Engine

end KopiDb
