import KopiDb.MarkerGroups
import KopiDb.FlushedIds
import KopiDb.MemAccounting

/-!
# What a flush can write

A flush writes the oldest memory table, and before it merges levels that are full.  Each of
these brings commit markers together.  As long as none brings too many together, a flush of
records with one version of every user key does not throw a length error.
-/

namespace KopiDb

theorem markers_perm {left right : List Entry} (hperm : left.Perm right) :
    markers left = markers right := hperm.countP_eq _

namespace Engine

variable {config : Config} {engine : Engine}

/-- Every merge of a compaction brings few markers together.  A level that is full goes deeper
first, and the level above it is then merged alone. -/
def CompactFits (config : Config) : ℕ → Engine → ℕ → Prop
  | 0, _, _ => True
  | fuel + 1, engine, srcLevel =>
      let upper := engine.recordsOf (engine.level srcLevel)
      let lower := engine.recordsOf (engine.level (srcLevel + 1))
      if (engine.level (srcLevel + 1)).length ≥ config.lsmSstLevelRatio then
        CompactFits config fuel engine (srcLevel + 1) ∧ markers upper ≤ maxMarkers
      else markers (upper ++ lower) ≤ maxMarkers

/-- The records that the next flush writes. -/
def oldestRecords (engine : Engine) : List Entry :=
  (engine.memtable.flushStart.frozenTables.getLast?.map SkipList.nodes).getD []

/-- A flush finds few markers in the oldest memory table and in each merge. -/
def FlushFits (config : Config) (engine : Engine) : Prop :=
  engine.memtable.getTotalSize ≠ 0 → markers engine.oldestRecords ≤ maxMarkers ∧
    (engine.levelSstIds ≠ [] ∧ (engine.level 0).length ≥ config.lsmSstLevelRatio →
      CompactFits config (engine.levelSstIds.length + 1) engine 0)

/-- A result that is no length error. -/
def NoLengthError {α : Type} (outcome : Except Err α) : Prop :=
  ∀ text, outcome ≠ .error (.lengthError text)

theorem noLengthError_ok {α : Type} (result : α) : NoLengthError (.ok result : Except Err α) :=
  fun text heq => by cases heq

/-- The same exception with another type of results. -/
theorem NoLengthError.error {α β : Type} {outcome : Except Err α} (hnone : NoLengthError outcome)
    {err : Err} (herr : outcome = .error err) : NoLengthError (.error err : Except Err β) := by
  intro text heq
  exact hnone text (herr.trans (congrArg Except.error (Except.error.inj heq)))

theorem noLengthError_of_ne {α : Type} {err : Err} (hne : ∀ text, err ≠ .lengthError text) :
    NoLengthError (.error err : Except Err α) := fun text heq => hne text (Except.error.inj heq)

theorem noLengthError_map {α β : Type} {outcome : Except Err α} (hnone : NoLengthError outcome)
    (rename : α → β) : NoLengthError (outcome.map rename) := by
  cases outcome with
  | error err =>
      intro text heq
      cases heq
      exact hnone text rfl
  | ok result => exact noLengthError_ok _

theorem noLengthError_fault {α : Type} {err : Err} (hfault : Fault config err) :
    NoLengthError (.error err : Except Err α) := by
  rintro text ⟨⟩
  obtain ⟨⟨other, hother⟩, -⟩ := hfault
  cases hother

theorem getD_append_sublist_flatten (levels : List (List ℕ)) (level : ℕ) :
    (levels.getD level [] ++ levels.getD (level + 1) []).Sublist levels.flatten := by
  induction levels generalizing level with
  | nil => simp
  | cons first rest ih =>
      cases level with
      | zero =>
          cases rest with
          | nil => simp
          | cons second rest => simp
      | succ level =>
          rw [List.getD_cons_succ, List.getD_cons_succ, List.flatten_cons]
          exact (ih level).trans (List.sublist_append_right first _)

/-- The records of two levels that are merged are among those in files. -/
theorem light_levels (hlight : Light engine.fileRecords) (srcLevel : ℕ) :
    Light (engine.recordsOf (engine.level srcLevel) ++
      engine.recordsOf (engine.level (srcLevel + 1))) := by
  rw [← recordsOf_append]
  rw [fileRecords_eq] at hlight
  apply hlight.sublist
  have hsub := getD_append_sublist_flatten engine.levelSstIds srcLevel
  exact (hsub.filterMap engine.ssts.find?).flatMap SST.records

theorem mergeLevels_light (hinv : LevelInvariant engine)
    (hcapacity : config.lsmBlockSize ≤ uint16Max) (hlight : Light engine.fileRecords)
    {srcLevel : ℕ} (hfew : markers (engine.recordsOf (engine.level srcLevel) ++
      engine.recordsOf (engine.level (srcLevel + 1))) ≤ maxMarkers) :
    NoLengthError (mergeLevels config engine srcLevel).2 := by
  obtain ⟨ι, cursor, iter, targetSstSize, hmerge, hsorted, hsame⟩ :=
    mergeLevels_eq config hinv srcLevel
  have hperm := hsame.perm
  have hlevels := light_levels hlight srcLevel
  rw [hmerge]
  rcases @genSstFromIter_light config engine targetSstSize (srcLevel + 1) ι cursor iter hcapacity
      hsorted (hlevels.perm hperm) (by rwa [markers_perm hperm]) with
    ⟨ssts, hok⟩ | ⟨err, herr, hfault⟩
  · rw [hok]
    exact noLengthError_ok ssts
  · rw [herr]
    exact noLengthError_fault hfault

theorem fullCompact_light (hcapacity : config.lsmBlockSize ≤ uint16Max) {fuel srcLevel : ℕ}
    (hinv : LevelInvariant engine) (hlight : Light engine.fileRecords)
    (hfits : CompactFits config fuel engine srcLevel) :
    NoLengthError (fullCompact config fuel engine srcLevel).2 := by
  induction fuel generalizing engine srcLevel with
  | zero => exact noLengthError_of_ne (by simp)
  | succ fuel ih =>
      -- The merge itself, after there is room below.
      have hmerge {engine : Engine} (hinv : LevelInvariant engine)
          (hlight : Light engine.fileRecords)
          (hfew : markers (engine.recordsOf (engine.level srcLevel) ++
            engine.recordsOf (engine.level (srcLevel + 1))) ≤ maxMarkers) :
          NoLengthError (andThen (mergeLevels config engine srcLevel) fun engine newSsts =>
            (engine.install srcLevel newSsts, (.ok () : Except Err Unit))).2 := by
        have hmerged := mergeLevels_light hinv hcapacity hlight hfew
        rcases andThen_cases (mergeLevels config engine srcLevel) fun engine newSsts =>
            (engine.install srcLevel newSsts, (.ok () : Except Err Unit)) with
          ⟨err, herr, hrun⟩ | ⟨newSsts, -, hrun⟩
        · rw [hrun]
          exact hmerged.error herr
        · rw [hrun]
          exact noLengthError_ok ()
      rw [CompactFits] at hfits
      rw [fullCompact_succ]
      unfold makeRoom
      split_ifs at hfits ⊢ with hfull
      · obtain ⟨hbelow, hfew⟩ := hfits
        have hroom := ih hinv hlight hbelow
        rcases andThen_cases (fullCompact config fuel engine (srcLevel + 1)) _ with
          ⟨err, herr, hrun⟩ | ⟨done, hok, hrun⟩
        · rw [hrun]
          exact hroom.error herr
        · rw [hrun]
          have hnext := fullCompact_compacted hinv hok
          obtain ⟨hlevel, hrecords⟩ := hnext.above srcLevel (Nat.lt_succ_self srcLevel)
          apply hmerge hnext.kept.invariant (hlight.perm hnext.kept.sameVersions.perm)
          rw [hnext.emptied, hlevel, hrecords]
          rwa [show Engine.recordsOf _ [] = [] from rfl, List.append_nil]
      · exact hmerge hinv hlight hfits

theorem build_noLengthError {builder : SSTBuilder} (hready : builder.Ready config)
    (sstId : ℕ) : NoLengthError (builder.build sstId) := by
  by_cases hempty : builder.block.entries = []
  · unfold SSTBuilder.build
    rw [if_pos (by rw [Block.isEmpty, hempty]; rfl)]
    dsimp only
    split
    · split_ifs
      · intro text heq
        cases heq
      · exact noLengthError_ok _
    · intro text heq
      cases heq
  · rcases hready.build_cases hempty sstId with ⟨sst, hok⟩ | ⟨hcreate, text, herr⟩
    · rw [hok]
      exact noLengthError_ok sst
    · rw [herr]
      exact noLengthError_fault (Fault.of_create hcreate text)

/-- The part of a flush behind the compaction. -/
theorem flushTable_light (hcapacity : config.lsmBlockSize ≤ uint16Max)
    (hlight : Light engine.memtable.records)
    (hfew : markers engine.oldestRecords ≤ maxMarkers) :
    NoLengthError (engine.flushTable config).2 := by
  have hstart : engine.memtable.flushStart.records = engine.memtable.records := by
    rw [MemTable.flushStart]
    split_ifs
    · exact engine.memtable.records_frozenCurTable_
    · rfl
  have hflush : NoLengthError (engine.memtable.flushLast (SSTBuilder.new config)
      (engine.takeSstId 0).2 []).2.2 := by
    rw [oldestRecords] at hfew
    rw [MemTable.flushLast]
    rw [show (if engine.memtable.frozenTables.isEmpty then engine.memtable.frozenCurTable_
      else engine.memtable) = engine.memtable.flushStart from rfl]
    split
    next hback => exact noLengthError_ok none
    next table hback =>
      rw [hback] at hfew
      have htable : table ∈ engine.memtable.flushStart.tables :=
        List.mem_cons_of_mem _ (List.mem_of_getLast? hback)
      have hnodes : Light table.nodes := by
        rw [← hstart] at hlight
        rw [MemTable.records, List.flatMap_def] at hlight
        exact hlight.sublist (List.sublist_flatten_of_mem (List.mem_map_of_mem htable))
      obtain ⟨builder, hadds, hready, -⟩ :=
        @SSTBuilder.Ready.addAll_light config (SSTBuilder.new config) [] table.nodes
          (SSTBuilder.ready_new config) (SSTBuilder.packs_new config) hcapacity
          table.ordered.sorted hnodes hfew
      rw [SkipList.flush, hadds]
      dsimp only
      split
      next err herr => exact (build_noLengthError hready _).error herr
      next sst => exact noLengthError_ok _
  unfold flushTable
  dsimp only
  split
  next err herr => exact hflush.error herr
  next => exact noLengthError_ok _
  next => exact noLengthError_ok _

theorem flush_light (hcapacity : config.lsmBlockSize ≤ uint16Max) (hinv : LevelInvariant engine)
    (hlight : Light engine.records) (hfits : engine.FlushFits config) :
    NoLengthError (engine.flush config).2 := by
  have hmemory : Light engine.memtable.records :=
    hlight.sublist (List.sublist_append_left _ _)
  have hfiles : Light engine.fileRecords := hlight.sublist (List.sublist_append_right _ _)
  rw [flush_eq]
  split_ifs with hsize
  · exact noLengthError_ok _
  · obtain ⟨holdest, hcompact⟩ := hfits hsize
    have hroom : NoLengthError (engine.compactFullL0 config).2 := by
      unfold compactFullL0
      split_ifs with hfull
      · exact fullCompact_light hcapacity hinv hfiles (hcompact hfull)
      · exact noLengthError_ok ()
    rcases andThen_cases (engine.compactFullL0 config) fun engine _ =>
        engine.flushTable config with ⟨err, herr, hrun⟩ | ⟨done, -, hrun⟩
    · rw [hrun]
      exact hroom.error herr
    · have hkept := compactFullL0_kept config hinv
      rw [hrun]
      apply flushTable_light hcapacity
      · rwa [hkept.memtable]
      · rwa [oldestRecords, hkept.memtable]

end Engine

end KopiDb
