import KopiDb.Orphans

/-!
# Numbers of tables

Every table that is built gets a number that no table had before it, also when calls throw,
builds fail or everything is cleared.
-/

namespace KopiDb

namespace Engine

variable {config : Config} {engine : Engine}

theorem writtenTables_append (front back : List FileOp) :
    writtenTables (front ++ back) = writtenTables front ++ writtenTables back :=
  List.flatMap_append

theorem writtenTables_map (level : ℕ) (ssts : List SST) :
    writtenTables (ssts.map (writeOp level)) = ssts := by
  induction ssts with
  | nil => rfl
  | cons sst rest ih =>
      rw [List.map_cons]
      exact congrArg (sst :: ·) ih

/-- Failed builds leave no table. -/
theorem writtenTables_torn {level : ℕ} {ops : List FileOp} (htorn : Torn level ops) :
    writtenTables ops = [] := by
  rcases htorn with rfl | ⟨sstId, sst, rfl⟩
  · rfl
  · rfl

theorem writtenTables_removeOps (engine : Engine) (ids : List ℕ) :
    writtenTables (removeOps engine ids) = [] := by
  induction ids with
  | nil => rfl
  | cons id rest ih => exact ih

/-- File operations that write tables under ascending numbers of a span. -/
structure Numbers (first last : ℕ) (ops : List FileOp) : Prop where
  le : first ≤ last
  ascending : ((writtenTables ops).map SST.sstId).Pairwise fun left right => left < right
  span : ∀ sst ∈ writtenTables ops, first ≤ sst.sstId ∧ sst.sstId < last

namespace Numbers

variable {first middle last : ℕ} {ops ops' : List FileOp}

theorem of_nothing (hle : first ≤ last) (hnothing : writtenTables ops = []) :
    Numbers first last ops where
  le := hle
  ascending := by
    rw [hnothing]
    exact List.Pairwise.nil
  span := by
    rw [hnothing]
    exact fun sst hmem => absurd hmem List.not_mem_nil

theorem append (hleft : Numbers first middle ops) (hright : Numbers middle last ops') :
    Numbers first last (ops ++ ops') where
  le := hleft.le.trans hright.le
  ascending := by
    rw [writtenTables_append, List.map_append, List.pairwise_append]
    refine ⟨hleft.ascending, hright.ascending, ?_⟩
    intro left hmem right hmem'
    obtain ⟨sst, hsst, rfl⟩ := List.mem_map.mp hmem
    obtain ⟨sst', hsst', rfl⟩ := List.mem_map.mp hmem'
    exact (hleft.span sst hsst).2.trans_le (hright.span sst' hsst').1
  span := by
    intro sst hmem
    rw [writtenTables_append, List.mem_append] at hmem
    rcases hmem with hmem | hmem
    · exact ⟨(hleft.span sst hmem).1, (hleft.span sst hmem).2.trans_le hright.le⟩
    · exact ⟨hleft.le.trans (hright.span sst hmem).1, (hright.span sst hmem).2⟩

end Numbers

theorem numbers_mergeOps (config : Config) (hinv : LevelInvariant engine) (srcLevel : ℕ) :
    Numbers engine.nextSstId (mergeLevels config engine srcLevel).1.nextSstId
      (mergeOps config engine srcLevel) := by
  obtain ⟨outputs, torn, merged, remaining, hmerge⟩ := mergeOps_cases config hinv srcLevel
  have htorn : writtenTables torn = [] := by
    rcases hmerge.ended with ⟨-, -, rfl⟩ | ⟨-, htorn⟩
    · rfl
    · exact writtenTables_torn htorn
  have hwritten : writtenTables (mergeOps config engine srcLevel) = outputs := by
    rw [hmerge.ops, writtenTables_append, writtenTables_map, htorn, List.append_nil]
  have hids := hmerge.written.ids
  constructor
  · exact hmerge.written.advanced.nextSstId
  · rw [hwritten, hids]
    exact List.pairwise_lt_range'
  · intro sst hmem
    rw [hwritten] at hmem
    have hid : sst.sstId ∈ List.range' engine.nextSstId outputs.length := by
      rw [← hids]
      exact List.mem_map_of_mem hmem
    have hbounds := List.mem_range'_1.mp hid
    exact ⟨hbounds.1, hbounds.2.trans_le hmerge.written.nextSstId⟩

theorem numbers_fullCompactOps (config : Config) (hinv : LevelInvariant engine)
    (fuel srcLevel : ℕ) :
    Numbers engine.nextSstId (fullCompact config fuel engine srcLevel).1.nextSstId
      (fullCompactOps config fuel engine srcLevel) := by
  induction fuel generalizing engine srcLevel with
  | zero => exact Numbers.of_nothing le_rfl rfl
  | succ fuel ih =>
      have hroom : LevelInvariant (makeRoom config fuel engine srcLevel).1 ∧
          Numbers engine.nextSstId (makeRoom config fuel engine srcLevel).1.nextSstId
            (if (engine.level (srcLevel + 1)).length ≥ config.lsmSstLevelRatio then
              fullCompactOps config fuel engine (srcLevel + 1) else []) := by
        unfold makeRoom
        split_ifs
        · exact ⟨(fullCompact_kept config hinv fuel (srcLevel + 1)).invariant,
            ih hinv (srcLevel + 1)⟩
        · exact ⟨hinv, Numbers.of_nothing le_rfl rfl⟩
      rw [fullCompact_succ, fullCompactOps]
      generalize makeRoom config fuel engine srcLevel = room at hroom ⊢
      obtain ⟨roomy, outcome⟩ := room
      cases outcome with
      | error err => exact hroom.2.append (Numbers.of_nothing le_rfl rfl)
      | ok done =>
          refine hroom.2.append ?_
          have hmerge := numbers_mergeOps config hroom.1 srcLevel
          dsimp only at hmerge ⊢
          rw [andThen]
          dsimp only
          generalize mergeLevels config roomy srcLevel = merged at hmerge ⊢
          obtain ⟨after, result⟩ := merged
          cases result with
          | error err => exact hmerge.append (Numbers.of_nothing le_rfl rfl)
          | ok newSsts =>
              exact hmerge.append (Numbers.of_nothing le_rfl (writtenTables_removeOps _ _))

theorem numbers_flushLastOps (config : Config) (hinv : LevelInvariant engine) :
    Numbers engine.nextSstId (engine.flushTable config).1.nextSstId
      (engine.memtable.flushLastOps config engine.nextSstId) := by
  obtain ⟨mem, ⟨sst, flushed, -, hid, -, hrun, hops⟩ | ⟨hrun, hops⟩⟩ :=
    flushTable_files config hinv
  · rw [hrun, hops]
    constructor
    · exact Nat.le_succ _
    · exact List.pairwise_singleton _ _
    · intro other hmem
      obtain rfl : other = sst := List.mem_singleton.mp hmem
      rw [hid]
      exact ⟨le_rfl, Nat.lt_succ_self _⟩
  · rw [hrun]
    refine Numbers.of_nothing (Nat.le_succ _) ?_
    rcases hops with ⟨-, hnone⟩ | ⟨-, htorn⟩
    · rw [hnone]
      rfl
    · exact writtenTables_torn htorn

theorem numbers_flushOps (config : Config) (hinv : LevelInvariant engine) :
    Numbers engine.nextSstId (engine.flush config).1.nextSstId (engine.flushOps config) := by
  rw [flush_eq, flushOps]
  split_ifs
  · exact Numbers.of_nothing le_rfl rfl
  have hroom : Numbers engine.nextSstId (engine.compactFullL0 config).1.nextSstId
      (engine.compactFullL0Ops config) := by
    unfold compactFullL0 compactFullL0Ops
    split_ifs
    · exact numbers_fullCompactOps config hinv _ 0
    · exact Numbers.of_nothing le_rfl rfl
  have hinv' := (compactFullL0_kept config hinv).invariant
  generalize engine.compactFullL0 config = room at hroom hinv' ⊢
  obtain ⟨roomy, outcome⟩ := room
  cases outcome with
  | error err => exact hroom.append (Numbers.of_nothing le_rfl rfl)
  | ok done => exact hroom.append (numbers_flushLastOps config hinv')

/-- The tables that one call writes, whether or not it throws. -/
theorem numbers_op (config : Config) (hinv : LevelInvariant engine) (op : EngineOp) :
    Numbers engine.nextSstId (op.run config engine).1.nextSstId (op.fileOps config engine) := by
  have hwrite : ∀ mem : MemTable,
      Numbers engine.nextSstId
        (flushIfFull config { engine with memtable := mem }).1.nextSstId
        (flushIfFullOps config { engine with memtable := mem }) := by
    intro mem
    unfold flushIfFull flushIfFullOps
    split_ifs
    · exact numbers_flushOps config (hinv.withMemtable mem)
    · exact Numbers.of_nothing le_rfl rfl
  cases op with
  | put key value trancId => exact hwrite _
  | putBatch kvs trancId => exact hwrite _
  | remove key trancId => exact hwrite _
  | removeBatch keys trancId => exact hwrite _
  | freeze => exact Numbers.of_nothing le_rfl rfl
  | flush => exact numbers_flushOps config hinv
  | compact srcLevel =>
      have hcompact := numbers_fullCompactOps config hinv (engine.levelSstIds.length + 1) srcLevel
      have hrun : (EngineOp.compact srcLevel).run config engine =
          andThen (engine.compact config srcLevel) fun engine _ =>
            (engine, .ok (⟨0, []⟩ : Flushed)) := rfl
      rw [hrun]
      rcases andThen_cases (engine.compact config srcLevel) fun engine _ =>
          (engine, (.ok ⟨0, []⟩ : Except Err Flushed)) with ⟨err, -, hrun⟩ | ⟨done, -, hrun⟩
      · rw [hrun]
        exact hcompact
      · rw [hrun]
        exact hcompact
  | clear => exact Numbers.of_nothing le_rfl rfl

theorem levelInvariant_op (config : Config) (hinv : LevelInvariant engine) (op : EngineOp) :
    LevelInvariant (op.run config engine).1 :=
  ((⟨hinv, Versions.Reflects.refl _⟩ : Follows engine engine.records).run config op).invariant

/-- The tables that a run writes, with the calls in it that throw. -/
theorem numbers_run (config : Config) (hinv : LevelInvariant engine) (ops : List EngineOp) :
    Numbers engine.nextSstId (runAll config engine ops).nextSstId
      (runAllFileOps config engine ops) := by
  induction ops generalizing engine with
  | nil => exact Numbers.of_nothing le_rfl rfl
  | cons op rest ih =>
      exact (numbers_op config hinv op).append (ih (levelInvariant_op config hinv op))

/-- The table objects that an engine holds. -/
def Stores (engine : Engine) (sst : SST) : Prop :=
  ∃ id, engine.ssts.find? id = some sst

/-- Tables that the engine held at the start or that a run wrote are told apart by their
numbers. -/
theorem sstId_inj (config : Config) (hinv : LevelInvariant engine) (ops : List EngineOp)
    {left right : SST}
    (hleft : engine.Stores left ∨ left ∈ writtenTables (runAllFileOps config engine ops))
    (hright : engine.Stores right ∨ right ∈ writtenTables (runAllFileOps config engine ops))
    (hids : left.sstId = right.sstId) : left = right := by
  have hnumbers := numbers_run config hinv ops
  have hstored : ∀ sst : SST, engine.Stores sst →
      engine.ssts.find? sst.sstId = some sst ∧ sst.sstId < engine.nextSstId := by
    rintro sst ⟨id, hfind⟩
    rw [hinv.keyed id sst hfind]
    exact ⟨hfind, hinv.stored_lt id (Option.isSome_iff_exists.mpr ⟨sst, hfind⟩)⟩
  rcases hleft with hleft | hleft
  · rcases hright with hright | hright
    · have hfind := (hstored left hleft).1
      rw [hids, (hstored right hright).1] at hfind
      exact (Option.some.inj hfind).symm
    · have hlt := (hstored left hleft).2
      have hle := (hnumbers.span right hright).1
      omega
  · rcases hright with hright | hright
    · have hlt := (hstored right hright).2
      have hle := (hnumbers.span left hleft).1
      omega
    · have hnodup : ((writtenTables (runAllFileOps config engine ops)).map SST.sstId).Nodup :=
        hnumbers.ascending.imp Nat.ne_of_lt
      exact List.inj_on_of_nodup_map hnodup hleft hright hids

/-- Every number is below the next one. -/
theorem sstId_lt (config : Config) (hinv : LevelInvariant engine) (ops : List EngineOp)
    {sst : SST}
    (hsst : engine.Stores sst ∨ sst ∈ writtenTables (runAllFileOps config engine ops)) :
    sst.sstId < (runAll config engine ops).nextSstId := by
  have hnumbers := numbers_run config hinv ops
  rcases hsst with ⟨id, hfind⟩ | hwritten
  · rw [hinv.keyed id sst hfind]
    exact (hinv.stored_lt id (Option.isSome_iff_exists.mpr ⟨sst, hfind⟩)).trans_le hnumbers.le
  · exact (hnumbers.span sst hwritten).2

end Engine

end KopiDb
