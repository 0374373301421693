import KopiDb.CacheRuns
import KopiDb.SstContract

/-!
# Point reads and the size of the tables

After any run of the engine the point reads answer from the history of writes, unless a table
has outgrown 32-bit offsets: the read of its last key throws.
-/

namespace KopiDb

theorem SST.Built.blocksShort {config : Config} {sst : SST} (hbuilt : sst.Built config) :
    sst.BlocksShort :=
  have hmade : sst.MadeFrom config true sst.records := hbuilt
  hmade.blocksShort

namespace Engine

variable {config : Config} {engine : Engine}

/-- Every point read answers from the history, for the empty key as long as the history holds
nothing but deletions under it. -/
structure ReadsExact (engine : Engine) (history : List Entry) : Prop where
  get : ∀ man trancId, ∀ key ≠ [], ∀ requireCommitted,
    engine.tryGet (some man) key trancId requireCommitted =
      .ok (reference history key trancId fun id => man.shouldSkipRead id requireCommitted)
  getBatch : ∀ man trancId, ∀ keys : List Bytes, ([] ∈ keys → MarkersOnly history) →
    engine.tryGetBatch (some man) keys trancId =
      .ok (keys.map fun key => (key, reference history key trancId man.isAborted))

/-- Under the empty key the reference finds deletions only. -/
theorem reference_empty_key {history : List Entry} (hmarkers : MarkersOnly history)
    (trancId : ℕ) (skip : ℕ → Bool) : reference history [] trancId skip = none := by
  rw [reference]
  cases hread : Versions.read history [] trancId skip with
  | none => rfl
  | some entry =>
      obtain ⟨hmem, hkey, -⟩ := Versions.read_eq_some hread
      rw [answer_some, live, hmarkers entry hmem hkey]
      rfl

theorem Follows.getBatch {history : List Entry} (hfollows : Follows engine history)
    (man : ReadPolicy) (trancId : ℕ) {keys : List Bytes}
    (hmarkers : [] ∈ keys → MarkersOnly history) :
    engine.getBatch (some man) keys trancId =
      .ok (keys.map fun key => (key, reference history key trancId man.isAborted)) := by
  have hfiles : [] ∈ keys → MarkersOnly engine.fileRecords := fun hmem entry hentry =>
    hmarkers hmem entry (hfollows.reflects.subset entry (List.mem_append_right _ hentry))
  rw [getBatch_eq trancId hfollows.invariant hfiles]
  congr 1
  refine List.map_congr_left fun key hmem => ?_
  split_ifs with hkey
  · subst hkey
    rw [reference_empty_key (hmarkers hmem)]
  · rw [Versions.read_congr (hfollows.reflects.latest key)]
    rfl

/-- The records of the long stream as one batch. -/
def longBatch : List (Bytes × Bytes) := longStream.map fun entry => (entry.key, entry.value)

/-- A first batch that fills a memory table leaves that table alone behind. -/
theorem putBatch_frozen {kvs : List (Bytes × Bytes)} {trancId : ℕ} {entries : List Entry}
    (hentries : (kvs.map fun kv => ⟨kv.1, kv.2, trancId⟩) = entries) (hne : entries ≠ [])
    (hstrict : Versions.StrictKeys entries)
    (htable : config.lsmPerMemSizeLimit ≤ (entries.map memSize).sum) :
    let written := MemTable.new.putBatch config kvs trancId
    ∃ table : SkipList, table.nodes = entries ∧ written.frozenTables = [table] ∧
      written.getTotalSize = (entries.map memSize).sum := by
  intro written
  have hnodup : (kvs.map Prod.fst).Nodup := by
    have hdistinct := (List.pairwise_map.mpr hstrict).imp fun {left right : Bytes} => ne_of_lt
    rw [← hentries, List.map_map] at hdistinct
    exact hdistinct
  have hperm := MemTable.new.foldl_put_perm trancId hnodup fun _ hmem => by cases hmem
  have hfrozen := MemTable.frozenTables_foldl_put_ Prod.fst Prod.snd trancId kvs MemTable.new
  have hput : written =
      (kvs.foldl (fun mem kv => mem.put_ kv.1 kv.2 trancId) MemTable.new).freezeIfFull config :=
    rfl
  generalize kvs.foldl (fun mem kv => mem.put_ kv.1 kv.2 trancId) MemTable.new = mem
    at hperm hfrozen hput
  rw [hentries, show MemTable.new.currentTable.nodes = [] from rfl, List.append_nil] at hperm
  have hnodes : mem.currentTable.nodes = entries := by
    have hdistinct : (mem.currentTable.nodes.map Version.key).Nodup := by
      rw [(hperm.map Version.key).nodup_iff, ← hentries, List.map_map]
      exact hnodup
    exact hperm.eq_of_pairwise (fun _ _ _ _ hlt hgt => absurd hgt (lt_asymm hlt))
      (mem.currentTable.ordered.strictKeys hdistinct) hstrict
  have hsize : mem.currentTable.getSize = (entries.map memSize).sum := by
    rw [SkipList.getSize, mem.currentTable.accounted, hnodes]
  obtain ⟨hcurrent, htables⟩ : written.currentTable = SkipList.new ∧
      written.frozenTables = [mem.currentTable] := by
    rw [hput, MemTable.freezeIfFull, if_pos (by rw [hsize]; exact htable)]
    rcases mem.frozenTables_new_or with ⟨hnil, -⟩ | ⟨-, hnew, hpushed⟩
    · exact absurd (hnodes.symm.trans hnil) hne
    · exact ⟨hnew, by rw [hpushed, hfrozen]; rfl⟩
  refine ⟨mem.currentTable, hnodes, htables, ?_⟩
  rw [MemTable.getTotalSize, written.accounted, htables, hcurrent, ← hsize]
  exact Nat.zero_add _

/-- The flush of the one frozen table of a new engine writes it to level 0. -/
theorem flush_frozen {written : MemTable} {table : SkipList}
    (htables : written.frozenTables = [table]) (hpositive : written.getTotalSize ≠ 0)
    (hne : table.nodes ≠ []) (hstrict : Versions.StrictKeys table.nodes)
    (haccepted : ∀ entry ∈ table.nodes, entry.Accepted)
    (hkeys : ∀ entry ∈ table.nodes, entry.key ≠ []) (hblock : config.lsmBlockSize ≤ uint16Max)
    (hcreate : config.createFails 1 = false) :
    ∃ engine flushed sst, ({ Engine.new with memtable := written } : Engine).flush config =
        (engine, .ok flushed) ∧
      engine.ssts.find? 1 = some sst ∧ sst.records = table.nodes := by
  obtain ⟨builder, sst, hadd, hbuild⟩ :=
    SSTBuilder.exists_build hne hstrict haccepted hkeys hblock hcreate
  have hmade : sst.MadeFrom config true table.nodes := SST.madeFrom_of_build hadd hbuild
  let engine : Engine := { Engine.new with memtable := written }
  have hback : (if engine.memtable.frozenTables.isEmpty then engine.memtable.frozenCurTable_
      else engine.memtable).frozenTables.getLast? = some table := by
    rw [show engine.memtable = written from rfl, htables, List.isEmpty_cons,
      if_neg Bool.false_ne_true, htables, List.getLast?_singleton]
  have hops : engine.memtable.flushLastOps config engine.nextSstId = [.write 1 0 sst] :=
    MemTable.flushLastOps_oldest hback hadd hbuild
  have hflush : engine.flush config = engine.flushTable config := by
    rw [flush_eq, if_neg hpositive, compactFullL0, if_neg fun hfull => hfull.1 rfl]
    rfl
  obtain ⟨mem, ⟨other, flushed, -, hid, -, hresult, hwrite⟩ | ⟨-, ⟨-, hnone⟩ | ⟨-, htorn⟩⟩⟩ :=
    flushTable_files config (levelInvariant_new.withMemtable written)
  · obtain ⟨-, -, rfl⟩ : 1 = other.sstId ∧ 0 = 0 ∧ sst = other :=
      FileOp.write.inj (List.cons.inj (hops.symm.trans hwrite)).1
    refine ⟨({ (engine.takeSstId 0).1 with memtable := mem } : Engine).installL0 sst, flushed,
      sst, ?_, ?_, hmade.records_eq hstrict.sorted⟩
    · exact hflush.trans hresult
    · rw [find?_installL0, if_pos (by rw [hid]; rfl)]
  · rw [hops] at hnone
    cases hnone
  · rw [hops] at htorn
    rcases htorn with hnil | ⟨sstId, sst, hfail⟩
    · cases hnil
    · cases hfail

/-- A first batch that fills the memory tables is flushed into one table of level 0. -/
theorem putBatch_flushed {kvs : List (Bytes × Bytes)} {trancId : ℕ} {entries : List Entry}
    (hentries : (kvs.map fun kv => ⟨kv.1, kv.2, trancId⟩) = entries) (hne : entries ≠ [])
    (hstrict : Versions.StrictKeys entries) (haccepted : ∀ entry ∈ entries, entry.Accepted)
    (hkeys : ∀ entry ∈ entries, entry.key ≠ []) (hblock : config.lsmBlockSize ≤ uint16Max)
    (hcreate : config.createFails 1 = false)
    (htable : config.lsmPerMemSizeLimit ≤ (entries.map memSize).sum)
    (htotal : config.lsmTolMemSizeLimit ≤ (entries.map memSize).sum) :
    ∃ engine sst, runOps config Engine.new [.putBatch kvs trancId] = .ok engine ∧
      engine.ssts.find? 1 = some sst ∧ sst.records = entries := by
  obtain ⟨table, rfl, htables, hsum⟩ := putBatch_frozen hentries hne hstrict htable
  have hpositive : (MemTable.new.putBatch config kvs trancId).getTotalSize ≠ 0 := by
    obtain ⟨entry, hmem⟩ := List.exists_mem_of_ne_nil _ hne
    have hle : memSize entry ≤ (table.nodes.map memSize).sum :=
      List.le_sum_of_mem (List.mem_map.mpr ⟨entry, hmem, rfl⟩)
    rw [hsum]
    exact ((Nat.succ_pos _).trans_le hle).ne'
  obtain ⟨engine, flushed, sst, hflush, hfind, hrecords⟩ :=
    flush_frozen htables hpositive hne hstrict haccepted hkeys hblock hcreate
  refine ⟨engine, sst, ?_, hfind, hrecords⟩
  have hrun : (EngineOp.putBatch kvs trancId).run config Engine.new = (engine, .ok flushed) := by
    rw [EngineOp.run, putBatch, flushIfFull, ← hflush]
    exact if_pos (by rw [← hsum] at htotal; exact htotal)
  rw [runOps, hrun]
  rfl

theorem longBatch_entries :
    (longBatch.map fun kv => (⟨kv.1, kv.2, 0⟩ : Entry)) = longStream := by
  rw [longBatch, longStream, List.map_map, List.map_map]
  rfl

end Engine

end KopiDb
