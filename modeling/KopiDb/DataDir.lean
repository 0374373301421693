import KopiDb.FileRuns

/-!
# The data directory along a run

As long as no operation throws, the directory holds exactly the files of the listed tables,
each under the level it is listed in.
-/

namespace KopiDb

variable {config : Config} {params : BloomParams} {leftover : Leftover}

/-! ## Effect of file operations -/

namespace Directory

variable {dir : Directory}

theorem applyAll_append (left right : List FileOp) :
    dir.applyAll config params leftover (left ++ right) =
      (dir.applyAll config params leftover left).applyAll config params leftover right :=
  List.foldl_append

/-- The directory after the tables of one level were written. -/
theorem find?_writes {outputs : List SST} {level : ℕ}
    (hnodup : (outputs.map SST.sstId).Nodup) (name : Bytes) (content : Option Bytes) :
    (dir.applyAll config params leftover (outputs.map (Engine.writeOp level))).find? name =
        some content ↔
      (∃ sst ∈ outputs, name = sstName sst.sstId level ∧
          content = some (sst.fileBytes config params)) ∨
        (∀ sst ∈ outputs, name ≠ sstName sst.sstId level) ∧ dir.find? name = some content := by
  induction outputs generalizing dir with
  | nil => simp [applyAll]
  | cons first rest ih =>
      rw [List.map_cons, List.nodup_cons] at hnodup
      rw [List.map_cons, applyAll, List.foldl_cons, ← applyAll, ih hnodup.2]
      change _ ∨ (_ ∧ (dir.insert (sstName first.sstId level) _).find? name = some content) ↔ _
      rw [OrdMap.find?_insert]
      by_cases hname : name = sstName first.sstId level
      · have habsent : ∀ sst ∈ rest, name ≠ sstName sst.sstId level := by
          rintro sst hmem hsame
          rw [hname] at hsame
          apply hnodup.1
          rw [(sstName_inj hsame).1]
          exact List.mem_map_of_mem hmem
        rw [if_pos hname, Option.some.injEq]
        constructor
        · rintro (⟨sst, hmem, hsame, -⟩ | ⟨-, hcontent⟩)
          · exact absurd hsame (habsent sst hmem)
          · exact Or.inl ⟨first, List.mem_cons_self, hname, hcontent.symm⟩
        · rintro (⟨sst, hmem, hsame, hcontent⟩ | ⟨hothers, -⟩)
          · rcases List.mem_cons.mp hmem with rfl | hmem
            · exact Or.inr ⟨habsent, hcontent.symm⟩
            · exact absurd hsame (habsent sst hmem)
          · exact absurd hname (hothers first List.mem_cons_self)
      · rw [if_neg hname, List.exists_mem_cons_iff, List.forall_mem_cons]
        simp only [hname, false_and, false_or, ne_eq, not_false_eq_true, true_and]

/-- The directory after tables were deleted. -/
theorem find?_removes (ids : List ℕ) (level : ℕ → ℕ) (name : Bytes) (content : Option Bytes) :
    (dir.applyAll config params leftover (ids.map fun id => .remove id (level id))).find? name =
        some content ↔
      (∀ id ∈ ids, name ≠ sstName id (level id)) ∧ dir.find? name = some content := by
  induction ids generalizing dir with
  | nil => simp [applyAll]
  | cons id rest ih =>
      rw [List.map_cons, applyAll, List.foldl_cons, ← applyAll, ih, List.forall_mem_cons]
      change _ ∧ (dir.erase (sstName id (level id))).find? name = some content ↔ _
      rw [OrdMap.find?_erase]
      by_cases hname : name = sstName id (level id)
      · simp [hname]
      · simp [hname]

end Directory

/-! ## Mirrors -/

namespace Engine

variable {engine engine' : Engine} {dir : Directory}

/-- The directory holds the files of the listed tables and nothing else. -/
def Mirrors (config : Config) (params : BloomParams) (engine : Engine) (dir : Directory) :
    Prop :=
  ∀ name content, dir.find? name = some content ↔
    ∃ level, ∃ id ∈ engine.level level, ∃ sst, engine.ssts.find? id = some sst ∧
      name = sstName id level ∧ content = some (sst.fileBytes config params)

theorem mirrors_new : Mirrors config params new ∅ := by
  intro name content
  constructor
  · intro hfind
    cases hfind
  · rintro ⟨level, id, hmem, -⟩
    cases hmem

theorem Mirrors.congr (hmirrors : Mirrors config params engine dir)
    (hlevel : ∀ level, engine'.level level = engine.level level)
    (hssts : engine'.ssts = engine.ssts) : Mirrors config params engine' dir := by
  intro name content
  rw [hmirrors name content]
  simp only [hlevel, hssts]

theorem Mirrors.advance (hmirrors : Mirrors config params engine dir)
    (hadvanced : Advanced engine engine') : Mirrors config params engine' dir :=
  hmirrors.congr hadvanced.level hadvanced.ssts

/-- Which files a merge deletes. -/
private theorem removed_iff (htables : TableInvariant config engine) {srcLevel id level : ℕ}
    (hmem : id ∈ engine.level level) :
    (∀ other ∈ engine.level srcLevel ++ engine.level (srcLevel + 1),
        sstName id level ≠ sstName other (engine.pathLevel other)) ↔
      level ≠ srcLevel ∧ level ≠ srcLevel + 1 := by
  constructor
  · intro hkept
    have hpath := htables.pathLevel_eq hmem
    constructor
    · rintro rfl
      exact hkept id (List.mem_append_left _ hmem) (by rw [hpath])
    · rintro rfl
      exact hkept id (List.mem_append_right _ hmem) (by rw [hpath])
  · rintro ⟨hsrc, hnext⟩ other hother hname
    obtain ⟨-, hlevel⟩ := sstName_inj hname
    rcases List.mem_append.mp hother with hother | hother
    · exact hsrc (hlevel.trans (htables.pathLevel_eq hother))
    · exact hnext (hlevel.trans (htables.pathLevel_eq hother))

/-- A merge that did not throw leaves the new tables in place of the old ones. -/
theorem Mirrors.install (hmirrors : Mirrors config params engine dir)
    (htables : TableInvariant config engine) {srcLevel : ℕ} {outputs : List SST}
    (hfresh : Fresh engine outputs) :
    Mirrors config params (engine.install srcLevel outputs)
      (dir.applyAll config params leftover (outputs.map (writeOp (srcLevel + 1)) ++
        removeOps engine (engine.level srcLevel ++ engine.level (srcLevel + 1)))) := by
  have hnodup : (outputs.map SST.sstId).Nodup := hfresh.ascending.imp fun hlt => hlt.ne
  have hstored : ∀ level, ∀ id ∈ engine.level level, ∀ sst ∈ outputs, id ≠ sst.sstId := by
    rintro level id hmem sst hsst rfl
    have hcontains := (htables.invariant.mem_iff _).mp (mem_level_flatten hmem)
    rw [hfresh.absent sst hsst] at hcontains
    cases hcontains
  intro name content
  rw [Directory.applyAll_append, removeOps, Directory.find?_removes, Directory.find?_writes hnodup]
  constructor
  · rintro ⟨hkept, ⟨sst, hsst, rfl, rfl⟩ | ⟨hold, hfind⟩⟩
    · refine ⟨srcLevel + 1, sst.sstId, ?_, sst, ?_, rfl, rfl⟩
      · rw [level_install hfresh, if_pos rfl]
        exact List.mem_map_of_mem hsst
      · rw [find?_install hfresh, find?_of_nodup hnodup hsst, Option.some_or]
    · obtain ⟨level, id, hmem, sst, hsst, rfl, rfl⟩ := (hmirrors name content).mp hfind
      obtain ⟨hsrc, hnext⟩ := (removed_iff htables hmem).mp hkept
      refine ⟨level, id, ?_, sst, ?_, rfl, rfl⟩
      · rw [level_install hfresh, if_neg hnext, if_neg hsrc]
        exact hmem
      · have hnew : (outputs.find? fun sst => sst.sstId = id) = none := by
          rw [List.find?_eq_none]
          intro other hother hid
          exact hstored level id hmem other hother (of_decide_eq_true hid).symm
        have hother : id ∉ engine.level srcLevel ++ engine.level (srcLevel + 1) := by
          intro hlisted
          rcases List.mem_append.mp hlisted with hlisted | hlisted
          · exact hsrc ((htables.pathLevel_eq hmem).symm.trans (htables.pathLevel_eq hlisted))
          · exact hnext ((htables.pathLevel_eq hmem).symm.trans (htables.pathLevel_eq hlisted))
        rw [find?_install hfresh, hnew, Option.none_or, if_neg hother, hsst]
  · rintro ⟨level, id, hmem, sst, hfind, rfl, rfl⟩
    rw [level_install hfresh] at hmem
    split_ifs at hmem with hnext hsrc
    · obtain ⟨found, hfound, rfl⟩ := List.mem_map.mp hmem
      rw [find?_install hfresh, find?_of_nodup hnodup hfound, Option.some_or] at hfind
      obtain rfl := Option.some.inj hfind
      refine ⟨?_, Or.inl ⟨found, hfound, by rw [hnext], rfl⟩⟩
      intro other hother hname
      obtain ⟨hid, -⟩ := sstName_inj hname
      rcases List.mem_append.mp hother with hother | hother
      · exact hstored _ other hother found hfound hid.symm
      · exact hstored _ other hother found hfound hid.symm
    · cases hmem
    · refine ⟨(removed_iff htables hmem).mpr ⟨hsrc, hnext⟩, Or.inr ⟨?_, ?_⟩⟩
      · intro other hother hname
        exact hstored level id hmem other hother (sstName_inj hname).1
      · rcases find?_install_cases hfresh hfind with ⟨hother, hid⟩ | hold
        · exact absurd hid.symm (hstored level id hmem sst hother)
        · exact (hmirrors _ _).mpr ⟨level, id, hmem, sst, hold, rfl, rfl⟩

theorem Mirrors.installL0 (hmirrors : Mirrors config params engine dir)
    (htables : TableInvariant config engine) {sst : SST} (hfile : FlushedFile engine sst) :
    Mirrors config params (engine.installL0 sst)
      (dir.applyAll config params leftover [writeOp 0 sst]) := by
  have hstored : ∀ level, ∀ id ∈ engine.level level, id ≠ sst.sstId := by
    rintro level id hmem rfl
    have hcontains := (htables.invariant.mem_iff _).mp (mem_level_flatten hmem)
    rw [hfile.absent] at hcontains
    cases hcontains
  intro name content
  rw [← List.map_singleton, Directory.find?_writes (by exact List.nodup_singleton _)]
  constructor
  · rintro (⟨found, hfound, rfl, rfl⟩ | ⟨-, hfind⟩)
    · obtain rfl := List.mem_singleton.mp hfound
      refine ⟨0, found.sstId, ?_, found, ?_, rfl, rfl⟩
      · rw [level_installL0, if_pos rfl]
        exact List.mem_cons_self
      · rw [find?_installL0, if_pos rfl]
    · obtain ⟨level, id, hmem, found, hfound, rfl, rfl⟩ := (hmirrors name content).mp hfind
      refine ⟨level, id, ?_, found, ?_, rfl, rfl⟩
      · rw [level_installL0]
        split_ifs with hlevel
        · rw [hlevel] at hmem
          exact List.mem_cons_of_mem _ hmem
        · exact hmem
      · rw [find?_installL0, if_neg (hstored level id hmem), hfound]
  · rintro ⟨level, id, hmem, found, hfind, rfl, rfl⟩
    rw [find?_installL0] at hfind
    split_ifs at hfind with hid
    · obtain rfl := Option.some.inj hfind
      have hlevel : level = 0 := by
        by_contra hlevel
        rw [level_installL0, if_neg hlevel] at hmem
        exact hstored level id hmem hid
      exact Or.inl ⟨sst, List.mem_singleton_self _, by rw [hid, hlevel], rfl⟩
    · have hold : id ∈ engine.level level := by
        rw [level_installL0] at hmem
        split_ifs at hmem with hlevel
        · rw [hlevel]
          exact (List.mem_cons.mp hmem).resolve_left hid
        · exact hmem
      refine Or.inr ⟨?_, (hmirrors _ _).mpr ⟨level, id, hold, found, hfind, rfl, rfl⟩⟩
      intro other hother hname
      rw [List.mem_singleton.mp hother] at hname
      exact hid (sstName_inj hname).1

theorem Mirrors.clear (hmirrors : Mirrors config params engine dir) :
    Mirrors config params engine.clear (dir.applyAll config params leftover [.removeAll]) := by
  intro name content
  constructor
  · intro hfind
    have hmem := OrdMap.find?_eq_some_iff.mp hfind
    obtain ⟨hold, hkept⟩ := List.mem_filter.mp hmem
    obtain ⟨level, id, hlisted, sst, -, -, hcontent⟩ :=
      (hmirrors name content).mp (OrdMap.find?_eq_some_iff.mpr hold)
    rw [hcontent] at hkept
    cases hkept
  · rintro ⟨level, id, hmem, -⟩
    cases hmem

/-! ## Compactions -/

/-- How a compaction threw: deeper merges may have ended, and the one that threw left the
tables it had written, and perhaps a torn file, next to its inputs. -/
structure FailedMerge (config : Config) (params : BloomParams) (leftover : Leftover)
    (engine room after : Engine) (roomDir dir : Directory) (ops : List FileOp) (srcLevel : ℕ)
    (outputs : List SST) (torn : List FileOp) : Prop where
  kept : Kept engine room
  tables : TableInvariant config room
  mirrors : Mirrors config params room roomDir
  merge : ∃ merged remaining, MergeFiles config room srcLevel outputs torn merged remaining
  after_eq : after = (mergeLevels config room srcLevel).1
  tornFile : Torn (srcLevel + 1) torn
  dir_eq : dir = roomDir.applyAll config params leftover
    (outputs.map (writeOp (srcLevel + 1)) ++ torn)
  suffix : outputs.map (writeOp (srcLevel + 1)) ++ torn <:+ ops

variable (leftover)

/-- The files after a compaction: those of the tables, or those of a failed merge. -/
theorem fullCompact_files (htables : TableInvariant config engine)
    (hmirrors : Mirrors config params engine dir) (fuel srcLevel : ℕ) :
    let outcome := fullCompact config fuel engine srcLevel
    let dir' := dir.applyAll config params leftover (fullCompactOps config fuel engine srcLevel)
    (outcome.2 = .ok () ∧ Mirrors config params outcome.1 dir') ∨
      outcome.2 = .error .diverges ∨
      (∃ err, outcome.2 = .error err) ∧ ∃ room roomDir level outputs torn,
        FailedMerge config params leftover engine room outcome.1 roomDir dir'
          (fullCompactOps config fuel engine srcLevel) level outputs torn := by
  induction fuel generalizing engine dir srcLevel with
  | zero => exact Or.inr (Or.inl rfl)
  | succ fuel ih =>
      have hkeptRoom : Kept engine (makeRoom config fuel engine srcLevel).1 := by
        unfold makeRoom
        split_ifs
        · exact fullCompact_kept config htables.invariant fuel (srcLevel + 1)
        · exact Kept.refl htables.invariant
      have htablesRoom : TableInvariant config (makeRoom config fuel engine srcLevel).1 := by
        unfold makeRoom
        split_ifs
        · exact tableInvariant_fullCompact htables fuel (srcLevel + 1)
        · exact htables
      let roomOps : List FileOp :=
        if (engine.level (srcLevel + 1)).length ≥ config.lsmSstLevelRatio then
          fullCompactOps config fuel engine (srcLevel + 1)
        else []
      let roomDir := dir.applyAll config params leftover roomOps
      have hroom : ((makeRoom config fuel engine srcLevel).2 = .ok () ∧
            Mirrors config params (makeRoom config fuel engine srcLevel).1 roomDir) ∨
          (makeRoom config fuel engine srcLevel).2 = .error .diverges ∨
          (∃ err, (makeRoom config fuel engine srcLevel).2 = .error err) ∧
            ∃ room inner level outputs torn,
              FailedMerge config params leftover engine room
                (makeRoom config fuel engine srcLevel).1 inner roomDir roomOps level outputs torn := by
        simp only [makeRoom, roomDir, roomOps]
        split_ifs
        · exact ih htables hmirrors (srcLevel + 1)
        · exact Or.inl ⟨rfl, hmirrors⟩
      rw [fullCompact_succ, fullCompactOps]
      rcases hmade : makeRoom config fuel engine srcLevel with ⟨made, result⟩
      rw [hmade] at hroom hkeptRoom htablesRoom
      dsimp only at hroom hkeptRoom htablesRoom ⊢
      cases result with
      | error err =>
          dsimp only [andThen]
          rw [List.append_nil]
          rcases hroom with ⟨hok, -⟩ | hdiverges | hfailed
          · cases hok
          · exact Or.inr (Or.inl hdiverges)
          · exact Or.inr (Or.inr hfailed)
      | ok done =>
          have hroomMirrors : Mirrors config params made roomDir := by
            rcases hroom with ⟨-, hmade⟩ | hdiverges | ⟨⟨err, herr⟩, -⟩
            · exact hmade
            · cases hdiverges
            · cases herr
          obtain ⟨outputs, torn, merged, remaining, hmerge⟩ :=
            mergeOps_cases config htablesRoom.invariant srcLevel
          have hfresh := hmerge.fresh htablesRoom
          have hadvanced := hmerge.written.advanced
          have hended := hmerge.ended
          rw [Directory.applyAll_append]
          dsimp only [andThen]
          rw [hmerge.ops]
          rcases hmerged : mergeLevels config made srcLevel with ⟨merging, result⟩
          rw [hmerged] at hfresh hadvanced hended
          dsimp only at hended ⊢
          rcases hended with ⟨rfl, -, rfl⟩ | ⟨⟨err, rfl⟩, htorn⟩
          · refine Or.inl ⟨rfl, ?_⟩
            dsimp only
            rw [List.append_nil]
            exact (hroomMirrors.advance hadvanced).install (htablesRoom.advance hadvanced) hfresh
          · refine Or.inr (Or.inr ⟨⟨err, rfl⟩, made, roomDir, srcLevel, outputs, torn, ?_⟩)
            exact
              { kept := hkeptRoom
                tables := htablesRoom
                mirrors := hroomMirrors
                merge := ⟨merged, remaining, hmerge⟩
                after_eq := by rw [hmerged]
                tornFile := htorn
                dir_eq := by
                  dsimp only
                  rw [List.append_nil]
                suffix := by
                  dsimp only
                  rw [List.append_nil]
                  exact List.suffix_append _ _ }

theorem compact_files (htables : TableInvariant config engine)
    (hmirrors : Mirrors config params engine dir) (srcLevel : ℕ) :
    let outcome := engine.compact config srcLevel
    let dir' := dir.applyAll config params leftover (compactOps config engine srcLevel)
    (outcome.2 = .ok () ∧ Mirrors config params outcome.1 dir') ∨
      outcome.2 = .error .diverges ∨
      (∃ err, outcome.2 = .error err) ∧ ∃ room roomDir level outputs torn,
        FailedMerge config params leftover engine room outcome.1 roomDir dir'
          (compactOps config engine srcLevel) level outputs torn :=
  fullCompact_files leftover htables hmirrors _ srcLevel

/-! ## Runs -/

private theorem compact_mirrors (htables : TableInvariant config engine)
    (hmirrors : Mirrors config params engine dir) {srcLevel : ℕ}
    (hok : (engine.compact config srcLevel).2 = .ok ()) :
    Mirrors config params (engine.compact config srcLevel).1
      (dir.applyAll config params leftover (compactOps config engine srcLevel)) := by
  have hfiles := compact_files leftover htables hmirrors srcLevel
  dsimp only at hfiles
  rw [hok] at hfiles
  rcases hfiles with ⟨-, hmirrored⟩ | hdiverges | ⟨⟨err, herr⟩, -⟩
  · exact hmirrored
  · cases hdiverges
  · cases herr

private theorem flushTable_mirrors (htables : TableInvariant config engine)
    (hmirrors : Mirrors config params engine dir) {flushed : Flushed}
    (hok : (engine.flushTable config).2 = .ok flushed) :
    Mirrors config params (engine.flushTable config).1
      (dir.applyAll config params leftover
        (engine.memtable.flushLastOps config engine.nextSstId)) := by
  have htaken := htables.advance (advanced_takeSstId engine 0)
  have hmirrored := hmirrors.advance (advanced_takeSstId engine 0)
  obtain ⟨mem, ⟨sst, flushed, -, -, hfile, hrun, hops⟩ | ⟨hengine, hended⟩⟩ :=
    flushTable_files config htables.invariant
  · rw [hrun, hops]
    have hmoved : Mirrors config params { (engine.takeSstId 0).1 with memtable := mem } dir :=
      hmirrored.congr (fun _ => rfl) rfl
    exact hmoved.installL0 (htaken.withMemtable mem) hfile
  · rcases hended with ⟨-, hops⟩ | ⟨⟨err, herr⟩, -⟩
    · rw [hengine, hops]
      exact hmirrored.congr (fun _ => rfl) rfl
    · rw [herr] at hok
      cases hok

private theorem compactFullL0_mirrors (htables : TableInvariant config engine)
    (hmirrors : Mirrors config params engine dir)
    (hok : (engine.compactFullL0 config).2 = .ok ()) :
    TableInvariant config (engine.compactFullL0 config).1 ∧
      Mirrors config params (engine.compactFullL0 config).1
        (dir.applyAll config params leftover (engine.compactFullL0Ops config)) := by
  unfold compactFullL0 at hok ⊢
  unfold compactFullL0Ops
  split_ifs at hok ⊢
  · exact ⟨tableInvariant_fullCompact htables _ 0, compact_mirrors leftover htables hmirrors hok⟩
  · exact ⟨htables, hmirrors⟩

theorem flush_mirrors (htables : TableInvariant config engine)
    (hmirrors : Mirrors config params engine dir) {flushed : Flushed}
    (hok : (engine.flush config).2 = .ok flushed) :
    Mirrors config params (engine.flush config).1
      (dir.applyAll config params leftover (engine.flushOps config)) := by
  rw [flush_eq] at hok ⊢
  unfold flushOps
  have hroom := compactFullL0_mirrors leftover htables hmirrors
  split_ifs at hok ⊢
  · exact hmirrors
  · rcases hfull : engine.compactFullL0 config with ⟨room, result⟩
    rw [hfull] at hok hroom
    cases result with
    | error err => cases hok
    | ok done =>
        obtain ⟨htabled, hmirrored⟩ := hroom rfl
        rw [Directory.applyAll_append]
        exact flushTable_mirrors leftover htabled hmirrored hok

theorem flushIfFull_mirrors (htables : TableInvariant config engine)
    (hmirrors : Mirrors config params engine dir) {flushed : Flushed}
    (hok : (engine.flushIfFull config).2 = .ok flushed) :
    Mirrors config params (engine.flushIfFull config).1
      (dir.applyAll config params leftover (engine.flushIfFullOps config)) := by
  unfold flushIfFull at hok ⊢
  unfold flushIfFullOps
  split_ifs at hok ⊢
  · exact flush_mirrors leftover htables hmirrors hok
  · exact hmirrors

/-- An operation that does not throw keeps the directory in step. -/
theorem run_mirrors (htables : TableInvariant config engine)
    (hmirrors : Mirrors config params engine dir) {op : EngineOp} {flushed : Flushed}
    (hok : (op.run config engine).2 = .ok flushed) :
    Mirrors config params (op.run config engine).1
      (dir.applyAll config params leftover (op.fileOps config engine)) := by
  have hwrite : ∀ mem, (flushIfFull config { engine with memtable := mem }).2 = .ok flushed →
      Mirrors config params (flushIfFull config { engine with memtable := mem }).1
        (dir.applyAll config params leftover
          (flushIfFullOps config { engine with memtable := mem })) := fun mem hdone =>
    flushIfFull_mirrors leftover (htables.withMemtable mem) (hmirrors.congr (fun _ => rfl) rfl) hdone
  cases op with
  | put key value trancId => exact hwrite _ hok
  | putBatch kvs trancId => exact hwrite _ hok
  | remove key trancId => exact hwrite _ hok
  | removeBatch keys trancId => exact hwrite _ hok
  | freeze => exact hmirrors.congr (fun _ => rfl) rfl
  | flush => exact flush_mirrors leftover htables hmirrors hok
  | compact srcLevel =>
      rcases hcompact : engine.compact config srcLevel with ⟨compacted, result⟩
      have hdone : result = .ok () := by
        rw [EngineOp.run, hcompact] at hok
        cases result with
        | error err => cases hok
        | ok done => rfl
      have hmirrored := @compact_mirrors config params leftover engine dir htables hmirrors srcLevel
        (by rw [hcompact]; exact hdone)
      rw [hcompact] at hmirrored
      rw [EngineOp.run, hcompact, hdone]
      exact hmirrored
  | clear => exact hmirrors.clear

private theorem runOps_mirrors {ops : List EngineOp} (htables : TableInvariant config engine)
    (hmirrors : Mirrors config params engine dir)
    (hrun : runOps config engine ops = .ok engine') :
    TableInvariant config engine' ∧ Mirrors config params engine'
      (dir.applyAll config params leftover (runFileOps config engine ops)) := by
  induction ops generalizing engine dir with
  | nil =>
      obtain rfl := Except.ok.inj hrun
      exact ⟨htables, hmirrors⟩
  | cons op rest ih =>
      have htabled := tableInvariant_run htables op
      have hmirrored := @run_mirrors config params leftover engine dir htables hmirrors op
      rw [runOps] at hrun
      rw [runFileOps, Directory.applyAll_append]
      rcases hop : op.run config engine with ⟨next, result⟩
      rw [hop] at hrun htabled hmirrored
      cases result with
      | error err => cases hrun
      | ok flushed => exact ih htabled (hmirrored rfl) hrun

/-- After a run that does not throw the directory holds the files of the tables. -/
theorem mirrors_of_run {ops : List EngineOp} (hrun : runOps config new ops = .ok engine) :
    TableInvariant config engine ∧
      Mirrors config params engine (dataDir config params leftover ops) :=
  runOps_mirrors leftover (tableInvariant_new config) mirrors_new hrun

end Engine

end KopiDb
