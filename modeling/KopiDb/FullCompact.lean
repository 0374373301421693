import KopiDb.LevelInvariant

/-!
# Full compaction

`full_compact` first makes room in the level below, then merges two levels into one.
It keeps the level invariant and all records, also when it throws on the way, and it
ends for every level ratio from 1 on.
-/

namespace KopiDb

namespace Engine

variable {config : Config} {engine engine' : Engine}

/-- The merge of `full_compact`, with level 0 as the special case. -/
def mergeLevels (config : Config) (engine : Engine) (srcLevel : ℕ) :
    Engine × Except Err (List SST) :=
  let lxIds := engine.level srcLevel
  let lyIds := engine.level (srcLevel + 1)
  if srcLevel = 0 then fullL0L1Compact config engine lxIds lyIds
  else fullCommonCompact config engine lxIds lyIds (srcLevel + 1)

/-- The recursive call of `full_compact` before its merge. -/
def makeRoom (config : Config) (fuel : ℕ) (engine : Engine) (srcLevel : ℕ) :
    Engine × Except Err Unit :=
  if (engine.level (srcLevel + 1)).length ≥ config.lsmSstLevelRatio then
    fullCompact config fuel engine (srcLevel + 1)
  else (engine, .ok ())

theorem fullCompact_succ (config : Config) (fuel : ℕ) (engine : Engine) (srcLevel : ℕ) :
    fullCompact config (fuel + 1) engine srcLevel =
      andThen (makeRoom config fuel engine srcLevel)
        fun engine _ =>
          andThen (mergeLevels config engine srcLevel) fun engine newSsts =>
            (engine.install srcLevel newSsts, .ok ()) := rfl

/-! ## The memory tables -/

/-- A merge only gives out file ids, also over levels that are not in order. -/
theorem advanced_mergeLevels (config : Config) (engine : Engine) (srcLevel : ℕ) :
    Advanced engine (mergeLevels config engine srcLevel).1 := by
  unfold mergeLevels fullL0L1Compact fullCommonCompact
  dsimp only
  split_ifs with hsrc
  all_goals
    split
    · exact advanced_genSstFromIter config engine _ _ _
    · exact Advanced.refl engine
    · exact Advanced.refl engine

/-- No compaction touches the memory tables. -/
theorem fullCompact_memtable (config : Config) (fuel : ℕ) (engine : Engine) (srcLevel : ℕ) :
    (fullCompact config fuel engine srcLevel).1.memtable = engine.memtable := by
  induction fuel generalizing engine srcLevel with
  | zero => rfl
  | succ fuel ih =>
      have hroom : (makeRoom config fuel engine srcLevel).1.memtable = engine.memtable := by
        unfold makeRoom
        split_ifs
        · exact ih engine (srcLevel + 1)
        · rfl
      rw [fullCompact_succ]
      rcases andThen_cases (makeRoom config fuel engine srcLevel) _ with
        ⟨err, -, hrun⟩ | ⟨done, -, hrun⟩
      · rw [hrun]
        exact hroom
      · rw [hrun, ← hroom]
        have hmerge := (advanced_mergeLevels config (makeRoom config fuel engine srcLevel).1
          srcLevel).memtable
        rcases andThen_cases (mergeLevels config (makeRoom config fuel engine srcLevel).1 srcLevel)
            (fun engine newSsts => (engine.install srcLevel newSsts, (.ok () : Except Err Unit)))
          with ⟨err, -, hrun⟩ | ⟨newSsts, -, hrun⟩
        · rw [hrun]
          exact hmerge
        · rw [hrun]
          exact hmerge

/-! ## One merge -/

theorem sorted_level (hinv : LevelInvariant engine) {level : ℕ} (hlevel : level ≠ 0) :
    Versions.Sorted (engine.recordsOf (engine.level level)) :=
  sorted_flatMap (fun _ hmem => hinv.wellFormed_of_mem hmem) (hinv.separated level hlevel)

theorem toList_level (hinv : LevelInvariant engine) {level : ℕ} (hlevel : level ≠ 0) :
    Cursor.toList
        (ConcactIterator.new (engine.sstsOf (engine.level level)) 0 true skipNothing) =
      engine.recordsOf (engine.level level) :=
  toList_concact_all (fun _ hmem => hinv.wellFormed_of_mem hmem)
    (hinv.separated level hlevel)

/-- A merge is one run of `gen_sst_from_iter` over the records of the two levels in sorted
order. -/
theorem mergeLevels_eq (config : Config) (hinv : LevelInvariant engine) (srcLevel : ℕ) :
    ∃ (ι : Type) (_ : Cursor ι Entry) (iter : ι) (targetSstSize : ℕ),
      mergeLevels config engine srcLevel =
          genSstFromIter config engine iter targetSstSize (srcLevel + 1) ∧
        Versions.Sorted (Cursor.toList iter) ∧
        Versions.SameVersions (Cursor.toList iter) (engine.recordsOf (engine.level srcLevel) ++
          engine.recordsOf (engine.level (srcLevel + 1))) := by
  have hlevel : ∀ level, (engine.level level).mapM engine.sstOf =
      .ok (engine.sstsOf (engine.level level)) := fun level =>
    hinv.mapM_sstOf fun id hmem => mem_level_flatten hmem
  have hy := toList_level hinv (Nat.succ_ne_zero srcLevel)
  have hysorted := sorted_level hinv (Nat.succ_ne_zero srcLevel)
  unfold mergeLevels
  dsimp only
  split_ifs with hsrc
  · subst hsrc
    have hids : (engine.sstsOf (engine.level 0)).map SST.sstId = engine.level 0 :=
      hinv.sstsOf_map_sstId fun id hmem => mem_level_flatten hmem
    obtain ⟨hxsorted, hxsame⟩ := toList_mergeSstIterator
      (fun _ hmem => hinv.wellFormed_of_mem hmem) (by rw [hids]; exact hinv.descending)
      hinv.distinct
    obtain ⟨hsorted, hsame⟩ := toList_twoMerge_all hxsorted (hy ▸ hysorted)
    simp only [fullL0L1Compact, hlevel]
    rw [hy] at hsame
    exact ⟨_, _, _, _, rfl, hsorted, hsame.trans (hxsame.append (Versions.SameVersions.refl _))⟩
  · have hx := toList_level hinv hsrc
    have hxsorted := sorted_level hinv hsrc
    obtain ⟨hsorted, hsame⟩ := toList_twoMerge_all (hx ▸ hxsorted) (hy ▸ hysorted)
    simp only [fullCommonCompact, hlevel]
    rw [hx, hy] at hsame
    exact ⟨_, _, _, _, rfl, hsorted, hsame⟩

/-- A merge gives out file ids, and when it does not throw it writes the records of
the two levels, those of the upper level first, in sorted order. -/
theorem mergeLevels_cases (config : Config) (hinv : LevelInvariant engine) (srcLevel : ℕ) :
    let outcome := mergeLevels config engine srcLevel
    Advanced engine outcome.1 ∧ ∀ newSsts, outcome.2 = .ok newSsts →
      ∃ merged, Versions.Sorted merged ∧
        Versions.SameVersions merged (engine.recordsOf (engine.level srcLevel) ++
          engine.recordsOf (engine.level (srcLevel + 1))) ∧
        Generated engine outcome.1 newSsts merged := by
  obtain ⟨ι, cursor, iter, targetSstSize, hmerge, hsorted, hsame⟩ :=
    mergeLevels_eq config hinv srcLevel
  obtain ⟨hadvanced, hgenerated⟩ := genSstFromIter_cases config engine iter targetSstSize
    (srcLevel + 1) hsorted
  rw [hmerge]
  exact ⟨hadvanced, fun newSsts hok => ⟨_, hsorted, hsame, hgenerated newSsts hok⟩⟩

/-- The files of a merge are new to the engine. -/
theorem Generated.fresh {newSsts : List SST} {merged : List Entry}
    (hinv : LevelInvariant engine) (hadvanced : Advanced engine engine')
    (hgenerated : Generated engine engine' newSsts merged) : Fresh engine' newSsts := by
  have hrange : ∀ sst ∈ newSsts, engine.nextSstId ≤ sst.sstId ∧
      sst.sstId < engine.nextSstId + newSsts.length := by
    intro sst hmem
    have hid : sst.sstId ∈ newSsts.map SST.sstId := List.mem_map_of_mem hmem
    rw [hgenerated.ids] at hid
    simpa [List.mem_range'_1] using hid
  exact
    { wellFormed := hgenerated.wellFormed
      separated := hgenerated.separated
      ascending := by
        rw [hgenerated.ids]
        exact List.pairwise_lt_range'
      absent := by
        intro sst hmem
        rw [hadvanced.ssts, ← Bool.not_eq_true]
        intro hcontains
        exact (hrange sst hmem).1.not_gt (hinv.stored_lt _ hcontains)
      lt_next := by
        intro sst hmem
        rw [hgenerated.nextSstId]
        exact (hrange sst hmem).2 }

/-! ## The records of the files -/

theorem Advanced.level (hadvanced : Advanced engine engine') (level : ℕ) :
    engine'.level level = engine.level level := by
  rw [Engine.level, hadvanced.levelSstIds, Engine.level]

theorem Advanced.recordsOf (hadvanced : Advanced engine engine') (ids : List ℕ) :
    engine'.recordsOf ids = engine.recordsOf ids :=
  recordsOf_congr fun id _ => by rw [hadvanced.ssts]

theorem Advanced.fileRecords (hadvanced : Advanced engine engine') :
    engine'.fileRecords = engine.fileRecords := by
  rw [fileRecords_eq, fileRecords_eq, hadvanced.levelSstIds, hadvanced.recordsOf]

/-- Exchanging two levels for a sorted file list with the same versions keeps the
versions of all files. -/
theorem fileRecords_install (hinv : LevelInvariant engine) {newSsts : List SST}
    (hfresh : Fresh engine newSsts) {srcLevel : ℕ}
    (hsame : Versions.SameVersions (newSsts.flatMap SST.records)
      (engine.recordsOf (engine.level srcLevel) ++
        engine.recordsOf (engine.level (srcLevel + 1)))) :
    Versions.SameVersions (engine.install srcLevel newSsts).fileRecords
      engine.fileRecords := by
  obtain ⟨front, back, pad, hpad, hset⟩ := levelSstIds_install hfresh srcLevel
  have hflatten := flatten_pad hpad
  have hnodup := hinv.nodup
  rw [hflatten] at hnodup
  have hstored : ∀ id ∈ front.flatten ++ back.flatten, engine.ssts.contains id = true := by
    intro id hmem
    refine (hinv.mem_iff id).mp ?_
    rw [hflatten]
    simp only [List.mem_append] at hmem ⊢
    tauto
  have hkept : ∀ id ∈ front.flatten ++ back.flatten,
      id ∉ engine.level srcLevel ++ engine.level (srcLevel + 1) := by
    intro id hmem hold
    rw [List.mem_append] at hmem hold
    simp only [List.nodup_append, List.mem_append] at hnodup
    grind
  have hrecords : ∀ ids, (∀ id ∈ ids, id ∈ front.flatten ++ back.flatten) →
      (engine.install srcLevel newSsts).recordsOf ids = engine.recordsOf ids := by
    intro ids hids
    unfold recordsOf
    rw [sstsOf_install_old hfresh (fun id hmem => hstored id (hids id hmem))
      fun id hmem => hkept id (hids id hmem)]
  have hnew : (engine.install srcLevel newSsts).recordsOf (newSsts.map SST.sstId) =
      newSsts.flatMap SST.records := by
    rw [recordsOf, sstsOf_install_new hfresh]
  rw [fileRecords_eq, fileRecords_eq, hset, hflatten, List.flatten_append,
    List.flatten_cons, List.flatten_cons, List.nil_append, recordsOf_append, recordsOf_append,
    recordsOf_append, recordsOf_append, recordsOf_append, hnew,
    hrecords _ fun id hmem => List.mem_append_left _ hmem,
    hrecords _ fun id hmem => List.mem_append_right _ hmem]
  apply (Versions.SameVersions.refl _).append
  rw [← List.append_assoc]
  exact hsame.append (Versions.SameVersions.refl _)

theorem LevelInvariant.keys_perm (hinv : LevelInvariant engine) :
    engine.ssts.keys.Perm engine.levelSstIds.flatten := by
  rw [List.perm_ext_iff_of_nodup engine.ssts.keys_nodup hinv.nodup]
  intro id
  rw [hinv.mem_iff, OrdMap.contains_iff]

/-- The file map and the levels hold the same records. -/
theorem storedRecords_perm (hinv : LevelInvariant engine) :
    engine.storedRecords.Perm engine.fileRecords := by
  have hkeys := hinv.keys_perm
  have hssts : engine.sstsOf engine.ssts.keys = engine.ssts.entries.map Prod.snd := by
    rw [sstsOf, OrdMap.keys, List.filterMap_map, ← List.filterMap_eq_map]
    apply List.filterMap_congr
    intro entry hmem
    exact OrdMap.find?_eq_some_iff.mpr hmem
  have hstored : engine.storedRecords = engine.recordsOf engine.ssts.keys := by
    rw [recordsOf, hssts, List.flatMap_map, storedRecords]
  rw [hstored, fileRecords_eq]
  exact (hkeys.filterMap _).flatMap_right _

/-! ## The whole compaction -/

/-- What every compaction keeps. -/
structure Kept (engine engine' : Engine) : Prop where
  memtable : engine'.memtable = engine.memtable
  invariant : LevelInvariant engine'
  sameVersions : Versions.SameVersions engine'.fileRecords engine.fileRecords

theorem Kept.refl (hinv : LevelInvariant engine) : Kept engine engine :=
  ⟨rfl, hinv, Versions.SameVersions.refl _⟩

theorem Kept.trans {first second third : Engine} (hleft : Kept first second)
    (hright : Kept second third) : Kept first third where
  memtable := hright.memtable.trans hleft.memtable
  invariant := hright.invariant
  sameVersions := hright.sameVersions.trans hleft.sameVersions

theorem Advanced.kept (hinv : LevelInvariant engine) (hadvanced : Advanced engine engine') :
    Kept engine engine' where
  memtable := hadvanced.memtable
  invariant := hinv.advance hadvanced
  sameVersions := by
    rw [hadvanced.fileRecords]
    exact Versions.SameVersions.refl _

/-- What one merge leaves, apart from what every compaction keeps. -/
structure Merged (srcLevel : ℕ) (engine engine' : Engine) : Prop where
  kept : Kept engine engine'
  emptied : engine'.level srcLevel = []
  output : Versions.SameVersions (engine'.recordsOf (engine'.level (srcLevel + 1)))
    (engine.recordsOf (engine.level srcLevel) ++
      engine.recordsOf (engine.level (srcLevel + 1)))
  untouched : ∀ other, other ≠ srcLevel → other ≠ srcLevel + 1 →
    engine'.level other = engine.level other ∧
      engine'.recordsOf (engine.level other) = engine.recordsOf (engine.level other)

/-- The bookkeeping after a merge that did not throw. -/
private theorem merged_install (hinv : LevelInvariant engine) {srcLevel : ℕ}
    {newSsts : List SST} {merged : List Entry} (hadvanced : Advanced engine engine')
    (hsame : Versions.SameVersions merged (engine.recordsOf (engine.level srcLevel) ++
      engine.recordsOf (engine.level (srcLevel + 1))))
    (hgenerated : Generated engine engine' newSsts merged) :
    Merged srcLevel engine (engine'.install srcLevel newSsts) := by
  have hfresh := hgenerated.fresh hinv hadvanced
  have hinv' := hinv.advance hadvanced
  have hsame' : Versions.SameVersions (newSsts.flatMap SST.records)
      (engine'.recordsOf (engine'.level srcLevel) ++
        engine'.recordsOf (engine'.level (srcLevel + 1))) := by
    rw [hgenerated.records_eq, hadvanced.level, hadvanced.level, hadvanced.recordsOf,
      hadvanced.recordsOf]
    exact hsame
  have hinstalled : Kept engine' (engine'.install srcLevel newSsts) :=
    ⟨rfl, hinv'.install hfresh srcLevel, fileRecords_install hinv' hfresh hsame'⟩
  refine ⟨(hadvanced.kept hinv).trans hinstalled, ?_, ?_, ?_⟩
  · rw [level_install hfresh, if_neg (Nat.succ_ne_self srcLevel).symm, if_pos rfl]
  · rw [level_install hfresh, if_pos rfl, recordsOf, sstsOf_install_new hfresh,
      hgenerated.records_eq]
    exact hsame
  · intro other hsrc hnext
    rw [level_install hfresh, if_neg hnext, if_neg hsrc, hadvanced.level]
    refine ⟨rfl, ?_⟩
    have hold := sstsOf_install_level hinv' hfresh hsrc hnext
    rw [hadvanced.level] at hold
    rw [recordsOf, hold]
    exact hadvanced.recordsOf _

/-- One merge with its bookkeeping. -/
private theorem mergeStep_cases (hinv : LevelInvariant engine) (srcLevel : ℕ) :
    let outcome := andThen (mergeLevels config engine srcLevel) fun engine newSsts =>
      (engine.install srcLevel newSsts, (.ok () : Except Err Unit))
    Kept engine outcome.1 ∧ (outcome.2 = .ok () → Merged srcLevel engine outcome.1) := by
  obtain ⟨hadvanced, hok⟩ := mergeLevels_cases config hinv srcLevel
  dsimp only
  rcases andThen_cases (mergeLevels config engine srcLevel) fun engine newSsts =>
      (engine.install srcLevel newSsts, (.ok () : Except Err Unit)) with
    ⟨err, -, hrun⟩ | ⟨newSsts, hfirst, hrun⟩
  · rw [hrun]
    exact ⟨hadvanced.kept hinv, fun hfalse => by cases hfalse⟩
  · obtain ⟨merged, -, hsame, hgenerated⟩ := hok newSsts hfirst
    have hmerged := merged_install hinv hadvanced hsame hgenerated
    rw [hrun]
    exact ⟨hmerged.kept, fun _ => hmerged⟩

/-- A compaction keeps the invariant and the records, also when it throws. -/
theorem fullCompact_kept (config : Config) (hinv : LevelInvariant engine)
    (fuel srcLevel : ℕ) :
    Kept engine (fullCompact config fuel engine srcLevel).1 := by
  induction fuel generalizing engine srcLevel with
  | zero => exact Kept.refl hinv
  | succ fuel ih =>
      have hroom : Kept engine (makeRoom config fuel engine srcLevel).1 := by
        unfold makeRoom
        split_ifs
        · exact ih hinv (srcLevel + 1)
        · exact Kept.refl hinv
      rw [fullCompact_succ]
      rcases andThen_cases (makeRoom config fuel engine srcLevel) _ with
        ⟨err, -, hrun⟩ | ⟨done, -, hrun⟩
      · rw [hrun]
        exact hroom
      · rw [hrun]
        exact hroom.trans (mergeStep_cases hroom.invariant srcLevel).1

/-- What a compaction that does not throw leaves.  Its output joins the source level
with the level below, unless the records of that one went deeper to make room. -/
structure Compacted (config : Config) (srcLevel : ℕ) (engine engine' : Engine) : Prop where
  kept : Kept engine engine'
  emptied : engine'.level srcLevel = []
  output : Versions.SameVersions (engine'.recordsOf (engine'.level (srcLevel + 1)))
    (engine.recordsOf (engine.level srcLevel) ++
      if (engine.level (srcLevel + 1)).length ≥ config.lsmSstLevelRatio then []
      else engine.recordsOf (engine.level (srcLevel + 1)))
  above : ∀ other < srcLevel, engine'.level other = engine.level other ∧
    engine'.recordsOf (engine.level other) = engine.recordsOf (engine.level other)

theorem fullCompact_compacted (hinv : LevelInvariant engine) {fuel srcLevel : ℕ}
    (hok : (fullCompact config fuel engine srcLevel).2 = .ok ()) :
    Compacted config srcLevel engine (fullCompact config fuel engine srcLevel).1 := by
  induction fuel generalizing engine srcLevel with
  | zero => cases hok
  | succ fuel ih =>
      rw [fullCompact_succ] at hok ⊢
      unfold makeRoom at hok ⊢
      split_ifs at hok ⊢ with hfull
      · rcases andThen_cases (fullCompact config fuel engine (srcLevel + 1)) _ with
          ⟨err, -, hrun⟩ | ⟨done, hroom, hrun⟩
        · rw [hrun] at hok
          cases hok
        · -- The level below is empty now, and the source level is as before.
          have hnext := ih hinv hroom
          rw [hrun] at hok ⊢
          have hmerged := (mergeStep_cases hnext.kept.invariant srcLevel).2 hok
          obtain ⟨hlevel, hrecords⟩ := hnext.above srcLevel (Nat.lt_succ_self srcLevel)
          refine ⟨hnext.kept.trans hmerged.kept, hmerged.emptied, ?_, ?_⟩
          · have houtput := hmerged.output
            rw [hlevel, hrecords, hnext.emptied] at houtput
            rw [if_pos hfull]
            exact houtput
          · intro other hother
            obtain ⟨habove, haboveRecords⟩ := hnext.above other (by omega)
            obtain ⟨hsecond, hsecondRecords⟩ :=
              hmerged.untouched other (by omega) (by omega)
            rw [habove] at hsecond hsecondRecords
            exact ⟨hsecond, hsecondRecords.trans haboveRecords⟩
      · have hmerged := (mergeStep_cases hinv srcLevel).2 hok
        refine ⟨hmerged.kept, hmerged.emptied, ?_, ?_⟩
        · rw [if_neg hfull]
          exact hmerged.output
        · exact fun other hother => hmerged.untouched other (by omega) (by omega)


/-! ## Termination -/

/-- A level that is worth a compaction of its own is in the level map. -/
private theorem lt_length_of_full {level : ℕ} (hratio : 1 ≤ config.lsmSstLevelRatio)
    (hfull : (engine.level level).length ≥ config.lsmSstLevelRatio) :
    level < engine.levelSstIds.length := by
  by_contra hge
  have hnil : engine.level level = [] := by
    rw [Engine.level, List.getD_eq_default _ _ (not_lt.mp hge)]
  rw [hnil, List.length_nil] at hfull
  omega

/-- Fuel beyond the number of levels makes no difference. -/
theorem fullCompact_congr (hratio : 1 ≤ config.lsmSstLevelRatio) {fuel fuel' srcLevel : ℕ}
    (hpos : 0 < fuel) (hfuel : engine.levelSstIds.length < srcLevel + fuel)
    (hpos' : 0 < fuel') (hfuel' : engine.levelSstIds.length < srcLevel + fuel') :
    fullCompact config fuel engine srcLevel = fullCompact config fuel' engine srcLevel := by
  induction fuel generalizing fuel' srcLevel with
  | zero => omega
  | succ fuel ih =>
      obtain ⟨fuel', rfl⟩ := Nat.exists_eq_succ_of_ne_zero hpos'.ne'
      rw [fullCompact_succ, Nat.succ_eq_add_one, fullCompact_succ, makeRoom, makeRoom]
      split_ifs with hfull
      · have hlevel := lt_length_of_full hratio hfull
        have hnext : fullCompact config fuel engine (srcLevel + 1) =
            fullCompact config fuel' engine (srcLevel + 1) :=
          ih (by omega) (by omega) (by omega) (by omega)
        rw [hnext]
      · rfl

private theorem addEntry_halts (block : Block) (key value : Bytes) (trancId : ℕ)
    (forceWrite : Bool) :
    block.addEntry key value trancId forceWrite ≠ .error .diverges := by
  unfold Block.addEntry
  split_ifs <;> simp

private theorem finishBlock_halts (builder : SSTBuilder) :
    builder.finishBlock ≠ .error .diverges := by
  unfold SSTBuilder.finishBlock Block.encodedSize
  split_ifs <;> simp

private theorem add_halts (builder : SSTBuilder) (key value : Bytes) (trancId : ℕ) :
    builder.add key value trancId ≠ .error .diverges := by
  unfold SSTBuilder.add
  dsimp only
  split
  next err herr =>
      rintro hdiverges
      obtain rfl := Except.error.inj hdiverges
      exact addEntry_halts _ _ _ _ _ herr
  next => simp
  next =>
      split
      next err herr =>
          rintro hdiverges
          obtain rfl := Except.error.inj hdiverges
          exact finishBlock_halts _ herr
      next =>
          split
          next err herr =>
              rintro hdiverges
              obtain rfl := Except.error.inj hdiverges
              exact addEntry_halts _ _ _ _ _ herr
          next => simp

private theorem build_halts (builder : SSTBuilder) (sstId : ℕ) :
    builder.build sstId ≠ .error .diverges := by
  unfold SSTBuilder.build
  split
  next err herr =>
      split_ifs at herr
      rintro hdiverges
      obtain rfl := Except.error.inj hdiverges
      exact finishBlock_halts _ herr
  next =>
      split
      · split_ifs <;> simp
      · simp

private theorem emit_halts (config : Config) (targetLevel : ℕ) (state : GenState)
    (engine' : Engine) : state.emit config targetLevel ≠ .error (engine', .diverges) := by
  unfold GenState.emit
  dsimp only
  split
  next err herr =>
      rintro hdiverges
      obtain ⟨-, rfl⟩ := Prod.mk.inj (Except.error.inj hdiverges)
      exact build_halts _ _ herr
  next => simp

private theorem genStep_halts (config : Config) (targetSstSize targetLevel : ℕ)
    (state : GenState) (entry : Entry) (following : Option Entry) (engine' : Engine) :
    genStep config targetSstSize targetLevel state entry following ≠
      .error (engine', .diverges) := by
  unfold genStep
  split
  next err herr =>
      rintro hdiverges
      obtain ⟨-, rfl⟩ := Prod.mk.inj (Except.error.inj hdiverges)
      exact add_halts _ _ _ _ herr
  next =>
      dsimp only
      split_ifs
      · simp
      · exact emit_halts _ _ _ _
      · simp

private theorem foldLookahead_halts (config : Config) (targetSstSize targetLevel : ℕ)
    (entries : List Entry) (state : GenState) (engine' : Engine) :
    Cursor.foldLookahead (genStep config targetSstSize targetLevel) entries state ≠
      .error (engine', .diverges) := by
  induction entries generalizing state with
  | nil => simp [Cursor.foldLookahead]
  | cons entry rest ih =>
      rw [Cursor.foldLookahead]
      split
      next following _ => exact ih following
      next err herr =>
          rintro hdiverges
          obtain rfl := Except.error.inj hdiverges
          exact genStep_halts _ _ _ _ _ _ _ herr

private theorem genSstFromIter_halts {ι : Type} [Cursor ι Entry] (config : Config)
    (engine : Engine) (iter : ι) (targetSstSize targetLevel : ℕ) :
    (genSstFromIter config engine iter targetSstSize targetLevel).2 ≠ .error .diverges := by
  simp only [genSstFromIter, Cursor.forEach_eq_foldLookahead]
  split
  next engine' err herr =>
      rintro hdiverges
      obtain rfl := Except.error.inj hdiverges
      exact foldLookahead_halts _ _ _ _ _ _ herr
  next =>
      split_ifs
      · split
        next engine' err herr =>
            rintro hdiverges
            obtain rfl := Except.error.inj hdiverges
            exact emit_halts _ _ _ _ herr
        next => simp
      · simp

private theorem mergeLevels_halts (hinv : LevelInvariant engine) (srcLevel : ℕ) :
    (mergeLevels config engine srcLevel).2 ≠ .error .diverges := by
  obtain ⟨ι, cursor, iter, targetSstSize, hmerge, -⟩ := mergeLevels_eq config hinv srcLevel
  rw [hmerge]
  exact genSstFromIter_halts _ _ _ _ _

/-- The recursion into the deeper levels ends. -/
theorem fullCompact_halts (hratio : 1 ≤ config.lsmSstLevelRatio)
    (hinv : LevelInvariant engine) {fuel srcLevel : ℕ} (hpos : 0 < fuel)
    (hfuel : engine.levelSstIds.length < srcLevel + fuel) :
    (fullCompact config fuel engine srcLevel).2 ≠ .error .diverges := by
  induction fuel generalizing srcLevel with
  | zero => omega
  | succ fuel ih =>
      have hroom : (makeRoom config fuel engine srcLevel).2 ≠ .error .diverges := by
        unfold makeRoom
        split_ifs with hfull
        · have hlevel := lt_length_of_full hratio hfull
          exact ih (by omega) (by omega)
        · simp
      have hkept : Kept engine (makeRoom config fuel engine srcLevel).1 := by
        unfold makeRoom
        split_ifs
        · exact fullCompact_kept config hinv fuel (srcLevel + 1)
        · exact Kept.refl hinv
      rw [fullCompact_succ]
      rcases andThen_cases (makeRoom config fuel engine srcLevel) _ with
        ⟨err, herr, hrun⟩ | ⟨done, -, hrun⟩
      · rw [hrun]
        rwa [herr] at hroom
      · rw [hrun]
        rcases andThen_cases
            (mergeLevels config (makeRoom config fuel engine srcLevel).1 srcLevel)
            fun engine newSsts =>
              (engine.install srcLevel newSsts, (.ok () : Except Err Unit)) with
          ⟨err, herr, hmerge⟩ | ⟨newSsts, -, hmerge⟩
        · rw [hmerge]
          rintro hdiverges
          obtain rfl := Except.error.inj hdiverges
          exact mergeLevels_halts hkept.invariant srcLevel herr
        · rw [hmerge]
          simp

/-- `compact` gives its recursion enough depth. -/
theorem compact_halts (hratio : 1 ≤ config.lsmSstLevelRatio) (hinv : LevelInvariant engine)
    (srcLevel : ℕ) : (engine.compact config srcLevel).2 ≠ .error .diverges :=
  fullCompact_halts hratio hinv (Nat.succ_pos _) (by omega)

theorem fullCompact_eq_compact (hratio : 1 ≤ config.lsmSstLevelRatio) {fuel : ℕ}
    (hfuel : engine.levelSstIds.length < fuel) (srcLevel : ℕ) :
    fullCompact config fuel engine srcLevel = engine.compact config srcLevel :=
  fullCompact_congr hratio (by omega) (by omega) (Nat.succ_pos _) (by omega)


end Engine

end KopiDb
