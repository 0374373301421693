import KopiDb.Reopen

/-!
# Tables of a failed compaction

A compaction that throws leaves the tables it had written in the directory, next to the
tables it was to replace, and the constructor of the engine takes them for tables of their
level.
-/

namespace KopiDb

/-! ## Level lists from their members -/

section Levels

variable {α β : Type} {levels : List (List α)}

theorem mem_flatten_iff_level {id : α} :
    id ∈ levels.flatten ↔ ∃ level, id ∈ levels.getD level [] := by
  rw [List.mem_flatten]
  constructor
  · rintro ⟨ids, hids, hid⟩
    obtain ⟨level, hlevel, rfl⟩ := List.mem_iff_getElem.mp hids
    exact ⟨level, by rwa [List.getD_eq_getElem _ _ hlevel]⟩
  · rintro ⟨level, hid⟩
    by_cases hlevel : level < levels.length
    · rw [List.getD_eq_getElem _ _ hlevel] at hid
      exact ⟨_, List.getElem_mem hlevel, hid⟩
    · rw [List.getD_eq_default _ _ (not_lt.mp hlevel)] at hid
      cases hid

theorem level_nodup (hnodup : levels.flatten.Nodup) (level : ℕ) :
    (levels.getD level []).Nodup := by
  by_cases hlevel : level < levels.length
  · rw [List.getD_eq_getElem _ _ hlevel]
    exact (List.nodup_flatten.mp hnodup).1 _ (List.getElem_mem hlevel)
  · rw [List.getD_eq_default _ _ (not_lt.mp hlevel)]
    exact List.nodup_nil

theorem nodup_flatten_of_levels (hnodup : ∀ level, (levels.getD level []).Nodup)
    (hunique : ∀ left right id, id ∈ levels.getD left [] → id ∈ levels.getD right [] →
      left = right) : levels.flatten.Nodup := by
  rw [List.nodup_flatten]
  constructor
  · intro ids hids
    obtain ⟨level, hlevel, rfl⟩ := List.mem_iff_getElem.mp hids
    rw [← List.getD_eq_getElem _ [] hlevel]
    exact hnodup level
  · rw [List.pairwise_iff_getElem]
    intro left right hleft hright hlt id hidLeft hidRight
    rw [← List.getD_eq_getElem _ [] hleft] at hidLeft
    rw [← List.getD_eq_getElem _ [] hright] at hidRight
    exact hlt.ne (hunique left right id hidLeft hidRight)

/-- The part of a level list that an assignment leaves alone. -/
theorem flatMap_setLevel (levels : List (List α)) (level : ℕ) (ids : List α)
    (f : List α → List β) (hempty : f [] = []) :
    (setLevel levels level ids).flatMap f =
      (levels.take level).flatMap f ++ (f ids ++ (levels.drop (level + 1)).flatMap f) := by
  induction level generalizing levels with
  | zero => cases levels <;> rfl
  | succ level ih =>
      cases levels with
      | nil =>
          rw [setLevel, List.flatMap_cons, hempty, ih, List.take_nil, List.take_nil,
            List.drop_nil, List.drop_nil, List.nil_append]
      | cons first rest =>
          rw [setLevel, List.flatMap_cons, ih, List.take_succ_cons, List.flatMap_cons,
            List.append_assoc]
          rfl

theorem flatMap_levels (levels : List (List α)) (level : ℕ) (f : List α → List β)
    (hempty : f [] = []) :
    levels.flatMap f = (levels.take level).flatMap f ++
      (f (levels.getD level []) ++ (levels.drop (level + 1)).flatMap f) := by
  induction level generalizing levels with
  | zero =>
      cases levels with
      | nil => exact hempty.symm.trans (List.append_nil _).symm
      | cons first rest => rfl
  | succ level ih =>
      cases levels with
      | nil => exact hempty.symm.trans (List.append_nil _).symm
      | cons first rest =>
          rw [List.flatMap_cons, ih, List.take_succ_cons, List.flatMap_cons,
            List.append_assoc]
          rfl

end Levels

namespace Engine

/-- The engine that lists tables of a level behind its own ones. -/
def adopt (engine : Engine) (level : ℕ) (outputs : List SST) : Engine :=
  { engine with
    levelSstIds :=
      setLevel engine.levelSstIds level (engine.level level ++ outputs.map SST.sstId)
    ssts := outputs.foldl (fun ssts sst => ssts.insert sst.sstId sst) engine.ssts }

/-- Tables that were written for a level and are not listed. -/
structure Unlisted (config : Config) (engine : Engine) (level : ℕ) (outputs : List SST) :
    Prop where
  fresh : Fresh engine outputs
  built : ∀ sst ∈ outputs, sst.Built config
  above : ∀ id, engine.ssts.contains id = true → ∀ sst ∈ outputs, id < sst.sstId
  level_ne : level ≠ 0
  level_le : ∀ sst ∈ outputs, level ≤ sst.sstId

section Adopt

variable {config : Config} {params : BloomParams} {leftover : Leftover} {engine : Engine}
  {dir : Directory} {level : ℕ} {outputs : List SST}

theorem level_adopt (engine : Engine) (level : ℕ) (outputs : List SST) (other : ℕ) :
    (engine.adopt level outputs).level other =
      if other = level then engine.level level ++ outputs.map SST.sstId
      else engine.level other := getD_setLevel _ _ _ _

theorem Unlisted.nodup (hunlisted : Unlisted config engine level outputs) :
    (outputs.map SST.sstId).Nodup :=
  hunlisted.fresh.ascending.imp fun hlt => hlt.ne

theorem find?_adopt (hunlisted : Unlisted config engine level outputs) (id : ℕ) :
    (engine.adopt level outputs).ssts.find? id =
      (outputs.find? fun sst => sst.sstId = id).or (engine.ssts.find? id) :=
  find?_foldl_insert hunlisted.nodup _ _

/-- Listed tables stay what they are. -/
theorem find?_adopt_old (hunlisted : Unlisted config engine level outputs) {id : ℕ}
    (hstored : engine.ssts.contains id = true) :
    (engine.adopt level outputs).ssts.find? id = engine.ssts.find? id := by
  have hnone : (outputs.find? fun sst => sst.sstId = id) = none := by
    rw [List.find?_eq_none]
    intro sst hmem hid
    exact (hunlisted.above id hstored sst hmem).ne (of_decide_eq_true hid).symm
  rw [find?_adopt hunlisted, hnone, Option.none_or]

theorem find?_adopt_new (hunlisted : Unlisted config engine level outputs) {sst : SST}
    (hmem : sst ∈ outputs) :
    (engine.adopt level outputs).ssts.find? sst.sstId = some sst := by
  rw [find?_adopt hunlisted, find?_of_nodup hunlisted.nodup hmem, Option.some_or]

theorem find?_adopt_cases (hunlisted : Unlisted config engine level outputs) {id : ℕ} {sst : SST}
    (hfind : (engine.adopt level outputs).ssts.find? id = some sst) :
    (sst ∈ outputs ∧ sst.sstId = id) ∨ engine.ssts.find? id = some sst := by
  rw [find?_adopt hunlisted] at hfind
  cases hnew : outputs.find? fun sst => sst.sstId = id with
  | none =>
      rw [hnew, Option.none_or] at hfind
      exact Or.inr hfind
  | some found =>
      rw [hnew, Option.some_or] at hfind
      obtain rfl := Option.some.inj hfind
      have hid := List.find?_some hnew
      exact Or.inl ⟨List.mem_of_find?_eq_some hnew, of_decide_eq_true hid⟩

theorem contains_adopt (hunlisted : Unlisted config engine level outputs) (id : ℕ) :
    (engine.adopt level outputs).ssts.contains id = true ↔
      id ∈ outputs.map SST.sstId ∨ engine.ssts.contains id = true := by
  constructor
  · intro hcontains
    obtain ⟨sst, hfind⟩ := Option.isSome_iff_exists.mp hcontains
    rcases find?_adopt_cases hunlisted hfind with ⟨hmem, rfl⟩ | hold
    · exact Or.inl (List.mem_map_of_mem hmem)
    · exact Or.inr (Option.isSome_iff_exists.mpr ⟨sst, hold⟩)
  · rintro (hnew | hold)
    · obtain ⟨sst, hmem, rfl⟩ := List.mem_map.mp hnew
      exact Option.isSome_iff_exists.mpr ⟨sst, find?_adopt_new hunlisted hmem⟩
    · rw [OrdMap.contains, find?_adopt_old hunlisted hold]
      exact hold

theorem mem_level_adopt {other id : ℕ} :
    id ∈ (engine.adopt level outputs).level other ↔
      id ∈ engine.level other ∨ (other = level ∧ id ∈ outputs.map SST.sstId) := by
  rw [level_adopt]
  split_ifs with hlevel
  · rw [hlevel, List.mem_append, and_iff_right rfl]
  · rw [or_iff_left (fun hnew => hlevel hnew.1)]

/-- Tables of the engine and unlisted ones can be restored together. -/
theorem Unlisted.restorable (hunlisted : Unlisted config engine level outputs)
    (htables : TableInvariant config engine) :
    Restorable config (engine.adopt level outputs) := by
  have hstored : ∀ other id, id ∈ engine.level other → engine.ssts.contains id = true :=
    fun other id hid => (htables.invariant.mem_iff id).mp (mem_level_flatten hid)
  have hnew : ∀ id, id ∈ outputs.map SST.sstId → engine.ssts.contains id ≠ true := by
    intro id hmem hcontains
    obtain ⟨sst, hsst, rfl⟩ := List.mem_map.mp hmem
    exact lt_irrefl _ (hunlisted.above _ hcontains sst hsst)
  have hordered : (engine.level level ++ outputs.map SST.sstId).Pairwise
      fun left right => left < right := by
    refine List.pairwise_append.mpr ⟨htables.ascending level hunlisted.level_ne,
      hunlisted.fresh.ascending, ?_⟩
    intro id hid new hmem
    obtain ⟨sst, hsst, rfl⟩ := List.mem_map.mp hmem
    exact hunlisted.above id (hstored level id hid) sst hsst
  have hascending : ∀ other, other ≠ 0 → ((engine.adopt level outputs).level other).Pairwise
      fun left right => left < right := by
    intro other hother
    rw [level_adopt]
    split_ifs with hlevel
    · exact hordered
    · exact htables.ascending other hother
  have hdescending : ((engine.adopt level outputs).level 0).Pairwise
      fun left right => left > right := by
    rw [level_adopt, if_neg hunlisted.level_ne.symm]
    exact htables.invariant.descending
  exact
    { nodup := by
        apply nodup_flatten_of_levels
        · intro other
          by_cases hzero : other = 0
          · rw [hzero]
            exact hdescending.imp fun hgt => hgt.ne'
          · exact (hascending other hzero).imp fun hlt => hlt.ne
        · intro left right id hleft hright
          rcases mem_level_adopt.mp hleft with hold | ⟨rfl, hmem⟩
          · rcases mem_level_adopt.mp hright with hold' | ⟨-, hmem⟩
            · exact level_unique htables.invariant.nodup hold hold'
            · exact absurd (hstored left id hold) (hnew id hmem)
          · rcases mem_level_adopt.mp hright with hold | ⟨hlevel, -⟩
            · exact absurd (hstored right id hold) (hnew id hmem)
            · exact hlevel.symm
      mem_iff := by
        intro id
        rw [mem_flatten_iff_level, contains_adopt hunlisted]
        constructor
        · rintro ⟨other, hid⟩
          rcases mem_level_adopt.mp hid with hold | ⟨-, hmem⟩
          · exact Or.inr (hstored other id hold)
          · exact Or.inl hmem
        · rintro (hmem | hcontains)
          · exact ⟨level, mem_level_adopt.mpr (Or.inr ⟨rfl, hmem⟩)⟩
          · obtain ⟨other, hid⟩ :=
              mem_flatten_iff_level.mp ((htables.invariant.mem_iff id).mpr hcontains)
            exact ⟨other, mem_level_adopt.mpr (Or.inl hid)⟩
      keyed := by
        intro id sst hfind
        rcases find?_adopt_cases hunlisted hfind with ⟨-, hid⟩ | hold
        · exact hid
        · exact htables.invariant.keyed id sst hold
      built := by
        intro id sst hfind
        rcases find?_adopt_cases hunlisted hfind with ⟨hmem, -⟩ | hold
        · exact hunlisted.built sst hmem
        · exact htables.built id sst hold
      descending := hdescending
      ascending := hascending
      level_le := by
        intro other id hid
        rcases mem_level_adopt.mp hid with hold | ⟨rfl, hmem⟩
        · exact htables.level_le other id hold
        · obtain ⟨sst, hsst, rfl⟩ := List.mem_map.mp hmem
          exact hunlisted.level_le sst hsst }

/-- The directory with the files of unlisted tables. -/
theorem Mirrors.adopt (hmirrors : Mirrors config params engine dir)
    (hinv : LevelInvariant engine) (hunlisted : Unlisted config engine level outputs) :
    Mirrors config params (engine.adopt level outputs)
      (dir.applyAll config params leftover (outputs.map (writeOp level))) := by
  have hstored : ∀ other id, id ∈ engine.level other → engine.ssts.contains id = true :=
    fun other id hid => (hinv.mem_iff id).mp (mem_level_flatten hid)
  intro name content
  rw [Directory.find?_writes hunlisted.nodup]
  constructor
  · rintro (⟨sst, hmem, rfl, rfl⟩ | ⟨-, hfind⟩)
    · exact ⟨level, sst.sstId, mem_level_adopt.mpr (Or.inr ⟨rfl, List.mem_map_of_mem hmem⟩),
        sst, find?_adopt_new hunlisted hmem, rfl, rfl⟩
    · obtain ⟨other, id, hid, sst, hsst, rfl, rfl⟩ := (hmirrors name content).mp hfind
      exact ⟨other, id, mem_level_adopt.mpr (Or.inl hid), sst,
        (find?_adopt_old hunlisted (hstored other id hid)).trans hsst, rfl, rfl⟩
  · rintro ⟨other, id, hid, sst, hfind, rfl, rfl⟩
    rcases mem_level_adopt.mp hid with hold | ⟨rfl, hmem⟩
    · have hcontains := hstored other id hold
      rw [find?_adopt_old hunlisted hcontains] at hfind
      refine Or.inr ⟨?_, (hmirrors _ _).mpr ⟨other, id, hold, sst, hfind, rfl, rfl⟩⟩
      intro output houtput hname
      exact (hunlisted.above id hcontains output houtput).ne (sstName_inj hname).1
    · obtain ⟨output, houtput, rfl⟩ := List.mem_map.mp hmem
      rw [find?_adopt_new hunlisted houtput] at hfind
      obtain rfl := Option.some.inj hfind
      exact Or.inl ⟨output, houtput, rfl, rfl⟩

theorem sstsOf_adopt_new (hunlisted : Unlisted config engine level outputs) :
    (engine.adopt level outputs).sstsOf (outputs.map SST.sstId) = outputs := by
  rw [sstsOf, List.filterMap_map]
  have hfind : outputs.filterMap ((engine.adopt level outputs).ssts.find? ∘ SST.sstId) =
      outputs.filterMap some :=
    List.filterMap_congr fun sst hmem => find?_adopt_new hunlisted hmem
  rw [hfind, List.filterMap_some]

/-- The records of the files, with those of unlisted tables in their level. -/
theorem fileRecords_adopt (hinv : LevelInvariant engine)
    (hunlisted : Unlisted config engine level outputs) :
    (engine.adopt level outputs).fileRecords =
      (engine.levelSstIds.take level).flatMap engine.recordsOf ++
        (engine.recordsOf (engine.level level) ++ (outputs.flatMap SST.records ++
          (engine.levelSstIds.drop (level + 1)).flatMap engine.recordsOf)) := by
  have hold : ∀ ids, (∀ id ∈ ids, engine.ssts.contains id = true) →
      (engine.adopt level outputs).recordsOf ids = engine.recordsOf ids := fun ids hids =>
    recordsOf_congr fun id hid => find?_adopt_old hunlisted (hids id hid)
  have hstored : ∀ ids ∈ engine.levelSstIds, ∀ id ∈ ids, engine.ssts.contains id = true :=
    fun ids hids id hid => (hinv.mem_iff id).mp (List.mem_flatten.mpr ⟨ids, hids, hid⟩)
  have hlevel : ∀ id ∈ engine.level level, engine.ssts.contains id = true :=
    fun id hid => (hinv.mem_iff id).mp (mem_level_flatten hid)
  have hnew : (engine.adopt level outputs).recordsOf (outputs.map SST.sstId) =
      outputs.flatMap SST.records := congrArg _ (sstsOf_adopt_new hunlisted)
  rw [fileRecords, show (engine.adopt level outputs).levelSstIds = setLevel engine.levelSstIds level
    (engine.level level ++ outputs.map SST.sstId) from rfl,
    flatMap_setLevel _ _ _ _ rfl, recordsOf_append, hold _ hlevel, hnew, List.append_assoc]
  congr 1
  · exact List.flatMap_congr fun ids hids => hold ids (hstored ids (List.mem_of_mem_take hids))
  · congr 2
    exact List.flatMap_congr fun ids hids => hold ids (hstored ids (List.mem_of_mem_drop hids))

/-- Copies of records of the level above, in an empty level, change no read. -/
theorem latestAgree_adopt (hinv : LevelInvariant engine)
    (hunlisted : Unlisted config engine level outputs) {srcLevel : ℕ} (hsrc : srcLevel < level)
    (hapart : outputs = [] ∨ engine.level level = [])
    (hcopies : engine.level level = [] → ∀ entry ∈ outputs.flatMap SST.records,
      entry ∈ engine.recordsOf (engine.level srcLevel)) (key : Bytes) :
    Versions.LatestAgree (engine.adopt level outputs).fileRecords engine.fileRecords key := by
  have hrecords : engine.fileRecords =
      (engine.levelSstIds.take level).flatMap engine.recordsOf ++
        (engine.recordsOf (engine.level level) ++
          (engine.levelSstIds.drop (level + 1)).flatMap engine.recordsOf) :=
    flatMap_levels engine.levelSstIds level engine.recordsOf rfl
  rw [fileRecords_adopt hinv hunlisted, hrecords]
  rcases hapart with rfl | hempty
  · exact fun _ => rfl
  · have hnone : engine.recordsOf [] = [] := rfl
    rw [hempty, hnone, List.nil_append, List.nil_append]
    apply Versions.latestAgree_repeat
    intro entry hmem
    have hsource := hcopies hempty entry hmem
    rw [List.mem_flatMap]
    refine ⟨engine.level srcLevel, ?_, hsource⟩
    by_cases hlt : srcLevel < engine.levelSstIds.length
    · rw [Engine.level, List.getD_eq_getElem _ _ hlt]
      exact List.mem_take_iff_getElem.mpr ⟨srcLevel, lt_min hsrc hlt, rfl⟩
    · rw [Engine.level, List.getD_eq_default _ _ (not_lt.mp hlt)] at hsource
      cases hsource

/-- In an empty level unlisted tables keep the level invariant. -/
theorem LevelInvariant.adopt (htables : TableInvariant config engine)
    (hunlisted : Unlisted config engine level outputs)
    (hapart : outputs = [] ∨ engine.level level = []) :
    LevelInvariant (engine.adopt level outputs) := by
  have hrestorable := hunlisted.restorable htables
  have hold : ∀ other, (engine.adopt level outputs).sstsOf (engine.level other) =
      engine.sstsOf (engine.level other) := fun other =>
    sstsOf_congr fun id hid => find?_adopt_old hunlisted
      ((htables.invariant.mem_iff id).mp (mem_level_flatten hid))
  exact
    { nodup := hrestorable.nodup
      mem_iff := hrestorable.mem_iff
      keyed := hrestorable.keyed
      wellFormed := by
        intro id sst hfind
        rcases find?_adopt_cases hunlisted hfind with ⟨hmem, -⟩ | hstored
        · exact hunlisted.fresh.wellFormed sst hmem
        · exact htables.invariant.wellFormed id sst hstored
      descending := hrestorable.descending
      distinct := by
        rw [level_adopt, if_neg hunlisted.level_ne.symm, hold]
        exact htables.invariant.distinct
      separated := by
        intro other hother
        rw [level_adopt]
        split_ifs with hlevel
        · rcases hapart with rfl | hempty
          · rw [List.map_nil, List.append_nil, hold, ← hlevel]
            exact htables.invariant.separated other hother
          · rw [hempty, List.nil_append, sstsOf_adopt_new hunlisted]
            exact hunlisted.fresh.separated
        · rw [hold]
          exact htables.invariant.separated other hother
      paths_lt := htables.invariant.paths_lt
      paths_nodup := htables.invariant.paths_nodup
      stored_lt := by
        intro id hcontains
        rcases (contains_adopt hunlisted id).mp hcontains with hmem | hstored
        · obtain ⟨sst, hsst, rfl⟩ := List.mem_map.mp hmem
          exact hunlisted.fresh.lt_next sst hsst
        · exact htables.invariant.stored_lt id hstored }

end Adopt

/-! ## The invariant of a restored engine -/

theorem described_decoded {blocks : List (BlockMeta × Block)} {following : List Entry}
    (hdescribed : Described blocks following) :
    Described (blocks.map fun block => (block.1, SST.decodedBlock block.2.entries))
      following := by
  induction blocks with
  | nil => trivial
  | cons block rest ih =>
      obtain ⟨hfirst, hlast, hrest⟩ := hdescribed
      refine ⟨?_, hlast, ih hrest⟩
      rw [List.flatMap_map]
      exact hfirst

theorem wellFormed_decoded {sst : SST} (hsst : sst.WellFormed) : sst.decoded.WellFormed where
  nonempty := by
    intro hnil
    exact hsst.nonempty (List.map_eq_nil_iff.mp hnil)
  blocks_nonempty := by
    intro block hmem
    obtain ⟨built, hbuilt, rfl⟩ := List.mem_map.mp hmem
    exact hsst.blocks_nonempty built hbuilt
  described := described_decoded hsst.described
  sorted := by
    rw [SST.records_decoded]
    exact hsst.sorted
  separated := by
    rw [SST.decoded, List.map_map]
    exact hsst.separated
  firstKey_eq := by
    rw [SST.records_decoded]
    exact hsst.firstKey_eq
  lastKey_eq := by
    rw [SST.records_decoded]
    exact hsst.lastKey_eq
  bloom := by
    rw [SST.records_decoded]
    exact hsst.bloom

section Restored

variable {engine reopened : Engine}

theorem Restored.records_sstsOf (hrestored : Restored engine reopened) (ids : List ℕ) :
    (reopened.sstsOf ids).map SST.records = (engine.sstsOf ids).map SST.records := by
  have hssts : reopened.sstsOf ids = (engine.sstsOf ids).map SST.decoded := by
    rw [sstsOf, sstsOf, List.map_filterMap]
    exact List.filterMap_congr fun id _ => hrestored.find?_eq id
  rw [hssts, List.map_map]
  exact List.map_congr_left fun sst _ => SST.records_decoded sst

/-- A restored engine satisfies the level invariant when the restored tables do. -/
theorem Restored.levelInvariant (hrestored : Restored engine reopened)
    (hinv : LevelInvariant engine) : LevelInvariant reopened := by
  have hmem : ∀ id, id ∈ reopened.levelSstIds.flatten ↔ id ∈ engine.levelSstIds.flatten := by
    intro id
    rw [mem_flatten_iff_level, mem_flatten_iff_level]
    exact exists_congr fun level => by
      rw [show reopened.levelSstIds.getD level [] = engine.levelSstIds.getD level [] from
        hrestored.level_eq level]
  have hcontains : ∀ id, reopened.ssts.contains id = engine.ssts.contains id := by
    intro id
    rw [OrdMap.contains, OrdMap.contains, hrestored.find?_eq, Option.isSome_map]
  have hstored : ∀ id sst', reopened.ssts.find? id = some sst' →
      ∃ sst, engine.ssts.find? id = some sst ∧ sst' = sst.decoded := by
    intro id sst' hfind
    rw [hrestored.find?_eq] at hfind
    obtain ⟨sst, hsst, hdecoded⟩ := Option.map_eq_some_iff.mp hfind
    exact ⟨sst, hsst, hdecoded.symm⟩
  exact
    { nodup := by
        apply nodup_flatten_of_levels
        · intro level
          rw [show reopened.levelSstIds.getD level [] = engine.level level from
            hrestored.level_eq level]
          exact level_nodup hinv.nodup level
        · intro left right id hleft hright
          rw [show reopened.levelSstIds.getD left [] = engine.level left from
            hrestored.level_eq left] at hleft
          rw [show reopened.levelSstIds.getD right [] = engine.level right from
            hrestored.level_eq right] at hright
          exact level_unique hinv.nodup hleft hright
      mem_iff := by
        intro id
        rw [hmem, hcontains]
        exact hinv.mem_iff id
      keyed := by
        intro id sst' hfind
        obtain ⟨sst, hsst, rfl⟩ := hstored id sst' hfind
        exact hinv.keyed id sst hsst
      wellFormed := by
        intro id sst' hfind
        obtain ⟨sst, hsst, rfl⟩ := hstored id sst' hfind
        exact wellFormed_decoded (hinv.wellFormed id sst hsst)
      descending := by
        rw [hrestored.level_eq]
        exact hinv.descending
      distinct := by
        intro sst' hmem'
        have hrecords := List.mem_map_of_mem (f := SST.records) hmem'
        rw [hrestored.level_eq, hrestored.records_sstsOf] at hrecords
        obtain ⟨sst, hsst, hsame⟩ := List.mem_map.mp hrecords
        rw [← hsame]
        exact hinv.distinct sst hsst
      separated := by
        intro level hlevel
        rw [hrestored.level_eq, hrestored.records_sstsOf]
        exact hinv.separated level hlevel
      paths_lt := hrestored.paths_lt
      paths_nodup := hrestored.paths_nodup
      stored_lt := by
        intro id hid
        rw [hcontains] at hid
        exact hrestored.lt_next id hid }

end Restored

/-! ## Reopening after a compaction that threw -/

section Failed

variable {config : Config} {params : BloomParams} {leftover : Leftover}

theorem tableInvariant_runAll {engine : Engine} (htables : TableInvariant config engine)
    (ops : List EngineOp) : TableInvariant config (runAll config engine ops) := by
  induction ops generalizing engine with
  | nil => exact htables
  | cons op rest ih => exact ih (tableInvariant_run htables op)

/-- A failed build that leaves no file does nothing to the directory. -/
theorem applyAll_torn {level : ℕ} {torn : List FileOp} (htorn : Torn level torn)
    (hnothing : ∀ sstId level sst, FileOp.fail sstId level sst ∈ torn → leftover sstId = none)
    (dir : Directory) : dir.applyAll config params leftover torn = dir := by
  rcases htorn with rfl | ⟨sstId, sst, rfl⟩
  · rfl
  · have hnone := hnothing sstId level sst List.mem_cons_self
    change FileOp.apply config params leftover dir (.fail sstId level sst) = dir
    unfold FileOp.apply
    dsimp only
    rw [hnone]

/-- A table file that the engine does not list. -/
def Orphan (engine : Engine) (dir : Directory) (sstId level : ℕ) : Prop :=
  (∃ content, dir.find? (sstName sstId level) = some content) ∧ sstId ∉ engine.level level

/-- The opened engine is in order and finds in its files what the other one found. -/
def Undamaged (engine reopened : Engine) : Prop :=
  LevelInvariant reopened ∧ ∀ key, key ≠ [] → ∀ trancId isAborted,
    reopened.sstGet_ key trancId isAborted = engine.sstGet_ key trancId isAborted

/-- The tables that a failed merge left are unlisted tables of its target level. -/
theorem FailedMerge.unlisted {engine room after : Engine} {roomDir dir : Directory}
    {ops torn : List FileOp} {srcLevel : ℕ} {outputs : List SST}
    (hfailed : FailedMerge config params leftover engine room after roomDir dir ops srcLevel
      outputs torn) : Unlisted config after (srcLevel + 1) outputs := by
  obtain ⟨merged, remaining, hmerge⟩ := hfailed.merge
  have hfresh := hmerge.fresh hfailed.tables
  have hadvanced := hmerge.written.advanced
  rw [← hfailed.after_eq] at hfresh hadvanced
  have hids : ∀ sst ∈ outputs, room.nextSstId ≤ sst.sstId := by
    intro sst hmem
    have hrange := List.mem_map_of_mem (f := SST.sstId) hmem
    rw [hmerge.written.ids, List.mem_range'_1] at hrange
    exact hrange.1
  exact
    { fresh := hfresh
      built := hmerge.written.built
      above := by
        intro id hcontains sst hmem
        rw [hadvanced.ssts] at hcontains
        exact (hfailed.tables.invariant.stored_lt id hcontains).trans_le (hids sst hmem)
      level_ne := Nat.succ_ne_zero srcLevel
      level_le := hmerge.le_sstId hfailed.tables }

section FailedMerge

variable {engine room after reopened : Engine} {roomDir dir : Directory}
  {ops torn : List FileOp} {srcLevel : ℕ} {outputs : List SST}

/-- The first table of a merge starts with the smallest key of both levels, so it cannot
follow a table of the target level. -/
theorem FailedMerge.overlap
    (hfailed : FailedMerge config params leftover engine room after roomDir dir ops srcLevel
      outputs torn)
    (hrestored : Restored (after.adopt (srcLevel + 1) outputs) reopened) (houtputs : outputs ≠ [])
    (hlevel : after.level (srcLevel + 1) ≠ []) : ¬LevelInvariant reopened := by
  intro hinv
  have hunlisted := hfailed.unlisted
  obtain ⟨merged, remaining, hmerge⟩ := hfailed.merge
  have hadvanced := hmerge.written.advanced
  rw [← hfailed.after_eq] at hadvanced
  have hafter := hfailed.tables.advance hadvanced
  obtain ⟨id, rest, hids⟩ := List.exists_cons_of_ne_nil hlevel
  have hid : id ∈ after.level (srcLevel + 1) := by
    rw [hids]
    exact List.mem_cons_self
  obtain ⟨sst, hfind⟩ := hafter.invariant.find?_isSome (mem_level_flatten hid)
  obtain ⟨first, others, rfl⟩ := List.exists_cons_of_ne_nil houtputs
  have hfirst := hunlisted.fresh.wellFormed first List.mem_cons_self
  obtain ⟨entry, entries, hentry⟩ := List.exists_cons_of_ne_nil hfirst.records_ne_nil
  obtain ⟨old, olds, hold⟩ :=
    List.exists_cons_of_ne_nil (hafter.invariant.wellFormed id sst hfind).records_ne_nil
  have holdMem : old ∈ sst.records := by
    rw [hold]
    exact List.mem_cons_self
  have hseparated := hinv.separated (srcLevel + 1) (Nat.succ_ne_zero _)
  have hstored : (after.adopt (srcLevel + 1) (first :: others)).ssts.find? id = some sst := by
    rw [find?_adopt_old hunlisted (Option.isSome_iff_exists.mpr ⟨sst, hfind⟩), hfind]
  rw [hrestored.level_eq, hrestored.records_sstsOf, level_adopt, if_pos rfl, sstsOf,
    List.filterMap_append, List.map_append] at hseparated
  have hbefore : KeysBefore sst.records first.records := by
    apply (List.pairwise_append.mp hseparated).2.2
    · exact List.mem_map_of_mem (List.mem_filterMap.mpr ⟨id, hid, hstored⟩)
    · exact List.mem_map_of_mem (List.mem_filterMap.mpr ⟨first.sstId,
        List.mem_map_of_mem List.mem_cons_self, find?_adopt_new hunlisted List.mem_cons_self⟩)
  have hlt := hbefore old holdMem entry (by rw [hentry]; exact List.mem_cons_self)
  have hmem : old ∈ merged := by
    rw [hmerge.sameVersions.mem_iff]
    apply List.mem_append_right
    rw [← hadvanced.level, ← hadvanced.recordsOf]
    exact List.mem_flatMap.mpr ⟨sst, mem_sstsOf.mpr ⟨id, hid, hfind⟩, holdMem⟩
  have hsorted := hmerge.sorted
  rw [← hmerge.records, List.flatMap_cons, hentry] at hmem hsorted
  rcases List.mem_cons.mp hmem with rfl | htail
  · exact lt_irrefl _ hlt
  · exact (hsorted.key_le htail).not_gt hlt

/-- A failed merge that wrote nothing, or wrote into an empty level, does no damage. -/
theorem FailedMerge.undamaged
    (hfailed : FailedMerge config params leftover engine room after roomDir dir ops srcLevel
      outputs torn)
    (hinv : LevelInvariant engine)
    (hrestored : Restored (after.adopt (srcLevel + 1) outputs) reopened)
    (hapart : outputs = [] ∨ after.level (srcLevel + 1) = []) : Undamaged engine reopened := by
  have hunlisted := hfailed.unlisted
  obtain ⟨merged, remaining, hmerge⟩ := hfailed.merge
  have hadvanced := hmerge.written.advanced
  rw [← hfailed.after_eq] at hadvanced
  have hafter := hfailed.tables.advance hadvanced
  have hkept := hfailed.kept.trans (hadvanced.kept hfailed.tables.invariant)
  have hengine : ∀ key, key ≠ [] → ∀ trancId isAborted,
      after.sstGet_ key trancId isAborted = engine.sstGet_ key trancId isAborted := by
    intro key hkey trancId isAborted
    rw [sstGet_fileRecords trancId isAborted hafter.invariant hkey,
      sstGet_fileRecords trancId isAborted hinv hkey,
      Versions.read_congr (hkept.sameVersions.latestAgree key)]
  have hcopies : after.level (srcLevel + 1) = [] → ∀ entry ∈ outputs.flatMap SST.records,
      entry ∈ after.recordsOf (after.level srcLevel) := by
    intro hempty entry hmem
    have hmerged : entry ∈ merged := by
      rw [← hmerge.records]
      exact List.mem_append_left _ hmem
    rw [hmerge.sameVersions.mem_iff, ← hadvanced.level (srcLevel + 1), hempty] at hmerged
    rcases List.mem_append.mp hmerged with hsource | hnone
    · rwa [hadvanced.recordsOf, hadvanced.level]
    · cases hnone
  have hadopted := LevelInvariant.adopt hafter hunlisted hapart
  refine ⟨hrestored.levelInvariant hadopted, fun key hkey trancId isAborted => ?_⟩
  have hagree := latestAgree_adopt hafter.invariant hunlisted (Nat.lt_succ_self srcLevel) hapart
    hcopies key
  rw [hrestored.sstGet_eq, sstGet_fileRecords trancId isAborted hadopted hkey,
    Versions.read_congr hagree, ← sstGet_fileRecords trancId isAborted hafter.invariant hkey,
    hengine key hkey]

/-- The tables that a failed merge left lie in an empty level exactly when all orphans do. -/
theorem FailedMerge.apart_iff
    (hfailed : FailedMerge config params leftover engine room after roomDir dir ops srcLevel
      outputs torn)
    (hmirrors : Mirrors config params (after.adopt (srcLevel + 1) outputs) dir) :
    (∀ sstId level, Orphan after dir sstId level → after.level level = []) ↔
      (outputs = [] ∨ after.level (srcLevel + 1) = []) := by
  have hunlisted := hfailed.unlisted
  constructor
  · intro horphans
    cases outputs with
    | nil => exact Or.inl rfl
    | cons first others =>
        refine Or.inr (horphans first.sstId (srcLevel + 1) ⟨⟨_, (hmirrors _ _).mpr
          ⟨srcLevel + 1, first.sstId, mem_level_adopt.mpr
            (Or.inr ⟨rfl, List.mem_map_of_mem List.mem_cons_self⟩), first,
            find?_adopt_new hunlisted List.mem_cons_self, rfl, rfl⟩⟩, ?_⟩)
        intro hlisted
        obtain ⟨merged, remaining, hmerge⟩ := hfailed.merge
        have hadvanced := hmerge.written.advanced
        rw [← hfailed.after_eq] at hadvanced
        have hafter := hfailed.tables.advance hadvanced
        exact lt_irrefl _ (hunlisted.above _
          ((hafter.invariant.mem_iff _).mp (mem_level_flatten hlisted)) first
          List.mem_cons_self)
  · rintro hapart sstId level ⟨⟨content, hfind⟩, hunlistedId⟩
    obtain ⟨other, id, hid, sst, -, hname, -⟩ := (hmirrors _ _).mp hfind
    obtain ⟨rfl, rfl⟩ := sstName_inj hname
    rcases mem_level_adopt.mp hid with hold | ⟨hlevel, hmem⟩
    · exact absurd hold hunlistedId
    · rcases hapart with rfl | hempty
      · cases hmem
      · rw [hlevel, hempty]

end FailedMerge

/-- The tables that operations wrote. -/
def writtenTables (ops : List FileOp) : List SST :=
  ops.flatMap fun op =>
    match op with
    | .write _ _ sst => [sst]
    | _ => []

theorem mem_writtenTables {ops : List FileOp} {level : ℕ} {sst : SST}
    (hmem : writeOp level sst ∈ ops) : sst ∈ writtenTables ops :=
  List.mem_flatMap.mpr ⟨_, hmem, List.mem_cons_self⟩

/-- The directory after operations that may throw. -/
def dirAll (config : Config) (params : BloomParams) (leftover : Leftover)
    (ops : List EngineOp) : Directory :=
  (∅ : Directory).applyAll config params leftover (runAllFileOps config new ops)

theorem runAll_of_run {engine engine' : Engine} {ops : List EngineOp}
    (hrun : runOps config engine ops = .ok engine') :
    runAll config engine ops = engine' ∧
      runAllFileOps config engine ops = runFileOps config engine ops := by
  induction ops generalizing engine with
  | nil => exact ⟨Except.ok.inj hrun, rfl⟩
  | cons op rest ih =>
      rw [runOps] at hrun
      rw [runAllFileOps, runFileOps, runAll, List.foldl_cons]
      rcases hop : op.run config engine with ⟨next, result⟩
      rw [hop] at hrun
      cases result with
      | error err => cases hrun
      | ok flushed =>
          obtain ⟨hengine, hops⟩ := ih hrun
          exact ⟨hengine, by rw [hops]⟩

/-- A new engine on the directory that a failed compaction left is undamaged exactly when
every orphan lies in a level that lists no table. -/
theorem failed_compaction_reopens (leftover : Leftover) {ops : List EngineOp} {srcLevel : ℕ}
    {err : Err} {listing others : List (Bytes × Option Bytes)} (hsizes : BloomSized config)
    (hsync : Mirrors config params (runAll config new ops) (dirAll config params leftover ops))
    (herr : ((runAll config new ops).compact config srcLevel).2 = .error err)
    (hthrown : err ≠ .diverges)
    (hnothing : ∀ sstId level sst,
      FileOp.fail sstId level sst ∈ (runAll config new ops).compactOps config srcLevel →
        leftover sstId = none)
    (hfits : ∀ sst,
      ((∃ id, ((runAll config new ops).compact config srcLevel).1.ssts.find? id = some sst) ∨
        sst ∈ writtenTables ((runAll config new ops).compactOps config srcLevel)) →
          sst.WithinFormat config)
    (hlisting : listing.Perm (((dirAll config params leftover ops).applyAll config params leftover
      ((runAll config new ops).compactOps config srcLevel)).entries ++ others))
    (hothers : ∀ entry ∈ others, PassedOver entry) :
    ∃ reopened, openDir config listing = .ok reopened ∧
      (Undamaged (runAll config new ops) reopened ↔
        ∀ sstId level, Orphan ((runAll config new ops).compact config srcLevel).1
          ((dirAll config params leftover ops).applyAll config params leftover
            ((runAll config new ops).compactOps config srcLevel)) sstId level →
              ((runAll config new ops).compact config srcLevel).1.level level = []) := by
  have htables := tableInvariant_runAll (tableInvariant_new config) ops
  generalize runAll config new ops = engine at *
  have hfiles := compact_files leftover htables hsync srcLevel
  dsimp only at hfiles
  rcases hfiles with ⟨hok, -⟩ | hdiverges | ⟨-, room, roomDir, level, outputs, torn, hfailed⟩
  · rw [hok] at herr
    cases herr
  · rw [hdiverges] at herr
    exact absurd (Except.error.inj herr).symm hthrown
  obtain ⟨merged, remaining, hmerge⟩ := hfailed.merge
  have hadvanced := hmerge.written.advanced
  rw [← hfailed.after_eq] at hadvanced
  have hafter := hfailed.tables.advance hadvanced
  have hunlisted := hfailed.unlisted
  have hmirrored := @Mirrors.adopt config params leftover _ _ _ _
    (hfailed.mirrors.advance hadvanced) hafter.invariant hunlisted
  have hdir := hfailed.dir_eq
  rw [Directory.applyAll_append, applyAll_torn hfailed.tornFile fun sstId level sst hmem =>
    hnothing sstId level sst (hfailed.suffix.subset (List.mem_append_right _ hmem))] at hdir
  rw [← hdir] at hmirrored
  have hfitted : ∀ id sst, ((engine.compact config srcLevel).1.adopt (level + 1)
      outputs).ssts.find? id = some sst → sst.WithinFormat config := by
    intro id sst hfind
    rcases find?_adopt_cases hunlisted hfind with ⟨hmem, -⟩ | hold
    · exact hfits sst (Or.inr (mem_writtenTables (hfailed.suffix.subset
        (List.mem_append_left _ (List.mem_map_of_mem hmem)))))
    · exact hfits sst (Or.inl ⟨id, hold⟩)
  obtain ⟨reopened, hopen, hrestored⟩ := openDir_mirrored hsizes (hunlisted.restorable hafter)
    hmirrored hfitted hlisting hothers
  refine ⟨reopened, hopen, ?_⟩
  rw [hfailed.apart_iff hmirrored]
  constructor
  · rintro ⟨hinv, -⟩
    by_contra hapart
    rw [not_or] at hapart
    exact hfailed.overlap hrestored hapart.1 hapart.2 hinv
  · exact hfailed.undamaged htables.invariant hrestored

end Failed

/-! ## Two tables of a failed merge -/

/-- Tables of two records, of which one cannot be created. -/
def tinyConfig (failing : ℕ) : Config :=
  { smallConfig with
    lsmPerMemSizeLimit := 8
    lsmBlockSize := 8
    createFails := fun sstId => decide (sstId = failing) }

/-- A table in level 1 and one in level 0 whose keys lie between its keys. -/
def nestedOps : List EngineOp :=
  [.putBatch [([1], [7]), ([4], [7])] 1, .flush, .compact 0,
    .putBatch [([2], [7]), ([3], [7])] 2, .flush]

/-- The directory after a failed compaction of these tables. -/
def damagedDir (failing : ℕ) (leftover : Leftover) : Directory :=
  (dirAll (tinyConfig failing) SST.oneKeyParams leftover nestedOps).applyAll
    (tinyConfig failing) SST.oneKeyParams leftover
    ((runAll (tinyConfig failing) new nestedOps).compactOps (tinyConfig failing) 0)

/-- A check of what a call returns. -/
def returns {α : Type} (check : α → Bool) : Except Err α → Bool
  | .ok value => check value
  | .error _ => false

theorem exists_of_returns {α : Type} {check : α → Bool} {result : Except Err α}
    (hcheck : returns check result = true) : ∃ value, result = .ok value ∧ check value = true := by
  cases result with
  | ok value => exact ⟨value, rfl, hcheck⟩
  | error err => cases hcheck

/-- The first table of a merge cannot be created: nothing was written. -/
theorem failed_compaction_reopens_first :
    ∃ engine reopened,
      runOps (tinyConfig 4) new nestedOps = .ok engine ∧
      engine.level 0 = [3] ∧ engine.level 1 = [2] ∧
      openDir (tinyConfig 4) (damagedDir 4 fun _ => none).entries = .ok reopened ∧
      Undamaged engine reopened := by
  obtain ⟨engine, hrun, hl0, hl1, herr, hwritten, hstored⟩ : ∃ engine,
      runOps (tinyConfig 4) new nestedOps = .ok engine ∧ engine.level 0 = [3] ∧
      engine.level 1 = [2] ∧ engine.compact (tinyConfig 4) 0 =
        ((engine.compact (tinyConfig 4) 0).1,
          .error (.runtimeError "Failed to create or write file")) ∧
      writtenTables (engine.compactOps (tinyConfig 4) 0) = [] ∧
      ∀ stored ∈ (engine.compact (tinyConfig 4) 0).1.ssts.entries,
        stored.2.sstId < 2 ^ 56 ∧ (∀ entry ∈ stored.2.records, entry.txid < 2 ^ 56) ∧
          (stored.2.data ++ stored.2.metaSection (tinyConfig 4)).length < 2 ^ 32 := by
    unfold tinyConfig nestedOps
    exact ⟨_, rfl, rfl, rfl, rfl, rfl, by decide +kernel⟩
  have hafter : (engine.compact (tinyConfig 4) 0).1.level 0 = [3] ∧
      (engine.compact (tinyConfig 4) 0).1.level 1 = [2] := by
    obtain ⟨hengine, -⟩ := runAll_of_run hrun
    rw [← hengine]
    unfold tinyConfig nestedOps
    exact ⟨rfl, rfl⟩
  have hnames : (damagedDir 4 fun _ => none).entries.map Prod.fst =
      [sstName 2 1, sstName 3 0] := by decide +kernel
  obtain ⟨hengine, hops⟩ := runAll_of_run hrun
  have hsync := (@mirrors_of_run (tinyConfig 4) SST.oneKeyParams (fun _ => none) _ _ hrun).2
  rw [dataDir, ← hops, ← hengine] at hsync
  obtain ⟨reopened, hopen, hiff⟩ := @failed_compaction_reopens (tinyConfig 4) SST.oneKeyParams
    (fun _ => none) nestedOps 0 (.runtimeError "Failed to create or write file")
    (damagedDir 4 fun _ => none).entries [] ⟨by decide, by decide, by decide⟩ hsync
    (by rw [hengine, herr]) (fun hdiverges => by cases hdiverges) (fun _ _ _ _ => rfl)
    (by
      rw [hengine, hwritten]
      rintro sst (⟨id, hfind⟩ | hmem)
      · obtain ⟨hid, htxid, hoffsets⟩ := hstored (id, sst) (OrdMap.find?_eq_some_iff.mp hfind)
        exact ⟨hid, htxid, hoffsets⟩
      · cases hmem)
    (by rw [List.append_nil]; exact List.Perm.refl _) (List.forall_mem_nil _)
  rw [hengine] at hiff
  refine ⟨engine, reopened, hrun, hl0, hl1, hopen, hiff.mpr ?_⟩
  rintro sstId level ⟨⟨content, hfind⟩, hunlisted⟩
  have hname : sstName sstId level ∈ [sstName 2 1, sstName 3 0] := by
    rw [← hnames]
    rw [← hengine] at hfind
    exact List.mem_map_of_mem (f := Prod.fst) (OrdMap.find?_eq_some_iff.mp hfind)
  rcases List.mem_cons.mp hname with hsame | hmem
  · obtain ⟨rfl, rfl⟩ := sstName_inj hsame
    rw [hafter.2] at hunlisted
    exact absurd List.mem_cons_self hunlisted
  · obtain ⟨rfl, rfl⟩ := sstName_inj (List.mem_singleton.mp hmem)
    rw [hafter.1] at hunlisted
    exact absurd List.mem_cons_self hunlisted

/-- The second table of a merge cannot be created: the first one overlaps the table of level 1
and hides its last key.  A file without bytes keeps the directory from being opened at all. -/
theorem failed_compaction_damages :
    ∃ engine err reopened left right,
      runOps (tinyConfig 5) new nestedOps = .ok engine ∧
      (engine.compact (tinyConfig 5) 0).2 = .error err ∧
      openDir (tinyConfig 5) (damagedDir 5 fun _ => none).entries = .ok reopened ∧
      reopened.level 1 = [2, 4] ∧ reopened.ssts.find? 2 = some left ∧
      reopened.ssts.find? 4 = some right ∧ right.firstKey ≤ left.lastKey ∧
      engine.sstGet_ [4] 0 (fun _ => false) = .ok (some ([7], 1)) ∧
      reopened.sstGet_ [4] 0 (fun _ => false) = .ok none ∧
      ∃ err', openDir (tinyConfig 5) (damagedDir 5 fun _ => some 0).entries = .error err' := by
  obtain ⟨engine, err, hrun, herr, hbefore⟩ : ∃ engine err,
      runOps (tinyConfig 5) new nestedOps = .ok engine ∧
      (engine.compact (tinyConfig 5) 0).2 = .error err ∧
      engine.sstGet_ [4] 0 (fun _ => false) = .ok (some ([7], 1)) := by
    unfold tinyConfig nestedOps
    exact ⟨_, _, rfl, rfl, rfl⟩
  have hopened : returns (fun reopened => decide (reopened.level 1 = [2, 4]) &&
      ((reopened.ssts.find? 2).any fun left => (reopened.ssts.find? 4).any fun right =>
        decide (right.firstKey ≤ left.lastKey)) &&
      returns Option.isNone (reopened.sstGet_ [4] 0 fun _ => false))
        (openDir (tinyConfig 5) (damagedDir 5 fun _ => none).entries) = true := by
    decide +kernel
  have hrefused : returns (fun _ => true)
      (openDir (tinyConfig 5) (damagedDir 5 fun _ => some 0).entries) = false := by
    decide +kernel
  obtain ⟨reopened, hopen, hcheck⟩ := exists_of_returns hopened
  obtain ⟨hlisted, hlost⟩ := Bool.and_eq_true_iff.mp hcheck
  obtain ⟨hlevel, htables⟩ := Bool.and_eq_true_iff.mp hlisted
  obtain ⟨left, hleft, hsecond⟩ := (Option.any_eq_true _ _).mp htables
  obtain ⟨right, hright, hoverlap⟩ := (Option.any_eq_true _ _).mp hsecond
  obtain ⟨found, hget, hnone⟩ := exists_of_returns hlost
  rw [Option.isNone_iff_eq_none.mp hnone] at hget
  have herror : ∃ err', openDir (tinyConfig 5) (damagedDir 5 fun _ => some 0).entries =
      .error err' := by
    generalize openDir (tinyConfig 5) (damagedDir 5 fun _ => some 0).entries = result at hrefused ⊢
    cases result with
    | ok value => cases hrefused
    | error err' => exact ⟨err', rfl⟩
  exact ⟨engine, err, reopened, left, right, hrun, herr, hopen, of_decide_eq_true hlevel,
    hleft, hright, of_decide_eq_true hoverlap, hbefore, hget, herror⟩

end Engine

end KopiDb
