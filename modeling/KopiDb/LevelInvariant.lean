import KopiDb.Compaction

/-!
# The level invariant

Every file is in exactly one level list, level 0 is ordered from new to old, and the
files of a deeper level follow each other in key order.  Flushes, compactions and
clears keep this invariant, also when they throw.
-/

namespace KopiDb

/-! ## Level lists -/

section Levels

variable {α : Type}

theorem getD_setLevel (levels : List (List α)) (level other : ℕ) (ids : List α) :
    (setLevel levels level ids).getD other [] =
      if other = level then ids else levels.getD other [] := by
  induction level generalizing levels other with
  | zero => cases levels <;> cases other <;> simp [setLevel]
  | succ level ih =>
      cases levels with
      | nil =>
          cases other with
          | zero => simp [setLevel]
          | succ other => simpa [setLevel] using ih [] other
      | cons first rest =>
          cases other with
          | zero => simp [setLevel]
          | succ other => simpa [setLevel] using ih rest other

/-- A compaction replaces two neighbouring levels. -/
private theorem setLevel_pair (levels : List (List α)) (level : ℕ) (ids : List α) :
    ∃ front back pad,
      levels ++ List.replicate pad [] =
        front ++ levels.getD level [] :: levels.getD (level + 1) [] :: back ∧
      setLevel (setLevel levels level []) (level + 1) ids = front ++ [] :: ids :: back := by
  induction level generalizing levels with
  | zero =>
      match levels with
      | [] => exact ⟨[], [], 2, rfl, rfl⟩
      | [first] => exact ⟨[], [], 1, rfl, rfl⟩
      | first :: second :: rest => exact ⟨[], rest, 0, by simp, rfl⟩
  | succ level ih =>
      cases levels with
      | nil =>
          obtain ⟨front, back, pad, hpad, hset⟩ := ih []
          refine ⟨[] :: front, back, pad + 1, ?_, ?_⟩
          · simpa [List.replicate_succ] using hpad
          · simpa [setLevel] using hset
      | cons first rest =>
          obtain ⟨front, back, pad, hpad, hset⟩ := ih rest
          refine ⟨first :: front, back, pad, ?_, ?_⟩
          · simpa using hpad
          · simpa [setLevel] using hset

theorem setLevel_zero (levels : List (List α)) (ids : List α) :
    ∃ back pad, levels ++ List.replicate pad [] = levels.getD 0 [] :: back ∧
      setLevel levels 0 ids = ids :: back := by
  cases levels with
  | nil => exact ⟨[], 1, rfl, rfl⟩
  | cons first rest => exact ⟨rest, 0, by simp, rfl⟩

/-- Without duplicates an element is in one level only. -/
theorem level_unique {levels : List (List α)} (hnodup : levels.flatten.Nodup) {i j : ℕ}
    {id : α} (hi : id ∈ levels.getD i []) (hj : id ∈ levels.getD j []) : i = j := by
  have hget : ∀ {k : ℕ}, id ∈ levels.getD k [] → ∃ hk : k < levels.length, id ∈ levels[k] := by
    intro k hmem
    rw [List.getD_eq_getElem?_getD] at hmem
    cases hlevel : levels[k]? with
    | none => simp [hlevel] at hmem
    | some ids =>
        obtain ⟨hk, rfl⟩ := List.getElem?_eq_some_iff.mp hlevel
        exact ⟨hk, by simpa [hlevel] using hmem⟩
  obtain ⟨hi, hmemi⟩ := hget hi
  obtain ⟨hj, hmemj⟩ := hget hj
  have hdisjoint := List.pairwise_iff_getElem.mp (List.nodup_flatten.mp hnodup).2
  rcases lt_trichotomy i j with hlt | heq | hlt
  · exact absurd hmemj (hdisjoint i j hi hj hlt hmemi)
  · exact heq
  · exact absurd hmemi (hdisjoint j i hj hi hlt hmemj)

end Levels

namespace Engine

/-- The files of a list of ids. -/
def sstsOf (engine : Engine) (ids : List ℕ) : List SST :=
  ids.filterMap engine.ssts.find?

/-- The records in the files of a list of ids, in list order. -/
def recordsOf (engine : Engine) (ids : List ℕ) : List Entry :=
  (engine.sstsOf ids).flatMap SST.records

/-- All records in files, those of shallower levels first. -/
def fileRecords (engine : Engine) : List Entry :=
  engine.levelSstIds.flatMap engine.recordsOf

/-- All records of the engine, newer sources first. -/
def records (engine : Engine) : List Entry :=
  engine.memtable.records ++ engine.fileRecords

/-- All records in files, in the order of the file map. -/
def storedRecords (engine : Engine) : List Entry :=
  engine.ssts.entries.flatMap fun entry => entry.2.records

structure LevelInvariant (engine : Engine) : Prop where
  nodup : engine.levelSstIds.flatten.Nodup
  mem_iff : ∀ id, id ∈ engine.levelSstIds.flatten ↔ engine.ssts.contains id = true
  keyed : ∀ id sst, engine.ssts.find? id = some sst → sst.sstId = id
  wellFormed : ∀ id sst, engine.ssts.find? id = some sst → sst.WellFormed
  descending : (engine.level 0).Pairwise fun left right => left > right
  /-- A file of level 0 comes from one memory table. -/
  distinct : ∀ sst ∈ engine.sstsOf (engine.level 0), NodesOrdered sst.records
  separated : ∀ level, level ≠ 0 →
    ((engine.sstsOf (engine.level level)).map SST.records).Pairwise KeysBefore
  paths_lt : ∀ path ∈ engine.paths, path.1 < engine.nextSstId
  paths_nodup : (engine.paths.map Prod.fst).Nodup
  stored_lt : ∀ id, engine.ssts.contains id = true → id < engine.nextSstId

theorem levelInvariant_new : LevelInvariant new where
  nodup := List.nodup_nil
  mem_iff id := by simp [new]
  keyed id sst hfind := by cases hfind
  wellFormed id sst hfind := by cases hfind
  descending := List.Pairwise.nil
  distinct := by simp [new, level, sstsOf]
  separated level _ := by simp [new, Engine.level, sstsOf]
  paths_lt := by simp [new]
  paths_nodup := List.nodup_nil
  stored_lt id hcontains := by simp [new] at hcontains

theorem mem_sstsOf {engine : Engine} {ids : List ℕ} {sst : SST} :
    sst ∈ engine.sstsOf ids ↔ ∃ id ∈ ids, engine.ssts.find? id = some sst := by
  simp [sstsOf, List.mem_filterMap]

theorem sstsOf_congr {engine engine' : Engine} {ids : List ℕ}
    (hfind : ∀ id ∈ ids, engine'.ssts.find? id = engine.ssts.find? id) :
    engine'.sstsOf ids = engine.sstsOf ids :=
  List.filterMap_congr hfind

theorem recordsOf_congr {engine engine' : Engine} {ids : List ℕ}
    (hfind : ∀ id ∈ ids, engine'.ssts.find? id = engine.ssts.find? id) :
    engine'.recordsOf ids = engine.recordsOf ids := by
  rw [recordsOf, recordsOf, sstsOf_congr hfind]

theorem recordsOf_append (engine : Engine) (left right : List ℕ) :
    engine.recordsOf (left ++ right) = engine.recordsOf left ++ engine.recordsOf right := by
  simp [recordsOf, sstsOf, List.filterMap_append, List.flatMap_append]

theorem fileRecords_eq (engine : Engine) :
    engine.fileRecords = engine.recordsOf engine.levelSstIds.flatten := by
  unfold fileRecords
  induction engine.levelSstIds with
  | nil => rfl
  | cons first rest ih =>
      rw [List.flatMap_cons, List.flatten_cons, recordsOf_append, ih]

theorem fileRecords_drop (engine : Engine) :
    engine.fileRecords = engine.recordsOf (engine.level 0) ++
      (engine.levelSstIds.drop 1).flatMap engine.recordsOf := by
  unfold fileRecords Engine.level
  cases engine.levelSstIds <;> rfl

theorem mem_level_flatten {engine : Engine} {level id : ℕ} (hmem : id ∈ engine.level level) :
    id ∈ engine.levelSstIds.flatten := by
  rw [Engine.level, List.getD_eq_getElem?_getD] at hmem
  cases hget : engine.levelSstIds[level]? with
  | none => simp [hget] at hmem
  | some ids =>
      rw [hget, Option.getD_some] at hmem
      exact List.mem_flatten.mpr ⟨ids, List.mem_of_getElem? hget, hmem⟩

namespace LevelInvariant

variable {engine engine' : Engine}

theorem wellFormed_of_mem (hinv : LevelInvariant engine) {ids : List ℕ} {sst : SST}
    (hmem : sst ∈ engine.sstsOf ids) : sst.WellFormed := by
  obtain ⟨id, -, hfind⟩ := mem_sstsOf.mp hmem
  exact hinv.wellFormed id sst hfind

theorem find?_isSome (hinv : LevelInvariant engine) {id : ℕ}
    (hmem : id ∈ engine.levelSstIds.flatten) : ∃ sst, engine.ssts.find? id = some sst := by
  have hcontains := (hinv.mem_iff id).mp hmem
  rwa [OrdMap.contains_eq_isSome, Option.isSome_iff_exists] at hcontains

/-- Every id of a level has its file. -/
theorem sstsOf_map_sstId (hinv : LevelInvariant engine) {ids : List ℕ}
    (hmem : ∀ id ∈ ids, id ∈ engine.levelSstIds.flatten) :
    (engine.sstsOf ids).map SST.sstId = ids := by
  induction ids with
  | nil => rfl
  | cons id rest ih =>
      obtain ⟨sst, hfind⟩ := hinv.find?_isSome (hmem id List.mem_cons_self)
      have hrest := ih fun other hother => hmem other (List.mem_cons_of_mem _ hother)
      rw [sstsOf, List.filterMap_cons_some hfind, List.map_cons, hinv.keyed id sst hfind]
      exact congrArg (id :: ·) hrest

/-- A lookup that finds stored files finds all files of a level. -/
theorem mapM_lookup (hinv : LevelInvariant engine) {lookup : ℕ → Except Err SST}
    (hlookup : ∀ id sst, engine.ssts.find? id = some sst → lookup id = .ok sst)
    {ids : List ℕ} (hmem : ∀ id ∈ ids, id ∈ engine.levelSstIds.flatten) :
    ids.mapM lookup = .ok (engine.sstsOf ids) := by
  induction ids with
  | nil => rfl
  | cons id rest ih =>
      obtain ⟨sst, hfind⟩ := hinv.find?_isSome (hmem id List.mem_cons_self)
      have hrest := ih fun other hother => hmem other (List.mem_cons_of_mem _ hother)
      have hssts : engine.sstsOf (id :: rest) = sst :: engine.sstsOf rest :=
        List.filterMap_cons_some hfind
      rw [List.mapM_cons, hrest, hssts, hlookup id sst hfind]
      rfl

theorem mapM_sstOf (hinv : LevelInvariant engine) {ids : List ℕ}
    (hmem : ∀ id ∈ ids, id ∈ engine.levelSstIds.flatten) :
    ids.mapM engine.sstOf = .ok (engine.sstsOf ids) :=
  hinv.mapM_lookup (fun id sst hfind => by rw [sstOf, hfind]) hmem

theorem mapM_sstAt (hinv : LevelInvariant engine) {ids : List ℕ}
    (hmem : ∀ id ∈ ids, id ∈ engine.levelSstIds.flatten) :
    ids.mapM engine.sstAt = .ok (engine.sstsOf ids) :=
  hinv.mapM_lookup (fun id sst hfind => by rw [sstAt, hfind]) hmem

/-- Giving out file ids keeps the invariant. -/
theorem advance (hinv : LevelInvariant engine) (hadvanced : Advanced engine engine') :
    LevelInvariant engine' := by
  have hlevel : ∀ level, engine'.level level = engine.level level := fun level => by
    rw [Engine.level, hadvanced.levelSstIds, Engine.level]
  have hssts : ∀ ids, engine'.sstsOf ids = engine.sstsOf ids := fun ids => by
    rw [sstsOf, hadvanced.ssts, sstsOf]
  obtain ⟨given, hpaths, hnodup, hrange⟩ := hadvanced.paths
  exact
    { nodup := by rw [hadvanced.levelSstIds]; exact hinv.nodup
      mem_iff := by rw [hadvanced.levelSstIds, hadvanced.ssts]; exact hinv.mem_iff
      keyed := by rw [hadvanced.ssts]; exact hinv.keyed
      wellFormed := by rw [hadvanced.ssts]; exact hinv.wellFormed
      descending := by rw [hlevel]; exact hinv.descending
      distinct := by rw [hlevel, hssts]; exact hinv.distinct
      separated := by
        intro level hne
        rw [hlevel, hssts]
        exact hinv.separated level hne
      paths_lt := by
        rw [hpaths]
        intro path hmem
        rcases List.mem_append.mp hmem with hmem | hmem
        · exact (hrange path hmem).2
        · exact (hinv.paths_lt path hmem).trans_le hadvanced.nextSstId
      paths_nodup := by
        rw [hpaths, List.map_append, List.nodup_append]
        refine ⟨hnodup, hinv.paths_nodup, ?_⟩
        intro id hid id' hid' heq
        obtain ⟨path, hpath, rfl⟩ := List.mem_map.mp hid
        obtain ⟨path', hpath', rfl⟩ := List.mem_map.mp hid'
        have hlow := (hrange path hpath).1
        have hhigh := hinv.paths_lt path' hpath'
        omega
      stored_lt := by
        rw [hadvanced.ssts]
        exact fun id hcontains =>
          (hinv.stored_lt id hcontains).trans_le hadvanced.nextSstId }

/-- Memory tables are no matter of the levels. -/
theorem withMemtable (hinv : LevelInvariant engine) (mem : MemTable) :
    LevelInvariant { engine with memtable := mem } where
  nodup := hinv.nodup
  mem_iff := hinv.mem_iff
  keyed := hinv.keyed
  wellFormed := hinv.wellFormed
  descending := hinv.descending
  distinct := hinv.distinct
  separated := hinv.separated
  paths_lt := hinv.paths_lt
  paths_nodup := hinv.paths_nodup
  stored_lt := hinv.stored_lt

theorem clear (hinv : LevelInvariant engine) : LevelInvariant engine.clear where
  nodup := List.nodup_nil
  mem_iff id := by simp [Engine.clear]
  keyed id sst hfind := by cases hfind
  wellFormed id sst hfind := by cases hfind
  descending := List.Pairwise.nil
  distinct := by simp [Engine.clear, level, sstsOf]
  separated level _ := by simp [Engine.clear, Engine.level, sstsOf]
  paths_lt := hinv.paths_lt
  paths_nodup := hinv.paths_nodup
  stored_lt id hcontains := by simp [Engine.clear] at hcontains

end LevelInvariant

/-! ## Installing the output of a compaction -/

private theorem find?_foldl_erase (ids : List ℕ) (ssts : OrdMap ℕ SST) (id : ℕ) :
    (ids.foldl (fun ssts id => ssts.erase id) ssts).find? id =
      if id ∈ ids then none else ssts.find? id := by
  induction ids generalizing ssts with
  | nil => simp
  | cons first rest ih =>
      rw [List.foldl_cons, ih, OrdMap.find?_erase]
      by_cases hrest : id ∈ rest
      · simp [hrest]
      · by_cases hfirst : id = first <;> simp [hrest, hfirst]

theorem find?_foldl_insert {newSsts : List SST}
    (hnodup : (newSsts.map SST.sstId).Nodup) (ssts : OrdMap ℕ SST) (id : ℕ) :
    (newSsts.foldl (fun ssts sst => ssts.insert sst.sstId sst) ssts).find? id =
      (newSsts.find? fun sst => sst.sstId = id).or (ssts.find? id) := by
  induction newSsts generalizing ssts with
  | nil => simp
  | cons sst rest ih =>
      rw [List.map_cons, List.nodup_cons] at hnodup
      rw [List.foldl_cons, ih hnodup.2, OrdMap.find?_insert]
      by_cases hid : sst.sstId = id
      · have hnone : (rest.find? fun other => other.sstId = id) = none := by
          rw [List.find?_eq_none]
          intro other hmem heq
          rw [decide_eq_true_eq] at heq
          exact hnodup.1 (hid ▸ heq ▸ List.mem_map_of_mem hmem)
        rw [hnone, List.find?_cons_of_pos (by simpa using hid), if_pos hid.symm]
        rfl
      · rw [List.find?_cons_of_neg (by simpa using hid), if_neg (Ne.symm hid)]

theorem find?_of_nodup {ssts : List SST} (hnodup : (ssts.map SST.sstId).Nodup)
    {sst : SST} (hmem : sst ∈ ssts) :
    (ssts.find? fun other => other.sstId = sst.sstId) = some sst := by
  induction ssts with
  | nil => cases hmem
  | cons first rest ih =>
      rw [List.map_cons, List.nodup_cons] at hnodup
      rcases List.mem_cons.mp hmem with rfl | hmem
      · rw [List.find?_cons_of_pos (by simp)]
      · have hne : first.sstId ≠ sst.sstId := by
          intro heq
          exact hnodup.1 (heq ▸ List.mem_map_of_mem hmem)
        rw [List.find?_cons_of_neg (by simpa using hne), ih hnodup.2 hmem]

/-- The new files of a compaction that gave out the ids from `first` on. -/
structure Fresh (engine : Engine) (newSsts : List SST) : Prop where
  wellFormed : ∀ sst ∈ newSsts, sst.WellFormed
  separated : (newSsts.map SST.records).Pairwise KeysBefore
  ascending : (newSsts.map SST.sstId).Pairwise fun left right => left < right
  absent : ∀ sst ∈ newSsts, engine.ssts.contains sst.sstId = false
  lt_next : ∀ sst ∈ newSsts, sst.sstId < engine.nextSstId

section Install

variable {engine : Engine} {newSsts : List SST} {srcLevel : ℕ}

private theorem Fresh.nodup (hfresh : Fresh engine newSsts) :
    (newSsts.map SST.sstId).Nodup :=
  hfresh.ascending.imp fun hlt => hlt.ne

private theorem Fresh.sorted (hfresh : Fresh engine newSsts) :
    ((newSsts.map SST.sstId).insertionSort fun left right => left ≤ right) =
      newSsts.map SST.sstId :=
  (hfresh.ascending.imp fun hlt => hlt.le).insertionSort_eq

theorem level_install (hfresh : Fresh engine newSsts) (other : ℕ) :
    (engine.install srcLevel newSsts).level other =
      if other = srcLevel + 1 then newSsts.map SST.sstId
      else if other = srcLevel then [] else engine.level other := by
  unfold install level
  dsimp only
  rw [hfresh.sorted, getD_setLevel, getD_setLevel]

theorem find?_install (hfresh : Fresh engine newSsts) (srcLevel id : ℕ) :
    (engine.install srcLevel newSsts).ssts.find? id =
      (newSsts.find? fun sst => sst.sstId = id).or
        (if id ∈ engine.level srcLevel ++ engine.level (srcLevel + 1) then none
        else engine.ssts.find? id) := by
  unfold install
  dsimp only
  rw [find?_foldl_insert hfresh.nodup, find?_foldl_erase]

theorem sstsOf_install_new (hfresh : Fresh engine newSsts) :
    (engine.install srcLevel newSsts).sstsOf (newSsts.map SST.sstId) = newSsts := by
  have hfind : ∀ sst ∈ newSsts,
      (engine.install srcLevel newSsts).ssts.find? sst.sstId = some sst := by
    intro sst hmem
    rw [find?_install hfresh srcLevel, find?_of_nodup hfresh.nodup hmem, Option.some_or]
  rw [sstsOf, List.filterMap_map]
  calc newSsts.filterMap ((engine.install srcLevel newSsts).ssts.find? ∘ SST.sstId)
      = newSsts.filterMap some := List.filterMap_congr hfind
    _ = newSsts := List.filterMap_some

theorem sstsOf_install_old (hfresh : Fresh engine newSsts) {ids : List ℕ}
    (hstored : ∀ id ∈ ids, engine.ssts.contains id = true)
    (hkept : ∀ id ∈ ids, id ∉ engine.level srcLevel ++ engine.level (srcLevel + 1)) :
    (engine.install srcLevel newSsts).sstsOf ids = engine.sstsOf ids := by
  apply sstsOf_congr
  intro id hmem
  have hnone : (newSsts.find? fun sst => sst.sstId = id) = none := by
    rw [List.find?_eq_none]
    intro sst hsst heq
    rw [decide_eq_true_eq] at heq
    have habsent := hfresh.absent sst hsst
    rw [heq, hstored id hmem] at habsent
    cases habsent
  rw [find?_install hfresh srcLevel, hnone, Option.none_or, if_neg (hkept id hmem)]

/-- Apart from the two levels of the compaction, the levels before and after are the
same lists. -/
theorem levelSstIds_install (hfresh : Fresh engine newSsts) (srcLevel : ℕ) :
    ∃ front back pad,
      engine.levelSstIds ++ List.replicate pad [] =
        front ++ engine.level srcLevel :: engine.level (srcLevel + 1) :: back ∧
      (engine.install srcLevel newSsts).levelSstIds =
        front ++ [] :: newSsts.map SST.sstId :: back := by
  have hpair := setLevel_pair engine.levelSstIds srcLevel (newSsts.map SST.sstId)
  unfold install
  dsimp only
  rwa [hfresh.sorted]

theorem flatten_pad {engine : Engine} {front back : List (List ℕ)} {pad : ℕ}
    {x y : List ℕ}
    (hpad : engine.levelSstIds ++ List.replicate pad [] = front ++ x :: y :: back) :
    engine.levelSstIds.flatten = front.flatten ++ (x ++ (y ++ back.flatten)) := by
  have hflat := congrArg List.flatten hpad
  rw [List.flatten_append, List.flatten_append, List.flatten_cons, List.flatten_cons] at hflat
  have hnil : (List.replicate pad ([] : List ℕ)).flatten = [] := by simp
  rwa [hnil, List.append_nil] at hflat

/-- A level outside of the compaction keeps its files. -/
theorem sstsOf_install_level (hinv : LevelInvariant engine)
    (hfresh : Fresh engine newSsts) {other : ℕ} (hsrc : other ≠ srcLevel)
    (hnext : other ≠ srcLevel + 1) :
    (engine.install srcLevel newSsts).sstsOf (engine.level other) =
      engine.sstsOf (engine.level other) := by
  apply sstsOf_install_old hfresh
  · exact fun id hmem => (hinv.mem_iff id).mp (mem_level_flatten hmem)
  · intro id hmem hold
    rcases List.mem_append.mp hold with hold | hold
    · exact hsrc (level_unique hinv.nodup hmem hold)
    · exact hnext (level_unique hinv.nodup hmem hold)

private theorem contains_install (hfresh : Fresh engine newSsts) (srcLevel id : ℕ) :
    (engine.install srcLevel newSsts).ssts.contains id = true ↔
      id ∈ newSsts.map SST.sstId ∨
        (engine.ssts.contains id = true ∧
          id ∉ engine.level srcLevel ++ engine.level (srcLevel + 1)) := by
  rw [OrdMap.contains_eq_isSome, find?_install hfresh, Option.isSome_or, Bool.or_eq_true,
    List.find?_isSome, OrdMap.contains_eq_isSome]
  apply or_congr
  · simp
  · split_ifs with hmem
    · simp [hmem]
    · simp [hmem]

/-- A stored file after the compaction is a new one or was stored before. -/
theorem find?_install_cases (hfresh : Fresh engine newSsts) {srcLevel id : ℕ}
    {sst : SST} (hfind : (engine.install srcLevel newSsts).ssts.find? id = some sst) :
    (sst ∈ newSsts ∧ sst.sstId = id) ∨ engine.ssts.find? id = some sst := by
  rw [find?_install hfresh, Option.or_eq_some_iff] at hfind
  rcases hfind with hfind | ⟨-, hfind⟩
  · exact Or.inl ⟨List.mem_of_find?_eq_some hfind, by simpa using List.find?_some hfind⟩
  · split_ifs at hfind
    exact Or.inr hfind

private theorem Fresh.stored_disjoint (hfresh : Fresh engine newSsts) {id : ℕ}
    (hmem : id ∈ newSsts.map SST.sstId) : engine.ssts.contains id ≠ true := by
  obtain ⟨sst, hsst, rfl⟩ := List.mem_map.mp hmem
  rw [hfresh.absent sst hsst]
  exact Bool.false_ne_true

private theorem nodup_install (hinv : LevelInvariant engine) (hfresh : Fresh engine newSsts)
    (srcLevel : ℕ) : (engine.install srcLevel newSsts).levelSstIds.flatten.Nodup := by
  obtain ⟨front, back, pad, hpad, hset⟩ := levelSstIds_install hfresh srcLevel
  have hflatten := flatten_pad hpad
  have hstored : ∀ id ∈ front.flatten ++ back.flatten, id ∉ newSsts.map SST.sstId := by
    intro id hmem hnew
    refine hfresh.stored_disjoint hnew ((hinv.mem_iff id).mp ?_)
    rw [hflatten]
    simp only [List.mem_append] at hmem ⊢
    tauto
  have hkept : (front.flatten ++ back.flatten).Nodup := by
    refine hinv.nodup.sublist ?_
    rw [hflatten]
    refine (List.Sublist.refl _).append ?_
    exact (List.sublist_append_right _ _).trans (List.sublist_append_right _ _)
  have hperm : (newSsts.map SST.sstId ++ (front.flatten ++ back.flatten)).Perm
      (engine.install srcLevel newSsts).levelSstIds.flatten := by
    rw [hset, List.flatten_append, List.flatten_cons, List.flatten_cons, List.nil_append]
    exact List.perm_append_comm_assoc _ _ _
  refine hperm.nodup_iff.mp (List.nodup_append.mpr ⟨hfresh.nodup, hkept, ?_⟩)
  rintro id hnew other hmem rfl
  exact hstored id hmem hnew

private theorem mem_iff_install (hinv : LevelInvariant engine) (hfresh : Fresh engine newSsts)
    (srcLevel id : ℕ) : id ∈ (engine.install srcLevel newSsts).levelSstIds.flatten ↔
      (engine.install srcLevel newSsts).ssts.contains id = true := by
  obtain ⟨front, back, pad, hpad, hset⟩ := levelSstIds_install hfresh srcLevel
  have hflatten := flatten_pad hpad
  have hnodup := hinv.nodup
  rw [contains_install hfresh, ← hinv.mem_iff, hset, hflatten]
  rw [hflatten] at hnodup
  -- The ids of the other levels are not among the replaced ones.
  have hfront : id ∈ front.flatten →
      id ∉ engine.level srcLevel ∧ id ∉ engine.level (srcLevel + 1) := by
    intro hmem
    have hdisjoint := (List.nodup_append.mp hnodup).2.2 id hmem
    constructor
    · exact fun hold => hdisjoint id (List.mem_append_left _ hold) rfl
    · exact fun hold =>
        hdisjoint id (List.mem_append_right _ (List.mem_append_left _ hold)) rfl
  have hback : id ∈ back.flatten →
      id ∉ engine.level srcLevel ∧ id ∉ engine.level (srcLevel + 1) := by
    intro hmem
    have hnodup := (List.nodup_append.mp hnodup).2.1
    have hnext := (List.nodup_append.mp hnodup).2.1
    constructor
    · exact fun hold =>
        (List.nodup_append.mp hnodup).2.2 id hold id (List.mem_append_right _ hmem) rfl
    · exact fun hold => (List.nodup_append.mp hnext).2.2 id hold id hmem rfl
  simp only [List.flatten_append, List.flatten_cons, List.nil_append, List.mem_append]
  tauto

/-- The compaction output replaces two levels. -/
theorem LevelInvariant.install (hinv : LevelInvariant engine)
    (hfresh : Fresh engine newSsts) (srcLevel : ℕ) :
    LevelInvariant (engine.install srcLevel newSsts) where
  nodup := nodup_install hinv hfresh srcLevel
  mem_iff := mem_iff_install hinv hfresh srcLevel
  keyed id sst hfind := by
    rcases find?_install_cases hfresh hfind with ⟨-, hid⟩ | hold
    · exact hid
    · exact hinv.keyed id sst hold
  wellFormed id sst hfind := by
    rcases find?_install_cases hfresh hfind with ⟨hnew, -⟩ | hold
    · exact hfresh.wellFormed sst hnew
    · exact hinv.wellFormed id sst hold
  descending := by
    rw [level_install hfresh, if_neg (Nat.succ_ne_zero srcLevel).symm]
    split_ifs
    · exact List.Pairwise.nil
    · exact hinv.descending
  distinct := by
    rw [level_install hfresh, if_neg (Nat.succ_ne_zero srcLevel).symm]
    split_ifs with hsrc
    · simp [sstsOf]
    · rw [sstsOf_install_level hinv hfresh hsrc (Nat.succ_ne_zero srcLevel).symm]
      exact hinv.distinct
  separated other hother := by
    rw [level_install hfresh]
    split_ifs with hnext hsrc
    · rw [sstsOf_install_new hfresh]
      exact hfresh.separated
    · exact List.Pairwise.nil
    · rw [sstsOf_install_level hinv hfresh hsrc hnext]
      exact hinv.separated other hother
  paths_lt := hinv.paths_lt
  paths_nodup := hinv.paths_nodup
  stored_lt id hcontains := by
    rcases (contains_install hfresh srcLevel id).mp hcontains with hnew | ⟨hold, -⟩
    · obtain ⟨sst, hsst, rfl⟩ := List.mem_map.mp hnew
      exact hfresh.lt_next sst hsst
    · exact hinv.stored_lt id hold

end Install

end Engine

end KopiDb
