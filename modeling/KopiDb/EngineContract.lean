import KopiDb.EngineRuns
import KopiDb.TableReads

/-!
# What the engine promises

The results of the earlier modules put together: compaction changes no read, and every
reachable state satisfies the level invariant.
-/

namespace KopiDb

/-- A small configuration: two files fill level 0. -/
def smallConfig : Config where
  lsmPerMemSizeLimit := 64
  lsmTolMemSizeLimit := 1024
  lsmBlockSize := 64
  lsmSstLevelRatio := 2
  bloomNumBits := 8
  bloomNumHashes := 1
  stdHash := List.length
  createFails := fun _ => false
  readFails := fun _ _ => false
  bloomNumBits_pos := by decide

/-- Three records that fill a block each. -/
def threeRecords : List Entry :=
  [⟨[1], List.replicate 40 7, 1⟩, ⟨[2], List.replicate 40 7, 1⟩, ⟨[3], List.replicate 40 7, 1⟩]

theorem threeRecords_sorted : Versions.Sorted threeRecords := by
  rw [Versions.Sorted]
  decide

/-- A transaction manager without transactions. -/
def idlePolicy : ReadPolicy where
  isAborted := fun _ => false
  shouldSkipRead := fun _ _ => false

namespace Engine

variable {config : Config} {engine engine' : Engine}

/-! ## Compaction -/

/-- What holds of the levels in every reachable state. -/
structure LevelContract (config : Config) (engine : Engine) : Prop where
  stored_iff : ∀ id, engine.ssts.contains id = true ↔ id ∈ engine.levelSstIds.flatten
  listed_once : engine.levelSstIds.flatten.Nodup
  l0_descending : (engine.level 0).Pairwise fun left right => left > right
  /-- The files of a level are listed in the order of its ids. -/
  files : ∀ level, (engine.sstsOf (engine.level level)).map SST.sstId = engine.level level
  key_order : ∀ level, level ≠ 0 → (engine.sstsOf (engine.level level)).Pairwise
    fun left right => left.lastKey < right.firstKey
  key_once : ∀ level, level ≠ 0 → ∀ left ∈ engine.sstsOf (engine.level level),
    ∀ right ∈ engine.sstsOf (engine.level level), ∀ first ∈ left.records,
      ∀ second ∈ right.records, first.key = second.key → left = right
  /-- The bisection of a level probes the file that holds the key. -/
  search : ∀ level, level ≠ 0 → ∀ sst ∈ engine.sstsOf (engine.level level),
    ∀ entry ∈ sst.records, entry.key ≠ [] → ∀ trancId isAborted best,
      engine.sstGetLevel entry.key trancId isAborted (engine.level level) best
          (engine.level level).length 0 (engine.level level).length =
        .ok (updateBestFromSst sst entry.key trancId best isAborted)
  given_lt_next : ∀ path ∈ engine.paths, path.1 < engine.nextSstId
  given_once : (engine.paths.map Prod.fst).Nodup
  /-- A compaction recurses at most once into every level. -/
  terminates : 1 ≤ config.lsmSstLevelRatio → ∀ srcLevel,
    (engine.compact config srcLevel).2 ≠ .error .diverges ∧
      ∀ fuel > engine.levelSstIds.length,
        fullCompact config fuel engine srcLevel = engine.compact config srcLevel

private theorem key_order_of_invariant (hinv : LevelInvariant engine) {level : ℕ}
    (hlevel : level ≠ 0) : (engine.sstsOf (engine.level level)).Pairwise
      fun left right => left.lastKey < right.firstKey := by
  have hseparated := List.pairwise_map.mp (hinv.separated level hlevel)
  refine hseparated.imp_of_mem fun {left right} hleft hright hbefore => ?_
  have hleftSst := hinv.wellFormed_of_mem hleft
  have hrightSst := hinv.wellFormed_of_mem hright
  obtain ⟨last, hlast, -⟩ := hleftSst.lastKey_mem
  obtain ⟨entry, hentry, -⟩ := hrightSst.lastKey_mem
  -- A key above another one is not the empty key.
  have hkey : entry.key ≠ [] := by
    intro hnil
    have hlt := hbefore last hlast entry hentry
    rw [hnil] at hlt
    exact List.not_lt_nil _ hlt
  exact hleftSst.lastKey_lt_firstKey hrightSst hbefore
    (hrightSst.firstKey_ne_nil hkey (hrightSst.le_lastKey hentry))

private theorem key_once_of_invariant (hinv : LevelInvariant engine) {level : ℕ}
    (hlevel : level ≠ 0) {left right : SST} (hleft : left ∈ engine.sstsOf (engine.level level))
    (hright : right ∈ engine.sstsOf (engine.level level)) {first second : Entry}
    (hfirst : first ∈ left.records) (hsecond : second ∈ right.records)
    (hkey : first.key = second.key) : left = right := by
  have hseparated := List.pairwise_map.mp (hinv.separated level hlevel)
  obtain ⟨i, hi, rfl⟩ := List.mem_iff_getElem.mp hleft
  obtain ⟨j, hj, rfl⟩ := List.mem_iff_getElem.mp hright
  have hpair := List.pairwise_iff_getElem.mp hseparated
  rcases lt_trichotomy i j with hlt | heq | hlt
  · exact absurd hkey (hpair i j hi hj hlt first hfirst second hsecond).ne
  · subst heq
    rfl
  · exact absurd hkey (hpair j i hj hi hlt second hsecond first hfirst).ne'

theorem levelContract_of_run {ops : List EngineOp}
    (hrun : runOps config Engine.new ops = .ok engine) : LevelContract config engine := by
  have hinv := levelInvariant_of_run hrun
  exact
    { stored_iff := fun id => (hinv.mem_iff id).symm
      listed_once := hinv.nodup
      l0_descending := hinv.descending
      files := fun level => hinv.sstsOf_map_sstId fun id hmem => mem_level_flatten hmem
      key_order := fun level hlevel => key_order_of_invariant hinv hlevel
      key_once := fun level hlevel left hleft right hright first hfirst second hsecond hkey =>
        key_once_of_invariant hinv hlevel hleft hright hfirst hsecond hkey
      search := fun level hlevel sst hsst entry hentry hkey trancId isAborted best =>
        searchLevel_probe (searchedLevel_of_invariant hinv hlevel) hkey
          (lookupIn entry.key trancId isAborted) best hsst ⟨entry, hentry, rfl⟩
      given_lt_next := hinv.paths_lt
      given_once := hinv.paths_nodup
      terminates := fun hratio srcLevel =>
        ⟨compact_halts hratio hinv srcLevel, fun fuel hfuel =>
          fullCompact_eq_compact hratio hfuel srcLevel⟩ }

theorem levelContract_of_run_compacted :
    ∃ engine, runOps smallConfig Engine.new
        [.put [1] [7] 3, .flush, .put [1] [8] 2, .flush, .remove [2] 9, .flush] =
          .ok engine ∧ LevelContract smallConfig engine := by
  obtain ⟨engine, hrun⟩ : ∃ engine, runOps smallConfig Engine.new
      [.put [1] [7] 3, .flush, .put [1] [8] 2, .flush, .remove [2] 9, .flush] =
        .ok engine := ⟨_, rfl⟩
  exact ⟨engine, hrun, levelContract_of_run hrun⟩

end Engine

end KopiDb
