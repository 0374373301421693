import KopiDb.Orphans

/-!
# Tables read from their files

A table that an engine has opened holds the blocks that the builder wrote.  An engine with
such tables does what it does with the tables as they were built: the same answers, the same
merges and the same file operations.
-/

namespace KopiDb

namespace SST

@[simp]
theorem decoded_decoded (sst : SST) : sst.decoded.decoded = sst.decoded := by
  simp only [decoded, List.map_map]
  rfl

instance (config : Config) (sst : SST) : Decidable (sst.WithinFormat config) :=
  decidable_of_iff (sst.sstId < 2 ^ 56 ∧ (∀ entry ∈ sst.records, entry.txid < 2 ^ 56) ∧
    (sst.data ++ sst.metaSection config).length < 2 ^ 32)
    ⟨fun ⟨hid, htxid, hoffsets⟩ => ⟨hid, htxid, hoffsets⟩,
      fun ⟨hid, htxid, hoffsets⟩ => ⟨hid, htxid, hoffsets⟩⟩

/-- The format does not see what capacity a block has. -/
theorem withinFormat_decoded {config : Config} (sst : SST) :
    sst.decoded.WithinFormat config ↔ sst.WithinFormat config := by
  have hdata : sst.decoded.data = sst.data := List.flatMap_map ..
  have hlocate : ∀ (blocks : List (BlockMeta × Block)) (offset : ℕ),
      locate offset (blocks.map fun block => (block.1, decodedBlock block.2.entries)) =
        locate offset blocks := by
    intro blocks
    induction blocks with
    | nil => exact fun _ => rfl
    | cons block rest ih => exact fun offset => congrArg ((offset, block.1) :: ·) (ih _)
  have hsection : sst.decoded.metaSection config = sst.metaSection config :=
    congrArg (BlockMeta.encodeMetaToSlice config.stdHash) (hlocate sst.blocks 0)
  constructor
  · rintro ⟨hid, htxid, hoffsets⟩
    rw [records_decoded] at htxid
    rw [hdata, hsection] at hoffsets
    exact ⟨hid, htxid, hoffsets⟩
  · rintro ⟨hid, htxid, hoffsets⟩
    rw [← records_decoded] at htxid
    rw [← hdata, ← hsection] at hoffsets
    exact ⟨hid, htxid, hoffsets⟩

end SST

namespace Engine

variable {config : Config} {engine : Engine} {ssts : OrdMap ℕ SST}

/-- The engine with other tables under the same ids. -/
def withSsts (engine : Engine) (ssts : OrdMap ℕ SST) : Engine := { engine with ssts := ssts }

/-- The same tables, of which some may have been read from their files. -/
def Reread (built ssts : OrdMap ℕ SST) : Prop :=
  ∀ id, (ssts.find? id).map SST.decoded = (built.find? id).map SST.decoded

namespace Reread

variable {built : OrdMap ℕ SST}

theorem refl (built : OrdMap ℕ SST) : Reread built built := fun _ => rfl

theorem sstsOf (hreread : Reread engine.ssts ssts) (ids : List ℕ) :
    ((engine.withSsts ssts).sstsOf ids).map SST.decoded =
      (engine.sstsOf ids).map SST.decoded := by
  rw [Engine.sstsOf, Engine.sstsOf, List.map_filterMap, List.map_filterMap]
  exact List.filterMap_congr fun id _ => hreread id

theorem insert (hreread : Reread built ssts) (id : ℕ) (sst : SST) :
    Reread (built.insert id sst) (ssts.insert id sst) := by
  intro other
  rw [OrdMap.find?_insert, OrdMap.find?_insert]
  split_ifs
  · rfl
  · exact hreread other

theorem erase (hreread : Reread built ssts) (id : ℕ) :
    Reread (built.erase id) (ssts.erase id) := by
  intro other
  rw [OrdMap.find?_erase, OrdMap.find?_erase]
  split_ifs
  · rfl
  · exact hreread other

theorem install (hreread : Reread engine.ssts ssts) (srcLevel : ℕ) (newSsts : List SST) :
    Reread (engine.install srcLevel newSsts).ssts
      ((engine.withSsts ssts).install srcLevel newSsts).ssts := by
  have herased : ∀ ids : List ℕ, Reread (ids.foldl (fun ssts id => ssts.erase id) engine.ssts)
      (ids.foldl (fun ssts id => ssts.erase id) ssts) := by
    intro ids
    induction ids using List.reverseRecOn with
    | nil => exact hreread
    | append_singleton ids id ih =>
        rw [List.foldl_concat, List.foldl_concat]
        exact ih.erase id
  induction newSsts using List.reverseRecOn with
  | nil => exact herased _
  | append_singleton newSsts sst ih =>
      unfold Engine.install
      dsimp only
      rw [List.foldl_concat, List.foldl_concat]
      exact ih.insert sst.sstId sst

end Reread

/-! ## Merges -/

section Iterators

variable {tables tables' : List SST}

theorem map_records_of_decoded (hsame : tables'.map SST.decoded = tables.map SST.decoded) :
    tables'.map SST.records = tables.map SST.records := by
  have hrecords := congrArg (List.map SST.records) hsame
  rw [List.map_map, List.map_map] at hrecords
  simpa only [Function.comp_def, SST.records_decoded] using hrecords

theorem toList_concact_of_decoded (hsame : tables'.map SST.decoded = tables.map SST.decoded)
    (htables : ∀ sst ∈ tables, sst.WellFormed) (htables' : ∀ sst ∈ tables', sst.WellFormed)
    (hseparated : (tables.map SST.records).Pairwise KeysBefore) :
    Cursor.toList (ConcactIterator.new tables' 0 true skipNothing) =
      Cursor.toList (ConcactIterator.new tables 0 true skipNothing) := by
  have hrecords := map_records_of_decoded hsame
  rw [toList_concact_all htables hseparated,
    toList_concact_all htables' (hrecords ▸ hseparated), List.flatMap_def, List.flatMap_def,
    hrecords]

theorem mergeSstIterator_of_decoded (hsame : tables'.map SST.decoded = tables.map SST.decoded)
    (htables : ∀ sst ∈ tables, sst.WellFormed) (htables' : ∀ sst ∈ tables', sst.WellFormed) :
    mergeSstIterator (tables'.map fun sst => SstIterator.begin sst 0 true skipNothing) true =
      mergeSstIterator (tables.map fun sst => SstIterator.begin sst 0 true skipNothing) true := by
  have hitems : ∀ {tables : List SST}, (∀ sst ∈ tables, sst.WellFormed) →
      ((tables.map fun sst => SstIterator.begin sst 0 true skipNothing).flatMap fun iter =>
        (Cursor.toList iter).map fun entry => (⟨entry, iter.sst.sstId, 0⟩ : SearchItem)) =
      (tables.map SST.decoded).flatMap fun sst =>
        sst.records.map fun entry => ⟨entry, sst.sstId, 0⟩ := by
    intro tables htables
    rw [List.flatMap_map, List.flatMap_map]
    refine List.flatMap_congr fun sst hmem => ?_
    rw [toList_begin_all (htables sst hmem), SST.records_decoded]
    rfl
  have hempty : (tables'.map fun sst => SstIterator.begin sst 0 true skipNothing).isEmpty =
      (tables.map fun sst => SstIterator.begin sst 0 true skipNothing).isEmpty := by
    have hlength := congrArg List.length hsame
    rw [List.length_map, List.length_map] at hlength
    rw [Bool.eq_iff_iff, List.isEmpty_iff_length_eq_zero, List.isEmpty_iff_length_eq_zero,
      List.length_map, List.length_map, hlength]
  rw [mergeSstIterator, mergeSstIterator, hempty, hitems htables, hitems htables', hsame]

theorem toList_twoMerge_congr {ι ι' κ κ' : Type} [Cursor ι Entry] [Cursor ι' Entry]
    [Cursor κ Entry] [Cursor κ' Entry] {itA : ι} {itA' : ι'} {itB : κ} {itB' : κ'}
    (hA : Versions.Sorted (Cursor.toList itA)) (hB : Versions.Sorted (Cursor.toList itB))
    (hlistA : Cursor.toList itA' = Cursor.toList itA)
    (hlistB : Cursor.toList itB' = Cursor.toList itB) :
    Cursor.toList (TwoMergeIterator.new itA' itB' 0 true) =
      Cursor.toList (TwoMergeIterator.new itA itB 0 true) := by
  rw [TwoMergeIterator.toList_new hA hB,
    TwoMergeIterator.toList_new (hlistA ▸ hA) (hlistB ▸ hB), hlistA, hlistB]

end Iterators

/-! ## What a merge writes -/

/-- The state of a merge over other tables, which it does not look at. -/
def GenState.withSsts (state : GenState) (ssts : OrdMap ℕ SST) : GenState :=
  { state with engine := state.engine.withSsts ssts }

/-- The outcome of a round over other tables. -/
def overSsts (ssts : OrdMap ℕ SST) : Except (Engine × Err) GenState → Except (Engine × Err) GenState
  | .error failure => .error (failure.1.withSsts ssts, failure.2)
  | .ok state => .ok (state.withSsts ssts)

theorem emit_withSsts (config : Config) (targetLevel : ℕ) (state : GenState) :
    (state.withSsts ssts).emit config targetLevel =
      overSsts ssts (state.emit config targetLevel) := by
  unfold GenState.emit
  dsimp only
  rw [show ((state.withSsts ssts).engine.takeSstId targetLevel).2 =
    (state.engine.takeSstId targetLevel).2 from rfl,
    show (state.withSsts ssts).builder = state.builder from rfl]
  cases state.builder.build (state.engine.takeSstId targetLevel).2 with
  | error err => rfl
  | ok sst => rfl

theorem genStep_withSsts (config : Config) (targetSstSize targetLevel : ℕ) (state : GenState)
    (entry : Entry) (following : Option Entry) :
    genStep config targetSstSize targetLevel (state.withSsts ssts) entry following =
      overSsts ssts (genStep config targetSstSize targetLevel state entry following) := by
  unfold genStep
  rw [show (state.withSsts ssts).builder = state.builder from rfl]
  cases state.builder.add entry.key entry.value entry.txid with
  | error err => rfl
  | ok builder =>
      dsimp only
      split_ifs
      · rfl
      · exact emit_withSsts config targetLevel
          { state with builder := builder, hasPendingEntries := true }
      · rfl

theorem loop_withSsts (config : Config) (targetSstSize targetLevel : ℕ) (rest : List Entry)
    (state : GenState) :
    Cursor.foldLookahead (genStep config targetSstSize targetLevel) rest
        (state.withSsts ssts) =
      overSsts ssts (Cursor.foldLookahead (genStep config targetSstSize targetLevel) rest
        state) := by
  induction rest generalizing state with
  | nil => rfl
  | cons entry rest ih =>
      rw [Cursor.foldLookahead, Cursor.foldLookahead, genStep_withSsts]
      cases genStep config targetSstSize targetLevel state entry rest.head? with
      | error failure => rfl
      | ok next => exact ih next

/-- `gen_sst_from_iter` sees of an iterator the records that it yields, and of the engine not
the tables. -/
theorem genSstFromIter_withSsts {ι ι' : Type} [Cursor ι Entry] [Cursor ι' Entry] {iter : ι}
    {iter' : ι'} (config : Config) (engine : Engine) (targetSstSize targetLevel : ℕ)
    (hlist : Cursor.toList iter' = Cursor.toList iter) :
    let outcome := genSstFromIter config engine iter targetSstSize targetLevel
    genSstFromIter config (engine.withSsts ssts) iter' targetSstSize targetLevel =
      (outcome.1.withSsts ssts, outcome.2) := by
  have hstart : (⟨engine.withSsts ssts, [], SSTBuilder.new config, false⟩ : GenState) =
      GenState.withSsts ⟨engine, [], SSTBuilder.new config, false⟩ ssts := rfl
  simp only [genSstFromIter, Cursor.forEach_eq_foldLookahead]
  rw [hlist, hstart, loop_withSsts]
  cases Cursor.foldLookahead (genStep config targetSstSize targetLevel) (Cursor.toList iter)
      ⟨engine, [], SSTBuilder.new config, false⟩ with
  | error failure => rfl
  | ok state =>
      dsimp only [overSsts]
      rw [show (state.withSsts ssts).hasPendingEntries = state.hasPendingEntries from rfl,
        emit_withSsts]
      split_ifs
      · cases state.emit config targetLevel with
        | error failure => rfl
        | ok finished => rfl
      · rfl

theorem genStepOps_withSsts (config : Config) (targetSstSize targetLevel : ℕ)
    (state : GenState) (entry : Entry) (following : Option Entry) :
    genStepOps config targetSstSize targetLevel (state.withSsts ssts) entry following =
      genStepOps config targetSstSize targetLevel state entry following := rfl

theorem loopOps_withSsts (config : Config) (targetSstSize targetLevel : ℕ)
    (rest : List Entry) (state : GenState) :
    loopOps (genStep config targetSstSize targetLevel)
        (genStepOps config targetSstSize targetLevel) rest (state.withSsts ssts) =
      loopOps (genStep config targetSstSize targetLevel)
        (genStepOps config targetSstSize targetLevel) rest state := by
  induction rest generalizing state with
  | nil => rfl
  | cons entry rest ih =>
      rw [loopOps, loopOps, genStep_withSsts, genStepOps_withSsts]
      cases genStep config targetSstSize targetLevel state entry rest.head? with
      | error failure => rfl
      | ok next => exact congrArg _ (ih next)

theorem genOps_withSsts {ι ι' : Type} [Cursor ι Entry] [Cursor ι' Entry] {iter : ι}
    {iter' : ι'} (config : Config) (engine : Engine) (targetSstSize targetLevel : ℕ)
    (hlist : Cursor.toList iter' = Cursor.toList iter) :
    genOps config (engine.withSsts ssts) iter' targetSstSize targetLevel =
      genOps config engine iter targetSstSize targetLevel := by
  have hstart : (⟨engine.withSsts ssts, [], SSTBuilder.new config, false⟩ : GenState) =
      GenState.withSsts ⟨engine, [], SSTBuilder.new config, false⟩ ssts := rfl
  simp only [genOps, Cursor.forEach_eq_foldLookahead]
  rw [hlist, hstart, loopOps_withSsts, loop_withSsts]
  cases Cursor.foldLookahead (genStep config targetSstSize targetLevel) (Cursor.toList iter)
      ⟨engine, [], SSTBuilder.new config, false⟩ with
  | error failure => rfl
  | ok state => rfl

/-- An engine in step with another one whose tables were built: both are in order, and their
tables differ only in having been read. -/
structure Twin (engine : Engine) (ssts : OrdMap ℕ SST) : Prop where
  invariant : LevelInvariant engine
  invariant' : LevelInvariant (engine.withSsts ssts)
  reread : Reread engine.ssts ssts

/-- A merge writes the same tables. -/
theorem Twin.mergeLevels (htwin : Twin engine ssts) (config : Config) (srcLevel : ℕ) :
    let outcome := Engine.mergeLevels config engine srcLevel
    Engine.mergeLevels config (engine.withSsts ssts) srcLevel =
        (outcome.1.withSsts ssts, outcome.2) ∧
      mergeOps config (engine.withSsts ssts) srcLevel = mergeOps config engine srcLevel := by
  have hlevel : ∀ level, (engine.level level).mapM engine.sstOf =
      .ok (engine.sstsOf (engine.level level)) := fun level =>
    htwin.invariant.mapM_sstOf fun id hmem => mem_level_flatten hmem
  have hlevel' : ∀ level, (engine.level level).mapM (engine.withSsts ssts).sstOf =
      .ok ((engine.withSsts ssts).sstsOf (engine.level level)) := fun level =>
    htwin.invariant'.mapM_sstOf fun id hmem => mem_level_flatten hmem
  have hids : ∀ level, (engine.withSsts ssts).level level = engine.level level := fun _ => rfl
  have hsame := htwin.reread.sstsOf
  have hformed : ∀ level, ∀ sst ∈ engine.sstsOf (engine.level level), sst.WellFormed :=
    fun level sst hmem => htwin.invariant.wellFormed_of_mem hmem
  have hformed' : ∀ level, ∀ sst ∈ (engine.withSsts ssts).sstsOf (engine.level level),
      sst.WellFormed := fun level sst hmem => htwin.invariant'.wellFormed_of_mem hmem
  have hconcact : ∀ level, level ≠ 0 →
      Cursor.toList (ConcactIterator.new ((engine.withSsts ssts).sstsOf (engine.level level)) 0
        true skipNothing) =
      Cursor.toList (ConcactIterator.new (engine.sstsOf (engine.level level)) 0 true
        skipNothing) := fun level hdeep =>
    toList_concact_of_decoded (hsame _) (hformed level) (hformed' level)
      (htwin.invariant.separated level hdeep)
  have hsorted : ∀ level, level ≠ 0 → Versions.Sorted (Cursor.toList
      (ConcactIterator.new (engine.sstsOf (engine.level level)) 0 true skipNothing)) :=
    fun level hdeep => toList_level htwin.invariant hdeep ▸ sorted_level htwin.invariant hdeep
  have hbelow := Nat.succ_ne_zero srcLevel
  unfold Engine.mergeLevels mergeOps
  dsimp only
  rw [hids, hids, hlevel, hlevel, hlevel', hlevel']
  by_cases hsrc : srcLevel = 0
  · subst hsrc
    have hqueue := mergeSstIterator_of_decoded (hsame (engine.level 0)) (hformed 0) (hformed' 0)
    have hnumbers : (engine.sstsOf (engine.level 0)).map SST.sstId = engine.level 0 :=
      htwin.invariant.sstsOf_map_sstId fun id hmem => mem_level_flatten hmem
    have hfirst := (toList_mergeSstIterator (hformed 0)
      (by rw [hnumbers]; exact htwin.invariant.descending) htwin.invariant.distinct).1
    have hlist := toList_twoMerge_congr hfirst (hsorted 1 hbelow) (congrArg Cursor.toList hqueue)
      (hconcact 1 hbelow)
    simp only [if_true, fullL0L1Compact, hlevel, hlevel']
    exact ⟨genSstFromIter_withSsts config engine _ _ hlist,
      genOps_withSsts config engine _ _ hlist⟩
  · have hlist := toList_twoMerge_congr (hsorted srcLevel hsrc) (hsorted _ hbelow)
      (hconcact srcLevel hsrc) (hconcact _ hbelow)
    simp only [if_neg hsrc, fullCommonCompact, hlevel, hlevel']
    exact ⟨genSstFromIter_withSsts config engine _ _ hlist,
      genOps_withSsts config engine _ _ hlist⟩

/-! ## Compactions -/

/-- The outcome of a call on the other engine. -/
def Alongside {α : Type} (outcome outcome' : Engine × Except Err α) : Prop :=
  ∃ ssts, outcome' = (outcome.1.withSsts ssts, outcome.2) ∧ Twin outcome.1 ssts

theorem Alongside.andThen {α β : Type} {first first' : Engine × Except Err α}
    {rest : Engine → α → Engine × Except Err β} (hfirst : Alongside first first')
    (hrest : ∀ engine ssts value, Twin engine ssts →
      Alongside (rest engine value) (rest (engine.withSsts ssts) value)) :
    Alongside (KopiDb.andThen first rest) (KopiDb.andThen first' rest) := by
  obtain ⟨ssts, rfl, htwin⟩ := hfirst
  obtain ⟨engine, result⟩ := first
  cases result with
  | error err => exact ⟨ssts, rfl, htwin⟩
  | ok value => exact hrest engine ssts value htwin

theorem Twin.makeRoom (htwin : Twin engine ssts) {config : Config} {fuel srcLevel : ℕ}
    (hcompact : Alongside (fullCompact config fuel engine (srcLevel + 1))
      (fullCompact config fuel (engine.withSsts ssts) (srcLevel + 1))) :
    Alongside (Engine.makeRoom config fuel engine srcLevel)
      (Engine.makeRoom config fuel (engine.withSsts ssts) srcLevel) := by
  unfold Engine.makeRoom
  rw [show (engine.withSsts ssts).level (srcLevel + 1) = engine.level (srcLevel + 1) from rfl]
  split_ifs
  · exact hcompact
  · exact ⟨ssts, rfl, htwin⟩

/-- Both engines compact alike. -/
theorem Twin.fullCompact (htwin : Twin engine ssts) (config : Config) (fuel srcLevel : ℕ) :
    Alongside (Engine.fullCompact config fuel engine srcLevel)
        (Engine.fullCompact config fuel (engine.withSsts ssts) srcLevel) ∧
      fullCompactOps config fuel (engine.withSsts ssts) srcLevel =
        fullCompactOps config fuel engine srcLevel := by
  induction fuel generalizing engine ssts srcLevel with
  | zero => exact ⟨⟨ssts, rfl, htwin⟩, rfl⟩
  | succ fuel ih =>
      have hkept := fullCompact_kept config htwin.invariant (fuel + 1) srcLevel
      have hkept' := fullCompact_kept config htwin.invariant' (fuel + 1) srcLevel
      obtain ⟨hbelow, hops⟩ := ih htwin (srcLevel + 1)
      obtain ⟨ssts', hroom', htwin'⟩ := htwin.makeRoom hbelow
      have hmerge := htwin'.mergeLevels config srcLevel
      rw [fullCompact_succ] at hkept hkept' ⊢
      rw [fullCompact_succ, fullCompactOps, fullCompactOps, hops]
      rw [hroom'] at hkept' ⊢
      rcases hroom : Engine.makeRoom config fuel engine srcLevel with ⟨room, result⟩
      rw [hroom] at hkept hkept' hmerge htwin'
      dsimp only at hmerge htwin'
      cases result with
      | error err => exact ⟨⟨ssts', rfl, htwin'⟩, rfl⟩
      | ok done =>
          obtain ⟨hmerged', hwritten⟩ := hmerge
          have hssts := (advanced_mergeLevels config room srcLevel).ssts
          have hreread := htwin'.reread
          dsimp only [andThen] at hkept hkept' ⊢
          rw [hmerged'] at hkept' ⊢
          rw [hwritten]
          rcases hmerged : Engine.mergeLevels config room srcLevel with ⟨merged, result⟩
          rw [hmerged] at hkept hkept' hssts
          rw [← hssts] at hreread
          cases result with
          | error err => exact ⟨⟨ssts', rfl, ⟨hkept.invariant, hkept'.invariant, hreread⟩⟩, rfl⟩
          | ok newSsts =>
              exact ⟨⟨_, rfl, ⟨hkept.invariant, hkept'.invariant,
                hreread.install srcLevel newSsts⟩⟩, rfl⟩

/-! ## Flushes and operations -/

theorem Twin.withMemtable (htwin : Twin engine ssts) (mem : MemTable) :
    Twin { engine with memtable := mem } ssts where
  invariant := htwin.invariant.withMemtable mem
  invariant' := htwin.invariant'.withMemtable mem
  reread := htwin.reread

theorem Twin.compactFullL0 (htwin : Twin engine ssts) (config : Config) :
    Alongside (Engine.compactFullL0 config engine)
        (Engine.compactFullL0 config (engine.withSsts ssts)) ∧
      (engine.withSsts ssts).compactFullL0Ops config = engine.compactFullL0Ops config := by
  have hcompact := htwin.fullCompact config (engine.levelSstIds.length + 1) 0
  unfold Engine.compactFullL0 compactFullL0Ops
  rw [show (engine.withSsts ssts).levelSstIds = engine.levelSstIds from rfl,
    show (engine.withSsts ssts).level 0 = engine.level 0 from rfl]
  split_ifs
  · exact hcompact
  · exact ⟨⟨ssts, rfl, htwin⟩, rfl⟩

theorem Twin.flushTable (htwin : Twin engine ssts) (config : Config) :
    Alongside (Engine.flushTable config engine)
      (Engine.flushTable config (engine.withSsts ssts)) := by
  have hinv := (flushTable_cases config htwin.invariant).1
  have hinv' := (flushTable_cases config htwin.invariant').1
  unfold Engine.flushTable at hinv hinv' ⊢
  dsimp only at hinv hinv' ⊢
  rw [show (engine.withSsts ssts).memtable = engine.memtable from rfl,
    show ((engine.withSsts ssts).takeSstId 0).2 = (engine.takeSstId 0).2 from rfl] at hinv' ⊢
  cases hflushed : (engine.memtable.flushLast (SSTBuilder.new config)
      (engine.takeSstId 0).2 []).2.2 with
  | error err =>
      rw [hflushed] at hinv hinv'
      exact ⟨ssts, rfl, hinv, hinv', htwin.reread⟩
  | ok found =>
      rw [hflushed] at hinv hinv'
      cases found with
      | none => exact ⟨ssts, rfl, hinv, hinv', htwin.reread⟩
      | some sst => exact ⟨_, rfl, hinv, hinv', htwin.reread.insert _ sst⟩

theorem Twin.flush (htwin : Twin engine ssts) (config : Config) :
    Alongside (Engine.flush config engine) (Engine.flush config (engine.withSsts ssts)) ∧
      (engine.withSsts ssts).flushOps config = engine.flushOps config := by
  obtain ⟨hroom, hops⟩ := htwin.compactFullL0 config
  have hflush := hroom.andThen fun engine ssts _ htwin => htwin.flushTable config
  obtain ⟨ssts', hroom', -⟩ := hroom
  rw [flush_eq, flush_eq, flushOps, flushOps, hops,
    show (engine.withSsts ssts).memtable = engine.memtable from rfl]
  split_ifs
  · exact ⟨⟨ssts, rfl, htwin⟩, rfl⟩
  · refine ⟨hflush, congrArg _ ?_⟩
    rw [hroom']
    rcases Engine.compactFullL0 config engine with ⟨room, result⟩
    cases result with
    | error err => rfl
    | ok done => rfl

theorem Twin.flushIfFull (htwin : Twin engine ssts) (config : Config) :
    Alongside (Engine.flushIfFull config engine)
        (Engine.flushIfFull config (engine.withSsts ssts)) ∧
      (engine.withSsts ssts).flushIfFullOps config = engine.flushIfFullOps config := by
  have hflush := htwin.flush config
  unfold Engine.flushIfFull flushIfFullOps
  rw [show (engine.withSsts ssts).memtable = engine.memtable from rfl]
  split_ifs
  · exact hflush
  · exact ⟨⟨ssts, rfl, htwin⟩, rfl⟩

/-- Every operation does the same to both engines and to the directory. -/
theorem Twin.run (htwin : Twin engine ssts) (config : Config) (op : EngineOp) :
    Alongside (op.run config engine) (op.run config (engine.withSsts ssts)) ∧
      op.fileOps config (engine.withSsts ssts) = op.fileOps config engine := by
  have hwrite := fun mem => (htwin.withMemtable mem).flushIfFull config
  cases op with
  | put key value trancId => exact hwrite _
  | putBatch kvs trancId => exact hwrite _
  | remove key trancId => exact hwrite _
  | removeBatch keys trancId => exact hwrite _
  | freeze => exact ⟨⟨ssts, rfl, htwin.withMemtable _⟩, rfl⟩
  | flush => exact htwin.flush config
  | compact srcLevel =>
      obtain ⟨hcompact, hops⟩ :=
        htwin.fullCompact config (engine.levelSstIds.length + 1) srcLevel
      obtain ⟨ssts', hcompact', htwin'⟩ := hcompact
      refine ⟨⟨ssts', ?_, ?_⟩, hops⟩
      · rw [EngineOp.run, EngineOp.run, compact, compact,
          show (engine.withSsts ssts).levelSstIds = engine.levelSstIds from rfl, hcompact']
        rcases Engine.fullCompact config (engine.levelSstIds.length + 1) engine srcLevel with
          ⟨compacted, result⟩
        cases result <;> rfl
      · rw [EngineOp.run, compact]
        rcases hcompacted : Engine.fullCompact config (engine.levelSstIds.length + 1) engine
          srcLevel with ⟨compacted, result⟩
        rw [hcompacted] at htwin'
        cases result <;> exact htwin'
  | clear =>
      exact ⟨⟨∅, rfl, htwin.invariant.clear, htwin.invariant.clear, Reread.refl ∅⟩, rfl⟩

/-! ## The tables that an opened engine has read -/

/-- Tables read from their files are in order as the built ones are. -/
theorem LevelInvariant.reread (hinv : LevelInvariant engine)
    (hreread : Reread engine.ssts ssts)
    (hkeyed : ∀ id sst, ssts.find? id = some sst → sst.sstId = id)
    (hformed : ∀ id sst, ssts.find? id = some sst → sst.WellFormed) :
    LevelInvariant (engine.withSsts ssts) := by
  have hcontains : ∀ id, ssts.contains id = engine.ssts.contains id := by
    intro id
    have hfind := congrArg Option.isSome (hreread id)
    rwa [Option.isSome_map, Option.isSome_map] at hfind
  have hrecords := fun ids => map_records_of_decoded (hreread.sstsOf ids)
  exact
    { nodup := hinv.nodup
      mem_iff := fun id => (hinv.mem_iff id).trans (by rw [← hcontains]; rfl)
      keyed := hkeyed
      wellFormed := hformed
      descending := hinv.descending
      distinct := by
        intro sst' hmem
        have hlisted := List.mem_map_of_mem (f := SST.records) hmem
        rw [hrecords] at hlisted
        obtain ⟨sst, hsst, hsame⟩ := List.mem_map.mp hlisted
        rw [← hsame]
        exact hinv.distinct sst hsst
      separated := by
        intro level hlevel
        rw [hrecords]
        exact hinv.separated level hlevel
      paths_lt := hinv.paths_lt
      paths_nodup := hinv.paths_nodup
      stored_lt := fun id hid => hinv.stored_lt id ((hcontains id).symm.trans hid) }

/-- What every round of a loop keeps, the loop keeps when it does not fail. -/
theorem foldlM_keeps {State Entry : Type*} {step : State → Entry → Except Err State}
    (keeps : State → Prop)
    (hstep : ∀ state entry next, keeps state → step state entry = .ok next → keeps next)
    {entries : List Entry} {start found : State} (hstart : keeps start)
    (hfound : entries.foldlM step start = .ok found) : keeps found := by
  induction entries generalizing start with
  | nil =>
      obtain rfl := Except.ok.inj hfound
      exact hstart
  | cons entry entries ih =>
      rw [List.foldlM_cons] at hfound
      cases hnext : step start entry with
      | error err =>
          rw [hnext] at hfound
          cases hfound
      | ok next =>
          rw [hnext] at hfound
          exact ih (hstep start entry next hstart hnext) hfound

/-- The constructor finds every table under a path of its level. -/
theorem openDir_paths {listing : List (Bytes × Option Bytes)}
    (hopen : openDir config listing = .ok engine) :
    ∀ level, ∀ id ∈ engine.level level, (id, level) ∈ engine.paths := by
  unfold openDir at hopen
  simp only [bind, Except.bind] at hopen
  split at hopen
  next err herr => cases hopen
  next found hloop =>
    obtain rfl := Except.ok.inj hopen
    have hpaths : ∀ level, ∀ id ∈ found.level level, (id, level) ∈ found.paths := by
      refine foldlM_keeps
        (fun state => ∀ level, ∀ id ∈ state.level level, (id, level) ∈ state.paths) ?_
        (fun _ _ hmem => by cases hmem) hloop
      intro state entry next hstate hnext
      cases hread : readTable config entry with
      | error err =>
          rw [hread] at hnext
          cases hnext
      | ok table =>
          rw [hread] at hnext
          cases table with
          | none =>
              obtain rfl := Except.ok.inj hnext
              exact hstate
          | some table =>
              obtain rfl := Except.ok.inj hnext
              intro level id hid
              have hlevel : (state.addTable table).level level =
                  if level = table.2.1 then state.level table.2.1 ++ [table.1]
                  else state.level level := getD_setLevel _ _ _ _
              rw [hlevel] at hid
              split_ifs at hid with hsame
              · rcases List.mem_append.mp hid with hold | hnew
                · exact List.mem_cons_of_mem _ (hsame ▸ hstate _ id hold)
                · rw [List.mem_singleton.mp hnew, hsame]
                  exact List.mem_cons_self
              · exact List.mem_cons_of_mem _ (hstate level id hid)
    intro level id hid
    apply hpaths level id
    rw [Engine.level, level_mapIdx_sortLevel] at hid
    unfold sortLevel at hid
    dsimp only at hid
    split_ifs at hid
    · exact (List.mem_insertionSort _).mp (List.mem_reverse.mp hid)
    · exact (List.mem_insertionSort _).mp hid

namespace Reread

theorem recordsOf (hreread : Reread engine.ssts ssts) (ids : List ℕ) :
    (engine.withSsts ssts).recordsOf ids = engine.recordsOf ids := by
  rw [Engine.recordsOf, Engine.recordsOf, List.flatMap_def, List.flatMap_def,
    map_records_of_decoded (hreread.sstsOf ids)]

theorem fileRecords (hreread : Reread engine.ssts ssts) :
    (engine.withSsts ssts).fileRecords = engine.fileRecords :=
  List.flatMap_congr fun ids _ => hreread.recordsOf ids

end Reread

/-- Empty levels hold nothing. -/
theorem flatMap_of_levels {α β : Type} {left right : List (List α)} {f : List α → List β}
    (hempty : f [] = []) (hlevel : ∀ level, left.getD level [] = right.getD level []) :
    left.flatMap f = right.flatMap f := by
  induction left generalizing right with
  | nil =>
      symm
      rw [List.flatMap_nil, List.flatMap_eq_nil_iff]
      intro ids hids
      obtain ⟨level, hlt, rfl⟩ := List.mem_iff_getElem.mp hids
      rw [← List.getD_eq_getElem _ [] hlt, ← hlevel, List.getD_nil, hempty]
  | cons first rest ih =>
      cases right with
      | nil =>
          rw [List.flatMap_nil, List.flatMap_eq_nil_iff]
          intro ids hids
          obtain ⟨level, hlt, rfl⟩ := List.mem_iff_getElem.mp hids
          rw [← List.getD_eq_getElem _ [] hlt, hlevel, List.getD_nil, hempty]
      | cons first' rest' =>
          obtain rfl : first = first' := hlevel 0
          rw [List.flatMap_cons, List.flatMap_cons, ih fun level => hlevel (level + 1)]

section Restored

variable {reopened : Engine} {dir : Directory} {params : BloomParams}

theorem Restored.reread (hrestored : Restored engine reopened) :
    Reread engine.ssts reopened.ssts := by
  intro id
  rw [hrestored.find?_eq, Option.map_map]
  cases engine.ssts.find? id with
  | none => rfl
  | some sst => exact congrArg some sst.decoded_decoded

/-- The files hold the same records. -/
theorem Restored.fileRecords (hrestored : Restored engine reopened) :
    reopened.fileRecords = engine.fileRecords :=
  calc reopened.fileRecords
      = reopened.levelSstIds.flatMap engine.recordsOf :=
        List.flatMap_congr fun ids _ => by
          rw [recordsOf, recordsOf, List.flatMap_def, List.flatMap_def,
            hrestored.records_sstsOf]
    _ = engine.fileRecords := flatMap_of_levels rfl hrestored.level_eq

/-- A restored engine is in step with itself over the tables as they were built. -/
theorem Restored.twin (hrestored : Restored engine reopened) (hinv : LevelInvariant engine) :
    Twin (reopened.withSsts engine.ssts) reopened.ssts := by
  have hreopened := hrestored.levelInvariant hinv
  exact ⟨hreopened.reread (fun id => (hrestored.reread id).symm) hinv.keyed hinv.wellFormed,
    hreopened, hrestored.reread⟩

theorem Restored.tableInvariant (hrestored : Restored engine reopened)
    (htables : TableInvariant config engine)
    (hpaths : ∀ level, ∀ id ∈ reopened.level level, (id, level) ∈ reopened.paths) :
    TableInvariant config (reopened.withSsts engine.ssts) where
  invariant := (hrestored.twin htables.invariant).invariant
  built := htables.built
  ascending level hlevel := by
    rw [show (reopened.withSsts engine.ssts).level level = engine.level level from
      hrestored.level_eq level]
    exact htables.ascending level hlevel
  paths := hpaths
  level_le level id hid := by
    rw [show (reopened.withSsts engine.ssts).level level = engine.level level from
      hrestored.level_eq level] at hid
    exact htables.level_le level id hid

end Restored

/-! ## An engine and its directory -/

/-- A way to list a directory that names its files and else only what the constructor passes
over. -/
def ListsFiles (listing : Directory → List (Bytes × Option Bytes)) : Prop :=
  ∀ dir, ∃ others, (listing dir).Perm (dir.entries ++ others) ∧
    ∀ entry ∈ others, PassedOver entry

/-- The directory holds the files of the engine's tables, some of which were read from
them; `built` is what the builders wrote. -/
structure OnDisk (config : Config) (params : BloomParams) (engine : Engine) (dir : Directory)
    (built : OrdMap ℕ SST) : Prop where
  tables : TableInvariant config (engine.withSsts built)
  mirrors : Mirrors config params (engine.withSsts built) dir
  twin : Twin (engine.withSsts built) engine.ssts

namespace OnDisk

variable {params : BloomParams} {dir : Directory} {built : OrdMap ℕ SST}

theorem new (config : Config) (params : BloomParams) : OnDisk config params Engine.new ∅ ∅ where
  tables := tableInvariant_new config
  mirrors := mirrors_new
  twin := ⟨levelInvariant_new, levelInvariant_new, Reread.refl _⟩

/-- An operation that does not throw keeps engine and directory together. -/
theorem run (hdisk : OnDisk config params engine dir built) (leftover : Leftover)
    {op : EngineOp} {flushed : Flushed} (hok : (op.run config engine).2 = .ok flushed) :
    ∃ built', OnDisk config params (op.run config engine).1
      (dir.applyAll config params leftover (op.fileOps config engine)) built' := by
  obtain ⟨⟨ssts, hrun, htwin⟩, hops⟩ := hdisk.twin.run config op
  have hengine : (engine.withSsts built).withSsts engine.ssts = engine := rfl
  rw [hengine] at hrun hops
  rw [hrun] at hok
  have htables := tableInvariant_run hdisk.tables op
  have hmirrors := run_mirrors leftover hdisk.tables hdisk.mirrors hok
  rw [hrun, hops]
  exact ⟨_, htables, hmirrors, htwin⟩

/-- A table within the format is so as it is read back. -/
theorem withinFormat (hdisk : OnDisk config params engine dir built)
    (hfits : ∀ stored ∈ engine.ssts.entries, stored.2.WithinFormat config) {id : ℕ}
    {sst : SST} (hfind : built.find? id = some sst) : sst.WithinFormat config := by
  have hreread := hdisk.twin.reread id
  rw [show (engine.withSsts built).ssts = built from rfl, hfind, Option.map_some,
    Option.map_eq_some_iff] at hreread
  obtain ⟨read, hread, hsame⟩ := hreread
  exact (SST.withinFormat_decoded sst).mp
    (hsame ▸ (SST.withinFormat_decoded read).mpr
      (hfits (id, read) (OrdMap.find?_eq_some_iff.mp hread)))

/-- The constructor finds the tables, and goes on like the engine that wrote them. -/
theorem reopen (hdisk : OnDisk config params engine dir built) (hsizes : BloomSized config)
    (hfits : ∀ stored ∈ engine.ssts.entries, stored.2.WithinFormat config)
    {listing : Directory → List (Bytes × Option Bytes)} (hlisting : ListsFiles listing) :
    ∃ reopened, openDir config (listing dir) = .ok reopened ∧
      OnDisk config params reopened dir built ∧ LevelInvariant reopened ∧
      reopened.memtable.records = [] ∧ reopened.fileRecords = engine.fileRecords := by
  obtain ⟨others, hperm, hothers⟩ := hlisting dir
  obtain ⟨reopened, hopen, hrestored⟩ := openDir_mirrored hsizes hdisk.tables.restorable
    hdisk.mirrors (fun id sst hfind => hdisk.withinFormat hfits hfind) hperm hothers
  have htwin := hrestored.twin hdisk.tables.invariant
  exact ⟨reopened, hopen, ⟨hrestored.tableInvariant hdisk.tables (openDir_paths hopen),
    hdisk.mirrors.congr hrestored.level_eq rfl, htwin⟩, htwin.invariant', hrestored.memtable,
    hrestored.fileRecords.trans hdisk.twin.reread.fileRecords.symm⟩

end OnDisk

end Engine

end KopiDb
