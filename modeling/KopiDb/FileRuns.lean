import KopiDb.FileOps

/-!
# The directory along a run

Every table file comes from a builder of the engine, and after operations that do not throw
the directory holds exactly the files of the listed tables.
-/

namespace KopiDb

/-! ## Builders -/

/-- A table that a builder of the engine made from its records. -/
def SST.Built (config : Config) (sst : SST) : Prop :=
  ∃ builder, (SSTBuilder.new config).addAll sst.records = .ok builder ∧
    builder.build sst.sstId = .ok sst

/-- A build that threw in the file system, or before it. -/
def Torn (level : ℕ) (ops : List FileOp) : Prop :=
  ops = [] ∨ ∃ sstId sst, ops = [.fail sstId level sst]

namespace SSTBuilder

theorem addAll_concat {builder builder' builder'' : SSTBuilder} {entries : List Entry}
    {entry : Entry} (hentries : builder.addAll entries = .ok builder')
    (hentry : builder'.add entry.key entry.value entry.txid = .ok builder'') :
    builder.addAll (entries ++ [entry]) = .ok builder'' := by
  rw [addAll, List.foldlM_append, ← addAll, hentries]
  change (builder'.add entry.key entry.value entry.txid >>= fun next => pure next) = _
  rw [hentry]
  rfl

/-- Whether the file can be created is asked last. -/
theorem build_eq (builder : SSTBuilder) (sstId : ℕ) :
    builder.build sstId =
      match { builder with createFails := fun _ => false }.build sstId with
      | .error err => .error err
      | .ok sst =>
          if builder.createFails sstId then
            .error (.runtimeError "Failed to create or write file")
          else .ok sst := by
  obtain ⟨block, blocks, firstKey, lastKey, dataLength, blockSize, bloomFilter, minTrancId,
    maxTrancId, createFails⟩ := builder
  unfold build finishBlock
  dsimp only
  cases hempty : block.isEmpty with
  | true =>
      rw [if_pos rfl, if_pos rfl]
      dsimp only
      cases blocks.head? with
      | none => rfl
      | some front =>
          cases blocks.getLast? with
          | none => rfl
          | some back => rfl
  | false =>
      rw [if_neg Bool.false_ne_true, if_neg Bool.false_ne_true]
      cases block.encodedSize with
      | error err => rfl
      | ok size =>
          dsimp only
          cases (blocks ++ [((⟨firstKey, lastKey⟩ : BlockMeta), block)]).head? with
          | none => rfl
          | some front =>
              cases (blocks ++ [((⟨firstKey, lastKey⟩ : BlockMeta), block)]).getLast? with
              | none => rfl
              | some back => rfl

theorem fileOps_of_ok {builder : SSTBuilder} {sstId : ℕ} {sst : SST}
    (hbuild : builder.build sstId = .ok sst) (level : ℕ) :
    builder.fileOps sstId level = [.write sstId level sst] := by
  rw [build_eq] at hbuild
  unfold fileOps
  generalize { builder with createFails := fun _ => false }.build sstId = result at hbuild ⊢
  cases result with
  | error err => cases hbuild
  | ok built =>
      dsimp only at hbuild ⊢
      split_ifs at hbuild with hfails
      rw [if_neg hfails, Except.ok.inj hbuild]

theorem fileOps_of_error {builder : SSTBuilder} {sstId : ℕ} {err : Err}
    (hbuild : builder.build sstId = .error err) (level : ℕ) :
    Torn level (builder.fileOps sstId level) := by
  rw [build_eq] at hbuild
  unfold fileOps
  generalize { builder with createFails := fun _ => false }.build sstId = result at hbuild ⊢
  cases result with
  | error err' => exact Or.inl rfl
  | ok built =>
      dsimp only at hbuild ⊢
      split_ifs at hbuild with hfails
      rw [if_pos hfails]
      exact Or.inr ⟨sstId, built, rfl⟩

end SSTBuilder

theorem SSTBuilder.Holds.unique {builder : SSTBuilder} {added added' : List Entry}
    (hadded : builder.Holds added) (hadded' : builder.Holds added') : added = added' :=
  hadded.records.symm.trans hadded'.records

namespace Engine

variable {config : Config} {engine engine' : Engine} {targetLevel : ℕ}

/-! ## The files of a merge -/

/-- The operation that wrote a table. -/
def writeOp (level : ℕ) (sst : SST) : FileOp := .write sst.sstId level sst

/-- What `gen_sst_from_iter` has written, with the builders and paths of its files. -/
structure GenFiles (config : Config) (engine : Engine) (targetLevel : ℕ) (state : GenState)
    (written pending rest : List Entry) : Prop where
  holds : GenHolds engine state written pending rest
  built : ∀ sst ∈ state.newSsts, sst.Built config
  paths : ∀ sst ∈ state.newSsts, (sst.sstId, targetLevel) ∈ state.engine.paths
  added : (SSTBuilder.new config).addAll pending = .ok state.builder

/-- What the build of the current table can do. -/
private theorem GenFiles.emit_cases {state : GenState} {written pending rest : List Entry}
    (hfiles : GenFiles config engine targetLevel state written pending rest)
    (hcut : KeysBefore pending rest) :
    (∃ failure, state.emit config targetLevel = .error failure ∧
      Torn targetLevel (state.builder.fileOps state.engine.nextSstId targetLevel)) ∨
    ∃ state' sst, state.emit config targetLevel = .ok state' ∧
      GenFiles config engine targetLevel state' (written ++ pending) [] rest ∧
      state'.newSsts = state.newSsts ++ [sst] ∧
      state.builder.fileOps state.engine.nextSstId targetLevel = [writeOp targetLevel sst] := by
  cases hbuild : state.builder.build state.engine.nextSstId with
  | error err =>
      refine Or.inl ⟨((state.engine.takeSstId targetLevel).1, err), ?_,
        SSTBuilder.fileOps_of_error hbuild targetLevel⟩
      unfold GenState.emit
      dsimp only [takeSstId]
      rw [hbuild]
  | ok sst =>
      obtain ⟨-, hrecords, hid⟩ := hfiles.holds.builder.build hbuild
      have hemit : state.emit config targetLevel =
          .ok { engine := (state.engine.takeSstId targetLevel).1
                newSsts := state.newSsts ++ [sst]
                builder := SSTBuilder.new config
                hasPendingEntries := false } := by
        unfold GenState.emit
        dsimp only [takeSstId]
        rw [hbuild]
      refine Or.inr ⟨_, sst, hemit, ?_, rfl, ?_⟩
      · exact
          { holds := hfiles.holds.emit hcut hemit
            built := by
              refine List.forall_mem_append.mpr
                ⟨hfiles.built, List.forall_mem_singleton.mpr ⟨state.builder, ?_, ?_⟩⟩
              · rw [hrecords]
                exact hfiles.added
              · rw [hid]
                exact hbuild
            paths := by
              refine List.forall_mem_append.mpr ⟨fun other hmem => ?_, ?_⟩
              · exact List.mem_cons_of_mem _ (hfiles.paths other hmem)
              · rw [List.forall_mem_singleton, hid]
                exact List.mem_cons_self
            added := rfl }
      · rw [SSTBuilder.fileOps_of_ok hbuild, writeOp, hid]

/-- One round: it throws with at most one torn file, or goes on with the files it wrote. -/
private theorem GenFiles.step (targetSstSize : ℕ) {state : GenState}
    {written pending rest : List Entry} {entry : Entry}
    (hfiles : GenFiles config engine targetLevel state written pending (entry :: rest))
    (hsorted : Versions.Sorted (pending ++ entry :: rest)) :
    let ops := genStepOps config targetSstSize targetLevel state entry rest.head?
    (∃ failure, genStep config targetSstSize targetLevel state entry rest.head? =
      .error failure ∧ Torn targetLevel ops) ∨
    ∃ state' written' pending' outputs,
      genStep config targetSstSize targetLevel state entry rest.head? = .ok state' ∧
      written' ++ pending' = written ++ pending ++ [entry] ∧
      GenFiles config engine targetLevel state' written' pending' rest ∧
      Versions.Sorted (pending' ++ rest) ∧
      state'.newSsts = state.newSsts ++ outputs ∧ ops = outputs.map (writeOp targetLevel) := by
  dsimp only
  unfold genStep genStepOps
  cases hadd : state.builder.add entry.key entry.value entry.txid with
  | error err => exact Or.inl ⟨_, rfl, Or.inl rfl⟩
  | ok builder =>
      have hpushed : GenFiles config engine targetLevel
          { state with builder := builder, hasPendingEntries := true } written
          (pending ++ [entry]) rest :=
        { holds := hfiles.holds.push hsorted hadd
          built := hfiles.built
          paths := hfiles.paths
          added := SSTBuilder.addAll_concat hfiles.added hadd }
      dsimp only
      split_ifs with hread hcut
      · exact Or.inl ⟨_, rfl, Or.inl rfl⟩
      · rw [Bool.and_eq_true, Bool.not_eq_true'] at hcut
        rcases hpushed.emit_cases (keysBefore_of_cut hsorted hcut.1) with
          hthrown | ⟨state', sst, hemit, hnext, hssts, hops⟩
        · exact Or.inl hthrown
        · refine Or.inr ⟨state', written ++ (pending ++ [entry]), [], [sst], hemit, ?_, hnext,
            ?_, hssts, hops⟩
          · rw [List.append_nil, List.append_assoc]
          · rw [List.nil_append]
            exact (List.pairwise_append.mp hsorted).2.1.tail
      · refine Or.inr ⟨_, written, pending ++ [entry], [], rfl, ?_, hpushed, ?_, ?_, rfl⟩
        · rw [List.append_assoc]
        · rwa [List.append_assoc, List.singleton_append]
        · rw [List.append_nil]

/-- The whole loop, up to the round that throws. -/
private theorem GenFiles.loop (targetSstSize : ℕ) {state : GenState}
{written pending rest : List Entry}
    (hfiles : GenFiles config engine targetLevel state written pending rest)
    (hsorted : Versions.Sorted (pending ++ rest)) :
    let body := genStep config targetSstSize targetLevel
    ∃ last written' pending' rest' outputs torn,
      GenFiles config engine targetLevel last written' pending' rest' ∧
      written' ++ pending' ++ rest' = written ++ pending ++ rest ∧
      last.newSsts = state.newSsts ++ outputs ∧
      loopOps body (genStepOps config targetSstSize targetLevel) rest state =
        outputs.map (writeOp targetLevel) ++ torn ∧
      ((Cursor.foldLookahead body rest state = .ok last ∧ rest' = [] ∧ torn = []) ∨
        ((∃ failure, Cursor.foldLookahead body rest state = .error failure ∧
            Advanced last.engine failure.1) ∧ Torn targetLevel torn)) := by
  dsimp only
  induction rest generalizing state written pending with
  | nil =>
      refine ⟨state, written, pending, [], [], [], hfiles, rfl, ?_, rfl, Or.inl ⟨rfl, rfl, rfl⟩⟩
      rw [List.append_nil]
  | cons entry rest ih =>
      rcases hfiles.step targetSstSize hsorted with
        ⟨failure, hstep, htorn⟩ |
        ⟨state', written', pending', outputs, hstep, hsplit, hnext, hsorted', hssts, hops⟩
      · refine ⟨state, written, pending, entry :: rest, [], _, hfiles, rfl,
          (List.append_nil _).symm, ?_, Or.inr ⟨⟨failure, ?_, ?_⟩, htorn⟩⟩
        · rw [loopOps, hstep, List.append_nil, List.map_nil, List.nil_append]
        · rw [Cursor.foldLookahead, hstep]
        · have hadvanced := advanced_genStep config targetSstSize targetLevel
            (Advanced.refl state.engine) entry rest.head?
          rwa [hstep] at hadvanced
      · obtain ⟨last, written'', pending'', rest'', outputs', torn, hlast, hall, hlastSsts,
          hlastOps, hdone⟩ := ih hnext hsorted'
        refine ⟨last, written'', pending'', rest'', outputs ++ outputs', torn, hlast, ?_, ?_, ?_,
          ?_⟩
        · rw [hall, hsplit, List.append_assoc _ [entry], List.singleton_append]
        · rw [hlastSsts, hssts, List.append_assoc]
        · rw [loopOps, hops, hstep]
          dsimp only
          rw [hlastOps, List.map_append, List.append_assoc]
        · rw [Cursor.foldLookahead, hstep]
          exact hdone

/-- The tables that a merge wrote until it ended or threw. -/
structure Outputs (config : Config) (engine engine' : Engine) (targetLevel : ℕ)
    (outputs : List SST) : Prop where
  built : ∀ sst ∈ outputs, sst.Built config
  wellFormed : ∀ sst ∈ outputs, sst.WellFormed
  separated : (outputs.map SST.records).Pairwise KeysBefore
  ids : outputs.map SST.sstId = List.range' engine.nextSstId outputs.length
  nextSstId : engine.nextSstId + outputs.length ≤ engine'.nextSstId
  paths : ∀ sst ∈ outputs, (sst.sstId, targetLevel) ∈ engine'.paths
  advanced : Advanced engine engine'

private theorem GenFiles.outputs {state : GenState} {written pending rest : List Entry}
    (hfiles : GenFiles config engine targetLevel state written pending rest)
    (hadvanced : Advanced state.engine engine') :
    Outputs config engine engine' targetLevel state.newSsts where
  built := hfiles.built
  wellFormed := hfiles.holds.wellFormed
  separated := hfiles.holds.separated
  ids := hfiles.holds.ids
  nextSstId := by
    rw [← hfiles.holds.nextSstId]
    exact hadvanced.nextSstId
  paths := by
    obtain ⟨given, hgiven, -⟩ := hadvanced.paths
    rw [hgiven]
    exact fun sst hmem => List.mem_append_right _ (hfiles.paths sst hmem)
  advanced := hfiles.holds.advanced.trans hadvanced

/-- The outcome of `gen_sst_from_iter` with its file operations. -/
theorem genOps_cases {ι : Type} [Cursor ι Entry] (config : Config) (engine : Engine) (iter : ι)
    (targetSstSize targetLevel : ℕ) (hsorted : Versions.Sorted (Cursor.toList iter)) :
    let outcome := genSstFromIter config engine iter targetSstSize targetLevel
    ∃ outputs torn remaining,
      Outputs config engine outcome.1 targetLevel outputs ∧
      outputs.flatMap SST.records ++ remaining = Cursor.toList iter ∧
      genOps config engine iter targetSstSize targetLevel =
        outputs.map (writeOp targetLevel) ++ torn ∧
      ((outcome.2 = .ok outputs ∧ remaining = [] ∧ torn = []) ∨
        ((∃ err, outcome.2 = .error err) ∧ Torn targetLevel torn)) := by
  have hstart : GenFiles config engine targetLevel ⟨engine, [], SSTBuilder.new config, false⟩ [] []
      (Cursor.toList iter) :=
    { holds := genHolds_start config engine _
      built := List.forall_mem_nil _
      paths := List.forall_mem_nil _
      added := rfl }
  obtain ⟨last, written, pending, rest, outputs, torn, hlast, hall, hssts, hops, hdone⟩ :=
    hstart.loop targetSstSize (by rwa [List.nil_append])
  rw [List.nil_append] at hssts hall
  rw [List.nil_append] at hall
  subst hssts
  have hrecords := hlast.holds.records
  simp only [genSstFromIter, genOps, Cursor.forEach_eq_foldLookahead]
  rcases hdone with ⟨hloop, rfl, rfl⟩ | ⟨⟨failure, hloop, hadvanced⟩, htorn⟩
  · rw [hloop, hops]
    dsimp only
    rw [List.append_nil] at hall
    split_ifs with hpending
    · rcases hlast.emit_cases (fun _ _ _ hmem => by cases hmem) with
        ⟨failure, hemit, htorn⟩ | ⟨state', sst, hemit, hfinal, hfinalSsts, hfinalOps⟩
      · have hadvanced := advanced_emit config targetLevel (Advanced.refl last.engine)
        rw [hemit] at hadvanced ⊢
        refine ⟨last.newSsts, _, pending, hlast.outputs hadvanced, ?_, ?_,
          Or.inr ⟨⟨_, rfl⟩, htorn⟩⟩
        · rw [hrecords, hall]
        · rw [List.append_nil]
      · rw [hemit]
        refine ⟨state'.newSsts, [], [], hfinal.outputs (Advanced.refl _), ?_, ?_,
          Or.inl ⟨rfl, rfl, rfl⟩⟩
        · rw [hfinal.holds.records, List.append_nil, hall]
        · rw [hfinalOps, hfinalSsts, List.map_append, List.append_nil, List.append_nil,
            List.map_singleton]
    · have hnil : pending = [] := by
        by_contra hne
        exact hpending (hlast.holds.hasPending.mpr hne)
      refine ⟨last.newSsts, [], [], hlast.outputs (Advanced.refl _), ?_, ?_,
        Or.inl ⟨rfl, rfl, rfl⟩⟩
      · rw [hrecords, List.append_nil, ← hall, hnil, List.append_nil]
      · rw [List.append_nil, List.append_nil]
  · rw [hloop, hops]
    refine ⟨last.newSsts, torn, pending ++ rest, hlast.outputs hadvanced, ?_, ?_,
      Or.inr ⟨⟨_, rfl⟩, htorn⟩⟩
    · rw [hrecords, ← List.append_assoc, hall]
    · rw [List.append_nil]

/-- What a merge wrote until it ended or threw, out of the records of both levels. -/
structure MergeFiles (config : Config) (engine : Engine) (srcLevel : ℕ) (outputs : List SST)
    (torn : List FileOp) (merged remaining : List Entry) : Prop where
  sorted : Versions.Sorted merged
  sameVersions : Versions.SameVersions merged
    (engine.recordsOf (engine.level srcLevel) ++ engine.recordsOf (engine.level (srcLevel + 1)))
  written : Outputs config engine (mergeLevels config engine srcLevel).1 (srcLevel + 1) outputs
  records : outputs.flatMap SST.records ++ remaining = merged
  ops : mergeOps config engine srcLevel = outputs.map (writeOp (srcLevel + 1)) ++ torn
  ended : ((mergeLevels config engine srcLevel).2 = .ok outputs ∧ remaining = [] ∧ torn = []) ∨
    ((∃ err, (mergeLevels config engine srcLevel).2 = .error err) ∧ Torn (srcLevel + 1) torn)

theorem mergeOps_cases (config : Config) (hinv : LevelInvariant engine) (srcLevel : ℕ) :
    ∃ outputs torn merged remaining,
      MergeFiles config engine srcLevel outputs torn merged remaining := by
  have hlevel : ∀ level, (engine.level level).mapM engine.sstOf =
      .ok (engine.sstsOf (engine.level level)) := fun level =>
    hinv.mapM_sstOf fun id hmem => mem_level_flatten hmem
  have hy := toList_level hinv (Nat.succ_ne_zero srcLevel)
  have hysorted := sorted_level hinv (Nat.succ_ne_zero srcLevel)
  by_cases hsrc : srcLevel = 0
  · subst hsrc
    have hids : (engine.sstsOf (engine.level 0)).map SST.sstId = engine.level 0 :=
      hinv.sstsOf_map_sstId fun id hmem => mem_level_flatten hmem
    obtain ⟨hxsorted, hxsame⟩ := toList_mergeSstIterator
      (fun _ hmem => hinv.wellFormed_of_mem hmem) (by rw [hids]; exact hinv.descending)
      hinv.distinct
    obtain ⟨hsorted, hsame⟩ := toList_twoMerge_all hxsorted (hy ▸ hysorted)
    obtain ⟨outputs, torn, remaining, houtputs, hrecords, hops, hended⟩ :=
      genOps_cases config engine _ (config.lsmPerMemSizeLimit * config.lsmSstLevelRatio) 1 hsorted
    rw [hy] at hsame
    refine ⟨outputs, torn, _, remaining, hsorted,
      hsame.trans (hxsame.append (Versions.SameVersions.refl _)), ?_, hrecords, ?_, ?_⟩
    · rw [mergeLevels, if_pos rfl, fullL0L1Compact, hlevel, hlevel]
      exact houtputs
    · rw [mergeOps, hlevel, hlevel]
      exact hops
    · rw [mergeLevels, if_pos rfl, fullL0L1Compact, hlevel, hlevel]
      exact hended
  · have hx := toList_level hinv hsrc
    have hxsorted := sorted_level hinv hsrc
    obtain ⟨hsorted, hsame⟩ := toList_twoMerge_all (hx ▸ hxsorted) (hy ▸ hysorted)
    obtain ⟨outputs, torn, remaining, houtputs, hrecords, hops, hended⟩ :=
      genOps_cases config engine _ (getSstSize config (srcLevel + 1)) (srcLevel + 1) hsorted
    rw [hx, hy] at hsame
    refine ⟨outputs, torn, _, remaining, hsorted, hsame, ?_, hrecords, ?_, ?_⟩
    · rw [mergeLevels, if_neg hsrc, fullCommonCompact, hlevel, hlevel]
      exact houtputs
    · rw [mergeOps, hlevel, hlevel]
      dsimp only
      rw [if_neg hsrc]
      exact hops
    · rw [mergeLevels, if_neg hsrc, fullCommonCompact, hlevel, hlevel]
      exact hended

/-! ## Tables and their files -/

/-- What holds of the tables of an engine in every run, also after an operation that threw. -/
structure TableInvariant (config : Config) (engine : Engine) : Prop where
  invariant : LevelInvariant engine
  built : ∀ id sst, engine.ssts.find? id = some sst → sst.Built config
  /-- Below level 0 the ids ascend. -/
  ascending : ∀ level, level ≠ 0 → (engine.level level).Pairwise fun left right => left < right
  paths : ∀ level, ∀ id ∈ engine.level level, (id, level) ∈ engine.paths
  /-- Every merge into a deeper level gives out a new id. -/
  level_le : ∀ level, ∀ id ∈ engine.level level, level ≤ id

theorem tableInvariant_new (config : Config) : TableInvariant config new where
  invariant := levelInvariant_new
  built := fun _ _ hfind => by cases hfind
  ascending := fun _ _ => List.Pairwise.nil
  paths := fun _ _ hmem => by cases hmem
  level_le := fun _ _ hmem => by cases hmem

theorem TableInvariant.advance (htables : TableInvariant config engine)
    (hadvanced : Advanced engine engine') : TableInvariant config engine' where
  invariant := htables.invariant.advance hadvanced
  built := by
    rw [hadvanced.ssts]
    exact htables.built
  ascending := by
    intro level hlevel
    rw [hadvanced.level]
    exact htables.ascending level hlevel
  paths := by
    intro level id hmem
    rw [hadvanced.level] at hmem
    obtain ⟨given, hgiven, -⟩ := hadvanced.paths
    rw [hgiven]
    exact List.mem_append_right _ (htables.paths level id hmem)
  level_le := by
    intro level id hmem
    rw [hadvanced.level] at hmem
    exact htables.level_le level id hmem

theorem TableInvariant.withMemtable (htables : TableInvariant config engine) (mem : MemTable) :
    TableInvariant config { engine with memtable := mem } where
  invariant := htables.invariant.withMemtable mem
  built := htables.built
  ascending := htables.ascending
  paths := htables.paths
  level_le := htables.level_le

theorem TableInvariant.clear (htables : TableInvariant config engine) :
    TableInvariant config engine.clear where
  invariant := htables.invariant.clear
  built := fun _ _ hfind => by cases hfind
  ascending := fun _ _ => List.Pairwise.nil
  paths := fun _ _ hmem => by cases hmem
  level_le := fun _ _ hmem => by cases hmem

/-- A listed table is in the file system under its level. -/
theorem TableInvariant.pathLevel_eq (htables : TableInvariant config engine) {level id : ℕ}
    (hmem : id ∈ engine.level level) : engine.pathLevel id = level := by
  have hpath := htables.paths level id hmem
  unfold pathLevel
  cases hfind : engine.paths.find? fun path => path.1 = id with
  | none =>
      have habsent := List.find?_eq_none.mp hfind (id, level) hpath
      exact absurd (decide_eq_true rfl) habsent
  | some path =>
      have hid := @List.find?_some _ (fun path : ℕ × ℕ => decide (path.1 = id)) _ _ hfind
      have hsame := List.inj_on_of_nodup_map htables.invariant.paths_nodup
        (List.mem_of_find?_eq_some hfind) hpath (of_decide_eq_true hid)
      rw [hsame]
      rfl

/-- The tables of a merge have larger ids than its inputs. -/
theorem MergeFiles.le_sstId (htables : TableInvariant config engine) {srcLevel : ℕ}
    {outputs : List SST} {torn : List FileOp} {merged remaining : List Entry}
    (hmerge : MergeFiles config engine srcLevel outputs torn merged remaining) :
    ∀ sst ∈ outputs, srcLevel + 1 ≤ sst.sstId := by
  intro sst hmem
  have hid : engine.nextSstId ≤ sst.sstId := by
    have hrange : sst.sstId ∈ outputs.map SST.sstId := List.mem_map_of_mem hmem
    rw [hmerge.written.ids, List.mem_range'_1] at hrange
    exact hrange.1
  obtain ⟨entry, hentry⟩ := List.exists_mem_of_ne_nil _
    (hmerge.written.wellFormed sst hmem).records_ne_nil
  have hmerged : entry ∈ merged := by
    rw [← hmerge.records]
    exact List.mem_append_left _ (List.mem_flatMap.mpr ⟨sst, hmem, hentry⟩)
  have hstored : ∀ level, entry ∈ engine.recordsOf (engine.level level) →
      level < engine.nextSstId := by
    intro level hlevel
    obtain ⟨source, hsource, -⟩ := List.mem_flatMap.mp hlevel
    obtain ⟨id, hlisted, -⟩ := mem_sstsOf.mp hsource
    have hcontains := (htables.invariant.mem_iff id).mp (mem_level_flatten hlisted)
    exact (htables.level_le level id hlisted).trans_lt (htables.invariant.stored_lt id hcontains)
  rcases List.mem_append.mp ((hmerge.sameVersions.mem_iff entry).mp hmerged) with hx | hy
  · exact (Nat.succ_le_of_lt (hstored srcLevel hx)).trans hid
  · exact (hstored (srcLevel + 1) hy).le.trans hid

/-- The tables of a merge that did not throw are new. -/
theorem MergeFiles.fresh (htables : TableInvariant config engine) {srcLevel : ℕ}
    {outputs : List SST} {torn : List FileOp} {merged remaining : List Entry}
    (hmerge : MergeFiles config engine srcLevel outputs torn merged remaining) :
    Fresh (mergeLevels config engine srcLevel).1 outputs := by
  have hrange : ∀ sst ∈ outputs, engine.nextSstId ≤ sst.sstId ∧
      sst.sstId < engine.nextSstId + outputs.length := by
    intro sst hmem
    have hid : sst.sstId ∈ outputs.map SST.sstId := List.mem_map_of_mem hmem
    rw [hmerge.written.ids] at hid
    exact List.mem_range'_1.mp hid
  exact
    { wellFormed := hmerge.written.wellFormed
      separated := hmerge.written.separated
      ascending := by
        rw [hmerge.written.ids]
        exact List.pairwise_lt_range'
      absent := by
        intro sst hmem
        rw [hmerge.written.advanced.ssts, ← Bool.not_eq_true]
        intro hcontains
        exact (hrange sst hmem).1.not_gt (htables.invariant.stored_lt _ hcontains)
      lt_next := fun sst hmem => (hrange sst hmem).2.trans_le hmerge.written.nextSstId }

/-- Registering the tables of a merge. -/
private theorem TableInvariant.install (htables : TableInvariant config engine) {srcLevel : ℕ}
    {outputs : List SST} {torn : List FileOp} {merged remaining : List Entry}
    (hmerge : MergeFiles config engine srcLevel outputs torn merged remaining) :
    TableInvariant config ((mergeLevels config engine srcLevel).1.install srcLevel outputs) := by
  have hadvanced := htables.advance hmerge.written.advanced
  have hfresh := hmerge.fresh htables
  have hids : ∀ id ∈ outputs.map SST.sstId, srcLevel + 1 ≤ id := by
    intro id hmem
    obtain ⟨sst, hsst, rfl⟩ := List.mem_map.mp hmem
    exact hmerge.le_sstId htables sst hsst
  exact
    { invariant := hadvanced.invariant.install hfresh srcLevel
      built := by
        intro id sst hfind
        rcases find?_install_cases hfresh hfind with ⟨hmem, -⟩ | hfind
        · exact hmerge.written.built sst hmem
        · exact hadvanced.built id sst hfind
      ascending := by
        intro level hlevel
        rw [level_install hfresh]
        split_ifs
        · exact hfresh.ascending
        · exact List.Pairwise.nil
        · exact hadvanced.ascending level hlevel
      paths := by
        intro level id hmem
        rw [level_install hfresh] at hmem
        split_ifs at hmem with hnext hsrc
        · obtain ⟨sst, hsst, rfl⟩ := List.mem_map.mp hmem
          rw [hnext]
          exact hmerge.written.paths sst hsst
        · cases hmem
        · exact hadvanced.paths level id hmem
      level_le := by
        intro level id hmem
        rw [level_install hfresh] at hmem
        split_ifs at hmem with hnext hsrc
        · rw [hnext]
          exact hids id hmem
        · cases hmem
        · exact hadvanced.level_le level id hmem }

/-- Compactions keep the invariant, whether or not they throw. -/
theorem tableInvariant_fullCompact (htables : TableInvariant config engine)
    (fuel srcLevel : ℕ) :
    TableInvariant config (fullCompact config fuel engine srcLevel).1 := by
  induction fuel generalizing engine srcLevel with
  | zero => exact htables
  | succ fuel ih =>
      have hroom : TableInvariant config (makeRoom config fuel engine srcLevel).1 := by
        unfold makeRoom
        split_ifs
        · exact ih htables (srcLevel + 1)
        · exact htables
      rw [fullCompact_succ]
      rcases andThen_cases (makeRoom config fuel engine srcLevel) _ with
        ⟨err, -, hrun⟩ | ⟨done, -, hrun⟩
      · rw [hrun]
        exact hroom
      · rw [hrun]
        obtain ⟨outputs, torn, merged, remaining, hmerge⟩ :=
          mergeOps_cases config hroom.invariant srcLevel
        rcases hmerge.ended with ⟨hok, -, -⟩ | ⟨⟨err, herr⟩, -⟩
        · rw [andThen, hok]
          exact hroom.install hmerge
        · rw [andThen, herr]
          exact hroom.advance hmerge.written.advanced

/-! ## The file of a flush -/

/-- What `flush_last` does, with its file operation. -/
private theorem flushLastOps_cases (config : Config) (mem : MemTable) (sstId : ℕ) :
    (∃ mem' flushed sst, mem.flushLast (SSTBuilder.new config) sstId [] =
        (mem', flushed, .ok (some sst)) ∧ sst.Built config ∧
        mem.flushLastOps config sstId = [writeOp 0 sst]) ∨
      (∃ mem' flushed, mem.flushLast (SSTBuilder.new config) sstId [] =
        (mem', flushed, .ok none) ∧ mem.flushLastOps config sstId = []) ∨
      ∃ mem' flushed err, mem.flushLast (SSTBuilder.new config) sstId [] =
        (mem', flushed, .error err) ∧ Torn 0 (mem.flushLastOps config sstId) := by
  unfold MemTable.flushLast MemTable.flushLastOps
  dsimp only
  generalize (if mem.frozenTables.isEmpty = true then mem.frozenCurTable_ else mem) = frozen
  split
  next hback =>
      simp only [hback]
      exact Or.inr (Or.inl ⟨frozen, [], rfl, trivial⟩)
  next table hback =>
      simp only [hback]
      cases hadd : (SSTBuilder.new config).addAll table.flush with
      | error err => exact Or.inr (Or.inr ⟨frozen, [], err, rfl, Or.inl rfl⟩)
      | ok builder =>
          dsimp only
          cases hbuild : builder.build sstId with
          | error err =>
              exact Or.inr (Or.inr ⟨frozen, [], err, rfl,
                SSTBuilder.fileOps_of_error hbuild 0⟩)
          | ok sst =>
              have hholds := (SSTBuilder.holds_new config).addAll
                (by rw [List.nil_append]; exact table.ordered.sorted) hadd
              rw [List.nil_append] at hholds
              obtain ⟨-, hrecords, hid⟩ := hholds.build hbuild
              refine Or.inl ⟨_, _, sst, rfl, ⟨builder, ?_, ?_⟩, ?_⟩
              · rw [hrecords]
                exact hadd
              · rw [hid]
                exact hbuild
              · rw [SSTBuilder.fileOps_of_ok hbuild, writeOp, hid]

/-- What `flush` does behind its compaction, with its file operation. -/
theorem flushTable_files (config : Config) (hinv : LevelInvariant engine) :
    let ops := engine.memtable.flushLastOps config engine.nextSstId
    ∃ mem,
      (∃ sst flushed, sst.Built config ∧ sst.sstId = engine.nextSstId ∧
        FlushedFile { (engine.takeSstId 0).1 with memtable := mem } sst ∧
        engine.flushTable config =
          (({ (engine.takeSstId 0).1 with memtable := mem } : Engine).installL0 sst,
            .ok flushed) ∧ ops = [writeOp 0 sst]) ∨
      ((engine.flushTable config).1 = { (engine.takeSstId 0).1 with memtable := mem } ∧
        (((∃ flushed, (engine.flushTable config).2 = .ok flushed) ∧ ops = []) ∨
          ((∃ err, (engine.flushTable config).2 = .error err) ∧ Torn 0 ops))) := by
  dsimp only
  rcases flushLastOps_cases config engine.memtable engine.nextSstId with
    ⟨mem, flushed, sst, hflush, hbuilt, hops⟩ | ⟨mem, flushed, hflush, hops⟩ |
    ⟨mem, flushed, err, hflush, htorn⟩
  · have hcases := engine.memtable.flushLast_cases config engine.nextSstId [] hflush
    rcases hcases with ⟨-, -, hresult⟩ | ⟨built, hresult, hsst, hid, hdistinct, -, -⟩
    · exact absurd rfl (hresult sst)
    · obtain rfl := Option.some.inj (Except.ok.inj hresult)
      refine ⟨mem, Or.inl ⟨sst, ⟨sst.maxTrancId, flushed⟩, hbuilt, hid, ?_, ?_, hops⟩⟩
      · exact
          { wellFormed := hsst
            distinct := hdistinct
            absent := by
              rw [hid, ← Bool.not_eq_true]
              exact fun hcontains => (hinv.stored_lt _ hcontains).false
            newest := by
              intro id hmem
              rw [hid]
              exact hinv.stored_lt id ((hinv.mem_iff id).mp (mem_level_flatten hmem))
            lt_next := by
              rw [hid]
              exact Nat.lt_succ_self _ }
      · simp only [flushTable, takeSstId, hflush, installL0, hid]
  · refine ⟨mem, Or.inr ⟨?_, Or.inl ⟨⟨⟨0, []⟩, ?_⟩, hops⟩⟩⟩
    · simp only [flushTable, takeSstId, hflush]
    · simp only [flushTable, takeSstId, hflush]
  · refine ⟨mem, Or.inr ⟨?_, Or.inr ⟨⟨err, ?_⟩, htorn⟩⟩⟩
    · simp only [flushTable, takeSstId, hflush]
    · simp only [flushTable, takeSstId, hflush]

private theorem TableInvariant.installL0 (htables : TableInvariant config engine) {sst : SST}
    (hbuilt : sst.Built config) (hpath : (sst.sstId, 0) ∈ engine.paths)
    (hfile : FlushedFile engine sst) : TableInvariant config (engine.installL0 sst) where
  invariant := htables.invariant.installL0 hfile
  built := by
    intro id other hfind
    rw [find?_installL0] at hfind
    split_ifs at hfind with hid
    · rw [← Option.some.inj hfind]
      exact hbuilt
    · exact htables.built id other hfind
  ascending := by
    intro level hlevel
    rw [level_installL0, if_neg hlevel]
    exact htables.ascending level hlevel
  paths := by
    intro level id hmem
    rw [level_installL0] at hmem
    split_ifs at hmem with hlevel
    · rw [hlevel]
      rcases List.mem_cons.mp hmem with rfl | hmem
      · exact hpath
      · exact htables.paths 0 id hmem
    · exact htables.paths level id hmem
  level_le := by
    intro level id hmem
    rw [level_installL0] at hmem
    split_ifs at hmem with hlevel
    · rw [hlevel]
      exact Nat.zero_le id
    · exact htables.level_le level id hmem

theorem tableInvariant_flushTable (htables : TableInvariant config engine) :
    TableInvariant config (engine.flushTable config).1 := by
  have htaken := htables.advance (advanced_takeSstId engine 0)
  obtain ⟨mem, ⟨sst, flushed, hbuilt, hid, hfile, hrun, -⟩ | ⟨hengine, -⟩⟩ :=
    flushTable_files config htables.invariant
  · rw [hrun]
    refine (htaken.withMemtable mem).installL0 hbuilt ?_ hfile
    rw [hid]
    exact List.mem_cons_self
  · rw [hengine]
    exact htaken.withMemtable mem

theorem tableInvariant_flush (htables : TableInvariant config engine) :
    TableInvariant config (engine.flush config).1 := by
  rw [flush_eq]
  split_ifs
  · exact htables
  · have hroom : TableInvariant config (engine.compactFullL0 config).1 := by
      unfold compactFullL0
      split_ifs
      · exact tableInvariant_fullCompact htables _ 0
      · exact htables
    rcases andThen_cases (engine.compactFullL0 config) fun engine _ =>
        engine.flushTable config with ⟨err, -, hrun⟩ | ⟨done, -, hrun⟩
    · rw [hrun]
      exact hroom
    · rw [hrun]
      exact tableInvariant_flushTable hroom

theorem tableInvariant_flushIfFull (htables : TableInvariant config engine) :
    TableInvariant config (engine.flushIfFull config).1 := by
  unfold flushIfFull
  split_ifs
  · exact tableInvariant_flush htables
  · exact htables

/-- Every operation keeps the invariant, whether or not it throws. -/
theorem tableInvariant_run (htables : TableInvariant config engine) (op : EngineOp) :
    TableInvariant config (op.run config engine).1 := by
  cases op with
  | put key value trancId => exact tableInvariant_flushIfFull (htables.withMemtable _)
  | putBatch kvs trancId => exact tableInvariant_flushIfFull (htables.withMemtable _)
  | remove key trancId => exact tableInvariant_flushIfFull (htables.withMemtable _)
  | removeBatch keys trancId => exact tableInvariant_flushIfFull (htables.withMemtable _)
  | freeze => exact htables.withMemtable _
  | flush => exact tableInvariant_flush htables
  | compact srcLevel =>
      have hcompacted : TableInvariant config (engine.compact config srcLevel).1 :=
        tableInvariant_fullCompact htables _ srcLevel
      rcases andThen_cases (engine.compact config srcLevel) fun engine _ =>
          (engine, (.ok ⟨0, []⟩ : Except Err Flushed)) with ⟨err, -, hrun⟩ | ⟨done, -, hrun⟩
      · rw [EngineOp.run, hrun]
        exact hcompacted
      · rw [EngineOp.run, hrun]
        exact hcompacted
  | clear => exact htables.clear

private theorem tableInvariant_runOps {ops : List EngineOp} (htables : TableInvariant config engine)
    (hrun : runOps config engine ops = .ok engine') : TableInvariant config engine' := by
  induction ops generalizing engine with
  | nil =>
      obtain rfl := Except.ok.inj hrun
      exact htables
  | cons op rest ih =>
      rw [runOps] at hrun
      split at hrun
      next => cases hrun
      next next flushed hop =>
          have hnext := tableInvariant_run htables op
          rw [hop] at hnext
          exact ih hnext hrun

theorem tableInvariant_of_run {ops : List EngineOp}
    (hrun : runOps config new ops = .ok engine) : TableInvariant config engine :=
  tableInvariant_runOps (tableInvariant_new config) hrun

end Engine

end KopiDb
