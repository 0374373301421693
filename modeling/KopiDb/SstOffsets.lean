import KopiDb.EngineContract
import KopiDb.TableLayout

/-!
# Offsets of compacted tables

Block, meta and filter offsets are narrowed to 32 bits when a table is written.  A compaction
cuts its records into tables by the target size of the level, so it depends on the level and on
the records whether the tables stay below 2^32 bytes.
-/

namespace KopiDb

/-- The offsets in the bytes of a table are the positions of its blocks, its meta section and
its filter. -/
structure SST.OffsetsExact (config : Config) (sst : SST) : Prop where
  blocks : ∀ located ∈ SST.locate 0 sst.blocks, ofLe (toLe 4 located.1) = located.1
  metaOffset : (sst.handle config).metaBlockOffset = sst.data.length
  bloomOffset : (sst.handle config).bloomOffset = (sst.data ++ sst.metaSection config).length

theorem SST.offsetsExact_iff {config : Config} {sst : SST} :
    sst.OffsetsExact config ↔ (sst.data ++ sst.metaSection config).length < 2 ^ 32 := by
  constructor
  · intro hexact
    have hbloom : (sst.data ++ sst.metaSection config).length % 256 ^ 4 =
        (sst.data ++ sst.metaSection config).length := hexact.bloomOffset
    rw [← hbloom]
    exact Nat.mod_lt _ (by decide)
  · intro hlength
    obtain ⟨hmeta, hbloom⟩ := SST.handle_offsets hlength
    refine ⟨?_, hmeta, by rw [hbloom, List.length_append]⟩
    intro located hmem
    have hle : located.1 ≤ 0 + sst.data.length := (SST.locate_mem hmem).1
    rw [List.length_append] at hlength
    apply ofLe_toLe
    change located.1 < 2 ^ 32
    omega

/-- The runs of records that become tables: a run ends where the key changes and its closed
blocks have reached the target size. -/
def tableRuns (capacity target : ℕ) : List Entry → List Entry → List (List Entry)
  | pending, [] => if pending = [] then [] else [pending]
  | pending, entry :: rest =>
      let run := pending ++ [entry]
      if (rest.head?.any fun other => decide (other.key = entry.key)) = false ∧
          target ≤ (Packing.ofRun capacity run).closedLength then
        run :: tableRuns capacity target [] rest
      else tableRuns capacity target run rest

/-- The bytes of the table of a run, in front of its filter. -/
def runLength (capacity : ℕ) (run : List Entry) : ℕ := (Packing.ofRun capacity run).tableLength

theorem runLength_empty (capacity : ℕ) : runLength capacity [] = 8 := rfl

section Runs

variable {capacity target : ℕ} {pending rest : List Entry}

/-- A stream whose closed blocks stay below the target becomes one table. -/
theorem tableRuns_whole
    (hsmall : (Packing.ofRun capacity (pending ++ rest)).closedLength < target) :
    tableRuns capacity target pending rest =
      if pending ++ rest = [] then [] else [pending ++ rest] := by
  induction rest generalizing pending with
  | nil => rw [tableRuns, List.append_nil]
  | cons entry rest ih =>
      have hassoc : pending ++ entry :: rest = (pending ++ [entry]) ++ rest := by
        rw [List.append_assoc, List.singleton_append]
      rw [hassoc] at hsmall ⊢
      have hle := Packing.closedLength_mono capacity (pending ++ [entry]) rest
      rw [tableRuns, if_neg fun hcut => (hle.trans_lt hsmall).not_ge hcut.2]
      exact ih hsmall

/-- Otherwise some table has reached the target. -/
theorem tableRuns_large (htarget : 0 < target)
    (hlarge : target ≤ (Packing.ofRun capacity (pending ++ rest)).closedLength) :
    ∃ run ∈ tableRuns capacity target pending rest,
      target ≤ (Packing.ofRun capacity run).closedLength := by
  induction rest generalizing pending with
  | nil =>
      rw [List.append_nil] at hlarge
      have hne : pending ≠ [] := by
        rintro rfl
        exact htarget.not_ge hlarge
      rw [tableRuns, if_neg hne]
      exact ⟨pending, List.mem_singleton_self _, hlarge⟩
  | cons entry rest ih =>
      rw [tableRuns]
      split_ifs with hcut
      · exact ⟨pending ++ [entry], List.mem_cons_self, hcut.2⟩
      · apply ih
        rw [List.append_assoc, List.singleton_append]
        exact hlarge

/-- Where the target itself is past 32 bits, the whole stream has to fit them. -/
theorem tableRuns_lt_iff {bound : ℕ} (hbound : 8 < bound) (htarget : bound ≤ target)
    (stream : List Entry) :
    (∀ run ∈ tableRuns capacity target [] stream, runLength capacity run < bound) ↔
      runLength capacity stream < bound := by
  rcases Nat.lt_or_ge (Packing.ofRun capacity stream).closedLength target with hsmall | hlarge
  · rw [tableRuns_whole (by rwa [List.nil_append]), List.nil_append]
    split_ifs with hempty
    · rw [hempty, runLength_empty]
      exact iff_of_true (fun _ hmem => absurd hmem List.not_mem_nil) hbound
    · exact List.forall_mem_singleton
  · apply iff_of_false
    · intro hall
      obtain ⟨run, hmem, hreached⟩ :=
        tableRuns_large (hbound.trans_le htarget |>.trans' (Nat.zero_lt_succ 7))
          (by rwa [List.nil_append])
      have hlength := Packing.closedLength_le_tableLength (Packing.ofRun capacity run)
      exact (htarget.trans (hreached.trans hlength)).not_gt (hall run hmem)
    · have hlength := Packing.closedLength_le_tableLength (Packing.ofRun capacity stream)
      exact (htarget.trans (hlarge.trans hlength)).not_gt

/-- The runs are the stream. -/
theorem flatten_tableRuns : (tableRuns capacity target pending rest).flatten =
    pending ++ rest := by
  induction rest generalizing pending with
  | nil =>
      rw [tableRuns, List.append_nil]
      split_ifs with hempty
      · rw [hempty, List.flatten_nil]
      · exact List.flatten_singleton
  | cons entry rest ih =>
      rw [tableRuns]
      split_ifs
      · rw [List.flatten_cons, ih, List.nil_append, List.append_assoc, List.singleton_append]
      · rw [ih, List.append_assoc, List.singleton_append]

/-- Before the last record with a new key the closed blocks were below the target. -/
theorem settledLength_tableRuns
    (hpending : (Packing.ofRun capacity pending).closedLength ≤ target ∨
      ((Packing.ofRun capacity pending).settledLength ≤ target ∧
        ∀ entry ∈ rest.head?, entry.key = finalKey (Packing.ofRun capacity pending).current)) :
    ∀ run ∈ tableRuns capacity target pending rest,
      (Packing.ofRun capacity run).settledLength ≤ target := by
  induction rest generalizing pending with
  | nil =>
      have hsettled : (Packing.ofRun capacity pending).settledLength ≤ target := by
        rcases hpending with hclosed | ⟨hsettled, -⟩
        · exact (Packing.settledLength_le _).trans hclosed
        · exact hsettled
      rw [tableRuns]
      split_ifs
      · exact fun _ hmem => absurd hmem List.not_mem_nil
      · exact List.forall_mem_singleton.mpr hsettled
  | cons entry rest ih =>
      have hpush := Packing.settledLength_push capacity (Packing.ofRun capacity pending) entry
      rw [← Packing.ofRun_append] at hpush
      have hsettled : (Packing.ofRun capacity (pending ++ [entry])).settledLength ≤ target := by
        rcases hpending with hclosed | ⟨hsettled, hkey⟩
        · exact hpush.1.trans hclosed
        · rw [hpush.2 (hkey entry rfl)]
          exact hsettled
      rw [tableRuns]
      split_ifs with hcut
      · exact List.forall_mem_cons.mpr ⟨hsettled, ih (Or.inl (Nat.zero_le _))⟩
      · apply ih
        by_cases hclosed : (Packing.ofRun capacity (pending ++ [entry])).closedLength ≤ target
        · exact Or.inl hclosed
        · refine Or.inr ⟨hsettled, fun following hfollowing => ?_⟩
          rw [Packing.ofRun_append, Packing.finalKey_push]
          by_contra hne
          refine hcut ⟨?_, (not_le.mp hclosed).le⟩
          rw [Option.mem_def.mp hfollowing]
          exact decide_eq_false hne

end Runs

namespace Engine

variable {config : Config} {engine : Engine} {target targetLevel : ℕ}

/-- `gen_sst_from_iter` between two rounds: tables for the runs that are done, and a builder
with the pending records. -/
structure GenPacks (config : Config) (state : GenState) (done : List (List Entry))
    (pending : List Entry) : Prop where
  tables : (state.newSsts.map fun sst => (sst.data ++ sst.metaSection config).length) =
    done.map (runLength config.lsmBlockSize)
  builder : state.builder.Packs config.lsmBlockSize (Packing.ofRun config.lsmBlockSize pending)
  hasPending : state.hasPendingEntries = true ↔ pending ≠ []
  bounded : ∀ run ∈ done ++ [pending], (Packing.ofRun config.lsmBlockSize run).Bounded

theorem genPacks_start (config : Config) (engine : Engine) :
    GenPacks config ⟨engine, [], SSTBuilder.new config, false⟩ [] [] where
  tables := rfl
  builder := SSTBuilder.packs_new config
  hasPending := by simp
  bounded := List.forall_mem_singleton.mpr Packing.bounded_empty

theorem GenPacks.emit {state state' : GenState} {done : List (List Entry)}
    {pending : List Entry} (hpacks : GenPacks config state done pending)
    (hemit : state.emit config targetLevel = .ok state') :
    GenPacks config state' (done ++ [pending]) [] := by
  unfold GenState.emit at hemit
  dsimp only at hemit
  split at hemit
  next err _ => cases hemit
  next sst hbuild =>
      obtain rfl := Except.ok.inj hemit
      constructor
      · rw [List.map_append, hpacks.tables, List.map_singleton, List.map_append,
          List.map_singleton, SST.tableLength_eq hpacks.builder hbuild, runLength]
      · exact SSTBuilder.packs_new config
      · simp
      · exact List.forall_mem_append.mpr
          ⟨hpacks.bounded, List.forall_mem_singleton.mpr Packing.bounded_empty⟩

/-- One round. -/
theorem GenPacks.step {state state' : GenState} {done : List (List Entry)}
    {pending rest : List Entry} {entry : Entry} (hpacks : GenPacks config state done pending)
    (hstep : genStep config target targetLevel state entry rest.head? = .ok state') :
    ∃ done' pending', GenPacks config state' done' pending' ∧
      (pending' = [] ∨ pending' = pending ++ [entry]) ∧
      done' ++ tableRuns config.lsmBlockSize target pending' rest =
        done ++ tableRuns config.lsmBlockSize target pending (entry :: rest) := by
  unfold genStep at hstep
  dsimp only at hstep
  split at hstep
  next err _ => cases hstep
  next builder hadd =>
      obtain ⟨hdone, hlast⟩ := List.forall_mem_append.mp hpacks.bounded
      have hbounded := hpacks.builder.bounded hadd (hlast pending (List.mem_singleton_self _))
      have hbuilder := hpacks.builder.add hadd
      rw [← Packing.ofRun_append] at hbuilder hbounded
      have hadded : GenPacks config { state with builder, hasPendingEntries := true } done
          (pending ++ [entry]) :=
        { tables := hpacks.tables
          builder := hbuilder
          hasPending := by simp
          bounded := List.forall_mem_append.mpr
            ⟨hdone, List.forall_mem_singleton.mpr hbounded⟩ }
      have hcut : (!(rest.head?.any fun other => decide (other.key = entry.key)) &&
            decide (builder.estimatedSize ≥ target)) = true ↔
          (rest.head?.any fun other => decide (other.key = entry.key)) = false ∧ target ≤
            (Packing.ofRun config.lsmBlockSize (pending ++ [entry])).closedLength := by
        rw [Bool.and_eq_true, Bool.not_eq_true', decide_eq_true_iff, ← hbuilder.dataLength]
        rfl
      rw [tableRuns]
      split_ifs at hstep with _ hready
      · rw [if_pos (hcut.mp hready)]
        refine ⟨_, _, hadded.emit hstep, Or.inl rfl, ?_⟩
        rw [List.append_assoc, List.singleton_append]
      · rw [if_neg fun hcond => hready (hcut.mpr hcond)]
        obtain rfl := Except.ok.inj hstep
        exact ⟨_, _, hadded, Or.inr rfl, rfl⟩

/-- The whole loop. -/
theorem GenPacks.loop {state state' : GenState} {done : List (List Entry)}
    {pending rest : List Entry} (hpacks : GenPacks config state done pending)
    (hloop : Cursor.foldLookahead (genStep config target targetLevel) rest state = .ok state') :
    ∃ done' pending', GenPacks config state' done' pending' ∧
      done' ++ (if pending' = [] then [] else [pending']) =
        done ++ tableRuns config.lsmBlockSize target pending rest := by
  induction rest generalizing state done pending with
  | nil =>
      obtain rfl := Except.ok.inj hloop
      exact ⟨done, pending, hpacks, rfl⟩
  | cons entry rest ih =>
      rw [Cursor.foldLookahead] at hloop
      split at hloop
      next next hstep =>
          obtain ⟨done', pending', hnext, -, hruns⟩ := hpacks.step hstep
          rw [← hruns]
          exact ih hnext hloop
      next => cases hloop

/-- The tables that `gen_sst_from_iter` writes are as long as the runs need. -/
theorem length_genSstFromIter {ι : Type} [Cursor ι Entry] {iter : ι} {engine' : Engine}
    {ssts : List SST}
    (hgen : genSstFromIter config engine iter target targetLevel = (engine', .ok ssts)) :
    (ssts.map fun sst => (sst.data ++ sst.metaSection config).length) =
        (tableRuns config.lsmBlockSize target [] (Cursor.toList iter)).map
          (runLength config.lsmBlockSize) ∧
      ∀ run ∈ tableRuns config.lsmBlockSize target [] (Cursor.toList iter),
        (Packing.ofRun config.lsmBlockSize run).Bounded := by
  have hstart := genPacks_start config engine
  simp only [genSstFromIter, Cursor.forEach_eq_foldLookahead] at hgen
  split at hgen
  next => cases hgen
  next state hloop =>
      obtain ⟨done, pending, hpacks, hruns⟩ := hstart.loop hloop
      rw [List.nil_append] at hruns
      rw [← hruns]
      split_ifs at hgen with hpending
      · rw [if_neg (hpacks.hasPending.mp hpending)]
        split at hgen
        next => cases hgen
        next finished hemit =>
            obtain ⟨-, hssts⟩ := Prod.mk.inj hgen
            obtain rfl := Except.ok.inj hssts
            exact ⟨(hpacks.emit hemit).tables, hpacks.bounded⟩
      · obtain ⟨-, hssts⟩ := Prod.mk.inj hgen
        obtain rfl := Except.ok.inj hssts
        have hnone : pending = [] := by
          by_contra hne
          exact hpending (hpacks.hasPending.mpr hne)
        rw [if_pos hnone, List.append_nil]
        exact ⟨hpacks.tables, (List.forall_mem_append.mp hpacks.bounded).1⟩

theorem offsetsExact_iff_runs {ι : Type} [Cursor ι Entry] {iter : ι} {engine' : Engine}
    {ssts : List SST}
    (hgen : genSstFromIter config engine iter target targetLevel = (engine', .ok ssts)) :
    (∀ sst ∈ ssts, sst.OffsetsExact config) ↔
      ∀ run ∈ tableRuns config.lsmBlockSize target [] (Cursor.toList iter),
        runLength config.lsmBlockSize run < 2 ^ 32 := by
  have hlengths := (length_genSstFromIter hgen).1
  have htables : (∀ sst ∈ ssts, sst.OffsetsExact config) ↔
      ∀ length ∈ ssts.map fun sst => (sst.data ++ sst.metaSection config).length,
        length < 2 ^ 32 := by
    rw [List.forall_mem_map]
    exact forall₂_congr fun sst _ => SST.offsetsExact_iff
  rw [htables, hlengths, List.forall_mem_map]

/-- Sorted records never reach 2^32 bytes where the target leaves room for the meta entries. -/
theorem runLength_lt {ι : Type} [Cursor ι Entry] {iter : ι} {engine' : Engine} {ssts : List SST}
    (hgen : genSstFromIter config engine iter target targetLevel = (engine', .ok ssts))
    (hsorted : Versions.Sorted (Cursor.toList iter))
    (htarget : 3 * (target + 2 * Packing.maxBlockLength) + (uint16Max + 16) < 2 ^ 32) :
    ∀ run ∈ tableRuns config.lsmBlockSize target [] (Cursor.toList iter),
      runLength config.lsmBlockSize run < 2 ^ 32 := by
  intro run hrun
  have hbounded := (length_genSstFromIter hgen).2 run hrun
  have hsettled := settledLength_tableRuns (Or.inl (Nat.zero_le _)) run hrun
  have hpart : run.Sublist (Cursor.toList iter) := by
    have hwhole := List.sublist_flatten_of_mem hrun
    rwa [flatten_tableRuns, List.nil_append] at hwhole
  exact (hbounded.tableLength_le (hsorted.sublist hpart) hsettled).trans_lt htarget

/-- A file system without failures. -/
structure NoFailures (config : Config) : Prop where
  createFails : ∀ sstId, config.createFails sstId = false
  readFails : ∀ level entry, config.readFails level entry = false

/-- A round on a record under a new key does not throw. -/
theorem GenPacks.step_ok {state : GenState} {done : List (List Entry)} {pending : List Entry}
    {entry : Entry} (hpacks : GenPacks config state done pending)
    (hready : state.builder.Ready config) (hfailures : NoFailures config)
    (hcapacity : config.lsmBlockSize ≤ uint16Max) (haccepted : entry.Accepted)
    (hkey : entry.key ≠ finalKey (Packing.ofRun config.lsmBlockSize pending).current)
    (target targetLevel : ℕ) (following : Option Entry) :
    ∃ state', genStep config target targetLevel state entry following = .ok state' ∧
      state'.builder.Ready config := by
  obtain ⟨builder, hadd, hnext⟩ := hready.add hpacks.builder hcapacity haccepted hkey
  have hfull : builder.block.entries ≠ [] := by
    have hbuilder := hpacks.builder.add hadd
    rw [hbuilder.current]
    exact Packing.push_current_ne_nil _ _ _
  obtain ⟨sst, hbuild⟩ := hnext.build hfull (hfailures.createFails state.engine.nextSstId)
  unfold genStep GenState.emit takeSstId
  rw [hadd]
  dsimp only
  rw [hfailures.readFails, if_neg Bool.false_ne_true, hbuild]
  dsimp only
  split_ifs
  · exact ⟨_, rfl, SSTBuilder.ready_new config⟩
  · exact ⟨_, rfl, hnext⟩

/-- A loop over records in strict order of their keys does not throw. -/
theorem GenPacks.loop_ok {state : GenState} {done : List (List Entry)}
    {pending rest : List Entry} (hpacks : GenPacks config state done pending)
    (hready : state.builder.Ready config) (hfailures : NoFailures config)
    (hcapacity : config.lsmBlockSize ≤ uint16Max) (haccepted : ∀ entry ∈ rest, entry.Accepted)
    (hstrict : Versions.StrictKeys rest)
    (hnew : ∀ entry ∈ rest,
      finalKey (Packing.ofRun config.lsmBlockSize pending).current < entry.key)
    (target targetLevel : ℕ) :
    ∃ state', Cursor.foldLookahead (genStep config target targetLevel) rest state = .ok state' ∧
      state'.builder.Ready config := by
  induction rest generalizing state done pending with
  | nil => exact ⟨state, rfl, hready⟩
  | cons entry rest ih =>
      obtain ⟨hentry, hothers⟩ := List.forall_mem_cons.mp haccepted
      obtain ⟨hlater, htail⟩ := List.pairwise_cons.mp hstrict
      obtain ⟨state', hstep, hready'⟩ := hpacks.step_ok hready hfailures hcapacity hentry
        (hnew entry List.mem_cons_self).ne' target targetLevel rest.head?
      obtain ⟨done', pending', hpacks', hpending, -⟩ := hpacks.step hstep
      rw [Cursor.foldLookahead, hstep]
      refine ih hpacks' hready' hothers htail fun other hother => ?_
      rcases hpending with rfl | rfl
      · apply nil_lt_of_ne_nil
        intro hempty
        have hlt := hlater other hother
        rw [hempty] at hlt
        exact List.not_lt_nil _ hlt
      · rw [Packing.ofRun_append, Packing.finalKey_push]
        exact hlater other hother

/-- Accepted records in strict order of their keys are written as tables. -/
theorem genSstFromIter_ok {ι : Type} [Cursor ι Entry] {iter : ι} (hfailures : NoFailures config)
    (hcapacity : config.lsmBlockSize ≤ uint16Max)
    (haccepted : ∀ entry ∈ Cursor.toList iter, entry.Accepted)
    (hstrict : Versions.StrictKeys (Cursor.toList iter))
    (huser : ∀ entry ∈ Cursor.toList iter, entry.key ≠ []) :
    ∃ engine' ssts, genSstFromIter config engine iter target targetLevel =
      (engine', .ok ssts) := by
  have hstart := genPacks_start config engine
  obtain ⟨state, hloop, hready⟩ := hstart.loop_ok (SSTBuilder.ready_new config) hfailures
    hcapacity haccepted hstrict (fun entry hmem => nil_lt_of_ne_nil (huser entry hmem))
    target targetLevel
  obtain ⟨done, pending, hpacks, -⟩ := hstart.loop hloop
  simp only [genSstFromIter, Cursor.forEach_eq_foldLookahead]
  rw [hloop]
  dsimp only
  split_ifs with hpending
  · have hfull : state.builder.block.entries ≠ [] := by
      rw [hpacks.builder.current]
      exact Packing.ofRun_current_ne_nil _ (hpacks.hasPending.mp hpending)
    obtain ⟨sst, hbuild⟩ := hready.build hfull (hfailures.createFails state.engine.nextSstId)
    unfold GenState.emit takeSstId
    dsimp only
    rw [hbuild]
    exact ⟨_, _, rfl⟩
  · exact ⟨_, _, rfl⟩

/-! ## Level five -/

/-- The sizes of `config.toml`. -/
def shippedConfig : Config where
  lsmPerMemSizeLimit := 4194304
  lsmTolMemSizeLimit := 67108864
  lsmBlockSize := 32768
  lsmSstLevelRatio := 4
  bloomNumBits := 8
  bloomNumHashes := 1
  stdHash := List.length
  createFails := fun _ => false
  readFails := fun _ _ => false
  bloomNumBits_pos := smallConfig.bloomNumBits_pos

theorem shippedConfig_noFailures : NoFailures shippedConfig := ⟨fun _ => rfl, fun _ _ => rfl⟩

/-- An iterator over the records. -/
def streamOf (entries : List Entry) : HeapIterator :=
  ⟨entries.map fun entry => ⟨entry, 0, 0⟩, 0, false, true⟩

theorem toList_streamOf (entries : List Entry) :
    Cursor.toList (streamOf entries) = entries := by
  rw [streamOf, HeapIterator.toList_keepAll, List.map_map]
  exact List.map_id _

/-- A stream of four gigabytes: keys of 1 to 65535 zeros with the largest values. -/
def longStream : List Entry :=
  (List.range uint16Max).map fun i =>
    ⟨List.replicate (i + 1) 0, List.replicate uint16Max 0, 0⟩

theorem mem_longStream {entry : Entry} (hmem : entry ∈ longStream) :
    entry.key ≠ [] ∧ entry.Accepted ∧ uint16Max + 13 ≤ entrySize entry := by
  obtain ⟨i, hi, rfl⟩ := List.mem_map.mp hmem
  have hlt : i < uint16Max := List.mem_range.mp hi
  refine ⟨List.cons_ne_nil _ _, ⟨?_, ?_⟩, ?_⟩
  · rw [List.length_replicate]
    exact hlt
  · rw [List.length_replicate]
  · rw [entrySize, List.length_replicate, List.length_replicate]
    omega

private theorem replicate_lt (letter : Fin 256) {count count' : ℕ} (hlt : count < count') :
    List.replicate count letter < List.replicate count' letter := by
  induction count generalizing count' with
  | zero =>
      obtain ⟨rest, rfl⟩ := Nat.exists_eq_succ_of_ne_zero hlt.ne'
      exact List.nil_lt_cons _ _
  | succ count ih =>
      obtain ⟨rest, rfl⟩ := Nat.exists_eq_succ_of_ne_zero (Nat.ne_zero_of_lt hlt)
      exact List.cons_lt_cons_iff.mpr (Or.inr ⟨rfl, ih (Nat.lt_of_succ_lt_succ hlt)⟩)

theorem longStream_strictKeys : Versions.StrictKeys longStream := by
  refine List.pairwise_map.mpr (List.pairwise_lt_range.imp ?_)
  intro i j hlt
  exact replicate_lt 0 (Nat.succ_lt_succ hlt)

theorem le_sum_longStream {f : Entry → ℕ} {bound : ℕ}
    (hbound : ∀ entry ∈ longStream, bound ≤ f entry) :
    uint16Max * bound ≤ (longStream.map f).sum := by
  have hsum := List.card_nsmul_le_sum (longStream.map f) bound
    (by rwa [List.forall_mem_map])
  rwa [List.length_map, longStream, List.length_map, List.length_range, smul_eq_mul] at hsum

theorem longStream_length : 2 ^ 32 ≤ (longStream.map entrySize).sum :=
  le_trans (by decide) (le_sum_longStream fun _ hmem => (mem_longStream hmem).2.2)

theorem longStream_ne_nil : longStream ≠ [] := by
  intro hnil
  have hlength := longStream_length
  rw [hnil] at hlength
  exact absurd hlength (by decide)

end Engine

end KopiDb
