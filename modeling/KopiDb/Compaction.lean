import KopiDb.Engine

/-!
# Compaction output

Both compactions drain a merged iterator into new files.  The files hold exactly
the records of the iterator, in its order, and no key is cut in two.
-/

namespace KopiDb

namespace Engine

/-- `engine'` is `engine` after some file ids were given out. -/
structure Advanced (engine engine' : Engine) : Prop where
  memtable : engine'.memtable = engine.memtable
  levelSstIds : engine'.levelSstIds = engine.levelSstIds
  ssts : engine'.ssts = engine.ssts
  nextSstId : engine.nextSstId ≤ engine'.nextSstId
  paths : ∃ given, engine'.paths = given ++ engine.paths ∧ (given.map Prod.fst).Nodup ∧
    ∀ path ∈ given, engine.nextSstId ≤ path.1 ∧ path.1 < engine'.nextSstId

theorem Advanced.refl (engine : Engine) : Advanced engine engine where
  memtable := rfl
  levelSstIds := rfl
  ssts := rfl
  nextSstId := le_rfl
  paths := ⟨[], rfl, List.nodup_nil, by simp⟩

theorem Advanced.trans {first second third : Engine} (hleft : Advanced first second)
    (hright : Advanced second third) : Advanced first third where
  memtable := hright.memtable.trans hleft.memtable
  levelSstIds := hright.levelSstIds.trans hleft.levelSstIds
  ssts := hright.ssts.trans hleft.ssts
  nextSstId := hleft.nextSstId.trans hright.nextSstId
  paths := by
    obtain ⟨given, hgiven, hnodup, hrange⟩ := hleft.paths
    obtain ⟨given', hgiven', hnodup', hrange'⟩ := hright.paths
    refine ⟨given' ++ given, by rw [hgiven', hgiven, List.append_assoc], ?_, ?_⟩
    · rw [List.map_append, List.nodup_append]
      refine ⟨hnodup', hnodup, ?_⟩
      intro id hid id' hid' heq
      obtain ⟨path, hpath, rfl⟩ := List.mem_map.mp hid
      obtain ⟨path', hpath', rfl⟩ := List.mem_map.mp hid'
      have hlow := (hrange' path hpath).1
      have hhigh := (hrange path' hpath').2
      omega
    · intro path hpath
      have hnext := hleft.nextSstId
      have hnext' := hright.nextSstId
      rcases List.mem_append.mp hpath with hpath | hpath
      · have := hrange' path hpath
        omega
      · have := hrange path hpath
        omega

theorem advanced_takeSstId (engine : Engine) (targetLevel : ℕ) :
    Advanced engine (engine.takeSstId targetLevel).1 where
  memtable := rfl
  levelSstIds := rfl
  ssts := rfl
  nextSstId := Nat.le_succ _
  paths := ⟨[(engine.nextSstId, targetLevel)], rfl, by simp, by simp [takeSstId]⟩

/-! ## Cutting a run into files -/

/-- What `gen_sst_from_iter` has written, with `pending` in the builder and `rest`
still to come. -/
structure GenHolds (engine : Engine) (state : GenState) (written pending rest : List Entry) :
    Prop where
  records : state.newSsts.flatMap SST.records = written
  wellFormed : ∀ sst ∈ state.newSsts, sst.WellFormed
  separated : (state.newSsts.map SST.records).Pairwise KeysBefore
  before : KeysBefore written (pending ++ rest)
  builder : state.builder.Holds pending
  hasPending : state.hasPendingEntries = true ↔ pending ≠ []
  ids : state.newSsts.map SST.sstId =
    List.range' engine.nextSstId state.newSsts.length
  nextSstId : state.engine.nextSstId = engine.nextSstId + state.newSsts.length
  advanced : Advanced engine state.engine

variable {config : Config} {engine : Engine} {targetSstSize targetLevel : ℕ}

/-- The engine of a round, whether or not it threw. -/
def genEngine : Except (Engine × Err) GenState → Engine
  | .error failure => failure.1
  | .ok state => state.engine

theorem advanced_emit (config : Config) (targetLevel : ℕ) {state : GenState}
    (hadvanced : Advanced engine state.engine) :
    Advanced engine (genEngine (state.emit config targetLevel)) := by
  unfold GenState.emit
  dsimp only
  split <;> exact hadvanced.trans (advanced_takeSstId _ _)

/-- A cut between two keys starts an empty builder. -/
theorem GenHolds.emit {state state' : GenState} {written pending rest : List Entry}
    (hholds : GenHolds engine state written pending rest)
    (hcut : KeysBefore pending rest)
    (hemit : state.emit config targetLevel = .ok state') :
    GenHolds engine state' (written ++ pending) [] rest := by
  unfold GenState.emit at hemit
  dsimp only at hemit
  split at hemit
  next err _ => cases hemit
  next sst hbuild =>
      obtain rfl := Except.ok.inj hemit
      obtain ⟨hsst, hrecords, hid⟩ := hholds.builder.build hbuild
      have hbefore : KeysBefore written (pending ++ rest) := hholds.before
      exact
        { records := by
            rw [List.flatMap_append, hholds.records, List.flatMap_singleton, hrecords]
          wellFormed := by
            intro other hmem
            rcases List.mem_append.mp hmem with hmem | hmem
            · exact hholds.wellFormed other hmem
            · rw [List.mem_singleton.mp hmem]
              exact hsst
          separated := by
            rw [List.map_append]
            refine List.pairwise_append.mpr
              ⟨hholds.separated, List.pairwise_singleton _ _, ?_⟩
            intro left hleft right hright first hfirst second hsecond
            rw [List.mem_singleton.mp hright, hrecords] at hsecond
            refine hbefore first ?_ second (List.mem_append_left _ hsecond)
            obtain ⟨other, hother, rfl⟩ := List.mem_map.mp hleft
            rw [← hholds.records]
            exact List.mem_flatMap.mpr ⟨other, hother, hfirst⟩
          before := by
            intro first hfirst second hsecond
            rcases List.mem_append.mp hfirst with hfirst | hfirst
            · exact hbefore first hfirst second (List.mem_append_right _ hsecond)
            · exact hcut first hfirst second hsecond
          builder := SSTBuilder.holds_new config
          hasPending := by simp
          ids := by
            rw [List.map_append, hholds.ids, List.map_singleton, hid, List.length_append,
              List.length_singleton, List.range'_concat]
            simp [takeSstId, hholds.nextSstId]
          nextSstId := by
            rw [List.length_append, List.length_singleton, takeSstId]
            change state.engine.nextSstId + 1 = _
            rw [hholds.nextSstId, Nat.add_assoc]
          advanced := hholds.advanced.trans (advanced_takeSstId _ _) }

/-- The next record, and so every later one, has a larger key. -/
theorem keysBefore_of_cut {pending rest : List Entry} {entry : Entry}
    (hsorted : Versions.Sorted (pending ++ entry :: rest))
    (hcut : (rest.head?.any fun other => decide (other.key = entry.key)) = false) :
    KeysBefore (pending ++ [entry]) rest := by
  intro first hfirst second hsecond
  cases hrest : rest with
  | nil =>
      rw [hrest] at hsecond
      cases hsecond
  | cons following others =>
      rw [hrest] at hcut hsorted hsecond
      have hne : following.key ≠ entry.key := by simpa using hcut
      obtain ⟨-, htail, hbefore⟩ := List.pairwise_append.mp hsorted
      have hle : entry.key ≤ following.key := Versions.Sorted.key_le htail List.mem_cons_self
      have hlt : entry.key < following.key := lt_of_le_of_ne hle (Ne.symm hne)
      have hfirstLe : first.key ≤ entry.key := by
        rcases List.mem_append.mp hfirst with hfirst | hfirst
        · exact (hbefore first hfirst entry List.mem_cons_self).key_le
        · rw [List.mem_singleton.mp hfirst]
      have hsecondLe : following.key ≤ second.key := by
        rcases List.mem_cons.mp hsecond with rfl | hsecond
        · exact le_rfl
        · exact Versions.Sorted.key_le htail.tail hsecond
      exact (hfirstLe.trans_lt hlt).trans_le hsecondLe

/-- A record that the builder took. -/
theorem GenHolds.push {state : GenState} {written pending rest : List Entry} {entry : Entry}
    {builder : SSTBuilder} (hholds : GenHolds engine state written pending (entry :: rest))
    (hsorted : Versions.Sorted (pending ++ entry :: rest))
    (hadd : state.builder.add entry.key entry.value entry.txid = .ok builder) :
    GenHolds engine { state with builder := builder, hasPendingEntries := true } written
      (pending ++ [entry]) rest :=
  { hholds with
    before := by
      rw [List.append_assoc, List.singleton_append]
      exact hholds.before
    builder := by
      refine hholds.builder.add (hsorted.sublist ?_) hadd
      exact (List.cons_sublist_cons.mpr (List.nil_sublist _)).append_left _
    hasPending := by simp }

/-- One round consumes one record. -/
theorem GenHolds.step {state state' : GenState} {written pending rest : List Entry}
    {entry : Entry} (hholds : GenHolds engine state written pending (entry :: rest))
    (hsorted : Versions.Sorted (pending ++ entry :: rest))
    (hstep : genStep config targetSstSize targetLevel state entry rest.head? = .ok state') :
    ∃ written' pending', written' ++ pending' = written ++ pending ++ [entry] ∧
      GenHolds engine state' written' pending' rest ∧
      Versions.Sorted (pending' ++ rest) := by
  unfold genStep at hstep
  dsimp only at hstep
  split at hstep
  next err _ => cases hstep
  next builder hadd =>
      have hadded := hholds.push hsorted hadd
      split_ifs at hstep with _ hcut
      · rw [Bool.and_eq_true, Bool.not_eq_true'] at hcut
        refine ⟨written ++ (pending ++ [entry]), [], by simp,
          hadded.emit (keysBefore_of_cut hsorted hcut.1) hstep, ?_⟩
        rw [List.nil_append]
        exact (List.pairwise_append.mp hsorted).2.1.tail
      · obtain rfl := Except.ok.inj hstep
        refine ⟨written, pending ++ [entry], by simp, hadded, ?_⟩
        rwa [List.append_assoc, List.singleton_append]

theorem advanced_genStep (config : Config) (targetSstSize targetLevel : ℕ)
    {state : GenState} (hadvanced : Advanced engine state.engine) (entry : Entry)
    (following : Option Entry) : Advanced engine
      (genEngine (genStep config targetSstSize targetLevel state entry following)) := by
  unfold genStep
  dsimp only
  split
  · exact hadvanced
  · split_ifs
    · exact hadvanced
    · exact advanced_emit config targetLevel hadvanced
    · exact hadvanced

/-- The loop consumes the whole run. -/
theorem GenHolds.loop {state state' : GenState}
    {written pending rest : List Entry} (hholds : GenHolds engine state written pending rest)
    (hsorted : Versions.Sorted (pending ++ rest))
    (hloop : Cursor.foldLookahead (genStep config targetSstSize targetLevel) rest state =
      .ok state') :
    ∃ written' pending', written' ++ pending' = written ++ pending ++ rest ∧
      GenHolds engine state' written' pending' [] := by
  induction rest generalizing state written pending with
  | nil =>
      obtain rfl := Except.ok.inj hloop
      exact ⟨written, pending, by simp, hholds⟩
  | cons entry rest ih =>
      rw [Cursor.foldLookahead] at hloop
      split at hloop
      next following hstep =>
          obtain ⟨written', pending', hsplit, hnext, hsorted'⟩ := hholds.step hsorted hstep
          obtain ⟨written'', pending'', hsplit', hdone⟩ := ih hnext hsorted' hloop
          refine ⟨written'', pending'', ?_, hdone⟩
          rw [hsplit', hsplit, List.append_assoc, List.singleton_append]
      next => cases hloop

theorem advanced_loop (config : Config) (targetSstSize targetLevel : ℕ)
    {state : GenState} (hadvanced : Advanced engine state.engine) (rest : List Entry) :
    Advanced engine
      (genEngine (Cursor.foldLookahead (genStep config targetSstSize targetLevel) rest
        state)) := by
  induction rest generalizing state with
  | nil => exact hadvanced
  | cons entry rest ih =>
      have hstep := advanced_genStep config targetSstSize targetLevel hadvanced entry
        rest.head?
      rw [Cursor.foldLookahead]
      split
      next following hround =>
          rw [hround] at hstep
          exact ih hstep
      next failure hround =>
          rw [hround] at hstep
          exact hstep

/-- The files that were written from a run of records. -/
structure Generated (engine engine' : Engine) (newSsts : List SST) (records : List Entry) :
    Prop where
  records_eq : newSsts.flatMap SST.records = records
  wellFormed : ∀ sst ∈ newSsts, sst.WellFormed
  separated : (newSsts.map SST.records).Pairwise KeysBefore
  ids : newSsts.map SST.sstId = List.range' engine.nextSstId newSsts.length
  nextSstId : engine'.nextSstId = engine.nextSstId + newSsts.length

theorem GenHolds.generated {state : GenState} {records : List Entry}
    (hholds : GenHolds engine state records [] []) :
    Generated engine state.engine state.newSsts records where
  records_eq := hholds.records
  wellFormed := hholds.wellFormed
  separated := hholds.separated
  ids := hholds.ids
  nextSstId := hholds.nextSstId

theorem genHolds_start (config : Config) (engine : Engine) (entries : List Entry) :
    GenHolds engine ⟨engine, [], SSTBuilder.new config, false⟩ [] [] entries where
  records := rfl
  wellFormed := by simp
  separated := List.Pairwise.nil
  before := fun first hfirst => absurd hfirst List.not_mem_nil
  builder := SSTBuilder.holds_new config
  hasPending := by simp
  ids := rfl
  nextSstId := rfl
  advanced := Advanced.refl engine

/-- `gen_sst_from_iter` only gives out file ids, also when it throws. -/
theorem advanced_genSstFromIter {ι : Type} [Cursor ι Entry] (config : Config) (engine : Engine)
    (iter : ι) (targetSstSize targetLevel : ℕ) :
    Advanced engine (genSstFromIter config engine iter targetSstSize targetLevel).1 := by
  have hadvanced := advanced_loop config targetSstSize targetLevel
    (genHolds_start config engine (Cursor.toList iter)).advanced (Cursor.toList iter)
  simp only [genSstFromIter, Cursor.forEach_eq_foldLookahead]
  cases hloop : Cursor.foldLookahead (genStep config targetSstSize targetLevel)
      (Cursor.toList iter) ⟨engine, [], SSTBuilder.new config, false⟩ with
  | error failure =>
      rw [hloop] at hadvanced
      exact hadvanced
  | ok state =>
      rw [hloop] at hadvanced
      dsimp only
      split_ifs with hpending
      · have hlast := advanced_emit config targetLevel hadvanced
        split
        next failure hemit =>
            rw [hemit] at hlast
            exact hlast
        next finished hemit =>
            rw [hemit] at hlast
            exact hlast
      · exact hadvanced

/-- When `gen_sst_from_iter` does not throw, it writes the records of the iterator. -/
theorem genSstFromIter_cases {ι : Type} [Cursor ι Entry] (config : Config) (engine : Engine)
    (iter : ι) (targetSstSize targetLevel : ℕ)
    (hsorted : Versions.Sorted (Cursor.toList iter)) :
    let outcome := genSstFromIter config engine iter targetSstSize targetLevel
    Advanced engine outcome.1 ∧ ∀ newSsts, outcome.2 = .ok newSsts →
      Generated engine outcome.1 newSsts (Cursor.toList iter) := by
  have hstart := genHolds_start config engine (Cursor.toList iter)
  refine ⟨advanced_genSstFromIter config engine iter targetSstSize targetLevel, ?_⟩
  simp only [genSstFromIter, Cursor.forEach_eq_foldLookahead]
  cases hloop : Cursor.foldLookahead (genStep config targetSstSize targetLevel)
      (Cursor.toList iter) ⟨engine, [], SSTBuilder.new config, false⟩ with
  | error failure => exact fun newSsts hok => by cases hok
  | ok state =>
      obtain ⟨written, pending, hsplit, hdone⟩ :=
        hstart.loop (by rwa [List.nil_append]) hloop
      rw [List.nil_append, List.nil_append] at hsplit
      dsimp only
      split_ifs with hpending
      · split
        next failure hemit => exact fun newSsts hok => by cases hok
        next finished hemit =>
            rintro newSsts hok
            obtain rfl := Except.ok.inj hok
            have hfinished := hdone.emit (fun _ _ _ hmem => by cases hmem) hemit
            rw [hsplit] at hfinished
            exact hfinished.generated
      · rintro newSsts hok
        obtain rfl := Except.ok.inj hok
        have hnil : pending = [] := by
          by_contra hne
          exact hpending (hdone.hasPending.mpr hne)
        rw [hnil, List.append_nil] at hsplit
        rw [hnil, hsplit] at hdone
        exact hdone.generated

/-! ## The merged input -/

/-- A level 0 file holds a key and number at most once, since it was flushed from
one memory table. -/
private theorem mergeSstIterator_ranked {ssts : List SST}
    (hdescending : (ssts.map SST.sstId).Pairwise fun left right => left > right)
    (hdistinct : ∀ sst ∈ ssts, NodesOrdered sst.records) :
    (ssts.flatMap fun sst => sst.records.map fun entry =>
        (⟨entry, sst.sstId, 0⟩ : SearchItem)).Pairwise fun left right =>
      left.entry.key = right.entry.key → left.entry.txid = right.entry.txid →
        right.idx < left.idx := by
  refine ranked_flatMap SST.sstId ?_ (List.pairwise_map.mp hdescending) ?_
  · intro sst item hmem
    obtain ⟨entry, -, rfl⟩ := List.mem_map.mp hmem
    rfl
  · intro sst hmem
    exact List.pairwise_map.mpr (hdistinct sst hmem).distinct

theorem toList_begin_all {sst : SST} (hsst : sst.WellFormed) :
    Cursor.toList (SstIterator.begin sst 0 true skipNothing) = sst.records := by
  rw [hsst.toList_begin]
  exact Versions.shown_all _

theorem toList_concact_all {ssts : List SST} (hssts : ∀ sst ∈ ssts, sst.WellFormed)
    (hseparated : (ssts.map SST.records).Pairwise KeysBefore) :
    Cursor.toList (ConcactIterator.new ssts 0 true skipNothing) =
      ssts.flatMap SST.records := by
  rw [ConcactIterator.toList_new hssts hseparated]
  exact Versions.shown_all _

/-- Files in key order form one sorted run. -/
theorem sorted_flatMap {ssts : List SST} (hssts : ∀ sst ∈ ssts, sst.WellFormed)
    (hseparated : (ssts.map SST.records).Pairwise KeysBefore) :
    Versions.Sorted (ssts.flatMap SST.records) := by
  induction ssts with
  | nil => exact List.Pairwise.nil
  | cons sst rest ih =>
      rw [List.map_cons, List.pairwise_cons] at hseparated
      rw [List.flatMap_cons]
      refine (hssts sst List.mem_cons_self).sorted.append
        (ih (fun other hmem => hssts other (List.mem_cons_of_mem _ hmem)) hseparated.2) ?_
      intro first hfirst second hsecond
      obtain ⟨other, hother, hsecond⟩ := List.mem_flatMap.mp hsecond
      exact hseparated.1 other.records (List.mem_map_of_mem hother) first hfirst second hsecond

/-- The queue over level 0 yields its records, those of newer files first. -/
theorem toList_mergeSstIterator {ssts : List SST} (hssts : ∀ sst ∈ ssts, sst.WellFormed)
    (hdescending : (ssts.map SST.sstId).Pairwise fun left right => left > right)
    (hdistinct : ∀ sst ∈ ssts, NodesOrdered sst.records) :
    let merged := Cursor.toList (mergeSstIterator
      (ssts.map fun sst => SstIterator.begin sst 0 true skipNothing) true)
    Versions.Sorted merged ∧ Versions.SameVersions merged (ssts.flatMap SST.records) := by
  have hitems : ((ssts.map fun sst => SstIterator.begin sst 0 true skipNothing).flatMap
      fun iter => (Cursor.toList iter).map fun entry =>
        (⟨entry, iter.sst.sstId, 0⟩ : SearchItem)) =
      ssts.flatMap fun sst => sst.records.map fun entry => ⟨entry, sst.sstId, 0⟩ := by
    rw [List.flatMap_map]
    refine List.flatMap_congr fun sst hmem => ?_
    rw [toList_begin_all (hssts sst hmem)]
    rfl
  have hentries : (ssts.flatMap fun sst => sst.records.map fun entry =>
      (⟨entry, sst.sstId, 0⟩ : SearchItem)).map SearchItem.entry =
      ssts.flatMap SST.records := by
    rw [List.map_flatMap]
    refine List.flatMap_congr fun sst _ => ?_
    rw [List.map_map]
    exact List.map_id _
  dsimp only
  unfold mergeSstIterator
  split_ifs with hempty
  · have hnil : ssts = [] := by simpa using hempty
    subst hnil
    exact ⟨List.Pairwise.nil, Versions.SameVersions.refl _⟩
  · rw [hitems, HeapIterator.toList_keepAll]
    refine ⟨sorted_heapOf _, ?_⟩
    have hsame := heapOf_sameVersions (mergeSstIterator_ranked hdescending hdistinct)
    rwa [hentries] at hsame

/-- Merging two sorted iterators with all versions. -/
theorem toList_twoMerge_all {ι ι' : Type} [Cursor ι Entry] [Cursor ι' Entry] {itA : ι}
    {itB : ι'} (hA : Versions.Sorted (Cursor.toList itA))
    (hB : Versions.Sorted (Cursor.toList itB)) :
    let merged := Cursor.toList (TwoMergeIterator.new itA itB 0 true)
    Versions.Sorted merged ∧
      Versions.SameVersions merged (Cursor.toList itA ++ Cursor.toList itB) := by
  dsimp only
  rw [TwoMergeIterator.toList_new hA hB, Versions.shown_all]
  exact ⟨hA.merge hB, Versions.merge_sameVersions hA hB⟩

end Engine

end KopiDb
