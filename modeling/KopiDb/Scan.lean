import KopiDb.EngineContract
import KopiDb.LevelIterator
import KopiDb.SstRange

/-!
# Scans

`begin` walks over all sources with a level iterator; a range query collects the
records of a monotone predicate from every source into one queue.  Both show exactly
the keys for which a point read finds a value, in ascending order.
-/

namespace KopiDb

/-- A transaction manager under which every read skips the same numbers. -/
def policyOf (skip : ℕ → Bool) : ReadPolicy where
  isAborted := skip
  shouldSkipRead := fun id _ => skip id

namespace Engine

/-- A batch read is point reads one after the other. -/
theorem getBatch_eq_mapM (engine : Engine) (man : ReadPolicy) (keys : List Bytes)
    (trancId : ℕ) (requireCommitted : Bool) :
    engine.getBatch (some man) keys trancId = keys.mapM fun key =>
      (engine.get (some (policyOf man.isAborted)) key trancId requireCommitted).map fun found =>
        (key, found) := by
  rw [getBatch_some, MemTable.getBatch]
  induction keys with
  | nil => rfl
  | cons key rest ih =>
      rw [List.map_cons, resolveBatch_cons, List.mapM_cons, ih]
      have hget : engine.get (some (policyOf man.isAborted)) key trancId requireCommitted =
          (engine.sstGet_ key trancId man.isAborted).map (resolve
            (MemTable.copied (engine.memtable.get_ key trancId man.isAborted))) := by
        rw [get_some]
        dsimp only [policyOf]
        cases engine.sstGet_ key trancId man.isAborted <;> rfl
      rw [hget]
      generalize (rest.mapM fun key => (engine.get (some (policyOf man.isAborted)) key trancId
        requireCommitted).map fun found => (key, found)) = results
      cases engine.sstGet_ key trancId man.isAborted with
      | error err => rfl
      | ok sstRet => cases results <;> rfl

/-! ## The two scans -/

/-- The constructor of `Level_Iterator`. -/
def levelIterator (engine : Engine) (trancId : ℕ) (isAborted : ℕ → Bool) :
    Except Err LevelIterator :=
  match (engine.level 0).mapM engine.sstAt,
    (engine.levelSstIds.drop 1).mapM fun ids => ids.mapM engine.sstOf with
  | .ok l0Ssts, .ok deeper =>
      let memIter := engine.memtable.begin trancId false isAborted
      let l0Iters := l0Ssts.map fun sst => SstIterator.begin sst trancId false isAborted
      let l0Begin := mergeSstIterator l0Iters false
      .ok (LevelIterator.start (.heap memIter :: .heap l0Begin ::
        deeper.map fun ssts => .concact (ConcactIterator.new ssts trancId false isAborted)))
  | .error err, _ => .error err
  | .ok _, .error err => .error err

/-- `LSMEngine::begin` -/
def begin (engine : Engine) (man : Option ReadPolicy) (trancId : ℕ) :
    Except Err LevelIterator :=
  match man with
  | none =>
      .error (.runtimeError "LSMEngine::begin: transaction manager is unavailable")
  | some man => engine.levelIterator trancId man.isAborted

/-- The predicate that a range query uses: commit markers are to the left of every
range. -/
def wrapPredicate (userPredicate : Bytes → ℤ) (key : Bytes) : ℤ :=
  if key = [] then 1 else userPredicate key

/-- The loop of a range query over the memory tables. -/
def collectMemory (predicate : Bytes → ℤ) (priority : ℕ) : List Entry → List SearchItem
  | [] => []
  | entry :: rest =>
      if predicate entry.key < 0 then []
      else if predicate entry.key > 0 then collectMemory predicate priority rest
      else ⟨entry, priority, 0⟩ :: collectMemory predicate priority rest

/-- The loop of a range query over the files, given as pairs of id and level.  The
priority falls from file to file. -/
def collectFiles (engine : Engine) (trancId : ℕ) (predicate : Bytes → ℤ)
    (isAborted : ℕ → Bool) (sameBlock : SstIterator → Bool) :
    List (ℕ × ℕ) → ℕ → Except Err (List SearchItem)
  | [], _ => .ok []
  | (id, level) :: rest, priority =>
      match engine.sstAt id with
      | .error err => .error err
      | .ok sst =>
          let found := SstIterator.collectRange sst trancId predicate isAborted sameBlock
          match collectFiles engine trancId predicate isAborted sameBlock rest
              (priority - 1) with
          | .error err => .error err
          | .ok items =>
              .ok ((found.map fun entry => ⟨entry, priority - 1, level⟩) ++ items)

/-- The files of all levels, from level 0 on, with their levels. -/
def leveledIds (engine : Engine) : List (ℕ × ℕ) :=
  engine.levelSstIds.zipIdx.flatMap fun leveled =>
    leveled.1.map fun id => (id, leveled.2)

/-- `lsm_iters_monotony_predicate`; the second iterator of the pair is the end.
`sameBlock` tells for a place in a file whether its block object is still shared. -/
def lsmItersMonotonyPredicate (engine : Engine) (man : Option ReadPolicy) (trancId : ℕ)
    (userPredicate : Bytes → ℤ) (sameBlock : SstIterator → Bool) :
    Except Err (Option (TwoMergeIterator HeapIterator HeapIterator)) :=
  match man with
  | none =>
      .error (.runtimeError ("LSMEngine::lsm_iters_monotony_predicate: " ++
        "transaction manager is unavailable"))
  | some man =>
      let predicate := wrapPredicate userPredicate
      let priority := engine.ssts.size
      let memItems := collectMemory predicate priority
        (Cursor.toList (engine.memtable.begin trancId false man.isAborted))
      match collectFiles engine trancId predicate man.isAborted sameBlock engine.leveledIds
          priority with
      | .error err => .error err
      | .ok fileItems =>
          let results := HeapIterator.ofItems (memItems ++ fileItems) trancId true false
          if !results.isValid then .ok none
          else
            .ok (some (TwoMergeIterator.new results (HeapIterator.empty true false) trancId
              false))

/-! ## The full scan -/

variable {engine : Engine} (trancId : ℕ) (isAborted : ℕ → Bool)

/-- Records that are shown without repeated keys are distinct items of a queue. -/
private theorem distinct_of_strictKeys {entries : List Entry} (hstrict : Versions.StrictKeys entries)
    (idx level : ℕ) :
    (entries.map fun entry => (⟨entry, idx, level⟩ : SearchItem)).Pairwise fun left right =>
      ¬(left.entry.key = right.entry.key ∧ left.entry.txid = right.entry.txid) :=
  List.pairwise_map.mpr (hstrict.imp fun hlt hsame => hlt.ne hsame.1)

private theorem map_entry (entries : List Entry) (idx level : ℕ) :
    (entries.map fun entry => (⟨entry, idx, level⟩ : SearchItem)).map SearchItem.entry =
      entries := by
  rw [List.map_map]
  exact List.map_id _

private theorem visible_zero {bound : ℕ} {skip : ℕ → Bool} (txid : ℕ)
    (_ : Versions.visible bound skip txid) : Versions.visible 0 (fun _ => false) txid := by
  simp [Versions.visible]

/-- The queue over level 0 shows of every key the newest visible version in its files. -/
private theorem toList_l0 {ssts : List SST} (hssts : ∀ sst ∈ ssts, sst.WellFormed)
    (hdescending : (ssts.map SST.sstId).Pairwise fun left right => left > right) :
    let shown := Cursor.toList (mergeSstIterator
      (ssts.map fun sst => SstIterator.begin sst trancId false isAborted) false)
    Versions.StrictKeys shown ∧ ∀ key,
      Versions.read shown key 0 (fun _ => false) =
        Versions.read (ssts.flatMap SST.records) key trancId isAborted := by
  dsimp only
  unfold mergeSstIterator
  split_ifs with hempty
  · have hnil : ssts = [] := by simpa using hempty
    subst hnil
    exact ⟨List.Pairwise.nil, fun key => rfl⟩
  · have hitems : ((ssts.map fun sst => SstIterator.begin sst trancId false isAborted).flatMap
        fun iter => (Cursor.toList iter).map fun entry =>
          (⟨entry, iter.sst.sstId, 0⟩ : SearchItem)) =
        ssts.flatMap fun sst => (Versions.shown trancId isAborted false sst.records).map
          fun entry => ⟨entry, sst.sstId, 0⟩ := by
      rw [List.flatMap_map]
      refine List.flatMap_congr fun sst hmem => ?_
      rw [(hssts sst hmem).toList_begin]
      rfl
    have hranked : (ssts.flatMap fun sst =>
        (Versions.shown trancId isAborted false sst.records).map fun entry =>
          (⟨entry, sst.sstId, 0⟩ : SearchItem)).Pairwise fun left right =>
        left.entry.key = right.entry.key → left.entry.txid = right.entry.txid →
          right.idx < left.idx := by
      refine ranked_flatMap SST.sstId ?_ (List.pairwise_map.mp hdescending) ?_
      · intro sst item hmem
        obtain ⟨entry, -, rfl⟩ := List.mem_map.mp hmem
        rfl
      · intro sst hmem
        exact distinct_of_strictKeys
          ((hssts sst hmem).sorted.shown_strictKeys trancId isAborted) _ _
    rw [hitems, HeapIterator.toList_newest]
    refine ⟨HeapIterator.strictKeys_render 0 false _, fun key => ?_⟩
    rw [(HeapIterator.strictKeys_render 0 false _).read_eq_find? fun entry _ => by
        simp [Versions.visible],
      HeapIterator.find?_render, Versions.read_congr ((heapOf_sameVersions hranked).latestAgree key),
      List.map_flatMap]
    have hread : ∀ sst ∈ ssts, Versions.read
        (((Versions.shown trancId isAborted false sst.records).map fun entry =>
          (⟨entry, sst.sstId, 0⟩ : SearchItem)).map SearchItem.entry) key 0 (fun _ => false) =
        Versions.read sst.records key trancId isAborted := by
      intro sst hmem
      have hvisible : ∀ txid, Versions.visible trancId isAborted txid →
          Versions.visible 0 (fun _ => false) txid := fun txid => visible_zero txid
      have hshown := (hssts sst hmem).sorted.read_shown hvisible (fun _ => true) key
      rw [map_entry]
      simpa using hshown
    rw [Versions.read_flatMap_congr hread]
    cases Versions.read (ssts.flatMap SST.records) key trancId isAborted <;> rfl

private theorem toList_memory (mem : MemTable) :
    let shown := Cursor.toList (mem.begin trancId false isAborted)
    Versions.StrictKeys shown ∧ ∀ key, key ≠ [] →
      Versions.read shown key 0 (fun _ => false) =
        Versions.read mem.records key trancId isAborted := by
  have hstrict := mem.strictKeys_begin trancId false isAborted
  refine ⟨hstrict, fun key hkey => ?_⟩
  rw [hstrict.read_eq_find? fun entry _ => by simp [Versions.visible], mem.find?_begin hkey]
  cases Versions.read mem.records key trancId isAborted <;> rfl

/-- The deeper levels, each as one chain of files. -/
private theorem toList_deeper (hinv : LevelInvariant engine) :
    ∀ ids ∈ engine.levelSstIds.drop 1,
      let shown := Cursor.toList
        (ConcactIterator.new (engine.sstsOf ids) trancId false isAborted)
      Versions.StrictKeys shown ∧ ∀ key,
        Versions.read shown key 0 (fun _ => false) =
          Versions.read (engine.recordsOf ids) key trancId isAborted := by
  intro ids hmem
  obtain ⟨idx, hidx, hget⟩ := List.mem_iff_getElem.mp hmem
  have hids : engine.level (idx + 1) = ids := by
    have hat : engine.levelSstIds[idx + 1]? = some ids := by
      rw [Nat.add_comm, ← List.getElem?_drop, List.getElem?_eq_getElem hidx, hget]
    rw [Engine.level, List.getD_eq_getElem?_getD, hat, Option.getD_some]
  have hseparated := hinv.separated (idx + 1) (Nat.succ_ne_zero idx)
  rw [hids] at hseparated
  have hssts : ∀ sst ∈ engine.sstsOf ids, sst.WellFormed :=
    fun sst hmem => hinv.wellFormed_of_mem hmem
  have hsorted := sorted_flatMap hssts hseparated
  have hvisible : ∀ txid, Versions.visible trancId isAborted txid →
      Versions.visible 0 (fun _ => false) txid := fun txid => visible_zero txid
  dsimp only
  rw [ConcactIterator.toList_new hssts hseparated]
  refine ⟨hsorted.shown_strictKeys trancId isAborted, fun key => ?_⟩
  have hshown := hsorted.read_shown hvisible (fun _ => true) key
  simpa [recordsOf] using hshown

/-- The full scan shows what point reads see. -/
theorem levelIterator_spec (hinv : LevelInvariant engine) :
    ∃ it, engine.levelIterator trancId isAborted = .ok it ∧
      Versions.StrictKeys (Cursor.toList it) ∧
      (∀ entry ∈ Cursor.toList it, entry.key ≠ [] ∧ entry.value ≠ []) ∧
      ∀ key, key ≠ [] → (Cursor.toList it).find? (fun entry => entry.key = key) =
        (Versions.read engine.records key trancId isAborted).filter fun entry =>
          decide (entry.value ≠ []) := by
  have hl0Mem : ∀ id ∈ engine.level 0, id ∈ engine.levelSstIds.flatten :=
    fun id hmem => mem_level_flatten hmem
  have hdeeperMem : ∀ ids ∈ engine.levelSstIds.drop 1, ∀ id ∈ ids,
      id ∈ engine.levelSstIds.flatten := fun ids hids id hmem =>
    List.mem_flatten.mpr ⟨ids, List.mem_of_mem_drop hids, hmem⟩
  have hdeeper : ∀ levels : List (List ℕ), (∀ ids ∈ levels, ∀ id ∈ ids,
      id ∈ engine.levelSstIds.flatten) →
      (levels.mapM fun ids => ids.mapM engine.sstOf) = .ok (levels.map engine.sstsOf) := by
    intro levels hlevels
    induction levels with
    | nil => rfl
    | cons ids rest ih =>
        rw [List.mapM_cons, hinv.mapM_sstOf (hlevels ids List.mem_cons_self),
          ih fun other hmem => hlevels other (List.mem_cons_of_mem _ hmem)]
        rfl
  have hids := hinv.sstsOf_map_sstId hl0Mem
  obtain ⟨hmemStrict, hmemRead⟩ := toList_memory trancId isAborted engine.memtable
  have hl0Ssts : ∀ sst ∈ engine.sstsOf (engine.level 0), sst.WellFormed :=
    fun sst hmem => hinv.wellFormed_of_mem hmem
  obtain ⟨hl0Strict, hl0Read⟩ := toList_l0 trancId isAborted hl0Ssts
    (by rw [hids]; exact hinv.descending)
  have hlevels := toList_deeper trancId isAborted hinv
  rw [levelIterator, hinv.mapM_sstAt hl0Mem, hdeeper _ hdeeperMem]
  refine ⟨_, rfl, ?_⟩
  have hruns : LevelIterator.runs (.heap (engine.memtable.begin trancId false isAborted) ::
      .heap (mergeSstIterator ((engine.sstsOf (engine.level 0)).map fun sst =>
        SstIterator.begin sst trancId false isAborted) false) ::
      ((engine.levelSstIds.drop 1).map engine.sstsOf).map fun ssts =>
        LevelSource.concact (ConcactIterator.new ssts trancId false isAborted)) =
      Cursor.toList (engine.memtable.begin trancId false isAborted) ::
        Cursor.toList (mergeSstIterator ((engine.sstsOf (engine.level 0)).map fun sst =>
          SstIterator.begin sst trancId false isAborted) false) ::
        (engine.levelSstIds.drop 1).map fun ids => Cursor.toList
          (ConcactIterator.new (engine.sstsOf ids) trancId false isAborted) := by
    rw [LevelIterator.runs, List.map_cons, List.map_cons, LevelSource.toList_heap,
      LevelSource.toList_heap, List.map_map, List.map_map]
    congr 2
    apply List.map_congr_left
    intro ids _
    exact LevelSource.toList_concact _
  have hstrict : ∀ run ∈ LevelIterator.runs
      (.heap (engine.memtable.begin trancId false isAborted) ::
        .heap (mergeSstIterator ((engine.sstsOf (engine.level 0)).map fun sst =>
          SstIterator.begin sst trancId false isAborted) false) ::
        ((engine.levelSstIds.drop 1).map engine.sstsOf).map fun ssts =>
          LevelSource.concact (ConcactIterator.new ssts trancId false isAborted)),
      Versions.StrictKeys run := by
    rw [hruns]
    intro run hrun
    rcases List.mem_cons.mp hrun with rfl | hrun
    · exact hmemStrict
    rcases List.mem_cons.mp hrun with rfl | hrun
    · exact hl0Strict
    obtain ⟨ids, hids, rfl⟩ := List.mem_map.mp hrun
    exact (hlevels ids hids).1
  obtain ⟨hkeys, hlive, hfind⟩ := LevelIterator.toList_start hstrict
  refine ⟨hkeys, hlive, fun key hkey => ?_⟩
  rw [hfind key hkey, hruns, List.flatten_cons, List.flatten_cons, Versions.read_append,
    Versions.read_append, hmemRead key hkey, hl0Read, ← List.flatMap_def,
    Versions.read_flatMap_congr fun ids hids => (hlevels ids hids).2 key,
    ← Versions.read_append, ← Versions.read_append]
  rw [records, fileRecords_drop]
  rfl

/-! ## The range query -/

/-- A key predicate that is positive to the left of a range of user keys, zero in the
range and negative to its right. -/
structure MonotoneOnKeys (userPredicate : Bytes → ℤ) : Prop where
  neg_of_le : ∀ {left right}, left ≠ [] → left ≤ right → userPredicate left < 0 →
    userPredicate right < 0
  pos_of_le : ∀ {left right}, left ≠ [] → left ≤ right → 0 < userPredicate right →
    0 < userPredicate left

theorem MonotoneOnKeys.wrapPredicate {userPredicate : Bytes → ℤ}
    (hmono : MonotoneOnKeys userPredicate) : MonotonePredicate (wrapPredicate userPredicate) where
  neg_of_le := by
    intro left right hle hneg
    unfold Engine.wrapPredicate at hneg ⊢
    split_ifs at hneg with hleft
    · omega
    · have hright : right ≠ [] := ((nil_lt_of_ne_nil hleft).trans_le hle).ne'
      rw [if_neg hright]
      exact hmono.neg_of_le hleft hle hneg
  pos_of_le := by
    intro left right hle hpos
    unfold Engine.wrapPredicate at hpos ⊢
    split_ifs with hleft
    · exact Int.one_pos
    · have hright : right ≠ [] := ((nil_lt_of_ne_nil hleft).trans_le hle).ne'
      rw [if_neg hright] at hpos
      exact hmono.pos_of_le hleft hle hpos

section Range

variable {predicate : Bytes → ℤ} (sameBlock : SstIterator → Bool)

private theorem collectMemory_eq (hmono : MonotonePredicate predicate) (priority : ℕ)
    {entries : List Entry} (hstrict : Versions.StrictKeys entries) :
    collectMemory predicate priority entries =
      (entries.filter fun entry => decide (predicate entry.key = 0)).map
        fun entry => ⟨entry, priority, 0⟩ := by
  induction entries with
  | nil => rfl
  | cons entry rest ih =>
      have hcons := List.pairwise_cons.mp hstrict
      rw [collectMemory]
      split_ifs with hneg hpos
      · have hnil : ((entry :: rest).filter fun entry => decide (predicate entry.key = 0)) =
            [] := by
          rw [List.filter_eq_nil_iff]
          intro other hmem
          have hother : predicate other.key < 0 := by
            rcases List.mem_cons.mp hmem with rfl | hmem
            · exact hneg
            · exact hmono.neg_of_le (hcons.1 other hmem).le hneg
          simpa using hother.ne
        rw [hnil]
        rfl
      · rw [ih hcons.2, List.filter_cons_of_neg (by simpa using hpos.ne')]
      · have hzero : predicate entry.key = 0 := by omega
        rw [ih hcons.2, List.filter_cons_of_pos (by simpa using hzero), List.map_cons]

/-- What a range query takes from one file. -/
private def slice (trancId : ℕ) (isAborted : ℕ → Bool) (predicate : Bytes → ℤ) (sst : SST) :
    List Entry :=
  (Versions.shown trancId isAborted false sst.records).filter fun entry =>
    decide (predicate entry.key = 0)

/-- The files are collected in their order, with a falling priority. -/
private theorem collectFiles_spec (hinv : LevelInvariant engine)
    (hmono : MonotonePredicate predicate) (hempty : 0 < predicate [])
    {leveled : List (ℕ × ℕ)} (hmem : ∀ pair ∈ leveled, pair.1 ∈ engine.levelSstIds.flatten)
    {priority : ℕ} (hpriority : leveled.length ≤ priority) :
    ∃ items, engine.collectFiles trancId predicate isAborted sameBlock leveled priority =
        .ok items ∧
      items.map SearchItem.entry =
        (engine.sstsOf (leveled.map Prod.fst)).flatMap (slice trancId isAborted predicate) ∧
      (∀ item ∈ items, item.idx < priority) ∧
      items.Pairwise fun left right =>
        left.entry.key = right.entry.key → left.entry.txid = right.entry.txid →
          right.idx < left.idx := by
  induction leveled generalizing priority with
  | nil => exact ⟨[], rfl, rfl, by simp, List.Pairwise.nil⟩
  | cons pair rest ih =>
      obtain ⟨id, level⟩ := pair
      rw [List.length_cons] at hpriority
      obtain ⟨sst, hfind⟩ := hinv.find?_isSome (hmem (id, level) List.mem_cons_self)
      have hsst := hinv.wellFormed id sst hfind
      obtain ⟨items, hrest, hentries, hidx, hranked⟩ :=
        ih (fun other hother => hmem other (List.mem_cons_of_mem _ hother))
          (Nat.le_sub_one_of_lt hpriority)
      have hslice := SstIterator.collectRange_eq hsst hmono hempty trancId isAborted sameBlock
      have hssts : engine.sstsOf (((id, level) :: rest).map Prod.fst) =
          sst :: engine.sstsOf (rest.map Prod.fst) := List.filterMap_cons_some hfind
      have hat : engine.sstAt id = .ok sst := by rw [sstAt, hfind]
      refine ⟨_, by simp only [collectFiles, hat, hrest]; rfl, ?_, ?_, ?_⟩
      · rw [List.map_append, map_entry, hentries, hssts, List.flatMap_cons, hslice]
        rfl
      · intro item hitem
        rcases List.mem_append.mp hitem with hitem | hitem
        · obtain ⟨entry, -, rfl⟩ := List.mem_map.mp hitem
          exact Nat.sub_one_lt_of_lt hpriority
        · exact (hidx item hitem).trans_le (Nat.sub_le _ _)
      · refine List.pairwise_append.mpr ⟨?_, hranked, ?_⟩
        · have hstrict : Versions.StrictKeys
              (SstIterator.collectRange sst trancId predicate isAborted sameBlock) := by
            rw [hslice]
            exact (hsst.sorted.shown_strictKeys trancId isAborted).filter _
          exact (distinct_of_strictKeys hstrict _ _).imp fun {left right} hne hkey htxid =>
            absurd ⟨hkey, htxid⟩ hne
        · intro left hleft right hright _ _
          obtain ⟨entry, -, rfl⟩ := List.mem_map.mp hleft
          exact hidx right hright

private theorem leveledIds_fst (engine : Engine) :
    engine.leveledIds.map Prod.fst = engine.levelSstIds.flatten := by
  have hzip : ∀ (levels : List (List ℕ)) (first : ℕ),
      ((levels.zipIdx first).flatMap fun leveled : List ℕ × ℕ =>
        leveled.1.map fun id => (id, leveled.2)).map Prod.fst = levels.flatten := by
    intro levels
    induction levels with
    | nil => exact fun first => rfl
    | cons ids rest ih =>
        intro first
        rw [List.zipIdx_cons, List.flatMap_cons, List.map_append, ih, List.flatten_cons,
          List.map_map]
        congr 1
        exact List.map_id _
  exact hzip engine.levelSstIds 0

/-- There is a priority for every file. -/
private theorem length_leveledIds (hinv : LevelInvariant engine) :
    engine.leveledIds.length = engine.ssts.size := by
  have hlength := congrArg List.length (leveledIds_fst engine)
  rw [List.length_map, ← hinv.keys_perm.length_eq] at hlength
  rw [hlength, OrdMap.keys, List.length_map]
  rfl

/-- Every item of the queue of a range query. -/
private theorem collected_spec (hinv : LevelInvariant engine)
    (hmono : MonotonePredicate predicate) (hempty : 0 < predicate []) :
    ∃ fileItems, engine.collectFiles trancId predicate isAborted sameBlock engine.leveledIds
        engine.ssts.size = .ok fileItems ∧
      let items := collectMemory predicate engine.ssts.size
        (Cursor.toList (engine.memtable.begin trancId false isAborted)) ++ fileItems
      (∀ entry ∈ items.map SearchItem.entry, predicate entry.key = 0) ∧
      ∀ key, predicate key = 0 →
        Versions.read ((heapOf items).map SearchItem.entry) key trancId (fun _ => false) =
          Versions.read engine.records key trancId isAborted := by
  have hmem : ∀ pair ∈ engine.leveledIds, pair.1 ∈ engine.levelSstIds.flatten := by
    intro pair hpair
    rw [← leveledIds_fst]
    exact List.mem_map_of_mem hpair
  obtain ⟨fileItems, hrun, hentries, hidx, hranked⟩ := collectFiles_spec trancId isAborted
    sameBlock hinv hmono hempty hmem (length_leveledIds hinv).le
  have hstrict := engine.memtable.strictKeys_begin trancId false isAborted
  have hmemory := collectMemory_eq hmono engine.ssts.size hstrict
  refine ⟨fileItems, hrun, ?_, ?_⟩
  · intro entry hentry
    rw [List.map_append, hmemory, map_entry, hentries] at hentry
    rcases List.mem_append.mp hentry with hentry | hentry
    · simpa using List.of_mem_filter hentry
    · obtain ⟨sst, -, hentry⟩ := List.mem_flatMap.mp hentry
      simpa using List.of_mem_filter hentry
  · intro key hkey
    have hne : key ≠ [] := by
      rintro rfl
      omega
    have hall : (collectMemory predicate engine.ssts.size
        (Cursor.toList (engine.memtable.begin trancId false isAborted)) ++
          fileItems).Pairwise fun left right =>
        left.entry.key = right.entry.key → left.entry.txid = right.entry.txid →
          right.idx < left.idx := by
      refine List.pairwise_append.mpr ⟨?_, hranked, ?_⟩
      · rw [hmemory]
        exact (distinct_of_strictKeys (hstrict.filter _) _ _).imp
          fun {left right} hne hkey htxid => absurd ⟨hkey, htxid⟩ hne
      · intro left hleft right hright _ _
        rw [hmemory] at hleft
        obtain ⟨entry, -, rfl⟩ := List.mem_map.mp hleft
        exact hidx right hright
    have hbound : ∀ txid, Versions.visible trancId isAborted txid →
        Versions.visible trancId (fun _ => false) txid := by
      intro txid hvisible
      simp only [Versions.visible, Bool.and_eq_true] at hvisible ⊢
      exact ⟨hvisible.1, rfl⟩
    have hfiles : Versions.read ((engine.sstsOf engine.levelSstIds.flatten).flatMap
        (slice trancId isAborted predicate)) key trancId (fun _ => false) =
        Versions.read engine.fileRecords key trancId isAborted := by
      rw [fileRecords_eq, recordsOf]
      apply Versions.read_flatMap_congr
      intro sst hsst
      have hshown := (hinv.wellFormed_of_mem hsst).sorted.read_shown hbound
        (fun key => decide (predicate key = 0)) key
      rw [slice, hshown, if_pos (by simpa using hkey)]
    have hmemoryRead : Versions.read
        ((Cursor.toList (engine.memtable.begin trancId false isAborted)).filter
          fun entry => decide (predicate entry.key = 0)) key trancId (fun _ => false) =
        Versions.read engine.memtable.records key trancId isAborted := by
      have hvisible : ∀ entry ∈ (Cursor.toList
          (engine.memtable.begin trancId false isAborted)).filter
            (fun entry => decide (predicate entry.key = 0)),
          Versions.visible trancId (fun _ => false) entry.txid := fun entry hentry =>
        engine.memtable.visible_of_mem_begin (List.mem_of_mem_filter hentry)
      rw [Versions.StrictKeys.read_eq_find? (hstrict.filter _) hvisible,
        hstrict.find?_filter (fun entry => decide (predicate entry.key = 0)),
        engine.memtable.find?_begin hne]
      cases hread : Versions.read engine.memtable.records key trancId isAborted with
      | none => rfl
      | some found =>
          have hfound := (Versions.read_eq_some hread).2.1
          simp [Option.filter, hfound, hkey]
    rw [Versions.read_congr ((heapOf_sameVersions hall).latestAgree key), List.map_append,
      hmemory, map_entry, hentries, leveledIds_fst, Versions.read_append, hfiles, hmemoryRead,
      ← Versions.read_append]
    rfl

/-- The range query shows what point reads see of the keys in the range. -/
theorem lsmItersMonotonyPredicate_spec {userPredicate : Bytes → ℤ}
    (sameBlock : SstIterator → Bool) (hinv : LevelInvariant engine)
    (hmono : MonotoneOnKeys userPredicate) (man : ReadPolicy) :
    ∃ result entries, engine.lsmItersMonotonyPredicate (some man) trancId userPredicate
        sameBlock = .ok result ∧
      (result = none ↔ entries = []) ∧
      (∀ it, result = some it → Cursor.toList it = entries) ∧
      Versions.StrictKeys entries ∧
      (∀ entry ∈ entries, entry.key ≠ [] ∧ entry.value ≠ [] ∧ userPredicate entry.key = 0) ∧
      ∀ key, key ≠ [] → userPredicate key = 0 →
        entries.find? (fun entry => entry.key = key) =
          (Versions.read engine.records key trancId man.isAborted).filter fun entry =>
            decide (entry.value ≠ []) := by
  have hwrapped := hmono.wrapPredicate
  have hempty : 0 < wrapPredicate userPredicate [] := Int.one_pos
  obtain ⟨fileItems, hrun, hzero, hread⟩ :=
    collected_spec trancId man.isAborted sameBlock hinv hwrapped hempty
  simp only [lsmItersMonotonyPredicate, hrun]
  generalize hitems : collectMemory (wrapPredicate userPredicate) engine.ssts.size
    (Cursor.toList (engine.memtable.begin trancId false man.isAborted)) ++ fileItems = items
    at hzero hread
  have hlist : Cursor.toList (HeapIterator.ofItems items trancId true false) =
      HeapIterator.render trancId true (heapOf items) :=
    HeapIterator.toList_ofItems items trancId true
  have hstrict := HeapIterator.strictKeys_render trancId true items
  have hmerged : Cursor.toList (TwoMergeIterator.new
      (HeapIterator.ofItems items trancId true false) (HeapIterator.empty true false) trancId
        false) = HeapIterator.render trancId true (heapOf items) := by
    have hnil : Cursor.toList (HeapIterator.empty true false) = [] := Cursor.toList_of_none rfl
    rw [TwoMergeIterator.toList_new (by rw [hlist]; exact hstrict.sorted)
      (by rw [hnil]; exact List.Pairwise.nil), hlist, hnil, Versions.merge_nil_right]
    apply hstrict.shown_eq_self
    intro entry hmem
    exact (Versions.mem_shown (List.mem_of_mem_filter hmem)).2
  have hvalid : (HeapIterator.ofItems items trancId true false).isValid = false ↔
      HeapIterator.render trancId true (heapOf items) = [] := by
    rw [← hlist, Cursor.toList_eq_nil_iff, HeapIterator.current?_eq, HeapIterator.isValid]
    cases (HeapIterator.ofItems items trancId true false).items <;> simp
  refine ⟨if !(HeapIterator.ofItems items trancId true false).isValid then none
    else some (TwoMergeIterator.new (HeapIterator.ofItems items trancId true false)
      (HeapIterator.empty true false) trancId false),
    HeapIterator.render trancId true (heapOf items), ?_, ?_, ?_, hstrict, ?_, ?_⟩
  · split_ifs <;> rfl
  · rw [← hvalid]
    cases (HeapIterator.ofItems items trancId true false).isValid <;> simp
  · intro it hit
    split_ifs at hit
    rw [← Option.some.inj hit]
    exact hmerged
  · intro entry hmem
    obtain ⟨hshown, hvalue⟩ := List.mem_filter.mp hmem
    have hitem := ((heapOf_perm items).map SearchItem.entry).subset
      (Versions.mem_shown hshown).1
    have hentry := hzero entry hitem
    unfold wrapPredicate at hentry
    split_ifs at hentry with hkey
    · exact absurd hentry one_ne_zero
    · exact ⟨hkey, by simpa using hvalue, hentry⟩
  · intro key hkey hpredicate
    rw [HeapIterator.find?_render, hread key (by rw [wrapPredicate, if_neg hkey, hpredicate])]
    simp

end Range

/-! ## Scans agree with point reads -/

/-- A loop over the iterator takes the entries one after the other and then ends. -/
def Enumerates {ι : Type} [Cursor ι Entry] (it : ι) (entries : List Entry) : Prop :=
  ∀ steps ≤ entries.length, Cursor.current? (Cursor.next^[steps] it) = entries[steps]?

theorem enumerates_toList {ι : Type} [Cursor ι Entry] (it : ι) :
    Enumerates it (Cursor.toList it) :=
  fun _ hsteps => Cursor.current?_iterate hsteps

end Engine

end KopiDb
