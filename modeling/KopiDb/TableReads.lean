import KopiDb.Reads
import KopiDb.Lib.Throwing

/-!
# Reads that throw

`read_block` throws for the last block of a table that has outgrown 32-bit offsets.  A lookup
or a loop over an iterator that comes to that block throws with it.  On tables that 32-bit
offsets reach, these reads are those of the earlier modules.
-/

namespace KopiDb

/-! ## The reads of one table -/

namespace SstIterator

/-- What a read of a block throws. -/
def blockReads (sst : SST) (_ : BlockMeta × Block) (idx : ℕ) : Except Err Unit :=
  (sst.loadBlock idx).map fun _ => ()

/-- The constructor without a key: `seek_first` reads blocks up to the first one in which
the reader sees a record. -/
def tryBegin (sst : SST) (trancId : ℕ) (keepAllVersions : Bool) (isAborted : ℕ → Bool) :
    Except Err SstIterator := do
  let blocks ← Chain.tryStart (openBlock trancId keepAllVersions isAborted) (blockReads sst)
    sst.blocks
  return ⟨sst, blocks⟩

/-- What `operator++` reads: the blocks that it enters. -/
def nextReads (it : SstIterator) : Except Err Unit :=
  Chain.nextReads (blockReads it.sst) (fun _ => .ok ()) it.blocks

/-- The constructor with a key: `seek` reads the block that the meta entries name. -/
def tryOfKey (sst : SST) (key : Bytes) (trancId : ℕ) (keepAllVersions : Bool)
    (isAborted : ℕ → Bool) : Except Err SstIterator :=
  match sst.findBlockIdx key with
  | none => .ok (ofKey sst key trancId keepAllVersions isAborted)
  | some idx => do
      let _ ← sst.loadBlock idx
      return ofKey sst key trancId keepAllVersions isAborted

end SstIterator

/-- `SST::get` -/
def SST.tryGet (sst : SST) (key : Bytes) (trancId : ℕ) (isAborted : ℕ → Bool) :
    Except Err SstIterator :=
  if key < sst.firstKey ∨ sst.lastKey < key then .ok (SstIterator.finished sst)
  else if sst.bloomExcludes key then .ok (SstIterator.finished sst)
  else SstIterator.tryOfKey sst key trancId false isAborted

/-- A loop over the iterator of a constructor takes the entries, one step after each, and
ends without an exception. -/
def LoopYields {ι : Type} [Cursor ι Entry] (constructed : Except Err ι)
    (reads : ι → Except Err Unit) (entries : List Entry) : Prop :=
  ∃ it, constructed = .ok it ∧ Cursor.Loop reads it entries

theorem loopYields_iff {ι : Type} [Cursor ι Entry] {constructed : Except Err ι}
    {reads : ι → Except Err Unit} {entries : List Entry} :
    LoopYields constructed reads entries ↔
      constructed >>= Cursor.tryToList reads = .ok entries := by
  unfold LoopYields
  cases constructed with
  | error err =>
      refine iff_of_false ?_ ?_
      · rintro ⟨it, hit, -⟩
        cases hit
      · intro hloop
        cases hloop
  | ok it =>
      constructor
      · rintro ⟨other, hother, hloop⟩
        obtain rfl := Except.ok.inj hother
        exact Cursor.loop_iff.mp hloop
      · exact fun hloop => ⟨it, rfl, Cursor.loop_iff.mpr hloop⟩

namespace SST

variable {sst : SST}

theorem findBlockIdx_lt {key : Bytes} {idx : ℕ} (hfind : sst.findBlockIdx key = some idx) :
    idx < sst.blocks.length := by
  unfold findBlockIdx at hfind
  split_ifs at hfind
  split at hfind
  next mid hhit =>
      obtain rfl := Option.some.inj hfind
      exact (BinarySearch.binarySearch_hit hhit).1
  next left _ =>
      split_ifs at hfind with hleft
      obtain rfl := Option.some.inj hfind
      exact not_le.mp hleft

/-- Every block of a table can be read exactly if 32-bit offsets reach its end. -/
theorem loadBlock_ok_iff (hne : sst.blocks ≠ []) (hshort : sst.BlocksShort) :
    (∀ idx < sst.blocks.length, ∃ block, sst.loadBlock idx = .ok block) ↔ sst.Addressable := by
  constructor
  · intro hall
    by_contra hlarge
    have hpos := List.length_pos_iff.mpr hne
    obtain ⟨block, hload⟩ := hall (sst.blocks.length - 1) (by omega)
    rw [loadBlock_last hlarge (by omega) hshort] at hload
    cases hload
  · exact fun hsst idx hidx => ⟨_, hsst.loadBlock hidx⟩

theorem Addressable.tryGet (hsst : sst.Addressable) (key : Bytes) (trancId : ℕ)
    (isAborted : ℕ → Bool) :
    sst.tryGet key trancId isAborted = .ok (sst.get key trancId isAborted) := by
  unfold SST.tryGet SST.get SstIterator.tryOfKey
  split_ifs
  · rfl
  · rfl
  · cases hfind : sst.findBlockIdx key with
    | none => rfl
    | some idx =>
        dsimp only
        rw [hsst.loadBlock (findBlockIdx_lt hfind)]
        rfl

/-- A table that has outgrown its offsets has a second block, whose keys are not empty. -/
theorem WellFormed.lastKey_ne_nil (hsst : sst.WellFormed) (hshort : sst.BlocksShort)
    (hlarge : ¬sst.Addressable) : sst.lastKey ≠ [] := by
  have hseparated := hsst.separated
  have hnonempty := hsst.blocks_nonempty
  cases hblocks : sst.blocks with
  | nil => exact absurd hblocks hsst.nonempty
  | cons first rest =>
      rw [hblocks] at hseparated hnonempty
      cases rest with
      | nil =>
          refine absurd ?_ hlarge
          rw [Addressable, dataLength, hblocks, List.map_singleton, List.sum_singleton]
          exact hshort first (by rw [hblocks]; exact List.mem_cons_self)
      | cons second rest =>
          have hsecond := List.mem_cons_of_mem first (@List.mem_cons_self _ second rest)
          obtain ⟨front, hfront⟩ :=
            List.exists_mem_of_ne_nil _ (hnonempty first List.mem_cons_self)
          obtain ⟨entry, hentry⟩ := List.exists_mem_of_ne_nil _ (hnonempty second hsecond)
          have hlt : front.key < entry.key := (List.pairwise_cons.mp hseparated).1 _
            (List.mem_map_of_mem List.mem_cons_self) front hfront entry hentry
          have hle : entry.key ≤ sst.lastKey := by
            refine hsst.le_lastKey (List.mem_flatMap.mpr ⟨second, ?_, hentry⟩)
            rw [hblocks]
            exact hsecond
          intro hnil
          rw [hnil] at hle
          exact List.not_lt_nil _ (hlt.trans_le hle)

/-- The last key of a table is looked up in its last block. -/
theorem WellFormed.tryGet_lastKey (hsst : sst.WellFormed) (hshort : sst.BlocksShort)
    (hlarge : ¬sst.Addressable) (trancId : ℕ) (isAborted : ℕ → Bool) :
    sst.tryGet sst.lastKey trancId isAborted =
      .error (.lengthError "cannot create std::vector larger than max_size()") := by
  have hkey := hsst.lastKey_ne_nil hshort hlarge
  have hpos := List.length_pos_iff.mpr hsst.nonempty
  have hlt : sst.blocks.length - 1 < sst.blocks.length := by omega
  obtain ⟨entry, hmem, hlast⟩ : ∃ entry ∈ sst.blocks[sst.blocks.length - 1].2.entries,
      entry.key = sst.lastKey := by
    obtain ⟨entry, hmem, hentry⟩ :=
      finalKey_mem (hsst.blocks_nonempty _ (List.getElem_mem hlt))
    refine ⟨entry, hmem, hentry.trans ?_⟩
    have hsplit : sst.records =
        (sst.blocks.dropLast.flatMap fun block => block.2.entries) ++
          sst.blocks[sst.blocks.length - 1].2.entries := by
      have hblocks := List.dropLast_append_getLast hsst.nonempty
      rw [List.getLast_eq_getElem] at hblocks
      rw [records]
      nth_rewrite 1 [← hblocks]
      rw [List.flatMap_append, List.flatMap_singleton]
    rw [hsst.lastKey_eq, finalKey, finalKey, hsplit,
      List.getLast?_append_of_ne_nil _ (List.ne_nil_of_mem hmem)]
  have hrecord : entry ∈ sst.records :=
    List.mem_flatMap.mpr ⟨_, List.getElem_mem hlt, hmem⟩
  have hfirst : sst.firstKey ≤ sst.lastKey := by
    rw [← hlast]
    exact hsst.firstKey_le hrecord (by rwa [hlast])
  have hbloom : sst.bloomExcludes sst.lastKey = false := by
    rw [← hlast]
    exact hsst.bloom entry hrecord
  have hfind := hsst.findBlockIdx_eq hkey hlt ⟨entry, hmem, hlast⟩
  rw [SST.tryGet, if_neg (not_or.mpr ⟨hfirst.not_gt, lt_irrefl _⟩), hbloom,
    if_neg Bool.false_ne_true, SstIterator.tryOfKey, hfind]
  dsimp only
  rw [loadBlock_last hlarge (by omega) hshort]
  rfl

/-! ### Loops over a table -/

private theorem tryToList_begin (sst : SST) (trancId : ℕ) (keepAllVersions : Bool)
    (isAborted : ℕ → Bool) :
    SstIterator.tryBegin sst trancId keepAllVersions isAborted >>=
        Cursor.tryToList SstIterator.nextReads =
      Chain.visit (SstIterator.openBlock trancId keepAllVersions isAborted)
        (SstIterator.blockReads sst) (fun _ => .ok ()) sst.blocks 0 := by
  have hmap : ∀ blocks, Cursor.tryToList SstIterator.nextReads ⟨sst, blocks⟩ =
      Cursor.tryToList (Chain.nextReads (SstIterator.blockReads sst) fun _ => .ok ()) blocks :=
    Cursor.tryToList_map (fun blocks => (⟨sst, blocks⟩ : SstIterator)) (fun _ => rfl)
      (fun _ => rfl) fun _ => rfl
  rw [← Chain.tryToList_tryStart, SstIterator.tryBegin]
  cases Chain.tryStart (SstIterator.openBlock trancId keepAllVersions isAborted)
      (SstIterator.blockReads sst) sst.blocks with
  | error err => rfl
  | ok blocks => exact hmap blocks

/-- A loop over a table comes to its end exactly if all blocks can be read, and takes what
the reader sees. -/
theorem WellFormed.loopYields_iff (hsst : sst.WellFormed) (hshort : sst.BlocksShort)
    {trancId : ℕ} {keepAllVersions : Bool} {isAborted : ℕ → Bool} {entries : List Entry} :
    LoopYields (SstIterator.tryBegin sst trancId keepAllVersions isAborted)
        SstIterator.nextReads entries ↔
      sst.Addressable ∧
        entries = Versions.shown trancId isAborted keepAllVersions sst.records := by
  have hlist : (sst.blocks.flatMap fun block =>
      Cursor.toList (SstIterator.openBlock trancId keepAllVersions isAborted block)) =
        Versions.shown trancId isAborted keepAllVersions sst.records := by
    rw [← hsst.shown_records]
    exact List.flatMap_congr fun block hmem => hsst.toList_openBlock hmem _ _ _
  have hwalk : ∀ blockIt : BlockIterator, ∃ records,
      Cursor.tryToList (fun _ => (.ok () : Except Err Unit)) blockIt = .ok records :=
    fun blockIt => ⟨_, Cursor.tryToList_of_reads (fun _ => rfl) blockIt⟩
  have hvisit : (∃ records, Chain.visit
      (SstIterator.openBlock trancId keepAllVersions isAborted) (SstIterator.blockReads sst)
        (fun _ => .ok ()) sst.blocks 0 = .ok records) ↔ sst.Addressable := by
    rw [Chain.visit_ok_iff, ← loadBlock_ok_iff hsst.nonempty hshort]
    refine forall₂_congr fun idx hidx => ?_
    rw [and_iff_left (hwalk _), Nat.zero_add, SstIterator.blockReads]
    cases sst.loadBlock idx <;> simp [Except.map]
  rw [KopiDb.loopYields_iff, tryToList_begin, ← hvisit]
  constructor
  · intro hloop
    exact ⟨⟨entries, hloop⟩, by rw [Chain.visit_eq_ok hloop, hlist]⟩
  · rintro ⟨⟨records, hloop⟩, rfl⟩
    rw [hloop, Chain.visit_eq_ok hloop, hlist]

end SST

/-! ## The files of a level -/

namespace ConcactIterator

/-- What opening a file reads. -/
def openReads (trancId : ℕ) (keepAllVersions : Bool) (isAborted : ℕ → Bool) (sst : SST)
    (_ : ℕ) : Except Err Unit :=
  (SstIterator.tryBegin sst trancId keepAllVersions isAborted).map fun _ => ()

/-- The constructor. -/
def tryNew (ssts : List SST) (trancId : ℕ) (keepAllVersions : Bool)
    (isAborted : ℕ → Bool) : Except Err ConcactIterator :=
  Chain.tryStart (fun sst => SstIterator.begin sst trancId keepAllVersions isAborted)
    (openReads trancId keepAllVersions isAborted) ssts

/-- What `operator++` reads: a step in the open file, and where that is exhausted the
files that it opens. -/
def nextReads (trancId : ℕ) (keepAllVersions : Bool) (isAborted : ℕ → Bool) :
    ConcactIterator → Except Err Unit :=
  Chain.nextReads (openReads trancId keepAllVersions isAborted) SstIterator.nextReads

/-- A file that can be opened is opened at its first record. -/
private theorem tryBegin_eq_ok {sst : SST} {trancId : ℕ} {keepAllVersions : Bool}
    {isAborted : ℕ → Bool} {it : SstIterator}
    (hbegin : SstIterator.tryBegin sst trancId keepAllVersions isAborted = .ok it) :
    it = SstIterator.begin sst trancId keepAllVersions isAborted := by
  unfold SstIterator.tryBegin Chain.tryStart at hbegin
  cases hreads : Chain.findReads (SstIterator.openBlock trancId keepAllVersions isAborted)
      (SstIterator.blockReads sst) sst.blocks 0 with
  | error err =>
      rw [hreads] at hbegin
      cases hbegin
  | ok done =>
      rw [hreads] at hbegin
      exact (Except.ok.inj hbegin).symm

/-- A loop over a level comes to its end exactly if all blocks of its files can be read, and
takes what the reader sees. -/
theorem loopYields_iff {ssts : List SST} (hssts : ∀ sst ∈ ssts, sst.WellFormed)
    (hshort : ∀ sst ∈ ssts, sst.BlocksShort)
    (hseparated : (ssts.map SST.records).Pairwise KeysBefore) {trancId : ℕ}
    {keepAllVersions : Bool} {isAborted : ℕ → Bool} {entries : List Entry} :
    LoopYields (tryNew ssts trancId keepAllVersions isAborted)
        (nextReads trancId keepAllVersions isAborted) entries ↔
      (∀ sst ∈ ssts, sst.Addressable) ∧ entries =
        Versions.shown trancId isAborted keepAllVersions (ssts.flatMap SST.records) := by
  have hlist := toList_new hssts hseparated trancId keepAllVersions isAborted
  rw [new, Chain.toList_start] at hlist
  have hvisit : (∃ records, Chain.visit
      (fun sst => SstIterator.begin sst trancId keepAllVersions isAborted)
        (openReads trancId keepAllVersions isAborted) SstIterator.nextReads ssts 0 =
          .ok records) ↔ ∀ sst ∈ ssts, sst.Addressable := by
    rw [Chain.visit_ok_iff, List.forall_mem_iff_forall_getElem]
    refine forall₂_congr fun i hi => ?_
    have hloop := @SST.WellFormed.loopYields_iff ssts[i] (hssts _ (List.getElem_mem hi))
      (hshort _ (List.getElem_mem hi)) trancId keepAllVersions isAborted
    constructor
    · rintro ⟨hopen, records, hwalk⟩
      refine ((@hloop records).mp ?_).1
      unfold openReads at hopen
      cases hbegin : SstIterator.tryBegin ssts[i] trancId keepAllVersions isAborted with
      | error err =>
          rw [hbegin] at hopen
          cases hopen
      | ok it =>
          rw [← tryBegin_eq_ok hbegin] at hwalk
          exact ⟨it, rfl, Cursor.loop_iff.mpr hwalk⟩
    · intro hsst
      obtain ⟨it, hbegin, hwalk⟩ := hloop.mpr ⟨hsst, rfl⟩
      rw [← tryBegin_eq_ok hbegin, openReads, hbegin]
      exact ⟨rfl, _, Cursor.loop_iff.mp hwalk⟩
  rw [KopiDb.loopYields_iff, ← hvisit, tryNew, nextReads, Chain.tryToList_tryStart]
  constructor
  · intro hloop
    exact ⟨⟨entries, hloop⟩, by rw [Chain.visit_eq_ok hloop, hlist]⟩
  · rintro ⟨⟨records, hloop⟩, rfl⟩
    rw [hloop, Chain.visit_eq_ok hloop, hlist]

end ConcactIterator

/-! ## Point reads of the engine -/

namespace Engine

variable {engine : Engine}

/-- The lookup of `update_best_from_sst`. -/
def tryLookupIn (key : Bytes) (trancId : ℕ) (isAborted : ℕ → Bool) (sst : SST) :
    Except Err (Option Entry) :=
  (sst.tryGet key trancId isAborted).map SstIterator.current?

/-- `sst_get_` -/
def trySstGet_ (engine : Engine) (key : Bytes) (trancId : ℕ) (isAborted : ℕ → Bool) :
    Except Err (Option (Bytes × ℕ)) :=
  engine.search (tryLookupIn key trancId isAborted) key

/-- `LSMEngine::get` -/
def tryGet (engine : Engine) (man : Option ReadPolicy) (key : Bytes) (trancId : ℕ)
    (requireCommitted : Bool) : Except Err (Option (Bytes × ℕ)) :=
  engine.getFrom engine.trySstGet_ man key trancId requireCommitted

/-- `LSMEngine::get_batch` -/
def tryGetBatch (engine : Engine) (man : Option ReadPolicy) (keys : List Bytes)
    (trancId : ℕ) : Except Err (List (Bytes × Option (Bytes × ℕ))) :=
  engine.getBatchFrom engine.trySstGet_ man keys trancId

/-- No table of the engine has outgrown 32-bit offsets. -/
def Addressable (engine : Engine) : Prop :=
  ∀ id sst, engine.ssts.find? id = some sst → sst.Addressable

theorem addressable_iff :
    engine.Addressable ↔ ∀ stored ∈ engine.ssts.entries, stored.2.dataLength < 2 ^ 32 := by
  constructor
  · exact fun hengine stored hmem =>
      hengine stored.1 stored.2 (OrdMap.find?_eq_some_iff.mpr hmem)
  · exact fun hsmall id sst hfind => hsmall (id, sst) (OrdMap.find?_eq_some_iff.mp hfind)

instance : Decidable engine.Addressable := decidable_of_iff _ addressable_iff.symm

/-- Every block of every table can be read. -/
def BlocksReadable (engine : Engine) : Prop :=
  ∀ id sst, engine.ssts.find? id = some sst → ∀ idx < sst.blocks.length,
    ∃ block, sst.loadBlock idx = .ok block

theorem Addressable.blocksReadable (hengine : engine.Addressable) : engine.BlocksReadable :=
  fun id sst hfind _ hidx => ⟨_, (hengine id sst hfind).loadBlock hidx⟩

section Throws

variable {lookup : SST → Except Err (Option Entry)} {key : Bytes}

private theorem searchL0_throws {ids : List ℕ} {id : ℕ} {sst : SST} (hmem : id ∈ ids)
    (hat : engine.sstAt id = .ok sst) {err : Err} (hlookup : lookup sst = .error err)
    (best : Option (Bytes × ℕ)) : ∃ err, engine.searchL0 lookup ids best = .error err := by
  induction ids generalizing best with
  | nil => cases hmem
  | cons other rest ih =>
      rw [searchL0]
      cases hother : engine.sstAt other with
      | error err => exact ⟨err, rfl⟩
      | ok first =>
          dsimp only
          cases hfirst : lookup first with
          | error err => exact ⟨err, rfl⟩
          | ok candidate =>
              rcases List.mem_cons.mp hmem with rfl | hrest
              · rw [hat] at hother
                obtain rfl := Except.ok.inj hother
                rw [hlookup] at hfirst
                cases hfirst
              · exact ih hrest _

private theorem searchLevels_throws {levels : List (List ℕ)} {ids : List ℕ}
    (hmem : ids ∈ levels)
    (hids : ∀ best, ∃ err,
      engine.searchLevel lookup key ids best ids.length 0 ids.length = .error err)
    (best : Option (Bytes × ℕ)) :
    ∃ err, engine.searchLevels lookup key levels best = .error err := by
  induction levels generalizing best with
  | nil => cases hmem
  | cons other rest ih =>
      rw [searchLevels]
      cases hother : engine.searchLevel lookup key other best other.length 0 other.length with
      | error err => exact ⟨err, rfl⟩
      | ok found =>
          rcases List.mem_cons.mp hmem with rfl | hrest
          · obtain ⟨err, hthrows⟩ := hids best
            rw [hthrows] at hother
            cases hother
          · exact ih hrest found

/-- The search comes to the file of every level that holds the key, and throws if the lookup
there does. -/
theorem search_throws (hinv : LevelInvariant engine) (hkey : key ≠ []) {id : ℕ} {sst : SST}
    (hfind : engine.ssts.find? id = some sst) (hheld : ∃ entry ∈ sst.records, entry.key = key)
    {err : Err} (hlookup : lookup sst = .error err) :
    ∃ err, engine.search lookup key = .error err := by
  have hlisted : id ∈ engine.levelSstIds.flatten := by
    rw [hinv.mem_iff, OrdMap.contains_eq_isSome, hfind]
    rfl
  obtain ⟨ids, hids, hid⟩ := List.mem_flatten.mp hlisted
  obtain ⟨level, hlevel, rfl⟩ := List.mem_iff_getElem.mp hids
  have hfile : engine.level level = engine.levelSstIds[level] := List.getD_eq_getElem _ _ hlevel
  unfold search
  cases hlevels : engine.levelSstIds with
  | nil =>
      rw [hlevels] at hlevel
      cases hlevel
  | cons l0 deeper =>
      dsimp only
      cases hl0 : engine.searchL0 lookup l0 none with
      | error err => exact ⟨err, rfl⟩
      | ok best =>
          cases level with
          | zero =>
              have hmem : id ∈ l0 := by simpa only [hlevels, List.getElem_cons_zero] using hid
              obtain ⟨err, hthrows⟩ :=
                searchL0_throws hmem (sstAt_eq_ok_iff.mpr hfind) hlookup none
              rw [hthrows] at hl0
              cases hl0
          | succ level =>
              have hsearched := searchedLevel_of_invariant hinv (Nat.succ_ne_zero level)
              rw [hfile] at hsearched
              have hdeeper : engine.levelSstIds[level + 1] ∈ deeper := by
                simp only [hlevels, List.getElem_cons_succ, List.getElem_mem]
              refine searchLevels_throws hdeeper (fun best => ⟨err, ?_⟩) best
              rw [searchLevel_probe hsearched hkey lookup best
                (mem_sstsOf.mpr ⟨id, hid, hfind⟩) hheld, hlookup]
              rfl

end Throws

/-- Where a table has outgrown its offsets, the read of its last key throws. -/
theorem tryGet_throws (hinv : LevelInvariant engine) {id : ℕ} {sst : SST}
    (hfind : engine.ssts.find? id = some sst) (hshort : sst.BlocksShort)
    (hlarge : ¬sst.Addressable) (man : ReadPolicy) (trancId : ℕ) (requireCommitted : Bool) :
    ∃ err, engine.tryGet (some man) sst.lastKey trancId requireCommitted = .error err := by
  have hsst := hinv.wellFormed id sst hfind
  have hlookup : tryLookupIn sst.lastKey trancId
      (fun id => man.shouldSkipRead id requireCommitted) sst =
        .error (.lengthError "cannot create std::vector larger than max_size()") := by
    rw [tryLookupIn, hsst.tryGet_lastKey hshort hlarge]
    rfl
  obtain ⟨err, hthrows⟩ := search_throws hinv (hsst.lastKey_ne_nil hshort hlarge) hfind
    hsst.lastKey_mem hlookup
  exact ⟨err, by rw [tryGet, getFrom, trySstGet_, hthrows]⟩

variable (hengine : engine.Addressable)
include hengine

theorem trySstGet_eq : engine.trySstGet_ = engine.sstGet_ := by
  funext key trancId isAborted
  refine search_congr (fun id sst hat => ?_) key
  rw [tryLookupIn, (hengine id sst (sstAt_eq_ok_iff.mp hat)).tryGet]
  rfl

/-- As long as no table has outgrown its offsets, a point read throws nothing else. -/
theorem tryGet_eq (man : Option ReadPolicy) (key : Bytes) (trancId : ℕ)
    (requireCommitted : Bool) :
    engine.tryGet man key trancId requireCommitted =
      engine.get man key trancId requireCommitted := by
  rw [tryGet, trySstGet_eq hengine, get]

theorem tryGetBatch_eq (man : Option ReadPolicy) (keys : List Bytes) (trancId : ℕ) :
    engine.tryGetBatch man keys trancId = engine.getBatch man keys trancId := by
  rw [tryGetBatch, trySstGet_eq hengine, getBatch]

end Engine

end KopiDb
