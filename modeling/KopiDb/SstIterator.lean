import KopiDb.Sst
import KopiDb.Lib.Chain

/-!
# Iterators over one table file

The iterator walks the blocks of a file with a block iterator and skips the
blocks in which the reader sees nothing.  A lookup by key goes to the one block
that the meta entries name.
-/

namespace KopiDb

/-- `SstIterator` over an existing file.  `blocks.index` and `blocks.cursor` are
`m_block_idx` and `m_block_it`; a block iterator stays with the index of its
block, so `m_block_idx < num_blocks()` holds by construction. -/
structure SstIterator where
  sst : SST
  blocks : Chain (BlockMeta × Block) BlockIterator

namespace SstIterator

/-- The block iterator that `seek_first` and `operator++` open on a block. -/
def openBlock (maxTrancId : ℕ) (keepAllVersions : Bool) (isAborted : ℕ → Bool)
    (block : BlockMeta × Block) : BlockIterator :=
  BlockIterator.ofIndex block.2 0 maxTrancId keepAllVersions isAborted

/-- The constructor without a key, `SST::begin`: `seek_first` stops on the first
block in which the reader sees a record. -/
def begin (sst : SST) (trancId : ℕ) (keepAllVersions : Bool) (isAborted : ℕ → Bool) :
    SstIterator :=
  ⟨sst, Chain.start (openBlock trancId keepAllVersions isAborted) sst.blocks⟩

/-- `SST::end` -/
def finished (sst : SST) : SstIterator :=
  ⟨sst, Chain.finish (openBlock 0 false fun _ => false) sst.blocks⟩

/-- The constructor with a key: `seek` never leaves the block that the meta entries
name. -/
def ofKey (sst : SST) (key : Bytes) (trancId : ℕ) (keepAllVersions : Bool)
    (isAborted : ℕ → Bool) : SstIterator :=
  let missed := Chain.finish (openBlock trancId keepAllVersions isAborted) sst.blocks
  match sst.findBlockIdx key with
  | none => ⟨sst, missed⟩
  | some idx =>
      if hidx : idx < sst.blocks.length then
        let blockIt := BlockIterator.ofKey sst.blocks[idx].2 key trancId keepAllVersions
          isAborted
        if blockIt.isEnd then ⟨sst, missed⟩
        else ⟨sst, ⟨missed.begin, sst.blocks, idx, some blockIt, fun _ => hidx⟩⟩
      else ⟨sst, missed⟩

/-- `operator++` -/
def next (it : SstIterator) : SstIterator := ⟨it.sst, it.blocks.next⟩

def isEnd (it : SstIterator) : Bool := it.blocks.cursor.isNone

def isValid (it : SstIterator) : Bool :=
  it.blocks.cursor.any fun blockIt => !blockIt.isEnd

/-- The record of a valid iterator. -/
def current? (it : SstIterator) : Option Entry := it.blocks.current?

instance : Cursor SstIterator Entry where
  current? := current?
  next := next
  remaining it := it.blocks.remaining
  remaining_next := by
    intro it record hcurrent
    have hless : Cursor.remaining (Cursor.next it.blocks) < Cursor.remaining it.blocks :=
      Cursor.remaining_next hcurrent
    exact hless

theorem cursor_current? (it : SstIterator) : Cursor.current? it = it.current? := rfl

theorem toList_blocks (it : SstIterator) : Cursor.toList it.blocks = Cursor.toList it :=
  Cursor.toList_map SstIterator.blocks (fun _ => rfl) (fun _ => rfl) it

end SstIterator

/-- `SST::get` -/
def SST.get (sst : SST) (key : Bytes) (trancId : ℕ) (isAborted : ℕ → Bool) :
    SstIterator :=
  if key < sst.firstKey ∨ sst.lastKey < key then SstIterator.finished sst
  else if sst.bloomExcludes key then SstIterator.finished sst
  else SstIterator.ofKey sst key trancId false isAborted

/-- Blocks whose keys do not interleave are shown one after the other. -/
theorem shown_flatMap {blocks : List (List Entry)} (hseparated : blocks.Pairwise KeysBefore)
    (trancId : ℕ) (isAborted : ℕ → Bool) (keepAllVersions : Bool) :
    (blocks.flatMap fun block => Versions.shown trancId isAborted keepAllVersions block) =
      Versions.shown trancId isAborted keepAllVersions blocks.flatten := by
  induction blocks with
  | nil => simp
  | cons block rest ih =>
      rw [List.pairwise_cons] at hseparated
      rw [List.flatMap_cons, List.flatten_cons, Versions.shown_append, ih hseparated.2]
      intro first hfirst second hsecond
      obtain ⟨other, hother, hsecond⟩ := List.mem_flatten.mp hsecond
      exact hseparated.1 other hother first hfirst second hsecond

namespace SST.WellFormed

variable {sst : SST}

theorem block_sorted (hsst : sst.WellFormed) {block : BlockMeta × Block}
    (hmem : block ∈ sst.blocks) : Versions.Sorted block.2.entries := by
  obtain ⟨front, back, hblocks⟩ := List.append_of_mem hmem
  refine hsst.sorted.sublist ?_
  rw [SST.records, hblocks, List.flatMap_append, List.flatMap_cons]
  exact (List.sublist_append_left _ _).trans (List.sublist_append_right _ _)

/-- Opening a block shows its records. -/
theorem toList_openBlock (hsst : sst.WellFormed) {block : BlockMeta × Block}
    (hmem : block ∈ sst.blocks) (trancId : ℕ) (keepAllVersions : Bool)
    (isAborted : ℕ → Bool) :
    Cursor.toList (SstIterator.openBlock trancId keepAllVersions isAborted block) =
      Versions.shown trancId isAborted keepAllVersions block.2.entries := by
  rw [SstIterator.openBlock, BlockIterator.toList_ofIndex (hsst.block_sorted hmem),
    List.drop_zero]

/-- The blocks of a file are shown one after the other. -/
theorem shown_records (hsst : sst.WellFormed) (trancId : ℕ) (isAborted : ℕ → Bool)
    (keepAllVersions : Bool) :
    (sst.blocks.flatMap fun block =>
        Versions.shown trancId isAborted keepAllVersions block.2.entries) =
      Versions.shown trancId isAborted keepAllVersions sst.records := by
  have hshown := shown_flatMap hsst.separated trancId isAborted keepAllVersions
  rwa [List.flatMap_map, ← List.flatMap_def] at hshown

/-- Iterating a file shows its records as the reader sees them. -/
theorem toList_begin (hsst : sst.WellFormed) (trancId : ℕ) (keepAllVersions : Bool)
    (isAborted : ℕ → Bool) :
    Cursor.toList (SstIterator.begin sst trancId keepAllVersions isAborted) =
      Versions.shown trancId isAborted keepAllVersions sst.records := by
  rw [← SstIterator.toList_blocks, SstIterator.begin, Chain.toList_start,
    ← hsst.shown_records]
  exact List.flatMap_congr fun block hmem => hsst.toList_openBlock hmem _ _ _

/-! ## Lookups -/

/-- The block that holds the key is where the meta entries send the search. -/
private theorem compareMeta_eq (hsst : sst.WellFormed) {key : Bytes} (hkey : key ≠ [])
    {held : ℕ} (hheld : held < sst.blocks.length)
    (hentry : ∃ entry ∈ sst.blocks[held].2.entries, entry.key = key) {idx : ℕ}
    (hidx : idx < sst.blocks.length) : sst.compareMeta key idx = compare idx held := by
  obtain ⟨entry, hentry, rfl⟩ := hentry
  obtain ⟨hfirst, hlast⟩ := hsst.described.getElem hidx
  have hcompare : sst.compareMeta entry.key idx =
      if entry.key < sst.blocks[idx].1.firstKey then .gt
      else if entry.key > sst.blocks[idx].1.lastKey then .lt else .eq := by
    simp [SST.compareMeta, List.getElem?_eq_getElem hidx]
  have hfrom : Versions.Sorted
      ((sst.blocks.drop idx).flatMap fun block => block.2.entries) := by
    refine hsst.sorted.sublist ?_
    rw [SST.records]
    nth_rewrite 2 [← List.take_append_drop idx sst.blocks]
    rw [List.flatMap_append]
    exact List.sublist_append_right _ _
  have hbefore : ∀ {i j : ℕ} (hi : i < sst.blocks.length) (hj : j < sst.blocks.length),
      i < j → KeysBefore sst.blocks[i].2.entries sst.blocks[j].2.entries := by
    intro i j hi hj hlt
    have hpair := List.pairwise_iff_getElem.mp (List.pairwise_map.mp hsst.separated)
    exact hpair i j hi hj hlt
  have hreach : ∀ {j : ℕ} (hj : j < sst.blocks.length), idx ≤ j →
      ∀ other ∈ sst.blocks[j].2.entries,
        other ∈ (sst.blocks.drop idx).flatMap fun block => block.2.entries := by
    intro j hj hle other hother
    refine List.mem_flatMap.mpr ⟨sst.blocks[j], ?_, hother⟩
    rw [List.mem_drop_iff_getElem]
    exact ⟨j - idx, by omega, by simp [Nat.add_sub_cancel' hle]⟩
  rw [hcompare]
  rcases Nat.lt_trichotomy idx held with hlt | heq | hgt
  · have hle := firstUserKey_le hfrom (hreach hheld hlt.le entry hentry) hkey
    obtain ⟨last, hmem, hlastKey⟩ :=
      finalKey_mem (hsst.blocks_nonempty _ (List.getElem_mem hidx))
    have hbelow := hbefore hidx hheld hlt last hmem entry hentry
    rw [hlastKey, ← hlast] at hbelow
    rw [if_neg (by rw [hfirst]; exact hle.not_gt), if_pos hbelow,
      Nat.compare_eq_lt.mpr hlt]
  · subst heq
    have hle := firstUserKey_le hfrom (hreach hidx le_rfl entry hentry) hkey
    have hge := le_finalKey (hsst.block_sorted (List.getElem_mem hidx)) hentry
    rw [if_neg (by rw [hfirst]; exact hle.not_gt),
      if_neg (by rw [hlast]; exact hge.not_gt), Nat.compare_eq_eq.mpr rfl]
  · obtain ⟨other, hother⟩ := List.exists_mem_of_ne_nil _
      (hsst.blocks_nonempty _ (List.getElem_mem hidx))
    have hotherKey : other.key ≠ [] := by
      intro hnil
      have hlater := hbefore hheld hidx hgt entry hentry other hother
      rw [hnil] at hlater
      exact List.not_lt_nil _ hlater
    obtain ⟨first, hfirstMem, hfirstKey⟩ := firstUserKey_mem
      (firstUserKey_ne_nil (hreach hidx le_rfl other hother) hotherKey)
    obtain ⟨block, hblock, hfirstMem⟩ := List.mem_flatMap.mp hfirstMem
    obtain ⟨i, hi, rfl⟩ := List.mem_drop_iff_getElem.mp hblock
    have hlater := hbefore hheld (by omega) (by omega : held < idx + i) entry hentry first hfirstMem
    rw [hfirstKey, ← hfirst] at hlater
    rw [if_pos hlater, Nat.compare_eq_gt.mpr hgt]

private theorem compare_ordered (held size : ℕ) :
    BinarySearch.Ordered (fun idx => compare idx held) size where
  lt_of_le := by
    intro i j hij _ hlt
    rw [Nat.compare_eq_lt] at hlt ⊢
    omega
  gt_of_le := by
    intro i j hij _ hgt
    rw [Nat.compare_eq_gt] at hgt ⊢
    omega

/-- The block search finds the block that holds the key. -/
theorem findBlockIdx_eq (hsst : sst.WellFormed) {key : Bytes} (hkey : key ≠ [])
    {held : ℕ} (hheld : held < sst.blocks.length)
    (hentry : ∃ entry ∈ sst.blocks[held].2.entries, entry.key = key) :
    sst.findBlockIdx key = some held := by
  have hbloom : sst.bloomExcludes key = false := by
    obtain ⟨entry, hentry, rfl⟩ := hentry
    exact hsst.bloom entry (List.mem_flatMap.mpr ⟨_, List.getElem_mem hheld, hentry⟩)
  have hprobe := fun idx (hidx : idx < sst.blocks.length) =>
    hsst.compareMeta_eq hkey hheld hentry hidx
  have hordered : BinarySearch.Ordered (sst.compareMeta key) sst.numBlocks :=
    { lt_of_le := by
        intro i j hij hj hlt
        have hi : i < sst.blocks.length := hij.trans_lt hj
        rw [hprobe j hj] at hlt
        rw [hprobe i hi]
        exact (compare_ordered held _).lt_of_le hij hj hlt
      gt_of_le := by
        intro i j hij hj hgt
        have hi : i < sst.blocks.length := hij.trans_lt hj
        rw [hprobe i hi] at hgt
        rw [hprobe j hj]
        exact (compare_ordered held _).gt_of_le hij hj hgt }
  have hequal : sst.compareMeta key held = .eq := by
    rw [hprobe held hheld, Nat.compare_eq_eq]
  obtain ⟨found, hfound⟩ := BinarySearch.exists_binarySearch_hit hordered hheld hequal
  obtain ⟨hlt, heq⟩ := BinarySearch.binarySearch_hit hfound
  rw [hprobe found hlt, Nat.compare_eq_eq] at heq
  rw [SST.findBlockIdx, hbloom, if_neg Bool.false_ne_true, hfound, heq]

private theorem ofKey_current? (hsst : sst.WellFormed) (key : Bytes) (trancId : ℕ)
    (isAborted : ℕ → Bool) :
    (SstIterator.ofKey sst key trancId false isAborted).current? =
      ((sst.findBlockIdx key).bind fun idx => sst.blocks[idx]?).bind fun block =>
        Versions.read block.2.entries key trancId isAborted := by
  unfold SstIterator.ofKey
  dsimp only
  split
  next hidx =>
      rw [hidx]
      rfl
  next idx hidx =>
      rw [hidx, Option.bind_some]
      split_ifs with hlt hend
      · rw [List.getElem?_eq_getElem hlt, Option.bind_some, ← BlockIterator.ofKey_current?
          (hsst.block_sorted (List.getElem_mem hlt)) key trancId false isAborted]
        exact (BlockIterator.isEnd_iff.mp hend).symm
      · rw [List.getElem?_eq_getElem hlt, Option.bind_some, ← BlockIterator.ofKey_current?
          (hsst.block_sorted (List.getElem_mem hlt)) key trancId false isAborted]
        rfl
      · rw [List.getElem?_eq_none (not_lt.mp hlt)]
        rfl

/-- A lookup only returns records of the key that the reader may see. -/
theorem get_current?_mem (hsst : sst.WellFormed) {key : Bytes} {trancId : ℕ}
    {isAborted : ℕ → Bool} {entry : Entry}
    (hget : (sst.get key trancId isAborted).current? = some entry) :
    entry ∈ sst.records ∧ entry.key = key ∧
      Versions.visible trancId isAborted entry.txid := by
  unfold SST.get at hget
  split_ifs at hget
  · cases hget
  · cases hget
  · rw [hsst.ofKey_current?] at hget
    obtain ⟨block, hblock, hread⟩ := Option.bind_eq_some_iff.mp hget
    obtain ⟨idx, -, hidx⟩ := Option.bind_eq_some_iff.mp hblock
    obtain ⟨hmem, hmatch⟩ := Versions.read_eq_some hread
    exact ⟨List.mem_flatMap.mpr ⟨block, List.mem_of_getElem? hidx, hmem⟩, hmatch⟩

/-- A lookup depends on which writers of the table are skipped, and on no others. -/
theorem get_skip_congr (hsst : sst.WellFormed) {key : Bytes} {trancId : ℕ}
    {skip skip' : ℕ → Bool} (hskip : ∀ entry ∈ sst.records, skip entry.txid = skip' entry.txid) :
    (sst.get key trancId skip).current? = (sst.get key trancId skip').current? := by
  unfold SST.get
  split_ifs
  · rfl
  · rfl
  · rw [hsst.ofKey_current?, hsst.ofKey_current?]
    cases hblock : (sst.findBlockIdx key).bind fun idx => sst.blocks[idx]? with
    | none => rfl
    | some block =>
        obtain ⟨idx, -, hidx⟩ := Option.bind_eq_some_iff.mp hblock
        refine Versions.read_skip_congr fun entry hmem _ => hskip entry ?_
        exact List.mem_flatMap.mpr ⟨block, List.mem_of_getElem? hidx, hmem⟩

/-- A key outside the range or the filter has no record. -/
private theorem excluded (hsst : sst.WellFormed) {key : Bytes} (hkey : key ≠ [])
    (hexcluded : (key < sst.firstKey ∨ sst.lastKey < key) ∨ sst.bloomExcludes key) :
    ∀ entry ∈ sst.records, entry.key ≠ key := by
  rintro entry hmem rfl
  rcases hexcluded with (hlt | hgt) | hbloom
  · rw [hsst.firstKey_eq] at hlt
    exact (firstUserKey_le hsst.sorted hmem hkey).not_gt hlt
  · rw [hsst.lastKey_eq] at hgt
    exact (le_finalKey hsst.sorted hmem).not_gt hgt
  · rw [hsst.bloom entry hmem] at hbloom
    cases hbloom

/-- Only the block that holds the key answers a read of it. -/
private theorem read_records (hsst : sst.WellFormed) {key : Bytes} {held : ℕ}
    (hheld : held < sst.blocks.length)
    (hentry : ∃ entry ∈ sst.blocks[held].2.entries, entry.key = key) (trancId : ℕ)
    (isAborted : ℕ → Bool) :
    Versions.read sst.records key trancId isAborted =
      Versions.read sst.blocks[held].2.entries key trancId isAborted := by
  obtain ⟨entry, hentry, rfl⟩ := hentry
  refine Versions.read_flatMap_of_only (fun block : BlockMeta × Block => block.2.entries)
    hheld (fun idx hidx hne other hother heq => ?_) trancId isAborted
  have hbefore : ∀ i j (hi : i < sst.blocks.length) (hj : j < sst.blocks.length), i < j →
      KeysBefore sst.blocks[i].2.entries sst.blocks[j].2.entries := by
    intro i j hi hj hlt
    have hpair := List.pairwise_iff_getElem.mp hsst.separated i j
      (by rwa [List.length_map]) (by rwa [List.length_map]) hlt
    simpa using hpair
  rcases hne.lt_or_gt with hlt | hgt
  · exact absurd heq (hbefore idx held hidx hheld hlt other hother entry hentry).ne
  · exact absurd heq (hbefore held idx hheld hidx hgt entry hentry other hother).ne'

/-- A lookup finds the newest visible version of a user key. -/
theorem get_current? (hsst : sst.WellFormed) {key : Bytes} (hkey : key ≠ [])
    (trancId : ℕ) (isAborted : ℕ → Bool) :
    (sst.get key trancId isAborted).current? =
      Versions.read sst.records key trancId isAborted := by
  by_cases hheld : ∃ entry ∈ sst.records, entry.key = key
  · obtain ⟨entry, hmem, hentryKey⟩ := hheld
    obtain ⟨block, hblock, hentry⟩ := List.mem_flatMap.mp hmem
    obtain ⟨held, hlt, rfl⟩ := List.mem_iff_getElem.mp hblock
    have hpresent : ¬((key < sst.firstKey ∨ sst.lastKey < key) ∨
        sst.bloomExcludes key) :=
      fun hexcluded => hsst.excluded hkey hexcluded entry hmem hentryKey
    have hfind := hsst.findBlockIdx_eq hkey hlt ⟨entry, hentry, hentryKey⟩
    rw [not_or] at hpresent
    rw [SST.get, if_neg hpresent.1, if_neg hpresent.2, hsst.ofKey_current?, hfind,
      Option.bind_some, List.getElem?_eq_getElem hlt, Option.bind_some,
      hsst.read_records hlt ⟨entry, hentry, hentryKey⟩]
  · have hread : Versions.read sst.records key trancId isAborted = none := by
      rw [Versions.read_eq_none_iff]
      intro entry hmem heq
      exact absurd ⟨entry, hmem, heq⟩ hheld
    rw [hread]
    cases hget : (sst.get key trancId isAborted).current? with
    | none => rfl
    | some entry =>
        obtain ⟨hmem, heq, -⟩ := hsst.get_current?_mem hget
        exact absurd ⟨entry, hmem, heq⟩ hheld

end SST.WellFormed

/-! ## Several files in key order -/

/-- `ConcactIterator`: the files of one level, one after the other.  `index` and
`cursor` are `cur_idx` and `cur_iter`. -/
abbrev ConcactIterator := Chain SST SstIterator

namespace ConcactIterator

/-- The constructor stops on the first file in which the reader sees a record. -/
def new (ssts : List SST) (trancId : ℕ) (keepAllVersions : Bool)
    (isAborted : ℕ → Bool) : ConcactIterator :=
  Chain.start (fun sst => SstIterator.begin sst trancId keepAllVersions isAborted) ssts

/-- Iterating the files of a level shows their records as the reader sees them. -/
theorem toList_new {ssts : List SST} (hssts : ∀ sst ∈ ssts, sst.WellFormed)
    (hseparated : (ssts.map SST.records).Pairwise KeysBefore) (trancId : ℕ)
    (keepAllVersions : Bool) (isAborted : ℕ → Bool) :
    Cursor.toList (new ssts trancId keepAllVersions isAborted) =
      Versions.shown trancId isAborted keepAllVersions (ssts.flatMap SST.records) := by
  have hshown := shown_flatMap hseparated trancId isAborted keepAllVersions
  rw [List.flatMap_map, ← List.flatMap_def] at hshown
  rw [new, Chain.toList_start, ← hshown]
  exact List.flatMap_congr fun sst hmem => (hssts sst hmem).toList_begin _ _ _

end ConcactIterator

end KopiDb
