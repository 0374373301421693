import KopiDb.EngineContract
import KopiDb.Lib.RankedRuns

/-!
# What the merging iterators yield

Both merging iterators work on records with ranks of their sources: the first of two iterators
outranks the second, and a queue item carries its rank.  Which of two items that agree in key,
number and rank is popped first is left open.
-/

namespace KopiDb

open Versions (sourced RankedBefore MergesAll MergesNewest)

/-- The rank and the record of an item. -/
def SearchItem.ranked (item : SearchItem) : ℕ × Entry := (item.idx, item.entry)

theorem SearchItem.rankedBefore_of_le {left right : SearchItem} (hle : le left right) :
    RankedBefore left.ranked right.ranked := by
  rw [le_iff] at hle
  exact hle

/-- An order in which a queue of the items may pop them. -/
structure PopOrder (itemVec queue : List SearchItem) : Prop where
  perm : queue.Perm itemVec
  ordered : queue.Pairwise SearchItem.le

theorem popOrder_heapOf (itemVec : List SearchItem) : PopOrder itemVec (heapOf itemVec) :=
  ⟨heapOf_perm itemVec, List.pairwise_insertionSort SearchItem.le itemVec⟩

/-- The items are the records of the sources, in any order. -/
def CollectedFrom (sources : List (ℕ × List Entry)) (itemVec : List SearchItem) : Prop :=
  (itemVec.map SearchItem.ranked).Perm (sourced sources)

namespace PopOrder

variable {sources : List (ℕ × List Entry)} {itemVec queue : List SearchItem}

theorem sorted (hpop : PopOrder itemVec queue) :
    Versions.Sorted (queue.map SearchItem.entry) :=
  List.pairwise_map.mpr (hpop.ordered.imp SearchItem.precedes_of_le)

theorem mergesAll (hpop : PopOrder itemVec queue) (hcollected : CollectedFrom sources itemVec) :
    MergesAll sources (queue.map SearchItem.entry) := by
  refine ⟨queue.map SearchItem.ranked, ?_, ?_, ?_⟩
  · exact (hpop.perm.map SearchItem.ranked).trans hcollected
  · exact List.pairwise_map.mpr (hpop.ordered.imp SearchItem.rankedBefore_of_le)
  · rw [List.map_map]
    rfl

/-- What a queue still yields is the newest of its sources. -/
theorem mergesNewest (hpop : PopOrder itemVec queue)
    (hcollected : CollectedFrom sources itemVec) (maxTrancId : ℕ) (skipDelete : Bool) :
    MergesNewest sources maxTrancId (fun entry => skipDelete && decide (entry.value = []))
      (HeapIterator.render maxTrancId skipDelete queue) :=
  (hpop.mergesAll hcollected).newest maxTrancId _

end PopOrder

/-- The items that `merge_sst_iterator` collects. -/
def drained (iterVec : List SstIterator) : List SearchItem :=
  iterVec.flatMap fun iter =>
    (Cursor.toList iter).map fun entry => ⟨entry, iter.sst.sstId, 0⟩

/-- The sources of `merge_sst_iterator`, ranked by the numbers of their tables. -/
def tableSources (iterVec : List SstIterator) : List (ℕ × List Entry) :=
  iterVec.map fun iter => (iter.sst.sstId, Cursor.toList iter)

theorem collectedFrom_drained (iterVec : List SstIterator) :
    CollectedFrom (tableSources iterVec) (drained iterVec) := by
  apply List.Perm.of_eq
  unfold drained tableSources sourced
  rw [List.map_flatMap, List.flatMap_map]
  apply List.flatMap_congr
  intro iter _
  rw [List.map_map]
  rfl

theorem toList_mergeSstIterator_eq (iterVec : List SstIterator) (keepAllVersions : Bool) :
    Cursor.toList (Engine.mergeSstIterator iterVec keepAllVersions) =
      Cursor.toList (⟨heapOf (drained iterVec), 0, false, keepAllVersions⟩ : HeapIterator) := by
  unfold Engine.mergeSstIterator
  split_ifs with hempty
  · rw [List.isEmpty_iff.mp hempty, Cursor.toList_of_none rfl, Cursor.toList_of_none rfl]
  · rfl

/-- The first of two sorted iterators outranks the second. -/
theorem TwoMergeIterator.mergesAll {ι ι' : Type} [Cursor ι Entry] [Cursor ι' Entry] {itA : ι}
    {itB : ι'} (hA : Versions.Sorted (Cursor.toList itA))
    (hB : Versions.Sorted (Cursor.toList itB)) :
    MergesAll [(1, Cursor.toList itA), (0, Cursor.toList itB)]
      (Cursor.toList (TwoMergeIterator.new itA itB 0 true)) := by
  rw [TwoMergeIterator.toList_new hA hB, Versions.shown_all]
  exact Versions.mergesAll_merge hA hB (Nat.zero_le 1)

theorem TwoMergeIterator.mergesNewest {ι ι' : Type} [Cursor ι Entry] [Cursor ι' Entry]
    {itA : ι} {itB : ι'} (hA : Versions.Sorted (Cursor.toList itA))
    (hB : Versions.Sorted (Cursor.toList itB)) (maxTrancId : ℕ) :
    MergesNewest [(1, Cursor.toList itA), (0, Cursor.toList itB)] maxTrancId (fun _ => false)
      (Cursor.toList (TwoMergeIterator.new itA itB maxTrancId false)) := by
  have hmerges := Versions.mergesAll_merge hA hB (Nat.zero_le 1)
  have hnewest := hmerges.newest maxTrancId fun _ => false
  rwa [Bool.not_false, List.filter_true, ← TwoMergeIterator.toList_new hA hB] at hnewest

theorem HeapIterator.mergesAll {sources : List (ℕ × List Entry)}
    {itemVec queue : List SearchItem} (hcollected : CollectedFrom sources itemVec)
    (hpop : PopOrder itemVec queue) :
    MergesAll sources (Cursor.toList (⟨queue, 0, false, true⟩ : HeapIterator)) := by
  rw [HeapIterator.toList_keepAll]
  exact hpop.mergesAll hcollected

theorem HeapIterator.mergesNewest {sources : List (ℕ × List Entry)}
    {itemVec queue : List SearchItem} (hcollected : CollectedFrom sources itemVec)
    (hpop : PopOrder itemVec queue) (maxTrancId : ℕ) (skipDelete : Bool) :
    MergesNewest sources maxTrancId (fun entry => skipDelete && decide (entry.value = []))
      (Cursor.toList (HeapIterator.ofQueue queue maxTrancId skipDelete false)) := by
  rw [HeapIterator.toList_ofQueue hpop.sorted]
  exact hpop.mergesNewest hcollected maxTrancId skipDelete

/-- Every merging iterator yields all records of its sources, or the newest of every key. -/
theorem merging_iterators :
    (∀ {ι ι' : Type} [Cursor ι Entry] [Cursor ι' Entry] (itA : ι) (itB : ι'),
      Versions.Sorted (Cursor.toList itA) → Versions.Sorted (Cursor.toList itB) →
        let sources := [(1, Cursor.toList itA), (0, Cursor.toList itB)]
        MergesAll sources (Cursor.toList (TwoMergeIterator.new itA itB 0 true)) ∧
          ∀ maxTrancId, MergesNewest sources maxTrancId (fun _ => false)
            (Cursor.toList (TwoMergeIterator.new itA itB maxTrancId false))) ∧
    (∀ (iterVec : List SstIterator) (queue : List SearchItem),
      PopOrder (drained iterVec) queue →
        MergesAll (tableSources iterVec)
            (Cursor.toList (⟨queue, 0, false, true⟩ : HeapIterator)) ∧
          MergesNewest (tableSources iterVec) 0 (fun _ => false)
            (Cursor.toList (⟨queue, 0, false, false⟩ : HeapIterator))) ∧
    (∀ iterVec : List SstIterator,
      MergesAll (tableSources iterVec) (Cursor.toList (Engine.mergeSstIterator iterVec true)) ∧
        MergesNewest (tableSources iterVec) 0 (fun _ => false)
          (Cursor.toList (Engine.mergeSstIterator iterVec false))) ∧
    ∀ (sources : List (ℕ × List Entry)) (itemVec queue : List SearchItem),
      CollectedFrom sources itemVec → PopOrder itemVec queue →
        ∀ (maxTrancId : ℕ) (skipDelete : Bool),
          MergesNewest sources maxTrancId
            (fun entry => skipDelete && decide (entry.value = []))
            (Cursor.toList (HeapIterator.ofQueue queue maxTrancId skipDelete false)) := by
  have hdrained : ∀ (iterVec : List SstIterator) (queue : List SearchItem),
      PopOrder (drained iterVec) queue →
        MergesAll (tableSources iterVec)
            (Cursor.toList (⟨queue, 0, false, true⟩ : HeapIterator)) ∧
          MergesNewest (tableSources iterVec) 0 (fun _ => false)
            (Cursor.toList (⟨queue, 0, false, false⟩ : HeapIterator)) := by
    intro iterVec queue hpop
    have hcollected := collectedFrom_drained iterVec
    constructor
    · exact HeapIterator.mergesAll hcollected hpop
    · have hnewest := hpop.mergesNewest hcollected 0 false
      rw [HeapIterator.toList_unbounded hpop.sorted]
      exact hnewest
  refine ⟨?_, hdrained, ?_, ?_⟩
  · intro ι ι' _ _ itA itB hA hB
    exact ⟨TwoMergeIterator.mergesAll hA hB, TwoMergeIterator.mergesNewest hA hB⟩
  · intro iterVec
    rw [toList_mergeSstIterator_eq, toList_mergeSstIterator_eq]
    exact hdrained iterVec _ (popOrder_heapOf _)
  · intro sources itemVec queue hcollected hpop maxTrancId skipDelete
    exact HeapIterator.mergesNewest hcollected hpop maxTrancId skipDelete

/-- An iterator over a built table. -/
theorem exists_tableIter {sstId : ℕ} {entries : List Entry} {builder : SSTBuilder} {sst : SST}
    (hsorted : Versions.Sorted entries)
    (hadd : (SSTBuilder.new smallConfig).addAll entries = .ok builder)
    (hbuild : builder.build sstId = .ok sst) :
    ∃ iter : SstIterator, iter.sst.sstId = sstId ∧ Cursor.toList iter = entries := by
  obtain ⟨hsst, hrecords, hid⟩ :=
    ((SSTBuilder.holds_new smallConfig).addAll hsorted hadd).build hbuild
  refine ⟨SstIterator.begin sst 0 true fun _ => false, hid, ?_⟩
  rw [hsst.toList_begin, Versions.shown_all, hrecords, List.nil_append]

/-- A version and a newer deletion of one key, merged as two iterators, as two tables whose keys
overlap, and as a queue. -/
theorem merging_iterators_sample :
    let itA : HeapIterator := ⟨[⟨⟨[1], [7], 5⟩, 4, 0⟩], 0, false, true⟩
    let itB : HeapIterator := ⟨[⟨⟨[1], [], 7⟩, 9, 0⟩], 0, false, true⟩
    MergesNewest [(1, Cursor.toList itA), (0, Cursor.toList itB)] 6 (fun _ => false)
        (Cursor.toList (TwoMergeIterator.new itA itB 6 false)) ∧
      (∃ iterVec : List SstIterator,
        tableSources iterVec =
          [(4, [⟨[1], [7], 5⟩, ⟨[2], [8], 5⟩]), (9, [⟨[1], [], 7⟩])] ∧
        MergesAll (tableSources iterVec) (Cursor.toList
          (⟨[⟨⟨[1], [], 7⟩, 9, 0⟩, ⟨⟨[1], [7], 5⟩, 4, 0⟩, ⟨⟨[2], [8], 5⟩, 4, 0⟩], 0, false,
            true⟩ : HeapIterator))) ∧
      MergesNewest [(4, [⟨[1], [7], 5⟩]), (9, [⟨[1], [], 7⟩])] 0
        (fun entry => true && decide (entry.value = []))
        (Cursor.toList
          (HeapIterator.ofQueue [⟨⟨[1], [], 7⟩, 9, 0⟩, ⟨⟨[1], [7], 5⟩, 4, 0⟩] 0 true false)) := by
  obtain ⟨older, hidOlder, hlistOlder⟩ := @exists_tableIter 4
    [⟨[1], [7], 5⟩, ⟨[2], [8], 5⟩] _ _ (by rw [Versions.Sorted]; decide) rfl rfl
  obtain ⟨newer, hidNewer, hlistNewer⟩ := @exists_tableIter 9 [⟨[1], [], 7⟩] _ _
    (List.pairwise_singleton _ _) rfl rfl
  have hsources : tableSources [older, newer] =
      [(4, [⟨[1], [7], 5⟩, ⟨[2], [8], 5⟩]), (9, [⟨[1], [], 7⟩])] := by
    rw [tableSources, List.map_cons, List.map_singleton, hidOlder, hlistOlder, hidNewer,
      hlistNewer]
  have hdrained : drained [older, newer] =
      [⟨⟨[1], [7], 5⟩, 4, 0⟩, ⟨⟨[2], [8], 5⟩, 4, 0⟩, ⟨⟨[1], [], 7⟩, 9, 0⟩] := by
    rw [drained, List.flatMap_cons, List.flatMap_singleton, hidOlder, hlistOlder, hidNewer,
      hlistNewer]
    rfl
  refine ⟨(merging_iterators.1 _ _ ?_ ?_).2 6,
    ⟨[older, newer], hsources, (merging_iterators.2.1 _ _ ⟨?_, ?_⟩).1⟩,
    merging_iterators.2.2.2 _ [⟨⟨[1], [7], 5⟩, 4, 0⟩, ⟨⟨[1], [], 7⟩, 9, 0⟩] _ ?_ ⟨?_, ?_⟩ 0 true⟩
  · rw [HeapIterator.toList_keepAll]
    exact List.pairwise_singleton _ _
  · rw [HeapIterator.toList_keepAll]
    exact List.pairwise_singleton _ _
  · rw [hdrained]
    decide
  · decide
  · exact List.Perm.refl _
  · exact List.Perm.swap _ _ []
  · exact List.pairwise_pair.mpr (by decide)

end KopiDb
