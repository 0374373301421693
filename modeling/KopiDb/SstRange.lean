import KopiDb.SstIterator

/-!
# Range queries over one table file

A monotone predicate splits the key space into keys to the left of the range
(positive), keys in the range (zero) and keys to its right (negative).  The file
query returns an iterator pair; a consumer walks from the first to the second
iterator and checks the predicate once more.
-/

namespace KopiDb

/-- A predicate on keys that only falls. -/
structure MonotonePredicate (predicate : Bytes → ℤ) : Prop where
  neg_of_le : ∀ {left right}, left ≤ right → predicate left < 0 → predicate right < 0
  pos_of_le : ∀ {left right}, left ≤ right → 0 < predicate right → 0 < predicate left

/-- The value of the predicate at an index of the block. -/
def Block.predicateAt (block : Block) (predicate : Bytes → ℤ) (idx : ℕ) : ℤ :=
  match block.entries[idx]? with
  | none => 0
  | some entry => predicate entry.key

/-- `get_monotony_predicate_iters` -/
def Block.getMonotonyPredicateIters (block : Block) (trancId : ℕ)
    (predicate : Bytes → ℤ) (isAborted : ℕ → Bool) :
    Option (BlockIterator × BlockIterator) :=
  if block.isEmpty then none
  else
    let first := BinarySearch.partitionPoint
      (fun idx => decide (0 < block.predicateAt predicate idx)) 0 block.size
    if first ≥ block.size ∨ block.predicateAt predicate first ≠ 0 then none
    else
      let endIdx := BinarySearch.partitionPoint
        (fun idx => decide (0 ≤ block.predicateAt predicate idx)) first block.size
      some (BlockIterator.ofIndex block first trancId false isAborted,
        BlockIterator.ofIndex block endIdx trancId false isAborted)

namespace SstIterator

section Query

variable (sst : SST) (trancId : ℕ) (predicate : Bytes → ℤ) (isAborted : ℕ → Bool)

/-- The iterator that a range query puts on a block iterator. -/
def placed (idx : ℕ) (hidx : idx < sst.blocks.length) (blockIt : BlockIterator) :
    SstIterator :=
  ⟨sst, ⟨openBlock trancId false isAborted, sst.blocks, idx, some blockIt, fun _ => hidx⟩⟩

/-- The loop of `sst_iters_monotony_predicate` over the blocks from `idx` on, `fuel`
of them.  `found` holds `final_begin` and `final_end`. -/
def rangeLoop : ℕ → ℕ → Option (SstIterator × SstIterator) →
    Option (SstIterator × SstIterator)
  | 0, _, found => found
  | fuel + 1, idx, found =>
      if hidx : idx < sst.blocks.length then
        let info := sst.blocks[idx].1
        if predicate info.firstKey < 0 then found
        else if predicate info.lastKey > 0 then rangeLoop fuel (idx + 1) found
        else
          match sst.blocks[idx].2.getMonotonyPredicateIters trancId predicate isAborted with
          | none => rangeLoop fuel (idx + 1) found
          | some (first, stop) =>
              -- Both iterators hold the same block.
              if first.currentIndex = stop.currentIndex then
                rangeLoop fuel (idx + 1) found
              else
                let begin := match found with
                  | none => placed sst trancId isAborted idx hidx first
                  | some (begin, _) => begin
                rangeLoop fuel (idx + 1)
                  (some (begin, placed sst trancId isAborted idx hidx stop))
      else found

/-- `sst_iters_monotony_predicate` -/
def itersMonotonyPredicate : Option (SstIterator × SstIterator) :=
  match rangeLoop sst trancId predicate isAborted sst.numBlocks 0 none with
  | none => none
  | some (begin, stop) =>
      some (begin, if stop.blocks.cursor.any BlockIterator.isEnd then stop.next else stop)

end Query

/-- `operator==` for two iterators over one file.  `sameBlock` tells whether the
two block iterators share one decoded block; after an eviction from the block
cache the same block is decoded into another object. -/
def equal (sameBlock : Bool) (left right : SstIterator) : Bool :=
  decide (left.blocks.index = right.blocks.index) &&
    match left.blocks.cursor, right.blocks.cursor with
    | none, none => true
    | some leftIt, some rightIt =>
        sameBlock && decide (leftIt.block = rightIt.block) &&
          decide (leftIt.currentIndex = rightIt.currentIndex)
    | _, _ => false

/-- The loop of a range query over one file, at most `fuel` rounds.  It checks the
predicate again for every record. -/
def collect (predicate : Bytes → ℤ) (sameBlock : SstIterator → Bool)
    (stop : SstIterator) : ℕ → SstIterator → List Entry
  | 0, _ => []
  | fuel + 1, it =>
      if equal (sameBlock it) it stop || it.isEnd then []
      else
        match it.current? with
        | none => collect predicate sameBlock stop fuel it.next
        | some entry =>
            if predicate entry.key < 0 then []
            else if predicate entry.key > 0 then
              collect predicate sameBlock stop fuel it.next
            else entry :: collect predicate sameBlock stop fuel it.next

/-- What a range query takes from one file. -/
def collectRange (sst : SST) (trancId : ℕ) (predicate : Bytes → ℤ)
    (isAborted : ℕ → Bool) (sameBlock : SstIterator → Bool) : List Entry :=
  match itersMonotonyPredicate sst trancId predicate isAborted with
  | none => []
  | some (begin, stop) =>
      collect predicate sameBlock stop (Cursor.remaining begin + 1) begin

end SstIterator

/-! ## One block -/

section Block

variable {predicate : Bytes → ℤ}

private theorem predicateAt_eq (predicate : Bytes → ℤ) {block : Block} {idx : ℕ}
    (hidx : idx < block.entries.length) :
    block.predicateAt predicate idx = predicate block.entries[idx].key := by
  simp [Block.predicateAt, List.getElem?_eq_getElem hidx]

/-- The two bisections cut the block into the part left of the range, the range
and the part right of it. -/
theorem Block.getMonotonyPredicateIters_cut (hmono : MonotonePredicate predicate)
    {block : Block} (hsorted : Versions.Sorted block.entries) (trancId : ℕ)
    (isAborted : ℕ → Bool) :
    match block.getMonotonyPredicateIters trancId predicate isAborted with
    | none => ∀ entry ∈ block.entries, predicate entry.key ≠ 0
    | some (begin, stop) => ∃ first endIdx, first ≤ endIdx ∧ endIdx ≤ block.size ∧
        begin = BlockIterator.ofIndex block first trancId false isAborted ∧
        stop = BlockIterator.ofIndex block endIdx trancId false isAborted ∧
        (∀ entry ∈ block.entries.take first, 0 < predicate entry.key) ∧
        (∀ entry ∈ block.entries.drop first, predicate entry.key ≤ 0) ∧
        (∀ entry ∈ block.entries.take endIdx, 0 ≤ predicate entry.key) ∧
        (∀ entry ∈ block.entries.drop endIdx, predicate entry.key < 0) ∧
        ∃ entry ∈ block.entries, predicate entry.key = 0 := by
  have hkeys : ∀ {i j : ℕ} (hi : i ≤ j) (hj : j < block.entries.length),
      0 < block.predicateAt predicate j → 0 < block.predicateAt predicate i := by
    intro i j hij hj hpos
    rw [predicateAt_eq predicate hj] at hpos
    rw [predicateAt_eq predicate (hij.trans_lt hj)]
    exact hmono.pos_of_le (Block.key_le_of_le hsorted hij _ hj) hpos
  have hkeys' : ∀ {i j : ℕ} (hi : i ≤ j) (hj : j < block.entries.length),
      0 ≤ block.predicateAt predicate j → 0 ≤ block.predicateAt predicate i := by
    intro i j hij hj hnonneg
    rw [predicateAt_eq predicate hj] at hnonneg
    rw [predicateAt_eq predicate (hij.trans_lt hj)]
    by_contra hneg
    have := hmono.neg_of_le (Block.key_le_of_le hsorted hij _ hj) (not_le.mp hneg)
    omega
  obtain ⟨-, hfirstLe, hbelow, habove⟩ := @BinarySearch.partitionPoint_spec
    (fun idx => decide (0 < block.predicateAt predicate idx)) 0 block.size
    (Nat.zero_le _) (by
      intro i j _ hij hj hpos
      simpa using hkeys hij hj (by simpa using hpos))
  unfold Block.getMonotonyPredicateIters
  generalize BinarySearch.partitionPoint
    (fun idx => decide (0 < block.predicateAt predicate idx)) 0 block.size = first
    at hfirstLe hbelow habove ⊢
  dsimp only
  split_ifs with hempty hmissed
  · intro entry hmem
    rw [List.isEmpty_iff.mp hempty] at hmem
    cases hmem
  · intro entry hmem
    obtain ⟨i, hi, rfl⟩ := List.mem_iff_getElem.mp hmem
    rw [← predicateAt_eq predicate hi]
    rcases Nat.lt_or_ge i first with hlt | hge
    · have hpos := hbelow i (Nat.zero_le _) hlt
      exact (of_decide_eq_true hpos).ne'
    · have hlt : first < block.entries.length := hge.trans_lt hi
      have hfirst : block.predicateAt predicate first < 0 := by
        have hle := habove first le_rfl hlt
        simp only [decide_eq_false_iff_not, not_lt] at hle
        rcases hmissed with hmissed | hmissed
        · exact absurd hlt (not_lt.mpr hmissed)
        · exact lt_of_le_of_ne hle hmissed
      by_contra hzero
      have := hkeys' hge hi hzero.ge
      omega
  · rw [not_or, not_le, not_not] at hmissed
    have hlt : first < block.entries.length := hmissed.1
    obtain ⟨hstop, hstopLe, hin, hout⟩ := @BinarySearch.partitionPoint_spec
      (fun idx => decide (0 ≤ block.predicateAt predicate idx)) first block.size
      hmissed.1.le (by
        intro i j _ hij hj hnonneg
        simpa using hkeys' hij hj (by simpa using hnonneg))
    refine ⟨first, _, hstop, hstopLe, rfl, rfl, ?_, ?_, ?_, ?_, ?_⟩
    · intro entry hmem
      obtain ⟨i, hi, rfl⟩ := List.mem_take_iff_getElem.mp hmem
      rw [← predicateAt_eq predicate]
      simpa using hbelow i (Nat.zero_le _) (by omega)
    · intro entry hmem
      obtain ⟨i, hi, rfl⟩ := List.mem_drop_iff_getElem.mp hmem
      rw [← predicateAt_eq predicate]
      simpa using habove _ (Nat.le_add_right _ i) (by rw [Nat.add_comm]; exact hi)
    · intro entry hmem
      obtain ⟨i, hi, rfl⟩ := List.mem_take_iff_getElem.mp hmem
      rw [← predicateAt_eq predicate]
      rcases Nat.lt_or_ge i first with hlt | hge
      · have hpos := hbelow i (Nat.zero_le _) hlt
        exact (of_decide_eq_true hpos).le
      · simpa using hin i hge (by omega)
    · intro entry hmem
      obtain ⟨i, hi, rfl⟩ := List.mem_drop_iff_getElem.mp hmem
      rw [← predicateAt_eq predicate]
      simpa using hout _ (Nat.le_add_right _ i) (by rw [Nat.add_comm]; exact hi)
    · refine ⟨block.entries[first], List.getElem_mem hlt, ?_⟩
      rw [← predicateAt_eq predicate hlt]
      exact hmissed.2

/-- The parts of the block that the loop over the blocks looks at. -/
theorem Block.getMonotonyPredicateIters_spec (hmono : MonotonePredicate predicate)
    {block : Block} (hsorted : Versions.Sorted block.entries) (trancId : ℕ)
    (isAborted : ℕ → Bool) :
    match block.getMonotonyPredicateIters trancId predicate isAborted with
    | none => ∀ entry ∈ block.entries, predicate entry.key ≠ 0
    | some (begin, stop) => ∃ first endIdx, first ≤ endIdx ∧ endIdx ≤ block.size ∧
        begin = BlockIterator.ofIndex block first trancId false isAborted ∧
        stop = BlockIterator.ofIndex block endIdx trancId false isAborted ∧
        (∀ entry ∈ block.entries.take first, 0 < predicate entry.key) ∧
        (∀ entry ∈ block.entries.drop first, predicate entry.key ≤ 0) ∧
        (∀ entry ∈ block.entries.drop endIdx, predicate entry.key < 0) ∧
        ∃ entry ∈ block.entries, predicate entry.key = 0 := by
  have hcut := Block.getMonotonyPredicateIters_cut hmono hsorted trancId isAborted
  cases hpair : block.getMonotonyPredicateIters trancId predicate isAborted with
  | none =>
      rw [hpair] at hcut
      exact hcut
  | some pair =>
      rw [hpair] at hcut
      obtain ⟨first, endIdx, hle, hsize, hbegin, hstop, hbefore, hfrom, -, hbehind, hin⟩ := hcut
      exact ⟨first, endIdx, hle, hsize, hbegin, hstop, hbefore, hfrom, hbehind, hin⟩

end Block

/-! ## The iterator pair -/

namespace SstIterator

/-- None of the records a reader sees in block `idx` is in the range. -/
def Misses (sst : SST) (trancId : ℕ) (predicate : Bytes → ℤ) (isAborted : ℕ → Bool)
    (idx : ℕ) : Prop :=
  ∀ hidx : idx < sst.blocks.length, ∀ entry ∈ sst.blocks[idx].2.entries,
    Versions.visible trancId isAborted entry.txid → predicate entry.key ≠ 0

/-- What the loop over the blocks has found in front of block `idx`: the first
iterator skips nothing of the range, and no record of the range is behind the
second one. -/
def Found (sst : SST) (trancId : ℕ) (predicate : Bytes → ℤ) (isAborted : ℕ → Bool)
    (idx : ℕ) : Option (SstIterator × SstIterator) → Prop
  | none => ∀ i < idx, Misses sst trancId predicate isAborted i
  | some (begin, stop) =>
      (∃ (i : ℕ) (hi : i < sst.blocks.length) (first : ℕ),
        begin = placed sst trancId isAborted i hi
          (BlockIterator.ofIndex sst.blocks[i].2 first trancId false isAborted) ∧
        (BlockIterator.ofIndex sst.blocks[i].2 first trancId false isAborted).isEnd =
          false ∧
        (∀ entry ∈ sst.blocks[i].2.entries.take first, 0 < predicate entry.key) ∧
        (∀ entry ∈ sst.blocks[i].2.entries.drop first, predicate entry.key ≤ 0) ∧
        ∀ j < i, Misses sst trancId predicate isAborted j) ∧
      ∃ (i : ℕ) (hi : i < sst.blocks.length) (blockIt : BlockIterator),
        stop = placed sst trancId isAborted i hi blockIt ∧
        (∀ entry ∈ blockIt.rest, predicate entry.key < 0) ∧
        (∃ entry ∈ sst.blocks[i].2.entries, predicate entry.key = 0) ∧
        ∀ j, i < j → j < idx → Misses sst trancId predicate isAborted j

section Query

variable {sst : SST} {trancId : ℕ} {predicate : Bytes → ℤ} {isAborted : ℕ → Bool}

/-- Blocks without records of the range change nothing. -/
private theorem Found.extend {idx idx' : ℕ} {found : Option (SstIterator × SstIterator)}
    (hfound : Found sst trancId predicate isAborted idx found)
    (hmisses : ∀ j, idx ≤ j → Misses sst trancId predicate isAborted j ∨ idx' ≤ j) :
    Found sst trancId predicate isAborted idx' found := by
  have hcombine : ∀ j, j < idx' → (j < idx → Misses sst trancId predicate isAborted j) →
      Misses sst trancId predicate isAborted j := by
    intro j hj hbefore
    rcases Nat.lt_or_ge j idx with hlt | hge
    · exact hbefore hlt
    · exact (hmisses j hge).resolve_right (by omega)
  cases found with
  | none => exact fun j hj => hcombine j hj (hfound j)
  | some pair =>
      obtain ⟨hbegin, i, hi, blockIt, hstop, hrest, hin, hafter⟩ := hfound
      exact ⟨hbegin, i, hi, blockIt, hstop, hrest, hin,
        fun j hij hj => hcombine j hj (hafter j hij)⟩

private theorem rest_ofIndex_subset (block : Block) (index trancId : ℕ)
    (isAborted : ℕ → Bool) :
    (BlockIterator.ofIndex block index trancId false isAborted).rest ⊆
      block.entries.drop index := by
  rw [BlockIterator.ofIndex, BlockIterator.rest_skipByTrancId]
  exact List.dropWhile_subset _

/-- A visible record from the index on is not skipped. -/
private theorem mem_rest_ofIndex {block : Block} {index trancId : ℕ}
    {isAborted : ℕ → Bool} {entry : Entry} (hmem : entry ∈ block.entries.drop index)
    (hvisible : Versions.visible trancId isAborted entry.txid) :
    entry ∈ (BlockIterator.ofIndex block index trancId false isAborted).rest := by
  rw [BlockIterator.ofIndex, BlockIterator.rest_skipByTrancId]
  change entry ∈ (block.entries.drop index).dropWhile _
  rw [← List.takeWhile_append_dropWhile
    (p := fun entry : Entry => !Versions.visible trancId isAborted entry.txid)
    (l := block.entries.drop index)] at hmem
  rcases List.mem_append.mp hmem with hmem | hmem
  · have hhidden := List.mem_takeWhile_imp hmem
    rw [hvisible] at hhidden
    cases hhidden
  · exact hmem

/-- Two iterators of one block that differ do not both stand at its end. -/
private theorem not_isEnd_ofIndex {block : Block} {first endIdx trancId : ℕ}
    {isAborted : ℕ → Bool} (hle : first ≤ endIdx) (hsize : endIdx ≤ block.size)
    (hne : (BlockIterator.ofIndex block first trancId false isAborted).currentIndex ≠
      (BlockIterator.ofIndex block endIdx trancId false isAborted).currentIndex) :
    (BlockIterator.ofIndex block first trancId false isAborted).isEnd = false := by
  have hbound : ∀ index ≤ block.size,
      (BlockIterator.ofIndex block index trancId false isAborted).currentIndex ≤
        block.size := by
    intro index hindex
    have hlength := (List.takeWhile_sublist (l := block.entries.drop index)
      fun entry : Entry => !Versions.visible trancId isAborted entry.txid).length_le
    rw [List.length_drop] at hlength
    change index + _ ≤ _
    simp only [BlockIterator.rest, Block.size] at *
    omega
  by_contra hend
  rw [Bool.not_eq_false, BlockIterator.isEnd, decide_eq_true_eq] at hend
  have hfirst := hbound first (hle.trans hsize)
  have hhidden : (BlockIterator.ofIndex block endIdx trancId false isAborted).rest = [] := by
    rw [BlockIterator.ofIndex, BlockIterator.rest_skipByTrancId, List.dropWhile_eq_nil_iff]
    intro entry hmem
    by_contra hvisible
    have hdrop : entry ∈ block.entries.drop first :=
      (List.drop_sublist_drop_left block.entries hle).subset hmem
    have hrest := mem_rest_ofIndex hdrop (by simpa using hvisible)
    rw [BlockIterator.rest, List.drop_eq_nil_of_le hend] at hrest
    cases hrest
  have hstop := hbound endIdx hsize
  have hlength := congrArg List.length hhidden
  rw [BlockIterator.rest, List.length_drop, List.length_nil] at hlength
  apply hne
  change block.size ≤ _ at hend
  change block.entries.length - _ = 0 at hlength
  simp only [Block.size] at *
  omega

variable (hsst : sst.WellFormed) (hmono : MonotonePredicate predicate)
  (hempty : 0 < predicate [])
include hsst hmono hempty

/-- A block whose first key is right of the range ends the search. -/
private theorem misses_of_firstKey {idx : ℕ} (hidx : idx < sst.blocks.length)
    (hfirst : predicate sst.blocks[idx].1.firstKey < 0) :
    ∀ j, idx ≤ j → Misses sst trancId predicate isAborted j := by
  intro j hj hlt entry hentry _
  by_cases hkey : entry.key = []
  · rw [hkey]
    exact hempty.ne'
  · refine (hmono.neg_of_le ?_ hfirst).ne
    rw [(hsst.described.getElem hidx).1]
    refine firstUserKey_le ?_ ?_ hkey
    · refine hsst.sorted.sublist ?_
      rw [SST.records]
      nth_rewrite 2 [← List.take_append_drop idx sst.blocks]
      rw [List.flatMap_append]
      exact List.sublist_append_right _ _
    · refine List.mem_flatMap.mpr ⟨sst.blocks[j], ?_, hentry⟩
      rw [List.mem_drop_iff_getElem]
      exact ⟨j - idx, by omega, by simp [Nat.add_sub_cancel' hj]⟩

private theorem rangeLoop_found {fuel idx : ℕ}
    {found : Option (SstIterator × SstIterator)} (hfuel : idx + fuel = sst.numBlocks)
    (hfound : Found sst trancId predicate isAborted idx found) :
    Found sst trancId predicate isAborted sst.numBlocks
      (rangeLoop sst trancId predicate isAborted fuel idx found) := by
  induction fuel generalizing idx found with
  | zero =>
      obtain rfl : idx = sst.numBlocks := by omega
      exact hfound
  | succ fuel ih =>
      have hidx : idx < sst.blocks.length := by
        change idx < sst.numBlocks
        omega
      have hsorted := hsst.block_sorted (List.getElem_mem hidx)
      have hskip : Misses sst trancId predicate isAborted idx →
          Found sst trancId predicate isAborted sst.numBlocks
            (rangeLoop sst trancId predicate isAborted fuel (idx + 1) found) := by
        intro hmiss
        refine ih (by omega) (hfound.extend ?_)
        intro j hj
        rcases hj.lt_or_eq with hlt | rfl
        · exact Or.inr hlt
        · exact Or.inl hmiss
      have hspec := Block.getMonotonyPredicateIters_spec hmono hsorted trancId isAborted
      rw [rangeLoop, dif_pos hidx]
      dsimp only
      split_ifs with hfirst hlast
      · refine hfound.extend ?_
        intro j hj
        exact Or.inl (misses_of_firstKey hsst hmono hempty hidx hfirst j hj)
      · apply hskip
        intro _ entry hentry _
        refine (hmono.pos_of_le ?_ hlast).ne'
        rw [(hsst.described.getElem hidx).2]
        exact le_finalKey hsorted hentry
      · split
        next hnone =>
            rw [hnone] at hspec
            exact hskip fun _ entry hentry _ => hspec entry hentry
        next begin stop hpair =>
            rw [hpair] at hspec
            obtain ⟨first, endIdx, hle, hsize, rfl, rfl, hbefore, hfrom, hbehind, hin⟩ := hspec
            split_ifs with hsame
            · apply hskip
              intro _ entry hentry hvisible
              rw [← List.take_append_drop first sst.blocks[idx].2.entries] at hentry
              rcases List.mem_append.mp hentry with hentry | hentry
              · exact (hbefore entry hentry).ne'
              · have hrest := mem_rest_ofIndex hentry hvisible
                have hstop : (BlockIterator.ofIndex sst.blocks[idx].2 first trancId false
                    isAborted).rest = (BlockIterator.ofIndex sst.blocks[idx].2 endIdx
                      trancId false isAborted).rest :=
                  congrArg (fun index => sst.blocks[idx].2.entries.drop index) hsame
                rw [hstop] at hrest
                exact (hbehind entry (rest_ofIndex_subset _ _ _ _ hrest)).ne
            · apply ih (by omega)
              have hend := not_isEnd_ofIndex hle hsize hsame
              refine ⟨?_, idx, hidx, _, rfl, ?_, hin, ?_⟩
              · cases found with
                | none => exact ⟨idx, hidx, first, rfl, hend, hbefore, hfrom, hfound⟩
                | some pair => exact hfound.1
              · intro entry hentry
                exact hbehind entry (rest_ofIndex_subset _ _ _ _ hentry)
              · intro j hij hj
                omega

end Query

/-! ## The records of the range -/

section Collect

variable {predicate : Bytes → ℤ} (hmono : MonotonePredicate predicate)
include hmono

/-- Behind a key right of the range nothing is in the range. -/
private theorem filter_eq_nil {entry : Entry} {rest : List Entry}
    (hkeys : (entry :: rest).Pairwise fun left right => left.key ≤ right.key)
    (hneg : predicate entry.key < 0) :
    ((entry :: rest).filter fun entry => predicate entry.key = 0) = [] := by
  rw [List.filter_eq_nil_iff]
  intro other hmem
  rw [decide_eq_true_eq]
  rcases List.mem_cons.mp hmem with rfl | hmem
  · exact hneg.ne
  · exact (hmono.neg_of_le ((List.pairwise_cons.mp hkeys).1 other hmem) hneg).ne

/-- The loop takes every record of the range, whether or not the comparison with
the second iterator succeeds. -/
private theorem collect_eq {sameBlock : SstIterator → Bool} {stop : SstIterator}
    (hstop : stop.blocks.cursor ≠ none →
      ∃ record, stop.current? = some record ∧ predicate record.key < 0)
    {fuel : ℕ} {it : SstIterator}
    (hnormal : it.current? = none → it.blocks.cursor = none)
    (hkeys : (Cursor.toList it).Pairwise fun left right => left.key ≤ right.key)
    (hfuel : Cursor.remaining it < fuel) :
    collect predicate sameBlock stop fuel it =
      (Cursor.toList it).filter fun entry => predicate entry.key = 0 := by
  induction fuel generalizing it with
  | zero => cases hfuel
  | succ fuel ih =>
      rw [collect]
      cases hcurrent : it.current? with
      | none =>
          have hend : it.isEnd = true := by rw [isEnd, hnormal hcurrent]; rfl
          rw [hend, Bool.or_true, if_pos rfl, Cursor.toList_of_none hcurrent,
            List.filter_nil]
      | some entry =>
          have hlist : Cursor.toList it = entry :: Cursor.toList it.next :=
            Cursor.toList_of_some hcurrent
          rw [hlist] at hkeys ⊢
          have hremaining : Cursor.remaining it.next < Cursor.remaining it :=
            Cursor.remaining_next hcurrent
          have hrest : collect predicate sameBlock stop fuel it.next =
              (Cursor.toList it.next).filter fun entry => predicate entry.key = 0 :=
            ih (fun hnext => Chain.next_cursor hcurrent hnext)
              (List.pairwise_cons.mp hkeys).2 (by omega)
          split_ifs with hmet
          · -- The second iterator stands right of the range, so the loop would
            -- have left on the record itself.
            symm
            apply filter_eq_nil hmono hkeys
            obtain ⟨blockIt, hblockIt, hrecord⟩ := Option.bind_eq_some_iff.mp hcurrent
            rw [isEnd, hblockIt, Option.isNone_some, Bool.or_false, equal,
              Bool.and_eq_true] at hmet
            cases hstopIt : stop.blocks.cursor with
            | none =>
                rw [hblockIt, hstopIt] at hmet
                cases hmet.2
            | some stopIt =>
                obtain ⟨record, hstopRecord, hneg⟩ := hstop (by rw [hstopIt]; simp)
                rw [hblockIt, hstopIt] at hmet
                simp only [Bool.and_eq_true, decide_eq_true_eq] at hmet
                obtain ⟨-, ⟨-, hblock⟩, hposition⟩ := hmet
                change blockIt.current? = some entry at hrecord
                have hsame : stop.current? = stopIt.current? := by
                  rw [current?, Chain.current?, hstopIt]
                  rfl
                rw [hsame, BlockIterator.current?, ← hblock, ← hposition] at hstopRecord
                rw [BlockIterator.current?, hstopRecord, Option.some.injEq] at hrecord
                rwa [← hrecord]
          · dsimp only
            split_ifs with hneg hpos
            · exact (filter_eq_nil hmono hkeys hneg).symm
            · rw [List.filter_cons_of_neg (by simpa using hpos.ne'), hrest]
            · have hzero : predicate entry.key = 0 := by omega
              rw [List.filter_cons_of_pos (by simpa using hzero), hrest]

end Collect

section Range

variable {sst : SST} {predicate : Bytes → ℤ} (hsst : sst.WellFormed)
  (hmono : MonotonePredicate predicate)

private theorem filter_shown_of_misses {trancId : ℕ} {isAborted : ℕ → Bool}
    {blocks : List (BlockMeta × Block)}
    (hmisses : ∀ block ∈ blocks, ∀ entry ∈ block.2.entries,
      Versions.visible trancId isAborted entry.txid → predicate entry.key ≠ 0) :
    ((blocks.flatMap fun block => Versions.shown trancId isAborted false
      block.2.entries).filter fun entry => predicate entry.key = 0) = [] := by
  rw [List.filter_eq_nil_iff]
  intro entry hmem
  obtain ⟨block, hblock, hshown⟩ := List.mem_flatMap.mp hmem
  obtain ⟨hentry, hvisible⟩ := Versions.mem_shown hshown
  simpa using hmisses block hblock entry hentry hvisible

include hsst hmono

/-- The second iterator of the pair stands right of the range. -/
private theorem stop_right {trancId : ℕ} {isAborted : ℕ → Bool} {i : ℕ}
    {blockIt : BlockIterator} (hi : i < sst.blocks.length)
    (hrest : ∀ entry ∈ blockIt.rest, predicate entry.key < 0)
    (hin : ∃ entry ∈ sst.blocks[i].2.entries, predicate entry.key = 0)
    (hafter : ∀ j, i < j → j < sst.numBlocks →
      Misses sst trancId predicate isAborted j) :
    let stop := placed sst trancId isAborted i hi blockIt
    let stop := if stop.blocks.cursor.any BlockIterator.isEnd then stop.next else stop
    stop.blocks.cursor ≠ none →
      ∃ record, stop.current? = some record ∧ predicate record.key < 0 := by
  dsimp only
  set stop := placed sst trancId isAborted i hi blockIt with hstop
  have hcursor : stop.blocks.cursor = some blockIt := rfl
  rw [hcursor, Option.any_some]
  split_ifs with hend
  · -- The block is exhausted: the iterator moves on to the next visible record.
    intro hmoved
    have hnone : blockIt.current? = none := BlockIterator.isEnd_iff.mp hend
    have hstay : Cursor.next blockIt = blockIt := by
      change blockIt.next = blockIt
      unfold BlockIterator.next
      rw [hnone]
    have hnext : stop.next.blocks = stop.blocks.enter (i + 1) :=
      Chain.next_of_none hcursor (by rw [hstay]; exact hnone)
    cases hcurrent : stop.next.current? with
    | none =>
        rw [current?, hnext] at hcurrent
        rw [hnext, Chain.enter_cursor hcurrent] at hmoved
        exact absurd rfl hmoved
    | some record =>
        refine ⟨record, rfl, ?_⟩
        have hmem : record ∈ (sst.blocks.drop (i + 1)).flatMap fun block =>
            Cursor.toList (openBlock trancId false isAborted block) := by
          have hlist := stop.blocks.toList_enter (i + 1)
          rw [current?, hnext, ← Chain.cursor_current?, Cursor.current?_eq_head?,
            hlist] at hcurrent
          exact List.mem_of_mem_head? hcurrent
        obtain ⟨other, hother, hshown⟩ := List.mem_flatMap.mp hmem
        rw [hsst.toList_openBlock (List.mem_of_mem_drop hother)] at hshown
        obtain ⟨j, hj, rfl⟩ := List.mem_drop_iff_getElem.mp hother
        obtain ⟨hentry, hvisible⟩ := Versions.mem_shown hshown
        obtain ⟨entry, hentryMem, hzero⟩ := hin
        have hlt : i + 1 + j < sst.blocks.length := by omega
        have hne := hafter (i + 1 + j) (by omega) hlt hlt record hentry hvisible
        have hle : entry.key ≤ record.key := by
          have hpair := List.pairwise_iff_getElem.mp
            (List.pairwise_map.mp hsst.separated)
          exact (hpair i (i + 1 + j) hi hlt (by omega) entry hentryMem record hentry).le
        have hnotPos : ¬ 0 < predicate record.key := fun hpos =>
          (hmono.pos_of_le hle hpos).ne' hzero
        omega
  · intro _
    cases hrecord : blockIt.current? with
    | none => exact absurd (BlockIterator.isEnd_iff.mpr hrecord) hend
    | some record =>
        refine ⟨record, hrecord, hrest record ?_⟩
        rw [BlockIterator.current?_eq_head?] at hrecord
        exact List.mem_of_mem_head? hrecord

/-- A range query takes from a file exactly the records of the range that the
reader sees. -/
theorem collectRange_eq (hempty : 0 < predicate []) (trancId : ℕ) (isAborted : ℕ → Bool)
    (sameBlock : SstIterator → Bool) :
    collectRange sst trancId predicate isAborted sameBlock =
      (Versions.shown trancId isAborted false sst.records).filter fun entry =>
        predicate entry.key = 0 := by
  have hfound : Found sst trancId predicate isAborted sst.numBlocks
      (rangeLoop sst trancId predicate isAborted sst.numBlocks 0 none) :=
    rangeLoop_found hsst hmono hempty (Nat.zero_add _)
      (fun i hi => absurd hi (Nat.not_lt_zero i))
  have hblocks := hsst.shown_records trancId isAborted false
  have hsorted : Versions.Sorted
      (Versions.shown trancId isAborted false sst.records) :=
    (hsst.sorted.shown_strictKeys trancId isAborted).sorted
  unfold collectRange itersMonotonyPredicate
  cases hloop : rangeLoop sst trancId predicate isAborted sst.numBlocks 0 none with
  | none =>
      rw [hloop] at hfound
      symm
      rw [← hblocks]
      apply filter_shown_of_misses
      intro block hmem
      obtain ⟨i, hi, rfl⟩ := List.mem_iff_getElem.mp hmem
      exact hfound i hi hi
  | some pair =>
      obtain ⟨begin, stop⟩ := pair
      rw [hloop] at hfound
      obtain ⟨⟨i, hi, first, rfl, hend, hbefore, hfrom, hmisses⟩,
        k, hk, stopIt, rfl, hrest, hin, hafter⟩ := hfound
      have hblockSorted := hsst.block_sorted (List.getElem_mem hi)
      have hcut : Versions.shown trancId isAborted false sst.blocks[i].2.entries =
          Versions.shown trancId isAborted false (sst.blocks[i].2.entries.take first) ++
            Versions.shown trancId isAborted false
              (sst.blocks[i].2.entries.drop first) := by
        rw [← Versions.shown_append, List.take_append_drop]
        intro left hleft right hright
        have hle : left.key ≤ right.key := by
          rw [← List.take_append_drop first sst.blocks[i].2.entries] at hblockSorted
          exact ((List.pairwise_append.mp hblockSorted).2.2 left hleft right hright).key_le
        refine lt_of_le_of_ne hle ?_
        intro heq
        have hpos := hbefore left hleft
        rw [heq] at hpos
        exact hpos.not_ge (hfrom right hright)
      set begin := placed sst trancId isAborted i hi
        (BlockIterator.ofIndex sst.blocks[i].2 first trancId false isAborted) with hbegin
      have hcurrent : Cursor.current?
          (BlockIterator.ofIndex sst.blocks[i].2 first trancId false isAborted) ≠ none := by
        intro hnone
        rw [BlockIterator.isEnd_iff.mpr hnone] at hend
        cases hend
      have hlist : Cursor.toList begin =
          Versions.shown trancId isAborted false (sst.blocks[i].2.entries.drop first) ++
            (sst.blocks.drop (i + 1)).flatMap fun block =>
              Versions.shown trancId isAborted false block.2.entries := by
        rw [← toList_blocks, Chain.toList_eq_append rfl hcurrent,
          BlockIterator.toList_ofIndex hblockSorted, Chain.toList_enter]
        congr 1
        exact List.flatMap_congr fun block hmem =>
          hsst.toList_openBlock (List.mem_of_mem_drop hmem) _ _ _
      have hsplit : Versions.shown trancId isAborted false sst.records =
          ((sst.blocks.take i).flatMap fun block =>
            Versions.shown trancId isAborted false block.2.entries) ++
          (Versions.shown trancId isAborted false (sst.blocks[i].2.entries.take first) ++
            Cursor.toList begin) := by
        have hcons := congrArg (List.flatMap fun block : BlockMeta × Block =>
          Versions.shown trancId isAborted false block.2.entries)
          (List.take_append_drop i sst.blocks)
        rw [List.drop_eq_getElem_cons hi, List.flatMap_append,
          List.flatMap_cons, hcut] at hcons
        rw [← hblocks, hlist, ← hcons, List.append_assoc]
      have hfront : ((sst.blocks.take i).flatMap fun block =>
          Versions.shown trancId isAborted false block.2.entries).filter
            (fun entry => predicate entry.key = 0) = [] := by
        apply filter_shown_of_misses
        intro other hmem
        obtain ⟨j, hj, rfl⟩ := List.mem_take_iff_getElem.mp hmem
        exact hmisses j (by omega) (by omega)
      have hleft : (Versions.shown trancId isAborted false
          (sst.blocks[i].2.entries.take first)).filter
            (fun entry => predicate entry.key = 0) = [] := by
        rw [List.filter_eq_nil_iff]
        intro entry hmem
        simpa using (hbefore entry (Versions.mem_shown hmem).1).ne'
      rw [hsplit, List.filter_append, List.filter_append, hfront, hleft,
        List.nil_append, List.nil_append]
      apply collect_eq hmono (stop_right hsst hmono hk hrest hin hafter)
      · exact fun hnone => absurd hnone hcurrent
      · rw [hsplit] at hsorted
        refine (hsorted.sublist ?_).imp Versions.Precedes.key_le
        exact (List.sublist_append_right _ _).trans (List.sublist_append_right _ _)
      · exact Nat.lt_succ_self _

end Range

end SstIterator

end KopiDb
