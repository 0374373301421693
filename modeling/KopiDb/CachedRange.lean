import KopiDb.BlockRange
import KopiDb.SharedBlocks
import KopiDb.SstContract

/-!
# Range queries through the block cache

The two iterators of a range query hold decoded blocks.  Where the second one stands in a
later block than the first, a consumer that walks to it reads that block again, and arrives
only if the cache still holds the object of the query.
-/

namespace KopiDb

/-- A block iterator with the address of the block that it holds. -/
structure HeldIterator where
  address : ℕ
  blockIt : BlockIterator

/-- `SstIterator` with its block object: `m_block_idx` and `m_block_it`. -/
structure CachedIterator where
  index : ℕ
  blockIt : Option HeldIterator

namespace CachedIterator

section Model

variable (sst : SST) (trancId : ℕ) (predicate : Bytes → ℤ) (isAborted : ℕ → Bool)

/-- The loop of `operator++` over the blocks from `idx` on, `fuel` of them. -/
def enterBlocks : ℕ → ℕ → BlockReads CachedIterator
  | 0, idx => pure ⟨idx, none⟩
  | fuel + 1, idx => do
      let nextBlock ← sst.readBlock idx
      let blockIt := BlockIterator.ofIndex nextBlock.block 0 trancId false isAborted
      if blockIt.isEnd then enterBlocks fuel (idx + 1)
      else return ⟨idx, some ⟨nextBlock.address, blockIt⟩⟩

/-- `operator++` -/
def next (it : CachedIterator) : BlockReads CachedIterator :=
  match it.blockIt with
  | none => pure it
  | some held =>
      let blockIt := held.blockIt.next
      if blockIt.isEnd then
        enterBlocks sst trancId isAborted (sst.numBlocks - (it.index + 1)) (it.index + 1)
      else pure ⟨it.index, some ⟨held.address, blockIt⟩⟩

/-- The loop of `sst_iters_monotony_predicate` over the blocks from `idx` on, `fuel` of
them. -/
def rangeLoop : ℕ → ℕ → Option (CachedIterator × CachedIterator) →
    BlockReads (Option (CachedIterator × CachedIterator))
  | 0, _, found => pure found
  | fuel + 1, idx, found =>
      match sst.blocks[idx]? with
      | none => pure found
      | some (info, _) =>
          if predicate info.firstKey < 0 then pure found
          else if predicate info.lastKey > 0 then rangeLoop fuel (idx + 1) found
          else do
            let shared ← sst.readBlock idx
            match shared.block.getMonotonyPredicateIters trancId predicate isAborted with
            | none => rangeLoop fuel (idx + 1) found
            | some (first, stop) =>
                -- Both iterators hold the same object.
                if first.currentIndex = stop.currentIndex then
                  rangeLoop fuel (idx + 1) found
                else
                  let begin := match found with
                    | none => ⟨idx, some ⟨shared.address, first⟩⟩
                    | some (begin, _) => begin
                  rangeLoop fuel (idx + 1)
                    (some (begin, ⟨idx, some ⟨shared.address, stop⟩⟩))

/-- `sst_iters_monotony_predicate` -/
def itersMonotonyPredicate : BlockReads (Option (CachedIterator × CachedIterator)) := do
  let found ← rangeLoop sst trancId predicate isAborted sst.numBlocks 0 none
  match found with
  | none => return none
  | some (begin, stop) =>
      if stop.blockIt.any fun held => held.blockIt.isEnd then
        let stop ← next sst trancId isAborted stop
        return some (begin, stop)
      else return some (begin, stop)

/-- `operator==` for two iterators over one file. -/
def equal (left right : CachedIterator) : Bool :=
  decide (left.index = right.index) &&
    match left.blockIt, right.blockIt with
    | none, none => true
    | some leftIt, some rightIt =>
        decide (leftIt.address = rightIt.address) &&
          decide (leftIt.blockIt.currentIndex = rightIt.blockIt.currentIndex)
    | _, _ => false

/-- The record of a valid iterator. -/
def current? (it : CachedIterator) : Option Entry :=
  it.blockIt.bind fun held => held.blockIt.current?

/-- A consumer that steps from an iterator to the second one, at most `fuel` times: the
records it passes, or `none` if it has not arrived. -/
def walk (stop : CachedIterator) : ℕ → CachedIterator → BlockReads (Option (List Entry))
  | 0, it => return if it.equal stop then some [] else none
  | fuel + 1, it =>
      if it.equal stop then return some []
      else do
        let following ← next sst trancId isAborted it
        let passed ← walk stop fuel following
        return passed.map (it.current?.toList ++ ·)

end Model

end CachedIterator

theorem BlockReads.bind_ok {α β : Type} {first : BlockReads α} {rest : α → BlockReads β}
    {pool pool' : BlockPool} {value : α} (hfirst : first pool = .ok (value, pool')) :
    (first >>= rest) pool = rest value pool' := by
  change (first pool >>= fun result => rest result.1 result.2) = _
  rw [hfirst]
  rfl

/-! ## One step -/

namespace SST

/-- The records from a block on. -/
def recordsFrom (sst : SST) (idx : ℕ) : List Entry :=
  (sst.blocks.drop idx).flatMap fun block => block.2.entries

/-- The records in front of a block. -/
def recordsBefore (sst : SST) (idx : ℕ) : List Entry :=
  (sst.blocks.take idx).flatMap fun block => block.2.entries

theorem records_eq_append (sst : SST) (idx : ℕ) :
    sst.records = sst.recordsBefore idx ++ sst.recordsFrom idx := by
  rw [recordsBefore, recordsFrom, ← List.flatMap_append, List.take_append_drop]
  rfl

theorem mem_recordsFrom {sst : SST} {idx : ℕ} {entry : Entry} :
    entry ∈ sst.recordsFrom idx ↔ ∃ j, ∃ hj : j < sst.blocks.length, idx ≤ j ∧
      entry ∈ sst.blocks[j].2.entries := by
  constructor
  · intro hmem
    obtain ⟨block, hblock, hentry⟩ := List.mem_flatMap.mp hmem
    obtain ⟨j, hj, rfl⟩ := List.mem_drop_iff_getElem.mp hblock
    exact ⟨idx + j, by omega, Nat.le_add_right _ _, hentry⟩
  · rintro ⟨j, hj, hle, hentry⟩
    refine List.mem_flatMap.mpr ⟨sst.blocks[j], ?_, hentry⟩
    rw [List.mem_drop_iff_getElem]
    exact ⟨j - idx, by omega, by simp [Nat.add_sub_cancel' hle]⟩

theorem mem_recordsBefore {sst : SST} {idx : ℕ} {entry : Entry} :
    entry ∈ sst.recordsBefore idx ↔ ∃ j, ∃ _ : j < sst.blocks.length, j < idx ∧
      entry ∈ sst.blocks[j].2.entries := by
  constructor
  · intro hmem
    obtain ⟨block, hblock, hentry⟩ := List.mem_flatMap.mp hmem
    obtain ⟨j, hj, rfl⟩ := List.mem_take_iff_getElem.mp hblock
    exact ⟨j, by omega, by omega, hentry⟩
  · rintro ⟨j, hj, hlt, hentry⟩
    refine List.mem_flatMap.mpr ⟨sst.blocks[j], ?_, hentry⟩
    rw [List.mem_take_iff_getElem]
    exact ⟨j, by omega, rfl⟩

/-- Keys ascend from block to block. -/
theorem WellFormed.key_lt {sst : SST} (hsst : sst.WellFormed) {i j : ℕ}
    {hi : i < sst.blocks.length} {hj : j < sst.blocks.length} {first second : Entry}
    (hfirst : first ∈ sst.blocks[i].2.entries) (hsecond : second ∈ sst.blocks[j].2.entries)
    (hlt : i < j) : first.key < second.key :=
  List.pairwise_iff_getElem.mp (List.pairwise_map.mp hsst.separated) i j hi hj hlt
    first hfirst second hsecond

theorem recordsFrom_of_lt {sst : SST} {idx : ℕ} (hidx : idx < sst.blocks.length) :
    sst.recordsFrom idx = sst.blocks[idx].2.entries ++ sst.recordsFrom (idx + 1) := by
  rw [recordsFrom, List.drop_eq_getElem_cons hidx, List.flatMap_cons]
  rfl

theorem recordsFrom_of_le {sst : SST} {idx : ℕ} (hidx : sst.blocks.length ≤ idx) :
    sst.recordsFrom idx = [] := by
  rw [recordsFrom, List.drop_eq_nil_of_le hidx]
  rfl

end SST

namespace CachedIterator

section Step

variable {sst : SST} {trancId : ℕ} {isAborted : ℕ → Bool}

/-- The records from the position of an iterator to the end of the file. -/
def fileRest (sst : SST) (it : CachedIterator) : List Entry :=
  match it.blockIt with
  | none => []
  | some held => held.blockIt.rest ++ sst.recordsFrom (it.index + 1)

/-- An iterator stands on a record of its block, or behind the last block. -/
def Standing (sst : SST) (trancId : ℕ) (isAborted : ℕ → Bool) (it : CachedIterator) : Prop :=
  match it.blockIt with
  | none => it.index = sst.blocks.length
  | some held => ∃ hidx : it.index < sst.blocks.length,
      held.blockIt = ⟨sst.blocks[it.index].2, held.blockIt.currentIndex, trancId, false,
        isAborted⟩ ∧ held.blockIt.current? ≠ none

theorem rest_ne_nil {blockIt : BlockIterator} (hcurrent : blockIt.current? ≠ none) :
    blockIt.rest ≠ [] := by
  rw [BlockIterator.current?_eq_head?] at hcurrent
  intro hnil
  rw [hnil] at hcurrent
  exact hcurrent rfl

/-- The record under an iterator is the first one ahead of it. -/
theorem Standing.current?_eq {it : CachedIterator}
    (hstanding : it.Standing sst trancId isAborted) :
    it.current? = (it.fileRest sst).head? := by
  unfold Standing at hstanding
  unfold current? fileRest
  cases hheld : it.blockIt with
  | none => rfl
  | some held =>
      rw [hheld] at hstanding
      obtain ⟨hidx, -, hcurrent⟩ := hstanding
      dsimp only
      rw [Option.bind_some, List.head?_append_of_ne_nil _ (rest_ne_nil hcurrent),
        BlockIterator.current?_eq_head?]

theorem Standing.fileRest_eq_nil_iff {it : CachedIterator}
    (hstanding : it.Standing sst trancId isAborted) :
    it.fileRest sst = [] ↔ it.blockIt = none := by
  unfold Standing at hstanding
  unfold fileRest
  cases hheld : it.blockIt with
  | none => exact iff_of_true rfl rfl
  | some held =>
      rw [hheld] at hstanding
      obtain ⟨hidx, -, hcurrent⟩ := hstanding
      exact iff_of_false (by simp [rest_ne_nil hcurrent]) (Option.some_ne_none held)

private theorem length_recordsFrom_le (sst : SST) {left right : ℕ} (hle : left ≤ right) :
    (sst.recordsFrom right).length ≤ (sst.recordsFrom left).length := by
  induction right, hle using Nat.le_induction with
  | base => exact le_rfl
  | succ right hle ih =>
      refine le_trans ?_ ih
      rcases Nat.lt_or_ge right sst.blocks.length with hlt | hge
      · rw [SST.recordsFrom_of_lt hlt, List.length_append]
        exact Nat.le_add_left _ _
      · rw [SST.recordsFrom_of_le (Nat.le_succ_of_le hge)]
        exact Nat.zero_le _

/-- An iterator in a later block has fewer records ahead. -/
theorem Standing.length_fileRest_lt {left right : CachedIterator}
    (hleft : left.Standing sst trancId isAborted)
    (hright : right.Standing sst trancId isAborted) (hheld : left.blockIt ≠ none)
    (hlt : left.index < right.index) :
    (right.fileRest sst).length < (left.fileRest sst).length := by
  obtain ⟨held, hheld⟩ := Option.ne_none_iff_exists'.mp hheld
  unfold Standing at hleft hright
  rw [hheld] at hleft
  obtain ⟨hidx, -, hcurrent⟩ := hleft
  have hpos := List.length_pos_iff.mpr (rest_ne_nil hcurrent)
  have hmore : (sst.recordsFrom right.index).length ≤
      (sst.recordsFrom (left.index + 1)).length := length_recordsFrom_le sst hlt
  unfold fileRest
  rw [hheld]
  cases hother : right.blockIt with
  | none =>
      dsimp only
      rw [List.length_append, List.length_nil]
      omega
  | some other =>
      rw [hother] at hright
      obtain ⟨hidx', hfields, -⟩ := hright
      rw [SST.recordsFrom_of_lt hidx', List.length_append] at hmore
      have hrest : other.blockIt.rest.length ≤ sst.blocks[right.index].2.entries.length := by
        rw [BlockIterator.rest, hfields, List.length_drop]
        exact Nat.sub_le _ _
      dsimp only
      rw [List.length_append, List.length_append]
      omega

/-- The records ahead fix the position. -/
theorem Standing.position_eq {left right : CachedIterator}
    (hleft : left.Standing sst trancId isAborted)
    (hright : right.Standing sst trancId isAborted)
    (hrest : left.fileRest sst = right.fileRest sst) :
    left.index = right.index ∧
      left.blockIt.map HeldIterator.blockIt = right.blockIt.map HeldIterator.blockIt := by
  have hnone : left.blockIt = none ↔ right.blockIt = none := by
    rw [← hleft.fileRest_eq_nil_iff, ← hright.fileRest_eq_nil_iff, hrest]
  have hlength := congrArg List.length hrest
  cases hheld : left.blockIt with
  | none =>
      have hother := hnone.mp hheld
      unfold Standing at hleft hright
      rw [hheld] at hleft
      rw [hother] at hright ⊢
      exact ⟨hleft.trans hright.symm, rfl⟩
  | some held =>
      obtain ⟨other, hother⟩ : ∃ other, right.blockIt = some other := by
        rw [← Option.ne_none_iff_exists']
        intro hnil
        rw [hnone.mpr hnil] at hheld
        cases hheld
      have hsame : left.index = right.index := by
        have hnotLt : ¬left.index < right.index := fun hlt =>
          (hleft.length_fileRest_lt hright (by rw [hheld]; simp) hlt).ne hlength.symm
        have hnotGt : ¬right.index < left.index := fun hlt =>
          (hright.length_fileRest_lt hleft (by rw [hother]; simp) hlt).ne hlength
        omega
      unfold fileRest at hlength
      unfold Standing at hleft hright
      rw [hheld] at hleft hlength
      rw [hother] at hright hlength ⊢
      obtain ⟨hidx, hfields, hcurrent⟩ := hleft
      obtain ⟨hidx', hfields', hcurrent'⟩ := hright
      refine ⟨hsame, ?_⟩
      have hblock : held.blockIt.block = sst.blocks[left.index].2 := by rw [hfields]
      have hblock' : other.blockIt.block = sst.blocks[right.index].2 := by rw [hfields']
      have hposition : held.blockIt.currentIndex = other.blockIt.currentIndex := by
        have hlt := (List.getElem?_eq_some_iff.mp
          (Option.ne_none_iff_exists'.mp hcurrent).choose_spec).1
        have hlt' := (List.getElem?_eq_some_iff.mp
          (Option.ne_none_iff_exists'.mp hcurrent').choose_spec).1
        rw [hblock] at hlt
        rw [hblock'] at hlt'
        dsimp only at hlength
        rw [List.length_append, List.length_append, BlockIterator.rest, BlockIterator.rest,
          hblock, hblock', List.length_drop, List.length_drop] at hlength
        simp only [hsame] at hlength hlt
        omega
      rw [Option.map_some, Option.map_some, hfields, hfields', hposition]
      simp only [hsame]

/-- What the loop of `operator++` reads on its way into a block: all blocks in front of it,
and the block itself. -/
def Entered (sst : SST) (idx : ℕ) (pool : BlockPool) (it : CachedIterator)
    (pool' : BlockPool) : Prop :=
  idx ≤ it.index ∧ ∃ before,
    sst.readBlocks (List.range' idx (it.index - idx)) pool = .ok ((), before) ∧
    before.Serves sst ∧
    (it.blockIt = none ∧ pool' = before ∨
      ∃ held block, it.blockIt = some held ∧
        sst.readBlock it.index before = .ok (⟨held.address, block⟩, pool') ∧
        BlockPool.ReadsTo sst it.index before ⟨held.address, block⟩ pool')

private theorem rest_ofIndex_zero (block : Block) (trancId : ℕ) (isAborted : ℕ → Bool) :
    (BlockIterator.ofIndex block 0 trancId false isAborted).rest =
      block.entries.dropWhile fun entry =>
        !Versions.visible trancId isAborted entry.txid :=
  BlockIterator.rest_skipByTrancId _

theorem isEnd_eq_false {blockIt : BlockIterator} (hend : blockIt.isEnd = false) :
    blockIt.current? ≠ none := by
  intro hnone
  rw [BlockIterator.isEnd_iff.mpr hnone] at hend
  cases hend

theorem rest_eq_nil {blockIt : BlockIterator} (hend : blockIt.isEnd = true) :
    blockIt.rest = [] := by
  have hnone := BlockIterator.isEnd_iff.mp hend
  rw [BlockIterator.current?_eq_head?] at hnone
  exact List.head?_eq_none_iff.mp hnone

variable {pool : BlockPool} (hsmall : sst.Addressable)
include hsmall

/-- The loop of `operator++` stops on the first visible record of the following blocks. -/
theorem enterBlocks_spec {fuel idx : ℕ} (hserves : pool.Serves sst)
    (hfuel : idx + fuel = sst.blocks.length) :
    ∃ it pool', enterBlocks sst trancId isAborted fuel idx pool = .ok (it, pool') ∧
      it.Standing sst trancId isAborted ∧
      it.fileRest sst = ((sst.recordsFrom idx).dropWhile fun entry =>
        !Versions.visible trancId isAborted entry.txid) ∧
      pool'.Serves sst ∧ Entered sst idx pool it pool' := by
  induction fuel generalizing idx pool with
  | zero =>
      refine ⟨⟨idx, none⟩, pool, rfl, hfuel, ?_, hserves, le_rfl, pool, ?_, hserves,
        Or.inl ⟨rfl, rfl⟩⟩
      · rw [SST.recordsFrom_of_le (by omega)]
        rfl
      · rw [Nat.sub_self]
        rfl
  | succ fuel ih =>
      have hidx : idx < sst.blocks.length := by omega
      obtain ⟨shared, middle, hread, hto, hmiddle, hblock⟩ := hserves.readBlock hsmall hidx
      rw [enterBlocks, BlockReads.bind_ok hread]
      rw [hblock, SST.recordsFrom_of_lt hidx, List.dropWhile_append, ← rest_ofIndex_zero]
      cases hend : (BlockIterator.ofIndex sst.blocks[idx].2 0 trancId false isAborted).isEnd with
      | true =>
          obtain ⟨it, pool', henter, hstanding, hrest, hserves', hle, before, hreads, hbefore,
            hlast⟩ := @ih _ (idx + 1) hmiddle (by omega)
          rw [if_pos rfl, rest_eq_nil hend]
          refine ⟨it, pool', henter, hstanding, hrest, hserves', by omega, before, ?_, hbefore,
            hlast⟩
          have hrange : List.range' idx (it.index - idx) =
              idx :: List.range' (idx + 1) (it.index - (idx + 1)) := by
            rw [show it.index - idx = (it.index - (idx + 1)) + 1 by omega, List.range'_succ]
          rw [hrange, SST.readBlocks, BlockReads.bind_ok hread]
          exact hreads
      | false =>
          have hne := rest_ne_nil (isEnd_eq_false hend)
          rw [if_neg Bool.false_ne_true, if_neg (by simpa using hne)]
          refine ⟨⟨idx, some ⟨shared.address, _⟩⟩, middle, rfl,
            ⟨hidx, rfl, isEnd_eq_false hend⟩, rfl, hmiddle, le_rfl, pool, ?_, hserves,
            Or.inr ⟨_, shared.block, rfl, hread, hto⟩⟩
          rw [Nat.sub_self]
          rfl

/-- One step passes the record under the iterator, and reads the blocks that it enters. -/
theorem next_spec (hsst : sst.WellFormed) {it : CachedIterator} (hserves : pool.Serves sst)
    (hstanding : it.Standing sst trancId isAborted) :
    ∃ it' pool', next sst trancId isAborted it pool = .ok (it', pool') ∧
      it'.Standing sst trancId isAborted ∧
      it'.fileRest sst = stepRest trancId isAborted (it.fileRest sst) ∧ pool'.Serves sst ∧
      (it'.index = it.index ∧ pool' = pool ∧
          it'.blockIt.map HeldIterator.address = it.blockIt.map HeldIterator.address ∨
        Entered sst (it.index + 1) pool it' pool') := by
  cases hheld : it.blockIt with
  | none =>
      refine ⟨it, pool, by rw [next, hheld]; rfl, hstanding, ?_, hserves,
        Or.inl ⟨rfl, rfl, by rw [hheld]⟩⟩
      have hnil : it.fileRest sst = [] := hstanding.fileRest_eq_nil_iff.mpr hheld
      rw [hnil]
      rfl
  | some held =>
      have hplace := hstanding
      unfold Standing at hplace
      rw [hheld] at hplace
      obtain ⟨hidx, hfields, hcurrent⟩ := hplace
      obtain ⟨entry, rest, hrest⟩ := List.exists_cons_of_ne_nil (rest_ne_nil hcurrent)
      have hmoved := BlockIterator.rest_next hrest
      have hsome : held.blockIt.current? = some entry := by
        rw [BlockIterator.current?_eq_head?, hrest, List.head?_cons]
      have hkeep : held.blockIt.keepAllVersions = false := by rw [hfields]
      have htranc : held.blockIt.trancId = trancId := by rw [hfields]
      have haborted : held.blockIt.isAborted = isAborted := by rw [hfields]
      have hblock : held.blockIt.block = sst.blocks[it.index].2 := by rw [hfields]
      rw [hkeep, htranc, haborted, if_neg Bool.false_ne_true] at hmoved
      have hahead : it.fileRest sst = entry :: (rest ++ sst.recordsFrom (it.index + 1)) := by
        unfold fileRest
        rw [hheld]
        dsimp only
        rw [hrest, List.cons_append]
      have hentry : entry ∈ sst.blocks[it.index].2.entries := by
        rw [← hblock]
        exact List.mem_of_getElem? hsome
      have hlater : ((sst.recordsFrom (it.index + 1)).dropWhile fun other =>
          other.key = entry.key) = sst.recordsFrom (it.index + 1) := by
        cases hfollowing : sst.recordsFrom (it.index + 1) with
        | nil => rfl
        | cons second others =>
            have hmem : second ∈ sst.recordsFrom (it.index + 1) := by
              rw [hfollowing]
              exact List.mem_cons_self
            obtain ⟨j, hj, hle, hsecond⟩ := SST.mem_recordsFrom.mp hmem
            have hlt := hsst.key_lt hentry hsecond hle
            rw [List.dropWhile_cons_of_neg (by simpa using hlt.ne')]
      rw [hahead, stepRest, List.dropWhile_append, hlater]
      cases hend : held.blockIt.next.isEnd with
      | true =>
          have hnil := rest_eq_nil hend
          rw [hmoved] at hnil
          obtain ⟨it', pool', henter, hstanding', hrest', hserves', hentered⟩ :=
            @enterBlocks_spec sst trancId isAborted pool hsmall _ _ hserves
              (show it.index + 1 + (sst.numBlocks - (it.index + 1)) = sst.blocks.length by
                simp only [SST.numBlocks]
                omega)
          refine ⟨it', pool', ?_, hstanding', ?_, hserves', Or.inr hentered⟩
          · rw [next, hheld]
            dsimp only
            rw [hend, if_pos rfl]
            exact henter
          · rw [hrest']
            split_ifs with hempty
            · rfl
            · rw [List.dropWhile_append, hnil]
              rfl
      | false =>
          have hne := rest_ne_nil (isEnd_eq_false hend)
          rw [hmoved] at hne
          refine ⟨⟨it.index, some ⟨held.address, held.blockIt.next⟩⟩, pool, ?_,
            ⟨hidx, ?_, isEnd_eq_false hend⟩, ?_, hserves, Or.inl ⟨rfl, rfl, rfl⟩⟩
          · rw [next, hheld]
            dsimp only
            rw [hend]
            rfl
          · unfold BlockIterator.next
            rw [hsome]
            simp only [BlockIterator.skipByTrancId]
            rw [hblock, htranc, haborted, hkeep]
          · have hne' : ((rest.dropWhile fun other => other.key = entry.key) : List Entry) ≠ [] := by
              intro hnil
              rw [hnil] at hne
              exact hne rfl
            rw [if_neg (by simpa using hne'), List.dropWhile_append, if_neg (by simpa using hne)]
            unfold fileRest
            dsimp only
            rw [hmoved]

end Step

/-! ## Walking to the second iterator -/

section Walk

variable {sst : SST} {trancId : ℕ} {isAborted : ℕ → Bool} {stop : CachedIterator}

/-- Equal iterators have the same records ahead. -/
theorem Standing.rest_eq_of_equal {left right : CachedIterator}
    (hleft : left.Standing sst trancId isAborted)
    (hright : right.Standing sst trancId isAborted) (hequal : left.equal right = true) :
    left.fileRest sst = right.fileRest sst := by
  unfold equal at hequal
  rw [Bool.and_eq_true, decide_eq_true_eq] at hequal
  obtain ⟨hindex, hequal⟩ := hequal
  unfold Standing at hleft hright
  unfold fileRest
  cases hheld : left.blockIt with
  | none =>
      cases hother : right.blockIt with
      | none => rfl
      | some other =>
          rw [hheld, hother] at hequal
          cases hequal
  | some held =>
      cases hother : right.blockIt with
      | none =>
          rw [hheld, hother] at hequal
          cases hequal
      | some other =>
          rw [hheld] at hleft hequal
          rw [hother] at hright hequal
          dsimp only at hequal
          rw [Bool.and_eq_true, decide_eq_true_eq, decide_eq_true_eq] at hequal
          obtain ⟨hidx, hfields, -⟩ := hleft
          obtain ⟨hidx', hfields', -⟩ := hright
          dsimp only
          rw [hfields, hfields', hequal.2]
          simp only [hindex]

/-- At the same position the iterators are equal exactly if they hold the same object. -/
theorem Standing.equal_iff {left right : CachedIterator}
    (hleft : left.Standing sst trancId isAborted)
    (hright : right.Standing sst trancId isAborted)
    (hrest : left.fileRest sst = right.fileRest sst) :
    left.equal right = true ↔
      left.blockIt.map HeldIterator.address = right.blockIt.map HeldIterator.address := by
  obtain ⟨hindex, hblockIt⟩ := hleft.position_eq hright hrest
  unfold equal
  rw [Bool.and_eq_true, decide_eq_true_eq]
  cases hheld : left.blockIt with
  | none =>
      rw [hheld, Option.map_none, eq_comm, Option.map_eq_none_iff] at hblockIt
      rw [hblockIt]
      exact iff_of_true ⟨hindex, rfl⟩ rfl
  | some held =>
      rw [hheld, Option.map_some, eq_comm, Option.map_eq_some_iff] at hblockIt
      obtain ⟨other, hother, hsame⟩ := hblockIt
      rw [hother]
      dsimp only
      rw [Bool.and_eq_true, decide_eq_true_eq, decide_eq_true_eq, Option.map_some,
        Option.map_some, Option.some.injEq, hsame]
      exact ⟨fun hequal => hequal.2.1, fun haddress => ⟨hindex, haddress, rfl⟩⟩

variable {pool : BlockPool} (hsmall : sst.Addressable) (hsst : sst.WellFormed)
include hsmall hsst

/-- A walk that is behind the second iterator never arrives. -/
theorem walk_behind (hstop : stop.Standing sst trancId isAborted) (fuel : ℕ)
    {it : CachedIterator} (hserves : pool.Serves sst)
    (hstanding : it.Standing sst trancId isAborted)
    (hbehind : (it.fileRest sst).length < (stop.fileRest sst).length) :
    ∃ pool', walk sst trancId isAborted stop fuel it pool = .ok (none, pool') := by
  have hdiffers : ∀ {it : CachedIterator}, it.Standing sst trancId isAborted →
      (it.fileRest sst).length < (stop.fileRest sst).length → it.equal stop = false := by
    intro it hstanding hbehind
    by_contra hequal
    rw [Bool.not_eq_false] at hequal
    rw [hstanding.rest_eq_of_equal hstop hequal] at hbehind
    exact hbehind.false
  induction fuel generalizing it pool with
  | zero =>
      refine ⟨pool, ?_⟩
      rw [walk, hdiffers hstanding hbehind]
      rfl
  | succ fuel ih =>
      obtain ⟨it', pool', hnext, hstanding', hrest, hserves', -⟩ :=
        next_spec hsmall hsst hserves hstanding
      have hbehind' : (it'.fileRest sst).length < (stop.fileRest sst).length := by
        rw [hrest]
        cases hnil : it.fileRest sst with
        | nil =>
            rw [hnil] at hbehind
            exact hbehind
        | cons entry rest =>
            have hstep : (stepRest trancId isAborted (entry :: rest)).length <
                (entry :: rest).length := length_stepRest_lt (List.cons_ne_nil entry rest)
            rw [hnil] at hbehind
            omega
      obtain ⟨pool'', hwalk⟩ := ih hserves' hstanding' hbehind'
      refine ⟨pool'', ?_⟩
      rw [walk, hdiffers hstanding hbehind, if_neg Bool.false_ne_true,
        BlockReads.bind_ok hnext, BlockReads.bind_ok hwalk]
      rfl

omit hsmall hsst in
/-- What decides whether a walk arrives: in the block of the second iterator it holds that
iterator's object, and in front of that block the object will still be cached. -/
def Awaits (sst : SST) (kept : Prop) (stop : CachedIterator) (pool : BlockPool)
    (it : CachedIterator) : Prop :=
  ∀ held, stop.blockIt = some held →
    (it.index = stop.index →
      (it.blockIt.map HeldIterator.address = some held.address ↔ kept)) ∧
    (it.index < stop.index → pool.Holds sst stop.index held.address ∧ ∃ before,
      sst.readBlocks (List.range' (it.index + 1) (stop.index - (it.index + 1))) pool =
        .ok ((), before) ∧
      ((before.cache.lookup (sst.blockKey stop.index)).isSome ↔ kept))

omit hsst in
/-- A step towards the second iterator does not change whether the walk arrives. -/
private theorem Awaits.step {kept : Prop} {it it' : CachedIterator} {pool' : BlockPool}
    (hawaits : Awaits sst kept stop pool it) (hserves : pool.Serves sst)
    (hstop : stop.Standing sst trancId isAborted)
    (hstanding' : it'.Standing sst trancId isAborted)
    (hahead : (stop.fileRest sst).length ≤ (it'.fileRest sst).length)
    (hreads : it'.index = it.index ∧ pool' = pool ∧
        it'.blockIt.map HeldIterator.address = it.blockIt.map HeldIterator.address ∨
      Entered sst (it.index + 1) pool it' pool') :
    Awaits sst kept stop pool' it' := by
  intro held hheld
  obtain ⟨hat, hbefore⟩ := hawaits held hheld
  rcases hreads with ⟨hindex, rfl, haddress⟩ | ⟨hle, before, hreads, hbeforeServes, hlast⟩
  · rw [hindex, haddress]
    exact ⟨hat, hbefore⟩
  · have hnotBehind : it'.index ≤ stop.index := by
      by_contra hgt
      have hless := hstop.length_fileRest_lt hstanding' (by rw [hheld]; simp) (not_le.mp hgt)
      omega
    have hstopIdx : stop.index < sst.blocks.length := by
      unfold Standing at hstop
      rw [hheld] at hstop
      exact hstop.1
    obtain ⟨hholds, arrival, harrival, hkept⟩ := hbefore (by omega)
    have hother : it'.blockIt ≠ none := by
      intro hnone
      unfold Standing at hstanding'
      rw [hnone] at hstanding'
      omega
    obtain ⟨hnone, -⟩ | ⟨own, block, hown, hread, hto⟩ := hlast
    · exact absurd hnone hother
    have hindices : ∀ idx ∈ List.range' (it.index + 1) (it'.index - (it.index + 1)),
        idx < sst.blocks.length := by
      intro idx hmem
      have hbounds := List.mem_range'_1.mp hmem
      omega
    have hbeforeHolds : before.Holds sst stop.index held.address := by
      obtain ⟨pool'', hreads', -, hkeep⟩ := hserves.readBlocks hsmall hindices
      rw [hreads, Except.ok.injEq, Prod.mk.injEq] at hreads'
      rw [hreads'.2]
      refine hkeep _ _ hstopIdx ?_ hholds
      intro hmem
      have hbounds := List.mem_range'_1.mp hmem
      omega
    constructor
    · intro hsame
      rw [hsame] at hreads hto
      rw [hreads, Except.ok.injEq, Prod.mk.injEq] at harrival
      rw [hown, Option.map_some, Option.some.injEq, ← hkept, ← harrival.2]
      exact hbeforeHolds.address_eq_iff hto
    · intro hlt
      refine ⟨hbeforeHolds.readsTo hto hsmall (by omega) hstopIdx (by omega), arrival, ?_, hkept⟩
      have hrange : List.range' (it.index + 1) (stop.index - (it.index + 1)) =
          List.range' (it.index + 1) (it'.index - (it.index + 1)) ++
            it'.index :: List.range' (it'.index + 1) (stop.index - (it'.index + 1)) := by
        rw [show it'.index :: List.range' (it'.index + 1) (stop.index - (it'.index + 1)) =
          List.range' it'.index (stop.index - (it'.index + 1) + 1) from
            List.range'_succ.symm]
        have happend := List.range'_append_1 (s := it.index + 1)
          (m := it'.index - (it.index + 1)) (n := stop.index - (it'.index + 1) + 1)
        rw [show it.index + 1 + (it'.index - (it.index + 1)) = it'.index by omega] at happend
        rw [happend]
        congr 1
        omega
      rw [hrange, BlockPool.readBlocks_append, BlockReads.bind_ok hreads, SST.readBlocks,
        BlockReads.bind_ok hread] at harrival
      exact harrival

/-- A walk passes the records in front of the second iterator.  It arrives there exactly if
that iterator stands at the end of the file or its object is kept. -/
theorem walk_spec {kept : Prop} (hstop : stop.Standing sst trancId isAborted)
    {passed : List Entry} {it : CachedIterator} (hserves : pool.Serves sst)
    (hstanding : it.Standing sst trancId isAborted)
    (hpasses : Passes trancId isAborted (stop.fileRest sst) passed (it.fileRest sst))
    (hawaits : Awaits sst kept stop pool it) :
    (stop.blockIt = none ∨ kept → ∃ fuel pool',
      walk sst trancId isAborted stop fuel it pool = .ok (some passed, pool')) ∧
    (stop.blockIt ≠ none ∧ ¬kept → ∀ fuel, ∃ pool',
      walk sst trancId isAborted stop fuel it pool = .ok (none, pool')) := by
  induction passed generalizing it pool with
  | nil =>
      have hposition : it.index = stop.index := (hstanding.position_eq hstop hpasses).1
      have hequal := hstanding.equal_iff hstop hpasses
      constructor
      · intro harrives
        have hmet : it.equal stop = true := by
          rw [hequal]
          cases hheld : stop.blockIt with
          | none =>
              rw [← hstop.fileRest_eq_nil_iff, ← show it.fileRest sst = stop.fileRest sst from
                hpasses, hstanding.fileRest_eq_nil_iff] at hheld
              rw [hheld]
          | some held =>
              rw [hheld] at harrives
              exact ((hawaits held hheld).1 hposition).mpr
                (harrives.resolve_left (Option.some_ne_none held))
        refine ⟨0, pool, ?_⟩
        rw [walk, if_pos hmet]
        rfl
      · rintro ⟨hne, hlost⟩ fuel
        obtain ⟨held, hheld⟩ := Option.ne_none_iff_exists'.mp hne
        have hmissed : it.equal stop = false := by
          rw [← Bool.not_eq_true, hequal, hheld]
          exact fun haddress => hlost (((hawaits held hheld).1 hposition).mp haddress)
        cases fuel with
        | zero =>
            refine ⟨pool, ?_⟩
            rw [walk, hmissed]
            rfl
        | succ fuel =>
            obtain ⟨it', pool', hnext, hstanding', hrest, hserves', -⟩ :=
              next_spec hsmall hsst hserves hstanding
            have hahead : stop.fileRest sst ≠ [] := by
              rw [Ne, hstop.fileRest_eq_nil_iff]
              exact hne
            have hbehind : (it'.fileRest sst).length < (stop.fileRest sst).length := by
              rw [hrest, show it.fileRest sst = stop.fileRest sst from hpasses]
              exact length_stepRest_lt hahead
            obtain ⟨pool'', hwalk⟩ :=
              walk_behind hsmall hsst hstop fuel hserves' hstanding' hbehind
            refine ⟨pool'', ?_⟩
            rw [walk, hmissed, if_neg Bool.false_ne_true, BlockReads.bind_ok hnext,
              BlockReads.bind_ok hwalk]
            rfl
  | cons entry passed ih =>
      have hlength := hpasses.length_le
      obtain ⟨hhead, htail⟩ := hpasses
      have hmissed : it.equal stop = false := by
        by_contra hequal
        rw [Bool.not_eq_false] at hequal
        rw [hstanding.rest_eq_of_equal hstop hequal, List.length_cons] at hlength
        omega
      obtain ⟨it', pool', hnext, hstanding', hrest, hserves', hreads⟩ :=
        next_spec hsmall hsst hserves hstanding
      rw [← hrest] at htail
      have hahead := htail.length_le
      have hawaits' := hawaits.step hsmall hserves hstop hstanding' (by omega) hreads
      obtain ⟨harrives, hmisses⟩ := ih hserves' hstanding' htail hawaits'
      have hcurrent : it.current? = some entry := by rw [hstanding.current?_eq, hhead]
      constructor
      · intro hkept
        obtain ⟨fuel, pool'', hwalk⟩ := harrives hkept
        refine ⟨fuel + 1, pool'', ?_⟩
        rw [walk, hmissed, if_neg Bool.false_ne_true, BlockReads.bind_ok hnext,
          BlockReads.bind_ok hwalk, hcurrent]
        rfl
      · intro hlost fuel
        cases fuel with
        | zero =>
            refine ⟨pool, ?_⟩
            rw [walk, hmissed]
            rfl
        | succ fuel =>
            obtain ⟨pool'', hwalk⟩ := hmisses hlost fuel
            refine ⟨pool'', ?_⟩
            rw [walk, hmissed, if_neg Bool.false_ne_true, BlockReads.bind_ok hnext,
              BlockReads.bind_ok hwalk]
            rfl

end Walk

end CachedIterator

/-! ## The query -/

/-- The blocks from `idx` on that the query reads: their meta entries do not exclude them. -/
def scannedBlocks (predicate : Bytes → ℤ) : List (BlockMeta × Block) → ℕ → List ℕ
  | [], _ => []
  | (info, _) :: rest, idx =>
      if predicate info.firstKey < 0 then []
      else if predicate info.lastKey > 0 then scannedBlocks predicate rest (idx + 1)
      else idx :: scannedBlocks predicate rest (idx + 1)

/-- The reader sees a record with such a key in the block. -/
def SST.ShowsAt (sst : SST) (trancId : ℕ) (isAborted : ℕ → Bool) (wanted : Bytes → Prop)
    (idx : ℕ) : Prop :=
  ∃ hidx : idx < sst.blocks.length, ∃ entry ∈ sst.blocks[idx].2.entries,
    Versions.visible trancId isAborted entry.txid ∧ wanted entry.key

namespace CachedIterator

section Query

variable {sst : SST} {trancId : ℕ} {predicate : Bytes → ℤ} {isAborted : ℕ → Bool}

/-- What the loop over the blocks has found in front of block `idx`: the first iterator stands
on the first block with a record of the range, the second one behind the range in the last
such block. -/
def Found (sst : SST) (trancId : ℕ) (predicate : Bytes → ℤ) (isAborted : ℕ → Bool) (idx : ℕ)
    (pool : BlockPool) : Option (CachedIterator × CachedIterator) → Prop
  | none => ∀ j < idx, ¬sst.ShowsAt trancId isAborted (fun key => predicate key = 0) j
  | some (begin, stop) => ∃ (i k first endIdx : ℕ) (hi : i < sst.blocks.length)
      (hk : k < sst.blocks.length) (beginAddress stopAddress : ℕ),
      begin = ⟨i, some ⟨beginAddress,
        BlockIterator.ofIndex sst.blocks[i].2 first trancId false isAborted⟩⟩ ∧
      stop = ⟨k, some ⟨stopAddress,
        BlockIterator.ofIndex sst.blocks[k].2 endIdx trancId false isAborted⟩⟩ ∧
      i ≤ k ∧ k < idx ∧ (i = k → beginAddress = stopAddress) ∧
      pool.Holds sst k stopAddress ∧
      (∀ entry ∈ sst.blocks[i].2.entries.take first, 0 < predicate entry.key) ∧
      (∀ entry ∈ sst.blocks[i].2.entries.drop first, predicate entry.key ≤ 0) ∧
      (∀ entry ∈ sst.blocks[k].2.entries.take endIdx, 0 ≤ predicate entry.key) ∧
      (∀ entry ∈ sst.blocks[k].2.entries.drop endIdx, predicate entry.key < 0) ∧
      sst.ShowsAt trancId isAborted (fun key => predicate key = 0) i ∧
      (∀ j < i, ¬sst.ShowsAt trancId isAborted (fun key => predicate key = 0) j) ∧
      sst.ShowsAt trancId isAborted (fun key => predicate key = 0) k ∧
      ∀ j, k < j → j < idx → ¬sst.ShowsAt trancId isAborted (fun key => predicate key = 0) j

/-- Blocks without records of the range change nothing. -/
private theorem Found.extend {idx idx' : ℕ} {pool pool' : BlockPool}
    {found : Option (CachedIterator × CachedIterator)}
    (hfound : Found sst trancId predicate isAborted idx pool found)
    (hle : idx ≤ idx')
    (hmisses : ∀ j, idx ≤ j → j < idx' →
      ¬sst.ShowsAt trancId isAborted (fun key => predicate key = 0) j)
    (hholds : ∀ k address, k < idx → k < sst.blocks.length → pool.Holds sst k address →
      pool'.Holds sst k address) :
    Found sst trancId predicate isAborted idx' pool' found := by
  have hcombine : ∀ j, j < idx' →
      (j < idx → ¬sst.ShowsAt trancId isAborted (fun key => predicate key = 0) j) →
      ¬sst.ShowsAt trancId isAborted (fun key => predicate key = 0) j := by
    intro j hj hbefore
    rcases Nat.lt_or_ge j idx with hlt | hge
    · exact hbefore hlt
    · exact hmisses j hge hj
  cases found with
  | none => exact fun j hj => hcombine j hj (hfound j)
  | some pair =>
      obtain ⟨i, k, first, endIdx, hi, hk, a, b, hbegin, hstop, hik, hlt, hsame, hkept, htake,
        hdrop, hin, hout, hfirst, hnone, hlast, hafter⟩ := hfound
      exact ⟨i, k, first, endIdx, hi, hk, a, b, hbegin, hstop, hik, by omega, hsame,
        hholds k b hlt hk hkept, htake, hdrop, hin, hout, hfirst, hnone, hlast,
        fun j hkj hj => hcombine j hj (hafter j hkj)⟩

variable (hsmall : sst.Addressable) (hsst : sst.WellFormed)
  (hkeys : ∀ entry ∈ sst.records, entry.key ≠ []) (hmono : MonotonePredicate predicate)
include hsst hkeys hmono

/-- A block whose first key is right of the range ends the search. -/
private theorem not_showsAt_of_firstKey {idx : ℕ} (hidx : idx < sst.blocks.length)
    (hfirst : predicate sst.blocks[idx].1.firstKey < 0) {j : ℕ} (hj : idx ≤ j) :
    ¬sst.ShowsAt trancId isAborted (fun key => predicate key = 0) j := by
  rintro ⟨hlt, entry, hentry, -, hzero⟩
  have hmem : entry ∈ sst.recordsFrom idx := SST.mem_recordsFrom.mpr ⟨j, hlt, hj, hentry⟩
  have hsuffix : (sst.recordsFrom idx).Sublist sst.records := by
    rw [sst.records_eq_append idx]
    exact List.sublist_append_right _ _
  have hle := firstUserKey_le (hsst.sorted.sublist hsuffix) hmem
    (hkeys entry (hsuffix.subset hmem))
  refine (hmono.neg_of_le ?_ hfirst).ne hzero
  rw [(hsst.described.getElem hidx).1]
  exact hle

include hsmall

/-- The loop over the blocks finds the range, and reads the blocks that the meta entries do
not exclude. -/
theorem rangeLoop_spec {fuel idx : ℕ} {pool : BlockPool}
    {found : Option (CachedIterator × CachedIterator)} (hserves : pool.Serves sst)
    (hfuel : idx + fuel = sst.blocks.length)
    (hfound : Found sst trancId predicate isAborted idx pool found) :
    ∃ found' pool',
      rangeLoop sst trancId predicate isAborted fuel idx found pool = .ok (found', pool') ∧
      Found sst trancId predicate isAborted sst.blocks.length pool' found' ∧
      pool'.Serves sst ∧
      sst.readBlocks (scannedBlocks predicate (sst.blocks.drop idx) idx) pool =
        .ok ((), pool') := by
  induction fuel generalizing idx pool found with
  | zero =>
      obtain rfl : idx = sst.blocks.length := by omega
      refine ⟨found, pool, rfl, hfound, hserves, ?_⟩
      rw [List.drop_length]
      rfl
  | succ fuel ih =>
      have hidx : idx < sst.blocks.length := by omega
      have hsorted := hsst.block_sorted (List.getElem_mem hidx)
      rw [rangeLoop, List.getElem?_eq_getElem hidx, List.drop_eq_getElem_cons hidx,
        scannedBlocks]
      dsimp only
      split_ifs with hfirst hlast
      · refine ⟨found, pool, rfl, ?_, hserves, rfl⟩
        exact hfound.extend (by omega)
          (fun j hj _ => not_showsAt_of_firstKey hsst hkeys hmono hidx hfirst hj)
          (fun _ _ _ _ hholds => hholds)
      · refine ih hserves (by omega) (hfound.extend (Nat.le_succ idx) ?_
          (fun _ _ _ _ hholds => hholds))
        intro j hj hlt
        obtain rfl : j = idx := by omega
        rintro ⟨_, entry, hentry, -, hzero⟩
        refine (hmono.pos_of_le ?_ hlast).ne' hzero
        rw [(hsst.described.getElem hidx).2]
        exact le_finalKey hsorted hentry
      · obtain ⟨shared, middle, hread, hto, hmiddle, hblock⟩ := hserves.readBlock hsmall hidx
        have hholds : ∀ k address, k < idx → k < sst.blocks.length →
            pool.Holds sst k address → middle.Holds sst k address := by
          intro k address hlt hk hholds
          exact hholds.readsTo hto hsmall hidx hk hlt.ne
        have hspec := Block.getMonotonyPredicateIters_cut hmono hsorted trancId isAborted
        rw [BlockReads.bind_ok hread, SST.readBlocks, BlockReads.bind_ok hread]
        rw [hblock]
        have hskip : ¬sst.ShowsAt trancId isAborted (fun key => predicate key = 0) idx →
            Found sst trancId predicate isAborted (idx + 1) middle found := by
          intro hmisses
          refine hfound.extend (Nat.le_succ idx) ?_ hholds
          intro j hj hlt
          obtain rfl : j = idx := by omega
          exact hmisses
        cases hpair : sst.blocks[idx].2.getMonotonyPredicateIters trancId predicate
            isAborted with
        | none =>
            rw [hpair] at hspec
            refine ih hmiddle (by omega) (hskip ?_)
            rintro ⟨_, entry, hentry, -, hzero⟩
            exact hspec entry hentry hzero
        | some pair =>
            obtain ⟨begin, stop⟩ := pair
            rw [hpair] at hspec
            obtain ⟨first, endIdx, hle, hsize, rfl, rfl, htake, hdrop, hin, hout, -⟩ := hspec
            have hindex := @BlockIterator.currentIndex_eq_iff _ _ _ trancId isAborted hle hsize
            rw [← List.drop_take] at hindex
            dsimp only
            split_ifs with hsame
            · refine ih hmiddle (by omega) (hskip ?_)
              rintro ⟨_, entry, hentry, hvisible, hzero⟩
              refine hindex.mp hsame entry ?_ hvisible
              have hupTo : entry ∈ sst.blocks[idx].2.entries.take endIdx := by
                rw [← List.take_append_drop endIdx sst.blocks[idx].2.entries] at hentry
                refine (List.mem_append.mp hentry).resolve_right ?_
                exact fun hmem => (hout entry hmem).ne hzero
              rw [← List.take_append_drop first (List.take endIdx _)] at hupTo
              refine (List.mem_append.mp hupTo).resolve_left ?_
              intro hmem
              rw [List.take_take, Nat.min_eq_left hle] at hmem
              exact (htake entry hmem).ne' hzero
            · have hmeets : sst.ShowsAt trancId isAborted (fun key => predicate key = 0) idx := by
                by_contra hnone
                apply hsame
                refine hindex.mpr fun entry hentry hvisible => hnone ?_
                have hfrom : entry ∈ sst.blocks[idx].2.entries.drop first := by
                  rw [List.drop_take] at hentry
                  exact List.mem_of_mem_take hentry
                have hupTo := List.mem_of_mem_drop hentry
                refine ⟨hidx, entry, List.mem_of_mem_take hupTo, hvisible, ?_⟩
                exact le_antisymm (hdrop entry hfrom) (hin entry hupTo)
              have hstopHolds := hto.holds hserves
              apply ih hmiddle (by omega)
              cases found with
              | none =>
                  exact ⟨idx, idx, first, endIdx, hidx, hidx, _, _, rfl, rfl, le_rfl,
                    Nat.lt_succ_self _, fun _ => rfl, hstopHolds, htake, hdrop, hin, hout,
                    hmeets, hfound, hmeets, fun j hj hlt => absurd hlt (by omega)⟩
              | some pair =>
                  obtain ⟨i, k, begin, -, hi, -, a, -, hbegin, -, hik, hlt, -, -, hbefore,
                    hbehind, -, -, hfirstMeets, hnone, -, -⟩ := hfound
                  exact ⟨i, idx, begin, endIdx, hi, hidx, a, _, hbegin, rfl, by omega,
                    Nat.lt_succ_self _, fun heq => absurd heq (by omega), hstopHolds, hbefore,
                    hbehind, hin, hout, hfirstMeets, hnone, hmeets,
                    fun j hj hlt => absurd hlt (by omega)⟩

end Query

/-- What the query returns when it finds the range: its two iterators cut the file into the
records left of the range, the range and the rest. -/
structure RangeFound (sst : SST) (trancId : ℕ) (predicate : Bytes → ℤ) (isAborted : ℕ → Bool)
    (pool : BlockPool) (begin stop : CachedIterator) (pool' : BlockPool) : Prop where
  begin_standing : begin.Standing sst trancId isAborted
  stop_standing : stop.Standing sst trancId isAborted
  first : IsLeast {idx | sst.ShowsAt trancId isAborted (fun key => predicate key = 0) idx}
    begin.index
  last : ∃ k, IsGreatest
      {idx | sst.ShowsAt trancId isAborted (fun key => predicate key = 0) idx} k ∧
    (stop.blockIt ≠ none → k ≤ stop.index ∧
      sst.readBlocks (scannedBlocks predicate sst.blocks 0 ++
        List.range' (k + 1) (stop.index - k)) pool = .ok ((), pool'))
  holds : ∀ held, stop.blockIt = some held → pool'.Holds sst stop.index held.address ∧
    (begin.index = stop.index → begin.blockIt.map HeldIterator.address = some held.address)
  cut : ∃ front middle back, sst.records = front ++ (middle ++ back) ∧
    KeysBefore front (middle ++ back) ∧ KeysBefore middle back ∧
    begin.fileRest sst = ((middle ++ back).dropWhile fun entry =>
      !Versions.visible trancId isAborted entry.txid) ∧
    stop.fileRest sst = (back.dropWhile fun entry =>
      !Versions.visible trancId isAborted entry.txid) ∧
    (∀ entry ∈ front, Versions.visible trancId isAborted entry.txid → 0 < predicate entry.key) ∧
    (∀ entry ∈ middle, predicate entry.key = 0) ∧
    (∀ entry ∈ back, Versions.visible trancId isAborted entry.txid → predicate entry.key < 0)

section Query

variable {sst : SST} {trancId : ℕ} {predicate : Bytes → ℤ} {isAborted : ℕ → Bool}

/-- A cut inside a block, between records that the predicate tells apart. -/
private theorem keysBefore_cut (hsst : sst.WellFormed) {i cut : ℕ}
    (hi : i < sst.blocks.length)
    (hdiffers : ∀ left ∈ sst.blocks[i].2.entries.take cut,
      ∀ right ∈ sst.blocks[i].2.entries.drop cut, left.key ≠ right.key) :
    sst.records = (sst.recordsBefore i ++ sst.blocks[i].2.entries.take cut) ++
        (sst.blocks[i].2.entries.drop cut ++ sst.recordsFrom (i + 1)) ∧
      KeysBefore (sst.recordsBefore i ++ sst.blocks[i].2.entries.take cut)
        (sst.blocks[i].2.entries.drop cut ++ sst.recordsFrom (i + 1)) := by
  constructor
  · rw [sst.records_eq_append i, SST.recordsFrom_of_lt hi, List.append_assoc,
      ← List.append_assoc (List.take cut _), List.take_append_drop]
  · intro left hleft right hright
    rcases List.mem_append.mp hleft with hleft | hleft
    · obtain ⟨j, hj, hlt, hleft⟩ := SST.mem_recordsBefore.mp hleft
      rcases List.mem_append.mp hright with hright | hright
      · exact hsst.key_lt hleft (List.mem_of_mem_drop hright) hlt
      · obtain ⟨l, hl, hle, hright⟩ := SST.mem_recordsFrom.mp hright
        exact hsst.key_lt hleft hright (by omega)
    · rcases List.mem_append.mp hright with hright | hright
      · have hsorted := hsst.block_sorted (List.getElem_mem hi)
        rw [← List.take_append_drop cut sst.blocks[i].2.entries] at hsorted
        exact lt_of_le_of_ne
          ((List.pairwise_append.mp hsorted).2.2 left hleft right hright).key_le
          (hdiffers left hleft right hright)
      · obtain ⟨l, hl, hle, hright⟩ := SST.mem_recordsFrom.mp hright
        exact hsst.key_lt (List.mem_of_mem_take hleft) hright hle

/-- The two cuts of the query. -/
private theorem Found.cut (hsst : sst.WellFormed) (hmono : MonotonePredicate predicate)
    {i k first endIdx : ℕ} (hi : i < sst.blocks.length) (hk : k < sst.blocks.length)
    (htake : ∀ entry ∈ sst.blocks[i].2.entries.take first, 0 < predicate entry.key)
    (hdrop : ∀ entry ∈ sst.blocks[i].2.entries.drop first, predicate entry.key ≤ 0)
    (hin : ∀ entry ∈ sst.blocks[k].2.entries.take endIdx, 0 ≤ predicate entry.key)
    (hout : ∀ entry ∈ sst.blocks[k].2.entries.drop endIdx, predicate entry.key < 0)
    (hfirst : IsLeast {idx | sst.ShowsAt trancId isAborted (fun key => predicate key = 0) idx} i)
    (hlast : IsGreatest
      {idx | sst.ShowsAt trancId isAborted (fun key => predicate key = 0) idx} k) :
    ∃ front middle, sst.records = front ++ (middle ++
        (sst.blocks[k].2.entries.drop endIdx ++ sst.recordsFrom (k + 1))) ∧
      sst.blocks[i].2.entries.drop first ++ sst.recordsFrom (i + 1) = middle ++
        (sst.blocks[k].2.entries.drop endIdx ++ sst.recordsFrom (k + 1)) ∧
      KeysBefore front (middle ++
        (sst.blocks[k].2.entries.drop endIdx ++ sst.recordsFrom (k + 1))) ∧
      KeysBefore middle (sst.blocks[k].2.entries.drop endIdx ++ sst.recordsFrom (k + 1)) ∧
      (∀ entry ∈ front, Versions.visible trancId isAborted entry.txid →
        0 < predicate entry.key) ∧
      (∀ entry ∈ middle, predicate entry.key = 0) ∧
      ∀ entry ∈ sst.blocks[k].2.entries.drop endIdx ++ sst.recordsFrom (k + 1),
        Versions.visible trancId isAborted entry.txid → predicate entry.key < 0 := by
  obtain ⟨⟨_, zero, hzeroMem, hzeroVisible, hzero⟩, hleast⟩ := hfirst
  obtain ⟨⟨_, zero', hzeroMem', -, hzero'⟩, hgreatest⟩ := hlast
  have hleftOf : ∀ {entry record : Entry}, entry.key ≤ record.key → predicate record.key = 0 →
      0 ≤ predicate entry.key := by
    intro entry record hle hrecord
    by_contra hneg
    exact (hmono.neg_of_le hle (not_le.mp hneg)).ne hrecord
  have hrightOf : ∀ {entry record : Entry}, record.key ≤ entry.key →
      predicate record.key = 0 → predicate entry.key ≤ 0 := by
    intro entry record hle hrecord
    by_contra hpos
    exact (hmono.pos_of_le hle (not_le.mp hpos)).ne' hrecord
  obtain ⟨hrecords, hfrontKeys⟩ := keysBefore_cut hsst hi fun left hleft right hright heq =>
    (htake left hleft).not_ge (heq ▸ hdrop right hright)
  obtain ⟨hrecords', hbackKeys⟩ := keysBefore_cut hsst hk fun left hleft right hright heq =>
    (hin left hleft).not_gt (heq ▸ hout right hright)
  have hback : ∀ entry ∈ sst.blocks[k].2.entries.drop endIdx ++ sst.recordsFrom (k + 1),
      Versions.visible trancId isAborted entry.txid → predicate entry.key < 0 := by
    intro entry hentry hvisible
    rcases List.mem_append.mp hentry with hentry | hentry
    · exact hout entry hentry
    · obtain ⟨j, hj, hlt, hentry⟩ := SST.mem_recordsFrom.mp hentry
      refine lt_of_le_of_ne (hrightOf (hsst.key_lt hzeroMem' hentry hlt).le hzero') ?_
      intro hentryZero
      have hle := hgreatest (show sst.ShowsAt trancId isAborted
        (fun key => predicate key = 0) j from ⟨hj, entry, hentry, hvisible, hentryZero⟩)
      omega
  have hzeroFrom : zero ∈ sst.blocks[i].2.entries.drop first ++ sst.recordsFrom (i + 1) := by
    rw [← List.take_append_drop first sst.blocks[i].2.entries] at hzeroMem
    refine List.mem_append_left _ ((List.mem_append.mp hzeroMem).resolve_left ?_)
    exact fun hmem => (htake zero hmem).ne' hzero
  have hsplit := List.append_eq_append_iff.mp (hrecords.symm.trans hrecords')
  rcases hsplit with ⟨middle, hmiddle, hfrom⟩ | ⟨between, -, hfrom⟩
  · refine ⟨sst.recordsBefore i ++ sst.blocks[i].2.entries.take first, middle, ?_, hfrom, ?_,
      ?_, ?_, ?_, hback⟩
    · rw [← hfrom]
      exact hrecords
    · rw [← hfrom]
      exact hfrontKeys
    · intro left hleft right hright
      exact hbackKeys left (by rw [hmiddle]; exact List.mem_append_right _ hleft) right hright
    · intro entry hentry hvisible
      rcases List.mem_append.mp hentry with hentry | hentry
      · obtain ⟨j, hj, hlt, hentry⟩ := SST.mem_recordsBefore.mp hentry
        refine lt_of_le_of_ne (hleftOf (hsst.key_lt hentry hzeroMem hlt).le hzero) ?_
        intro hentryZero
        have hle := hleast (show sst.ShowsAt trancId isAborted
          (fun key => predicate key = 0) j from ⟨hj, entry, hentry, hvisible, hentryZero.symm⟩)
        omega
      · exact htake entry hentry
    · intro entry hentry
      apply le_antisymm
      · have hmem : entry ∈ sst.blocks[i].2.entries.drop first ++ sst.recordsFrom (i + 1) := by
          rw [hfrom]
          exact List.mem_append_left _ hentry
        rcases List.mem_append.mp hmem with hmem | hmem
        · exact hdrop entry hmem
        · obtain ⟨j, hj, hlt, hmem⟩ := SST.mem_recordsFrom.mp hmem
          exact hrightOf (hsst.key_lt hzeroMem hmem hlt).le hzero
      · have hmem : entry ∈ sst.recordsBefore k ++ sst.blocks[k].2.entries.take endIdx := by
          rw [hmiddle]
          exact List.mem_append_right _ hentry
        rcases List.mem_append.mp hmem with hmem | hmem
        · obtain ⟨j, hj, hlt, hmem⟩ := SST.mem_recordsBefore.mp hmem
          exact hleftOf (hsst.key_lt hmem hzeroMem' hlt).le hzero'
        · exact hin entry hmem
  · -- The record of the first block would stand behind the range.
    have hmem := hback zero (by rw [hfrom]; exact List.mem_append_right _ hzeroFrom) hzeroVisible
    exact absurd hzero hmem.ne

variable (hsmall : sst.Addressable) (hsst : sst.WellFormed)
  (hkeys : ∀ entry ∈ sst.records, entry.key ≠ []) (hmono : MonotonePredicate predicate)
include hsmall hsst hkeys hmono

/-- The query returns nothing, or the iterators around the range. -/
theorem itersMonotonyPredicate_spec {pool : BlockPool} (hserves : pool.Serves sst) :
    ∃ found pool',
      itersMonotonyPredicate sst trancId predicate isAborted pool = .ok (found, pool') ∧
      pool'.Serves sst ∧
      match found with
      | none => ∀ idx, ¬sst.ShowsAt trancId isAborted (fun key => predicate key = 0) idx
      | some (begin, stop) =>
          RangeFound sst trancId predicate isAborted pool begin stop pool' := by
  obtain ⟨found, middle, hloop, hfound, hmiddle, hscanned⟩ := @rangeLoop_spec
    sst trancId predicate isAborted hsmall hsst hkeys hmono sst.blocks.length 0 pool none
    hserves (Nat.zero_add _) (fun j hj => absurd hj (Nat.not_lt_zero j))
  rw [List.drop_zero] at hscanned
  have hquery : itersMonotonyPredicate sst trancId predicate isAborted pool =
      (match found with
        | none => (pure none : BlockReads (Option (CachedIterator × CachedIterator)))
        | some (begin, stop) =>
            if stop.blockIt.any fun held : HeldIterator => held.blockIt.isEnd then do
              let stop ← next sst trancId isAborted stop
              return some (begin, stop)
            else return some (begin, stop)) middle := by
    rw [itersMonotonyPredicate, SST.numBlocks, BlockReads.bind_ok hloop]
  rw [hquery]
  cases found with
  | none =>
      refine ⟨none, middle, rfl, hmiddle, fun idx hshows => ?_⟩
      exact hfound idx hshows.1 hshows
  | some pair =>
      obtain ⟨begin, stop⟩ := pair
      obtain ⟨i, k, first, endIdx, hi, hk, a, b, rfl, rfl, hik, -, hsame, hholds, htake,
        hdrop, hin, hout, hmeets, hnone, hmeets', hafter⟩ := hfound
      have hfirst : IsLeast
          {idx | sst.ShowsAt trancId isAborted (fun key => predicate key = 0) idx} i :=
        ⟨hmeets, fun j hj => not_lt.mp fun hlt => hnone j hlt hj⟩
      have hlast : IsGreatest
          {idx | sst.ShowsAt trancId isAborted (fun key => predicate key = 0) idx} k :=
        ⟨hmeets', fun j hj => not_lt.mp fun hlt => hafter j hlt hj.1 hj⟩
      obtain ⟨front, range, hrecords, hfrom, hfront, hrange, hpos, hzero, hneg⟩ :=
        Found.cut hsst hmono hi hk htake hdrop hin hout hfirst hlast
      have hrest : ∀ {idx : ℕ} (hidx : idx < sst.blocks.length) (index : ℕ),
          (BlockIterator.ofIndex sst.blocks[idx].2 index trancId false isAborted).rest =
            (sst.blocks[idx].2.entries.drop index).dropWhile fun entry =>
              !Versions.visible trancId isAborted entry.txid :=
        fun hidx index => BlockIterator.rest_skipByTrancId _
      have hbeginRest : (BlockIterator.ofIndex sst.blocks[i].2 first trancId false
          isAborted).rest ≠ [] := by
        obtain ⟨_, zero, hzeroMem, hvisible, hzeroKey⟩ := hmeets
        rw [hrest, Ne, List.dropWhile_eq_nil_iff]
        intro hhidden
        rw [← List.take_append_drop first sst.blocks[i].2.entries] at hzeroMem
        have hmem := (List.mem_append.mp hzeroMem).resolve_left
          fun hmem => (htake zero hmem).ne' hzeroKey
        have hfalse := hhidden zero hmem
        rw [hvisible] at hfalse
        cases hfalse
      have hbegin : Standing sst trancId isAborted ⟨i, some ⟨a,
          BlockIterator.ofIndex sst.blocks[i].2 first trancId false isAborted⟩⟩ := by
        refine ⟨hi, rfl, ?_⟩
        rw [BlockIterator.current?_eq_head?]
        intro hnil
        exact hbeginRest (List.head?_eq_none_iff.mp hnil)
      have hbeginAhead : fileRest sst ⟨i, some ⟨a,
          BlockIterator.ofIndex sst.blocks[i].2 first trancId false isAborted⟩⟩ =
            ((range ++ (sst.blocks[k].2.entries.drop endIdx ++
              sst.recordsFrom (k + 1))).dropWhile fun entry =>
                !Versions.visible trancId isAborted entry.txid) := by
        have hne := hbeginRest
        rw [hrest] at hne
        rw [← hfrom, List.dropWhile_append, if_neg (by simpa using hne)]
        change _ ++ _ = _ ++ _
        rw [hrest]
      dsimp only
      rw [Option.any_some]
      split_ifs with hend
      · have hstay : (BlockIterator.ofIndex sst.blocks[k].2 endIdx trancId false
            isAborted).next = BlockIterator.ofIndex sst.blocks[k].2 endIdx trancId false
              isAborted := by
          unfold BlockIterator.next
          rw [BlockIterator.isEnd_iff.mp hend]
        have hnil := rest_eq_nil hend
        rw [hrest] at hnil
        obtain ⟨stop, pool', henter, hstop, hstopAhead, hserves', hle, before, hreads, hbefore,
          hread⟩ := @enterBlocks_spec sst trancId isAborted _ hsmall _ _ hmiddle
            (show k + 1 + (sst.numBlocks - (k + 1)) = sst.blocks.length by
              simp only [SST.numBlocks]
              omega)
        have hnext : next sst trancId isAborted ⟨k, some ⟨b,
            BlockIterator.ofIndex sst.blocks[k].2 endIdx trancId false isAborted⟩⟩ middle =
              .ok (stop, pool') := by
          rw [next]
          dsimp only
          rw [hstay, hend, if_pos rfl]
          exact henter
        rw [BlockReads.bind_ok hnext]
        refine ⟨_, pool', rfl, hserves', hbegin, hstop, hfirst, ⟨k, hlast, ?_⟩, ?_,
          front, range, _, hrecords, hfront, hrange, hbeginAhead, ?_, hpos, hzero, hneg⟩
        · intro hne
          obtain ⟨hnone, -⟩ | ⟨held, block, -, hread, -⟩ := hread
          · exact absurd hnone hne
          · refine ⟨by omega, ?_⟩
            have hindices : List.range' (k + 1) (stop.index - k) =
                List.range' (k + 1) (stop.index - (k + 1)) ++ [stop.index] := by
              rw [show stop.index - k = stop.index - (k + 1) + 1 by omega,
                List.range'_1_concat]
              congr 2
              omega
            rw [hindices, BlockPool.readBlocks_append, BlockReads.bind_ok hscanned,
              BlockPool.readBlocks_append, BlockReads.bind_ok hreads, SST.readBlocks,
              BlockReads.bind_ok hread]
            rfl
        · intro held hheld
          obtain ⟨hnone, -⟩ | ⟨own, block, hown, -, hto⟩ := hread
          · rw [hnone] at hheld
            cases hheld
          · rw [hheld, Option.some.injEq] at hown
            subst hown
            exact ⟨hto.holds hbefore, fun hindex => absurd hindex (by dsimp only; omega)⟩
        · rw [hstopAhead, List.dropWhile_append, hnil]
          rfl
      · rw [Bool.not_eq_true] at hend
        have hne := rest_ne_nil (isEnd_eq_false hend)
        rw [hrest] at hne
        refine ⟨_, middle, rfl, hmiddle, hbegin, ⟨hk, rfl, isEnd_eq_false hend⟩, hfirst,
          ⟨k, hlast, fun _ => ⟨le_rfl, ?_⟩⟩, ?_, front, range, _, hrecords, hfront, hrange,
          hbeginAhead, ?_, hpos, hzero, hneg⟩
        · dsimp only
          rw [Nat.sub_self, List.range'_zero, List.append_nil]
          exact hscanned
        · intro held hheld
          obtain rfl := Option.some.inj hheld
          exact ⟨hholds, fun hindex => congrArg some (hsame hindex)⟩
        · rw [List.dropWhile_append, if_neg (by simpa using hne)]
          change _ ++ _ = _ ++ _
          rw [hrest]

end Query

/-- The second iterator stands on the first visible record right of the range. -/
theorem RangeFound.behind {sst : SST} {trancId : ℕ} {predicate : Bytes → ℤ}
    {isAborted : ℕ → Bool} {pool pool' : BlockPool} {begin stop : CachedIterator}
    (hfound : RangeFound sst trancId predicate isAborted pool begin stop pool') :
    (stop.blockIt = none →
      ∀ idx, ¬sst.ShowsAt trancId isAborted (fun key => predicate key < 0) idx) ∧
    (stop.blockIt ≠ none →
      IsLeast {idx | sst.ShowsAt trancId isAborted (fun key => predicate key < 0) idx}
        stop.index) := by
  obtain ⟨front, middle, back, hrecords, -, -, -, hstop, hpos, hzero, hneg⟩ := hfound.cut
  have hstanding := hfound.stop_standing
  have hhidden : ∀ entry ∈ front ++ (middle ++ back.takeWhile fun entry =>
      !Versions.visible trancId isAborted entry.txid),
      Versions.visible trancId isAborted entry.txid → ¬predicate entry.key < 0 := by
    intro entry hentry hvisible
    rcases List.mem_append.mp hentry with hentry | hentry
    · exact (hpos entry hentry hvisible).not_gt
    rcases List.mem_append.mp hentry with hentry | hentry
    · exact (hzero entry hentry).not_lt
    · have hfalse := List.mem_takeWhile_imp hentry
      rw [hvisible] at hfalse
      cases hfalse
  have hsplit : sst.records = (front ++ (middle ++ back.takeWhile fun entry =>
      !Versions.visible trancId isAborted entry.txid)) ++ stop.fileRest sst := by
    rw [hrecords, hstop, List.append_assoc, List.append_assoc, List.takeWhile_append_dropWhile]
  constructor
  · rintro hnone idx ⟨hidx, entry, hentry, hvisible, hright⟩
    rw [hstanding.fileRest_eq_nil_iff.mpr hnone, List.append_nil] at hsplit
    refine hhidden entry ?_ hvisible hright
    rw [← hsplit]
    exact List.mem_flatMap.mpr ⟨_, List.getElem_mem hidx, hentry⟩
  · intro hne
    obtain ⟨held, hheld⟩ := Option.ne_none_iff_exists'.mp hne
    have hplace := hstanding
    unfold Standing at hplace
    rw [hheld] at hplace
    obtain ⟨hidx, hfields, hcurrent⟩ := hplace
    constructor
    · obtain ⟨entry, hentry⟩ := Option.ne_none_iff_exists'.mp hcurrent
      have hhead : (stop.fileRest sst).head? = some entry := by
        rw [← hstanding.current?_eq, current?, hheld, Option.bind_some, hentry]
      rw [hstop] at hhead
      refine ⟨hidx, entry, ?_, Versions.visible_of_head? hhead, ?_⟩
      · rw [hfields] at hentry
        exact List.mem_of_getElem? hentry
      · exact hneg entry ((List.dropWhile_subset _) (List.mem_of_mem_head? hhead))
          (Versions.visible_of_head? hhead)
    · rintro idx ⟨hlt, entry, hentry, hvisible, hright⟩
      by_contra hless
      rw [not_le] at hless
      -- What is ahead of the iterator lies behind the block.
      have hlength : (stop.fileRest sst).length ≤ (sst.recordsFrom (idx + 1)).length := by
        refine le_trans ?_ (length_recordsFrom_le sst (show idx + 1 ≤ stop.index from hless))
        unfold fileRest
        rw [hheld, SST.recordsFrom_of_lt hidx]
        dsimp only
        rw [List.length_append, List.length_append, hfields, BlockIterator.rest,
          List.length_drop]
        dsimp only
        omega
      have hahead : stop.fileRest sst <:+ sst.records := by
        rw [hsplit]
        exact List.suffix_append _ _
      have hafter : sst.recordsFrom (idx + 1) <:+ sst.records := by
        rw [sst.records_eq_append (idx + 1)]
        exact List.suffix_append _ _
      have hsuffix := List.suffix_of_suffix_length_le hahead hafter hlength
      obtain ⟨between, hbetween⟩ := hsuffix
      rw [sst.records_eq_append (idx + 1), ← hbetween, ← List.append_assoc,
        List.append_cancel_right_eq] at hsplit
      refine hhidden entry ?_ hvisible hright
      rw [← hsplit]
      exact List.mem_append_left _
        (SST.mem_recordsBefore.mpr ⟨idx, hlt, Nat.lt_succ_self idx, hentry⟩)

/-- The query answers as it should: it returns nothing exactly if no visible record is in the
range, and otherwise a walk between its iterators arrives and passes the newest visible record
of every key of the range, in key order. -/
def RangeExact (sst : SST) (trancId : ℕ) (predicate : Bytes → ℤ) (isAborted : ℕ → Bool)
    (pool : BlockPool) : Prop :=
  ∃ found pool', itersMonotonyPredicate sst trancId predicate isAborted pool =
      .ok (found, pool') ∧
    (found = none ↔ ∀ entry ∈ sst.records, Versions.visible trancId isAborted entry.txid →
      predicate entry.key ≠ 0) ∧
    ∀ begin stop, found = some (begin, stop) → ∃ fuel pool'',
      walk sst trancId isAborted stop fuel begin pool' =
        .ok (some ((Versions.shown trancId isAborted false sst.records).filter fun entry =>
          predicate entry.key = 0), pool'')

/-- The first visible record right of the range, if there is one, lies in the block in which
the range begins, or its block is still cached when a walk has read the blocks in front of
it. -/
def EndKept (sst : SST) (trancId : ℕ) (predicate : Bytes → ℤ) (isAborted : ℕ → Bool)
    (pool : BlockPool) : Prop :=
  ∀ first last stop,
    IsLeast {idx | sst.ShowsAt trancId isAborted (fun key => predicate key = 0) idx} first →
    IsGreatest {idx | sst.ShowsAt trancId isAborted (fun key => predicate key = 0) idx} last →
    IsLeast {idx | sst.ShowsAt trancId isAborted (fun key => predicate key < 0) idx} stop →
    first < stop → ∃ pool',
      sst.readBlocks ((scannedBlocks predicate sst.blocks 0 ++
        List.range' (last + 1) (stop - last)) ++
          List.range' (first + 1) (stop - (first + 1))) pool = .ok ((), pool') ∧
      (pool'.cache.lookup (sst.blockKey stop)).isSome

/-- Every record of the file lies in one of its blocks. -/
private theorem exists_showsAt_iff {sst : SST} {trancId : ℕ} {isAborted : ℕ → Bool}
    {wanted : Bytes → Prop} :
    (∃ idx, sst.ShowsAt trancId isAborted wanted idx) ↔
      ∃ entry ∈ sst.records, Versions.visible trancId isAborted entry.txid ∧
        wanted entry.key := by
  constructor
  · rintro ⟨idx, hidx, entry, hentry, hshown⟩
    exact ⟨entry, List.mem_flatMap.mpr ⟨_, List.getElem_mem hidx, hentry⟩, hshown⟩
  · rintro ⟨entry, hentry, hshown⟩
    obtain ⟨block, hblock, hentry⟩ := List.mem_flatMap.mp hentry
    obtain ⟨idx, hidx, rfl⟩ := List.mem_iff_getElem.mp hblock
    exact ⟨idx, hidx, entry, hentry, hshown⟩

/-- The records between the two cuts are those of the range. -/
private theorem shown_middle {front middle back : List Entry} {trancId : ℕ}
    {predicate : Bytes → ℤ} {isAborted : ℕ → Bool} (hfront : KeysBefore front (middle ++ back))
    (hmiddle : KeysBefore middle back)
    (hpos : ∀ entry ∈ front, Versions.visible trancId isAborted entry.txid →
      0 < predicate entry.key)
    (hzero : ∀ entry ∈ middle, predicate entry.key = 0)
    (hneg : ∀ entry ∈ back, Versions.visible trancId isAborted entry.txid →
      predicate entry.key < 0) :
    ((Versions.shown trancId isAborted false (front ++ (middle ++ back))).filter fun entry =>
      predicate entry.key = 0) = Versions.shown trancId isAborted false middle := by
  have hnil : ∀ records : List Entry, (∀ entry ∈ records,
      Versions.visible trancId isAborted entry.txid → predicate entry.key ≠ 0) →
      ((Versions.shown trancId isAborted false records).filter fun entry =>
        predicate entry.key = 0) = [] := by
    intro records hnonzero
    rw [List.filter_eq_nil_iff]
    intro entry hmem
    obtain ⟨hentry, hvisible⟩ := Versions.mem_shown hmem
    simpa using hnonzero entry hentry hvisible
  rw [Versions.shown_append _ _ _ hfront, Versions.shown_append _ _ _ hmiddle,
    List.filter_append, List.filter_append,
    hnil front fun entry hentry hvisible => (hpos entry hentry hvisible).ne',
    hnil back fun entry hentry hvisible => (hneg entry hentry hvisible).ne,
    List.nil_append, List.append_nil, List.filter_eq_self]
  intro entry hmem
  simpa using hzero entry (Versions.mem_shown hmem).1

/-- The second iterator stands at the end of the file or its object is kept exactly if the
block in which it stands is. -/
private theorem RangeFound.kept_iff {sst : SST} {trancId : ℕ} {predicate : Bytes → ℤ}
    {isAborted : ℕ → Bool} {pool pool' : BlockPool} {begin stop : CachedIterator}
    (hfound : RangeFound sst trancId predicate isAborted pool begin stop pool') :
    EndKept sst trancId predicate isAborted pool ↔
      stop.blockIt = none ∨ (begin.index < stop.index → ∃ before,
        sst.readBlocks (List.range' (begin.index + 1) (stop.index - (begin.index + 1))) pool' =
          .ok ((), before) ∧ (before.cache.lookup (sst.blockKey stop.index)).isSome) := by
  obtain ⟨k, hlast, hreads⟩ := hfound.last
  obtain ⟨hnone, hsome⟩ := hfound.behind
  by_cases hend : stop.blockIt = none
  · refine iff_of_true ?_ (Or.inl hend)
    intro first last behind _ _ hbehind _
    exact absurd hbehind.1 (hnone hend behind)
  · obtain ⟨hle, hreads⟩ := hreads hend
    rw [or_iff_right hend]
    constructor
    · intro hkept hlt
      obtain ⟨before, hbefore, hcached⟩ := hkept _ _ _ hfound.first hlast (hsome hend) hlt
      rw [BlockPool.readBlocks_append, BlockReads.bind_ok hreads] at hbefore
      exact ⟨before, hbefore, hcached⟩
    · intro hkept first last behind hfirst hlast' hbehind hlt
      obtain rfl := hfirst.unique hfound.first
      obtain rfl := hlast'.unique hlast
      obtain rfl := hbehind.unique (hsome hend)
      obtain ⟨before, hbefore, hcached⟩ := hkept hlt
      refine ⟨before, ?_, hcached⟩
      rw [BlockPool.readBlocks_append, BlockReads.bind_ok hreads]
      exact hbefore

/-- What a walk between the two iterators has to expect. -/
private theorem RangeFound.awaits {sst : SST} {trancId : ℕ} {predicate : Bytes → ℤ}
    {isAborted : ℕ → Bool} {pool pool' : BlockPool} {begin stop : CachedIterator}
    (hfound : RangeFound sst trancId predicate isAborted pool begin stop pool')
    (hsmall : sst.Addressable) (hserves' : pool'.Serves sst) :
    Awaits sst (begin.index < stop.index → ∃ before,
      sst.readBlocks (List.range' (begin.index + 1) (stop.index - (begin.index + 1))) pool' =
        .ok ((), before) ∧ (before.cache.lookup (sst.blockKey stop.index)).isSome)
      stop pool' begin := by
  intro held hheld
  obtain ⟨hholds, hsame⟩ := hfound.holds held hheld
  constructor
  · intro hindex
    exact iff_of_true (hsame hindex) fun hlt => absurd hindex hlt.ne
  · intro hlt
    have hplace := hfound.stop_standing
    unfold Standing at hplace
    rw [hheld] at hplace
    obtain ⟨hidx, -⟩ := hplace
    have hindices : ∀ idx ∈ List.range' (begin.index + 1) (stop.index - (begin.index + 1)),
        idx < sst.blocks.length := by
      intro idx hmem
      have hbounds := List.mem_range'_1.mp hmem
      omega
    obtain ⟨before, hbefore, -⟩ := hserves'.readBlocks hsmall hindices
    refine ⟨hholds, before, hbefore, fun hcached _ => ⟨before, hbefore, hcached⟩, ?_⟩
    intro hkept
    obtain ⟨other, hother, hcached⟩ := hkept hlt
    rw [hbefore, Except.ok.injEq, Prod.mk.injEq] at hother
    rw [hother.2]
    exact hcached

/-- The query answers as it should exactly if the block of its second iterator is kept. -/
theorem rangeExact_iff {sst : SST} {trancId : ℕ} {predicate : Bytes → ℤ}
    {isAborted : ℕ → Bool} {pool : BlockPool} (hsmall : sst.Addressable)
    (hsst : sst.WellFormed) (hkeys : ∀ entry ∈ sst.records, entry.key ≠ [])
    (hmono : MonotonePredicate predicate) (hserves : pool.Serves sst) :
    RangeExact sst trancId predicate isAborted pool ↔
      EndKept sst trancId predicate isAborted pool := by
  obtain ⟨found, pool', hquery, hserves', hspec⟩ :=
    @itersMonotonyPredicate_spec sst trancId predicate isAborted hsmall hsst hkeys hmono pool
      hserves
  cases found with
  | none =>
      refine iff_of_true ⟨none, pool', hquery, iff_of_true rfl ?_, ?_⟩ ?_
      · intro entry hentry hvisible hzero
        obtain ⟨idx, hshows⟩ :=
          (@exists_showsAt_iff sst trancId isAborted fun key => predicate key = 0).mpr
            ⟨entry, hentry, hvisible, hzero⟩
        exact hspec idx hshows
      · intro begin stop hpair
        cases hpair
      · intro first last behind hfirst
        exact absurd hfirst.1 (hspec first)
  | some pair =>
      obtain ⟨begin, stop⟩ := pair
      replace hspec : RangeFound sst trancId predicate isAborted pool begin stop pool' := hspec
      obtain ⟨front, middle, back, hrecords, hfront, hmiddle, hbegin, hstop, hpos, hzero, hneg⟩ :=
        hspec.cut
      have hrange : ((Versions.shown trancId isAborted false sst.records).filter fun entry =>
          predicate entry.key = 0) = Versions.shown trancId isAborted false middle := by
        rw [hrecords]
        exact shown_middle hfront hmiddle hpos hzero hneg
      have hpasses : Passes trancId isAborted (stop.fileRest sst)
          (Versions.shown trancId isAborted false middle) (begin.fileRest sst) := by
        rw [hbegin, hstop]
        apply passes_shown
        · have hall := hsst.sorted
          rw [hrecords] at hall
          exact hall.sublist (List.sublist_append_right _ _)
        · exact fun left hleft right hright => (hmiddle left hleft right hright).ne
      obtain ⟨harrives, hmisses⟩ := walk_spec hsmall hsst hspec.stop_standing
        hserves' hspec.begin_standing hpasses (hspec.awaits hsmall hserves')
      rw [hspec.kept_iff]
      constructor
      · rintro ⟨found, pool'', hquery', -, hwalks⟩
        rw [hquery, Except.ok.injEq, Prod.mk.injEq] at hquery'
        obtain ⟨rfl, rfl⟩ := hquery'
        obtain ⟨fuel, pool'', hwalk⟩ := hwalks begin stop rfl
        by_contra hlost
        rw [not_or] at hlost
        obtain ⟨other, hother⟩ := hmisses hlost fuel
        rw [hwalk] at hother
        cases hother
      · intro hkept
        refine ⟨some (begin, stop), pool', hquery, iff_of_false (by simp) ?_, ?_⟩
        · intro hall
          obtain ⟨entry, hentry, hvisible, hin⟩ :=
            (@exists_showsAt_iff sst trancId isAborted fun key => predicate key = 0).mp
              ⟨_, hspec.first.1⟩
          exact hall entry hentry hvisible hin
        · intro begin' stop' hpair
          rw [Option.some.injEq, Prod.mk.injEq] at hpair
          obtain ⟨rfl, rfl⟩ := hpair
          rw [hrange]
          exact harrives hkept

end CachedIterator

/-- A range query over a file below 2^32 bytes of blocks answers as it should exactly if the block
in which its second iterator stands survives in the cache until a walk arrives there. -/
theorem sst_range_exact_iff {config : Config} {hasBloom : Bool} {entries : List Entry}
    {sst : SST} (hmade : sst.MadeFrom config hasBloom entries)
    (hsorted : Versions.Sorted entries) (hkeys : ∀ entry ∈ entries, entry.key ≠ [])
    (hsmall : sst.dataLength < 2 ^ 32) {predicate : Bytes → ℤ}
    (hmono : MonotonePredicate predicate) (trancId : ℕ) (isAborted : ℕ → Bool)
    {pool : BlockPool} (hserves : pool.Serves sst) :
    CachedIterator.RangeExact sst trancId predicate isAborted pool ↔
      CachedIterator.EndKept sst trancId predicate isAborted pool := by
  have hsst := hmade.wellFormed hsorted
  rw [← hmade.records_eq hsorted] at hkeys
  exact CachedIterator.rangeExact_iff hsmall hsst hkeys hmono hserves

/-- The table of the three records. -/
def threeBlocks : SST where
  sstId := 0
  blocks := [(⟨[1], [1]⟩, ⟨[⟨[1], List.replicate 40 7, 1⟩], 64⟩),
    (⟨[2], [2]⟩, ⟨[⟨[2], List.replicate 40 7, 1⟩], 64⟩),
    (⟨[3], [3]⟩, ⟨[⟨[3], List.replicate 40 7, 1⟩], 64⟩)]
  firstKey := [1]
  lastKey := [3]
  bloomFilter := none
  minTrancId := 1
  maxTrancId := 1

private theorem threeBlocks_madeFrom : threeBlocks.MadeFrom smallConfig false threeRecords :=
  ⟨_, rfl, rfl⟩

/-- Keys up to `[2]` are in the range. -/
def upToTwo (key : Bytes) : ℤ := if [2] < key then -1 else 0

private theorem upToTwo_monotone : MonotonePredicate upToTwo where
  neg_of_le := by
    intro left right hle hneg
    unfold upToTwo at hneg ⊢
    split_ifs at hneg with hleft
    · rw [if_pos (hleft.trans_le hle)]
      exact hneg
    · exact absurd hneg (lt_irrefl 0)
  pos_of_le := by
    intro left right hle hpos
    unfold upToTwo at hpos
    split_ifs at hpos <;> omega

/-- The range begins in the first block and ends with the second one. -/
private theorem threeBlocks_range :
    IsLeast {idx | threeBlocks.ShowsAt 0 (fun _ => false) (fun key => upToTwo key = 0) idx} 0 ∧
      IsGreatest
        {idx | threeBlocks.ShowsAt 0 (fun _ => false) (fun key => upToTwo key = 0) idx} 1 ∧
      IsLeast {idx | threeBlocks.ShowsAt 0 (fun _ => false) (fun key => upToTwo key < 0) idx}
        2 := by
  have hshows : ∀ (wanted : Bytes → Prop) (idx : ℕ),
      threeBlocks.ShowsAt 0 (fun _ => false) wanted idx ↔
        idx = 0 ∧ wanted [1] ∨ idx = 1 ∧ wanted [2] ∨ idx = 2 ∧ wanted [3] := by
    intro wanted idx
    constructor
    · rintro ⟨hidx, entry, hentry, -, hwanted⟩
      change idx < 3 at hidx
      interval_cases idx
      · rw [List.mem_singleton.mp hentry] at hwanted
        exact Or.inl ⟨rfl, hwanted⟩
      · rw [List.mem_singleton.mp hentry] at hwanted
        exact Or.inr (Or.inl ⟨rfl, hwanted⟩)
      · rw [List.mem_singleton.mp hentry] at hwanted
        exact Or.inr (Or.inr ⟨rfl, hwanted⟩)
    · rintro (⟨rfl, hwanted⟩ | ⟨rfl, hwanted⟩ | ⟨rfl, hwanted⟩)
      · exact ⟨by decide, _, List.mem_singleton_self _, rfl, hwanted⟩
      · exact ⟨by decide, _, List.mem_singleton_self _, rfl, hwanted⟩
      · exact ⟨by decide, _, List.mem_singleton_self _, rfl, hwanted⟩
  have hin := hshows fun key => upToTwo key = 0
  have hright := hshows fun key => upToTwo key < 0
  refine ⟨⟨?_, fun idx _ => Nat.zero_le idx⟩, ⟨?_, ?_⟩, ⟨?_, ?_⟩⟩
  · exact (hin 0).mpr (Or.inl ⟨rfl, by decide⟩)
  · exact (hin 1).mpr (Or.inr (Or.inl ⟨rfl, by decide⟩))
  · intro idx hidx
    rcases (hin idx).mp hidx with ⟨rfl, -⟩ | ⟨rfl, -⟩ | ⟨rfl, hzero⟩
    · exact Nat.zero_le 1
    · exact le_rfl
    · exact absurd hzero (by decide)
  · exact (hright 2).mpr (Or.inr (Or.inr ⟨rfl, by decide⟩))
  · intro idx hidx
    rcases (hright idx).mp hidx with ⟨rfl, hneg⟩ | ⟨rfl, hneg⟩ | ⟨rfl, -⟩
    · exact absurd hneg (by decide)
    · exact absurd hneg (by decide)
    · exact le_rfl

/-- The blocks that the query reads, and those that the walk reads on its way. -/
private theorem threeBlocks_indices :
    (scannedBlocks upToTwo threeBlocks.blocks 0 ++ List.range' (1 + 1) (2 - 1)) ++
      List.range' (0 + 1) (2 - (0 + 1)) = [0, 1] ++ [2] ++ [1] := by
  decide

/-- Whether the third block is cached after the query and the walk up to it. -/
private theorem threeBlocks_reads :
    (threeBlocks.readBlocks ([0, 1] ++ [2] ++ [1]) (BlockPool.new 1 1)).map
        (fun result => (result.2.cache.lookup (threeBlocks.blockKey 2)).isSome) = .ok false ∧
      (threeBlocks.readBlocks ([0, 1] ++ [2] ++ [1]) (BlockPool.new 2 1)).map
        (fun result => (result.2.cache.lookup (threeBlocks.blockKey 2)).isSome) = .ok true := by
  constructor <;> decide +kernel

theorem sst_range_exact_iff_sample :
    CachedIterator.RangeExact threeBlocks 0 upToTwo (fun _ => false) (BlockPool.new 2 1) := by
  obtain ⟨hfirst, hlast, hbehind⟩ := threeBlocks_range
  refine (sst_range_exact_iff threeBlocks_madeFrom threeRecords_sorted (by decide) (by decide)
    upToTwo_monotone 0 (fun _ => false) (BlockPool.serves_new _ Nat.one_pos)).mpr ?_
  intro first last behind hfirst' hlast' hbehind' _
  obtain rfl := hfirst'.unique hfirst
  obtain rfl := hlast'.unique hlast
  obtain rfl := hbehind'.unique hbehind
  have hreads := threeBlocks_reads.2
  rw [threeBlocks_indices]
  cases hresult : threeBlocks.readBlocks ([0, 1] ++ [2] ++ [1]) (BlockPool.new 2 1) with
  | error err =>
      rw [hresult] at hreads
      cases hreads
  | ok result =>
      rw [hresult] at hreads
      exact ⟨result.2, rfl, Except.ok.inj hreads⟩

/-- A cache for one block: the query reads the third block for its second iterator, and the
walk reads the second block first. -/
theorem sst_range_never_ends :
    threeBlocks.MadeFrom smallConfig false threeRecords ∧ Versions.Sorted threeRecords ∧
      (∀ entry ∈ threeRecords, entry.key ≠ []) ∧ MonotonePredicate upToTwo ∧
      (BlockPool.new 1 1).Serves threeBlocks ∧
      ¬CachedIterator.RangeExact threeBlocks 0 upToTwo (fun _ => false)
        (BlockPool.new 1 1) := by
  obtain ⟨hfirst, hlast, hbehind⟩ := threeBlocks_range
  refine ⟨threeBlocks_madeFrom, threeRecords_sorted, by decide, upToTwo_monotone,
    BlockPool.serves_new _ Nat.one_pos, ?_⟩
  rw [CachedIterator.rangeExact_iff (show threeBlocks.dataLength < 2 ^ 32 by decide)
    (threeBlocks_madeFrom.wellFormed threeRecords_sorted)
    (by rw [threeBlocks_madeFrom.records_eq threeRecords_sorted]; decide) upToTwo_monotone
    (BlockPool.serves_new _ Nat.one_pos)]
  intro hkept
  obtain ⟨pool', hreads, hcached⟩ := hkept 0 1 2 hfirst hlast hbehind (by decide)
  rw [threeBlocks_indices] at hreads
  have hlost := threeBlocks_reads.1
  rw [hreads] at hlost
  have hmissing : (pool'.cache.lookup (threeBlocks.blockKey 2)).isSome = false :=
    Except.ok.inj hlost
  rw [hmissing] at hcached
  cases hcached

end KopiDb
