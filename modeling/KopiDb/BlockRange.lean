import KopiDb.SstRange
import KopiDb.Lib.Prefixes

/-!
# Lookups and ranges in one block

A lookup finds the first eligible version of its key from wherever the bisection lands.  A
range query returns two iterators, and stepping from the first one arrives at the second
without passing it.
-/

namespace KopiDb

/-! ## The records ahead of an iterator -/

/-- The records behind the first one of a run, without its older versions and without
hidden records at the front. -/
def stepRest (trancId : ℕ) (isAborted : ℕ → Bool) : List Entry → List Entry
  | [] => []
  | entry :: rest => (rest.dropWhile fun other => other.key = entry.key).dropWhile fun other =>
      !Versions.visible trancId isAborted other.txid

/-- A walk that steps through a run passes these records and arrives at the target. -/
def Passes (trancId : ℕ) (isAborted : ℕ → Bool) (target : List Entry) :
    List Entry → List Entry → Prop
  | [], rest => rest = target
  | entry :: passed, rest => rest.head? = some entry ∧
      Passes trancId isAborted target passed (stepRest trancId isAborted rest)

section Rest

variable {trancId : ℕ} {isAborted : ℕ → Bool}

theorem length_stepRest_lt {rest : List Entry} (hne : rest ≠ []) :
    (stepRest trancId isAborted rest).length < rest.length := by
  cases rest with
  | nil => exact absurd rfl hne
  | cons entry rest =>
      rw [stepRest, List.length_cons]
      exact Nat.lt_succ_of_le (((List.dropWhile_sublist _).trans
        (List.dropWhile_sublist _)).length_le)

/-- A walk gets closer with every record. -/
theorem Passes.length_le {target passed rest : List Entry}
    (hpasses : Passes trancId isAborted target passed rest) :
    target.length + passed.length ≤ rest.length := by
  induction passed generalizing rest with
  | nil => exact le_of_eq (by rw [hpasses, List.length_nil, Nat.add_zero])
  | cons entry passed ih =>
      obtain ⟨hhead, htail⟩ := hpasses
      have hne : rest ≠ [] := by
        rintro rfl
        cases hhead
      have hstep : (stepRest trancId isAborted rest).length < rest.length :=
        length_stepRest_lt hne
      have hrest := ih htail
      rw [List.length_cons]
      omega

/-- Through a sorted run a walk passes what the reader is shown of it. -/
theorem passes_shown {front back : List Entry} (hsorted : Versions.Sorted (front ++ back))
    (hkeys : ∀ left ∈ front, ∀ right ∈ back, left.key ≠ right.key) :
    Passes trancId isAborted
      (back.dropWhile fun entry => !Versions.visible trancId isAborted entry.txid)
      (Versions.shown trancId isAborted false front)
      ((front ++ back).dropWhile fun entry =>
        !Versions.visible trancId isAborted entry.txid) := by
  induction hlength : front.length using Nat.strong_induction_on generalizing front with
  | _ length ih =>
      rw [← Versions.shown_dropWhile, List.dropWhile_append]
      cases hfront : front.dropWhile fun entry =>
          !Versions.visible trancId isAborted entry.txid with
      | nil =>
          rw [Versions.shown_nil]
          rfl
      | cons entry rest =>
          have hsuffix := List.dropWhile_suffix (l := front)
            (fun entry : Entry => !Versions.visible trancId isAborted entry.txid)
          rw [hfront] at hsuffix
          have hvisible : Versions.visible trancId isAborted entry.txid :=
            Versions.visible_of_head? (hfront ▸ List.head?_cons)
          have hsub : (entry :: rest).Sublist front := hsuffix.sublist
          have hfrontSorted : Versions.Sorted front :=
            hsorted.sublist (List.sublist_append_left _ _)
          have hdrop := List.dropWhile_sublist (l := rest)
            (fun other : Entry => decide (other.key = entry.key))
          rw [Versions.shown_cons (hfrontSorted.sublist hsub) hvisible,
            if_neg Bool.false_ne_true]
          refine ⟨rfl, ?_⟩
          have hcut : ((rest ++ back).dropWhile fun other => other.key = entry.key) =
              (rest.dropWhile fun other => other.key = entry.key) ++ back := by
            rw [List.dropWhile_append]
            split_ifs with hempty
            · rw [List.isEmpty_iff.mp hempty, List.nil_append]
              cases hback : back with
              | nil => rfl
              | cons second others =>
                  have hne := hkeys entry (hsub.subset List.mem_cons_self) second
                    (by rw [hback]; exact List.mem_cons_self)
                  rw [List.dropWhile_cons_of_neg (by simpa using hne.symm)]
            · rfl
          change Passes trancId isAborted _ _ (((rest ++ back).dropWhile fun other =>
            other.key = entry.key).dropWhile fun other =>
              !Versions.visible trancId isAborted other.txid)
          rw [hcut]
          have hkept := hdrop.trans ((List.sublist_cons_self entry rest).trans hsub)
          refine ih _ ?_ (hsorted.sublist (hkept.append_right back)) ?_ rfl
          · have hmore := hsub.length_le
            rw [List.length_cons] at hmore
            refine hdrop.length_le.trans_lt ?_
            omega
          · intro left hleft right hright
            exact hkeys left (hkept.subset hleft) right hright

end Rest

/-- Two iterators of one block differ exactly if the reader sees a record between them. -/
theorem BlockIterator.currentIndex_eq_iff {block : Block} {first endIdx trancId : ℕ}
    {isAborted : ℕ → Bool} (hle : first ≤ endIdx) (hsize : endIdx ≤ block.size) :
    (ofIndex block first trancId false isAborted).currentIndex =
        (ofIndex block endIdx trancId false isAborted).currentIndex ↔
      ∀ entry ∈ (block.entries.drop first).take (endIdx - first),
        ¬Versions.visible trancId isAborted entry.txid := by
  have hindex : ∀ index ≤ block.size,
      (ofIndex block index trancId false isAborted).currentIndex +
          (ofIndex block index trancId false isAborted).rest.length = block.size := by
    intro index hindex
    have hlength := (List.takeWhile_sublist (l := block.entries.drop index)
      fun entry : Entry => !Versions.visible trancId isAborted entry.txid).length_le
    rw [List.length_drop] at hlength
    rw [rest, List.length_drop]
    change index + _ + (block.entries.length - (index + _)) = block.entries.length
    simp only [rest, Block.size] at *
    omega
  have hrest : ∀ index, (ofIndex block index trancId false isAborted).rest =
      (block.entries.drop index).dropWhile fun entry =>
        !Versions.visible trancId isAborted entry.txid :=
    fun index => rest_skipByTrancId _
  have hcut : block.entries.drop first =
      (block.entries.drop first).take (endIdx - first) ++ block.entries.drop endIdx := by
    conv_lhs => rw [← List.take_append_drop (endIdx - first) (block.entries.drop first)]
    rw [List.drop_drop, Nat.add_sub_cancel' hle]
  have hfirst := hindex first (hle.trans hsize)
  have hend := hindex endIdx hsize
  have hlengths : (ofIndex block first trancId false isAborted).currentIndex =
        (ofIndex block endIdx trancId false isAborted).currentIndex ↔
      (ofIndex block first trancId false isAborted).rest.length =
        (ofIndex block endIdx trancId false isAborted).rest.length := by omega
  rw [hlengths, hrest, hrest]
  generalize (block.entries.drop first).take (endIdx - first) = middle at hcut ⊢
  rw [hcut, List.dropWhile_append]
  split_ifs with hhidden
  · refine iff_of_true rfl ?_
    rw [List.isEmpty_iff, List.dropWhile_eq_nil_iff] at hhidden
    intro entry hentry
    simpa using hhidden entry hentry
  · rw [List.isEmpty_iff, List.dropWhile_eq_nil_iff] at hhidden
    refine iff_of_false ?_ ?_
    · have hpos : (middle.dropWhile fun entry =>
          !Versions.visible trancId isAborted entry.txid) ≠ [] := by
        rw [Ne, List.dropWhile_eq_nil_iff]
        exact hhidden
      have hlength := List.length_pos_iff.mpr hpos
      have hless := (List.dropWhile_sublist (l := block.entries.drop endIdx) fun entry : Entry =>
        !Versions.visible trancId isAborted entry.txid).length_le
      rw [List.length_append]
      omega
    · intro hall
      apply hhidden
      intro entry hentry
      simpa using hall entry hentry

/-! ## Walks in a block -/

namespace BlockIterator

/-- Stepping from an iterator shows these records, each of them in front of `stop`, and
arrives at `stop`. -/
def WalksTo (stop : BlockIterator) : List Entry → BlockIterator → Prop
  | [], it => it = stop
  | entry :: shown, it => it.currentIndex < stop.currentIndex ∧ it.current? = some entry ∧
      WalksTo stop shown it.next

section Walk

variable {block : Block} {trancId : ℕ} {isAborted : ℕ → Bool}

/-- The skip of hidden records stays inside the block. -/
theorem skipByTrancId_index {index : ℕ} (hindex : index ≤ block.size) :
    ∃ index' ≤ block.size, skipByTrancId ⟨block, index, trancId, false, isAborted⟩ =
        ⟨block, index', trancId, false, isAborted⟩ ∧
      block.entries.drop index' = (block.entries.drop index).dropWhile fun entry =>
        !Versions.visible trancId isAborted entry.txid := by
  refine ⟨_, ?_, rfl, rest_skipByTrancId ⟨block, index, trancId, false, isAborted⟩⟩
  have hlength := (List.takeWhile_sublist (l := block.entries.drop index)
    fun entry : Entry => !Versions.visible trancId isAborted entry.txid).length_le
  rw [List.length_drop] at hlength
  simp only [rest, Block.size] at *
  omega

private theorem next_index {index : ℕ} (hindex : index ≤ block.size) :
    ∃ index' ≤ block.size, next ⟨block, index, trancId, false, isAborted⟩ =
      ⟨block, index', trancId, false, isAborted⟩ := by
  cases hcurrent : current? ⟨block, index, trancId, false, isAborted⟩ with
  | none => exact ⟨index, hindex, by rw [next, hcurrent]⟩
  | some entry =>
      have hlt : index < block.entries.length := (List.getElem?_eq_some_iff.mp hcurrent).1
      have hlength := (List.takeWhile_sublist (l := block.entries.drop (index + 1))
        fun other : Entry => decide (other.key = entry.key)).length_le
      rw [List.length_drop] at hlength
      rw [next, hcurrent]
      have hbehind : index + 1 + ((block.entries.drop (index + 1)).takeWhile
          fun other => decide (other.key = entry.key)).length ≤ block.size := by
        rw [Block.size]
        omega
      obtain ⟨index', hindex', hskip, -⟩ :=
        @skipByTrancId_index block trancId isAborted _ hbehind
      exact ⟨index', hindex', hskip⟩

/-- A walk through the records ahead is a walk of the iterator. -/
theorem walksTo_of_passes {stopIndex : ℕ} (hstop : stopIndex ≤ block.size)
    {shown : List Entry} {index : ℕ} (hindex : index ≤ block.size)
    (hpasses : Passes trancId isAborted (block.entries.drop stopIndex) shown
      (block.entries.drop index)) :
    WalksTo ⟨block, stopIndex, trancId, false, isAborted⟩ shown
      ⟨block, index, trancId, false, isAborted⟩ := by
  induction shown generalizing index with
  | nil =>
      have hlength := congrArg List.length hpasses
      rw [List.length_drop, List.length_drop] at hlength
      obtain rfl : index = stopIndex := by
        rw [Block.size] at hstop hindex
        omega
      rfl
  | cons entry shown ih =>
      have hlength := hpasses.length_le
      obtain ⟨hhead, htail⟩ := hpasses
      rw [List.length_drop, List.length_drop, List.length_cons] at hlength
      obtain ⟨index', hindex', hnext⟩ :=
        @next_index block trancId isAborted index hindex
      obtain ⟨others, hrest⟩ := List.head?_eq_some_iff.mp hhead
      have hstep : block.entries.drop index' =
          stepRest trancId isAborted (block.entries.drop index) := by
        have hmoved : (next ⟨block, index, trancId, false, isAborted⟩).rest =
            block.entries.drop index' := by
          rw [hnext]
          rfl
        rw [← hmoved, rest_next (show rest ⟨block, index, trancId, false, isAborted⟩ =
          entry :: others from hrest), hrest]
        rfl
      refine ⟨?_, ?_, ?_⟩
      · dsimp only
        rw [Block.size] at hstop
        omega
      · rw [current?_eq_head?]
        exact hhead
      · rw [hnext]
        rw [← hstep] at htail
        exact ih hindex' htail

end Walk

end BlockIterator

/-! ## Prefixes -/

/-- `std::string::compare`, by its sign. -/
def compareStr (left right : Bytes) : ℤ :=
  if left < right then -1 else if left = right then 0 else 1

/-- The predicate of `iters_preffix`: `-key.compare(0, preffix.size(), preffix)`. -/
def preffixPredicate (preffix key : Bytes) : ℤ := -compareStr (key.take preffix.length) preffix

theorem preffixPredicate_eq_zero (preffix key : Bytes) :
    preffixPredicate preffix key = 0 ↔ preffix <+: key := by
  rw [List.prefix_iff_eq_take, preffixPredicate, compareStr]
  split_ifs with hlt heq
  · exact iff_of_false (by decide) hlt.ne'
  · exact iff_of_true rfl heq.symm
  · exact iff_of_false (by decide) (Ne.symm heq)

theorem preffixPredicate_neg (preffix key : Bytes) :
    preffixPredicate preffix key < 0 ↔ preffix < key.take preffix.length := by
  rw [preffixPredicate, compareStr]
  split_ifs with hlt heq
  · exact iff_of_false (by decide) hlt.asymm
  · exact iff_of_false (by decide) heq.not_gt
  · exact iff_of_true (by decide) (lt_of_le_of_ne (not_lt.mp hlt) (Ne.symm heq))

theorem preffixPredicate_pos (preffix key : Bytes) :
    0 < preffixPredicate preffix key ↔ key.take preffix.length < preffix := by
  rw [preffixPredicate, compareStr]
  split_ifs with hlt heq
  · exact iff_of_true (by decide) hlt
  · exact iff_of_false (by decide) hlt
  · exact iff_of_false (by decide) hlt

theorem preffixPredicate_monotone (preffix : Bytes) :
    MonotonePredicate (preffixPredicate preffix) where
  neg_of_le hle hneg := by
    rw [preffixPredicate_neg] at hneg ⊢
    exact hneg.trans_le (Prefixes.take_le_take hle _)
  pos_of_le hle hpos := by
    rw [preffixPredicate_pos] at hpos ⊢
    exact (Prefixes.take_le_take hle _).trans_lt hpos

namespace Block

/-- `iters_preffix` -/
def itersPreffix (block : Block) (trancId : ℕ) (preffix : Bytes) (isAborted : ℕ → Bool) :
    Option (BlockIterator × BlockIterator) :=
  block.getMonotonyPredicateIters trancId (preffixPredicate preffix) isAborted

/-- The result of a range query: nothing if no record at all has a wanted key, otherwise two
iterators with the newest visible version of every wanted key between them. -/
def RangeOf (block : Block) (trancId : ℕ) (isAborted : ℕ → Bool) (wanted : Bytes → Prop)
    [DecidablePred wanted] : Option (BlockIterator × BlockIterator) → Prop
  | none => ∀ entry ∈ block.entries, ¬wanted entry.key
  | some (begin, stop) => (∃ entry ∈ block.entries, wanted entry.key) ∧
      stop.WalksTo ((Versions.shown trancId isAborted false block.entries).filter
        fun entry => decide (wanted entry.key)) begin

section Contract

variable {block : Block} {trancId : ℕ} {isAborted : ℕ → Bool}

theorem RangeOf.congr {wanted wanted' : Bytes → Prop} [DecidablePred wanted]
    [DecidablePred wanted'] (hwanted : ∀ key, wanted key ↔ wanted' key)
    {result : Option (BlockIterator × BlockIterator)}
    (hrange : block.RangeOf trancId isAborted wanted result) :
    block.RangeOf trancId isAborted wanted' result := by
  have hkeys : (fun entry : Entry => decide (wanted entry.key)) =
      fun entry => decide (wanted' entry.key) := by
    funext entry
    exact decide_eq_decide.mpr (hwanted entry.key)
  cases result with
  | none => exact fun entry hentry => mt (hwanted entry.key).mpr (hrange entry hentry)
  | some pair =>
      obtain ⟨⟨entry, hentry, hkey⟩, hwalk⟩ := hrange
      rw [hkeys] at hwalk
      exact ⟨⟨entry, hentry, (hwanted entry.key).mp hkey⟩, hwalk⟩

/-- In a cut block the reader is shown the range and what is on both sides of it. -/
private theorem shown_cut {predicate : Bytes → ℤ} {front middle back : List Entry}
    (hsorted : Versions.Sorted (front ++ (middle ++ back)))
    (hfront : ∀ entry ∈ front, 0 < predicate entry.key)
    (hmiddle : ∀ entry ∈ middle, predicate entry.key = 0)
    (hback : ∀ entry ∈ back, predicate entry.key < 0) :
    (Versions.shown trancId isAborted false (front ++ (middle ++ back))).filter
        (fun entry => decide (predicate entry.key = 0)) =
      Versions.shown trancId isAborted false middle := by
  have hbefore : ∀ left ∈ front, ∀ right ∈ middle ++ back, left.key < right.key := by
    intro left hleft right hright
    have hle := ((List.pairwise_append.mp hsorted).2.2 left hleft right hright).key_le
    refine lt_of_le_of_ne hle fun heq => ?_
    have hpos := heq ▸ hfront left hleft
    rcases List.mem_append.mp hright with hright | hright
    · exact hpos.ne' (hmiddle right hright)
    · exact hpos.asymm (hback right hright)
  have hbehind : ∀ left ∈ middle, ∀ right ∈ back, left.key < right.key := by
    intro left hleft right hright
    have hsub := (List.pairwise_append.mp hsorted).2.1
    have hle := ((List.pairwise_append.mp hsub).2.2 left hleft right hright).key_le
    refine lt_of_le_of_ne hle fun heq => ?_
    exact (hback right hright).ne (heq ▸ hmiddle left hleft)
  rw [Versions.shown_append _ _ _ hbefore, Versions.shown_append _ _ _ hbehind,
    List.filter_append, List.filter_append]
  have hnoFront : (Versions.shown trancId isAborted false front).filter
      (fun entry => decide (predicate entry.key = 0)) = [] := by
    rw [List.filter_eq_nil_iff]
    intro entry hentry
    simpa using (hfront entry (Versions.mem_shown hentry).1).ne'
  have hnoBack : (Versions.shown trancId isAborted false back).filter
      (fun entry => decide (predicate entry.key = 0)) = [] := by
    rw [List.filter_eq_nil_iff]
    intro entry hentry
    simpa using (hback entry (Versions.mem_shown hentry).1).ne
  have hall : (Versions.shown trancId isAborted false middle).filter
      (fun entry => decide (predicate entry.key = 0)) =
        Versions.shown trancId isAborted false middle := by
    rw [List.filter_eq_self]
    intro entry hentry
    simpa using hmiddle entry (Versions.mem_shown hentry).1
  rw [hnoFront, hall, hnoBack, List.nil_append, List.append_nil]

/-- A monotone predicate cuts its range out of a sorted block. -/
theorem rangeOf_monotone (hsorted : Versions.Sorted block.entries) {predicate : Bytes → ℤ}
    (hmono : MonotonePredicate predicate) :
    block.RangeOf trancId isAborted (fun key => predicate key = 0)
      (block.getMonotonyPredicateIters trancId predicate isAborted) := by
  have hcut := getMonotonyPredicateIters_cut hmono hsorted trancId isAborted
  cases hpair : block.getMonotonyPredicateIters trancId predicate isAborted with
  | none =>
      rw [hpair] at hcut
      exact hcut
  | some pair =>
      obtain ⟨begin, stop⟩ := pair
      rw [hpair] at hcut
      obtain ⟨first, endIdx, hle, hsize, rfl, rfl, hbefore, hfrom, htake, hbehind, hin⟩ := hcut
      refine ⟨hin, ?_⟩
      obtain ⟨index, hindex, hbegin, hbeginRest⟩ :=
        @BlockIterator.skipByTrancId_index block trancId isAborted first (hle.trans hsize)
      obtain ⟨stopIndex, hstopIndex, hstop, hstopRest⟩ :=
        @BlockIterator.skipByTrancId_index block trancId isAborted endIdx hsize
      have hsplit : block.entries.drop first =
          (block.entries.drop first).take (endIdx - first) ++ block.entries.drop endIdx := by
        conv_lhs => rw [← List.take_append_drop (endIdx - first) (block.entries.drop first)]
        rw [List.drop_drop, Nat.add_sub_cancel' hle]
      have hmiddle : ∀ entry ∈ (block.entries.drop first).take (endIdx - first),
          predicate entry.key = 0 := by
        intro entry hentry
        apply le_antisymm (hfrom entry (List.mem_of_mem_take hentry))
        apply htake entry
        rw [← List.drop_take] at hentry
        exact List.mem_of_mem_drop hentry
      have hwhole := List.take_append_drop first block.entries
      generalize (block.entries.drop first).take (endIdx - first) = middle at hsplit hmiddle
      rw [hsplit] at hwhole
      have hsortedWhole := hsorted
      rw [← hwhole] at hsortedWhole
      have hshown := @shown_cut trancId isAborted predicate _ _ _ hsortedWhole hbefore hmiddle
        hbehind
      rw [hwhole] at hshown
      rw [hshown, BlockIterator.ofIndex, BlockIterator.ofIndex, hbegin, hstop]
      apply BlockIterator.walksTo_of_passes hstopIndex hindex
      rw [hbeginRest, hstopRest, hsplit]
      apply passes_shown (List.pairwise_append.mp hsortedWhole).2.1
      intro left hleft right hright heq
      exact (hbehind right hright).ne (heq ▸ hmiddle left hleft)

theorem rangeOf_preffix (hsorted : Versions.Sorted block.entries) (preffix : Bytes) :
    block.RangeOf trancId isAborted (fun key => preffix <+: key)
      (block.itersPreffix trancId preffix isAborted) :=
  RangeOf.congr (preffixPredicate_eq_zero preffix)
    (rangeOf_monotone hsorted (preffixPredicate_monotone preffix))

end Contract

/-- A version of the key within the bound that is not skipped. -/
def Eligible (key : Bytes) (trancId : ℕ) (isAborted : ℕ → Bool) (entry : Entry) : Prop :=
  entry.key = key ∧ Versions.visible trancId isAborted entry.txid

/-- Two versions of `[1]`, three of `[2]` with a number twice, one of `[3]`. -/
def versionsBlock : Block where
  entries := [⟨[1], [5], 9⟩, ⟨[1], [], 4⟩, ⟨[2], [6], 8⟩, ⟨[2], [7], 3⟩, ⟨[2], [8], 3⟩,
    ⟨[3], [9], 7⟩]
  capacity := 64

private theorem versionsBlock_sorted : Versions.Sorted versionsBlock.entries := by
  simp only [versionsBlock, Versions.Sorted, List.pairwise_cons, List.forall_mem_cons,
    List.not_mem_nil, false_imp_iff, implies_true, List.Pairwise.nil, and_true]
  decide

/-- A lookup returns the first eligible version of the key, from wherever in its run the
bisection lands. -/
theorem lookup_exact {block : Block} (hsorted : Versions.Sorted block.entries) (key : Bytes)
    (trancId : ℕ) (isAborted : ℕ → Bool) :
    (∀ idx, block.getIdxBinary key trancId isAborted = some idx ↔
      ∃ hidx : idx < block.entries.length, Eligible key trancId isAborted block.entries[idx] ∧
        ∀ other (hother : other < idx),
          ¬Eligible key trancId isAborted block.entries[other]) ∧
    (block.getIdxBinary key trancId isAborted = none ↔
      ∀ entry ∈ block.entries, ¬Eligible key trancId isAborted entry) ∧
    ∀ mid (hmid : mid < block.entries.length), block.entries[mid].key = key →
      block.adjustIdxByTrancId mid trancId isAborted =
        block.getIdxBinary key trancId isAborted := by
  have heligible : ∀ entry, (decide (entry.key = key) &&
      Versions.visible trancId isAborted entry.txid) = true ↔
        Eligible key trancId isAborted entry := by
    intro entry
    rw [Bool.and_eq_true, decide_eq_true_iff, Eligible]
  rw [getIdxBinary_eq hsorted]
  refine ⟨?_, ?_, ?_⟩
  · intro idx
    rw [List.findIdx?_eq_some_iff_getElem]
    simp only [heligible]
  · rw [List.findIdx?_eq_none_iff]
    simp only [← Bool.not_eq_true, heligible]
  · intro mid hmid hkey
    exact adjustIdxByTrancId_eq hsorted hmid hkey trancId isAborted

/-- The run of `[2]` below number 8, entered at its last record. -/
theorem lookup_exact_sample :
    versionsBlock.getIdxBinary [2] 7 (fun _ => false) = some 3 ∧
      versionsBlock.adjustIdxByTrancId 4 7 (fun _ => false) = some 3 ∧
      versionsBlock.getIdxBinary [1] 9 (fun id => id = 9 ∨ id = 4) = none := by
  obtain ⟨hfound, -, hadjust⟩ := lookup_exact versionsBlock_sorted [2] 7 fun _ => false
  have hindex := (hfound 3).mpr ⟨by decide, by simp [Eligible, versionsBlock, Versions.visible],
    fun other hother => by
      interval_cases other <;> simp [Eligible, versionsBlock, Versions.visible]⟩
  refine ⟨hindex, (hadjust 4 (by decide) rfl).trans hindex, ?_⟩
  rw [(lookup_exact versionsBlock_sorted [1] 9 _).2.1]
  simp [Eligible, versionsBlock, Versions.visible]

/-- The range queries of a sorted block show the newest visible version of every key in the
range, and a walk from the first iterator arrives at the second. -/
theorem ranges_exact {block : Block} (hsorted : Versions.Sorted block.entries) (trancId : ℕ)
    (isAborted : ℕ → Bool) :
    (∀ predicate, MonotonePredicate predicate →
      block.RangeOf trancId isAborted (fun key => predicate key = 0)
        (block.getMonotonyPredicateIters trancId predicate isAborted)) ∧
    ∀ preffix : Bytes, block.RangeOf trancId isAborted (fun key => preffix <+: key)
      (block.itersPreffix trancId preffix isAborted) :=
  ⟨fun _ hmono => rangeOf_monotone hsorted hmono, rangeOf_preffix hsorted⟩

/-- Of the keys that start with 2, the reader is shown a version behind a hidden one. -/
theorem ranges_exact_sample :
    ∃ begin stop, versionsBlock.itersPreffix 7 [2] (fun _ => false) = some (begin, stop) ∧
      begin.currentIndex = 3 ∧ stop.currentIndex = 5 ∧
      stop.WalksTo [⟨[2], [7], 3⟩] begin := by
  have hrange := (ranges_exact versionsBlock_sorted 7 fun _ => false).2 [2]
  refine ⟨_, _, rfl, rfl, rfl, hrange.2⟩

end Block

end KopiDb
