import KopiDb.Engine
import KopiDb.Lib.MergeAll

/-!
# Level iterator

`Level_Iterator` walks over the memory tables, a queue with all of level 0 and one
chain of files for every deeper level.  Every step takes the least key at the heads of
these sources, and there the largest number.
-/

namespace KopiDb

/-- The two kinds of iterators in `iter_vec`. -/
inductive LevelSource where
  | heap (it : HeapIterator)
  | concact (it : ConcactIterator)

namespace LevelSource

def current? : LevelSource → Option Entry
  | heap it => Cursor.current? it
  | concact it => Cursor.current? it

def next : LevelSource → LevelSource
  | heap it => heap (Cursor.next it)
  | concact it => concact (Cursor.next it)

def remaining : LevelSource → ℕ
  | heap it => Cursor.remaining it
  | concact it => Cursor.remaining it

instance : Cursor LevelSource Entry where
  current? := current?
  next := next
  remaining := remaining
  remaining_next := by
    intro it record hcurrent
    cases it with
    | heap it => exact @Cursor.remaining_next HeapIterator Entry _ it record hcurrent
    | concact it => exact @Cursor.remaining_next ConcactIterator Entry _ it record hcurrent

theorem toList_heap (it : HeapIterator) : Cursor.toList (heap it) = Cursor.toList it :=
  Cursor.toList_map heap (fun _ => rfl) (fun _ => rfl) it

theorem toList_concact (it : ConcactIterator) :
    Cursor.toList (concact it) = Cursor.toList it :=
  Cursor.toList_map concact (fun _ => rfl) (fun _ => rfl) it

end LevelSource

/-- `Level_Iterator`.  Its `cached_value` always is the record under the chosen source
and is not kept a second time. -/
structure LevelIterator where
  iterVec : List LevelSource
  curIdx : ℕ

namespace LevelIterator

/-- `is_end` -/
def isEnd (iterVec : List LevelSource) : Bool :=
  iterVec.all fun source => (Cursor.current? source).isNone

/-- The record at the head of a source. -/
def headAt (iterVec : List LevelSource) (idx : ℕ) : Option Entry :=
  iterVec[idx]?.bind Cursor.current?

/-- One round of the loop of `get_min_key_idx`; the empty key stands for a key that
was not found yet. -/
def minKeyStep (iterVec : List LevelSource) (found : ℕ × Bytes) (idx : ℕ) : ℕ × Bytes :=
  match headAt iterVec idx with
  | none => found
  | some entry =>
      if found.2 = [] ∨ entry.key < found.2 then (idx, entry.key)
      else if entry.key = found.2 ∧
          (headAt iterVec found.1).any fun best => decide (entry.txid > best.txid) then
        (idx, found.2)
      else found

/-- `get_min_key_idx` -/
def getMinKeyIdx (iterVec : List LevelSource) : ℕ × Bytes :=
  (List.range iterVec.length).foldl (minKeyStep iterVec) (0, [])

/-- `skip_key` -/
def skipKey (key : Bytes) (iterVec : List LevelSource) : List LevelSource :=
  iterVec.map (Cursor.skipWhile fun entry => decide (entry.key = key))

def total (iterVec : List LevelSource) : ℕ := (iterVec.map Cursor.remaining).sum

/-- At most `fuel` rounds of the loop that chooses the next live key.  The source that
`get_min_key_idx` chose always has a record, so `update_current` does not throw. -/
def settle : ℕ → List LevelSource → LevelIterator
  | 0, iterVec => ⟨iterVec, 0⟩
  | fuel + 1, iterVec =>
      if isEnd iterVec then ⟨iterVec, 0⟩
      else
        let minIdx := (getMinKeyIdx iterVec).1
        match headAt iterVec minIdx with
        | none => ⟨iterVec, minIdx⟩
        | some entry =>
            if entry.value = [] then settle fuel (skipKey entry.key iterVec)
            else ⟨iterVec, minIdx⟩

/-- The end of the constructor, and of `++`: leave the commit markers, then settle. -/
def start (iterVec : List LevelSource) : LevelIterator :=
  let iterVec := skipKey [] iterVec
  settle (total iterVec) iterVec

def current? (it : LevelIterator) : Option Entry :=
  if isEnd it.iterVec then none else headAt it.iterVec it.curIdx

/-- `operator++` -/
def next (it : LevelIterator) : LevelIterator :=
  match it.current? with
  | none => it
  | some entry => start (skipKey entry.key it.iterVec)

/-! ## Progress -/

private theorem total_skipKey_le (key : Bytes) (iterVec : List LevelSource) :
    total (skipKey key iterVec) ≤ total iterVec := by
  unfold total skipKey
  rw [List.map_map]
  apply List.sum_le_sum
  intro source _
  exact Cursor.remaining_skipWhile_le _ source

private theorem total_skipKey_lt {iterVec : List LevelSource} {idx : ℕ} {entry : Entry}
    (hhead : headAt iterVec idx = some entry) :
    total (skipKey entry.key iterVec) < total iterVec := by
  obtain ⟨source, hsource, hcurrent⟩ := Option.bind_eq_some_iff.mp hhead
  unfold total skipKey
  rw [List.map_map]
  apply List.sum_lt_sum
  · intro other _
    exact Cursor.remaining_skipWhile_le _ other
  · exact ⟨source, List.mem_of_getElem? hsource,
      Cursor.remaining_skipWhile_lt _ hcurrent (by simp)⟩

private theorem total_settle_le (fuel : ℕ) (iterVec : List LevelSource) :
    total (settle fuel iterVec).iterVec ≤ total iterVec := by
  induction fuel generalizing iterVec with
  | zero => exact le_rfl
  | succ fuel ih =>
      rw [settle]
      split_ifs with hend
      · exact le_rfl
      · dsimp only
        split
        · exact le_rfl
        · split_ifs
          · exact (ih _).trans (total_skipKey_le _ _)
          · exact le_rfl

instance : Cursor LevelIterator Entry where
  current? := current?
  next := next
  remaining it := total it.iterVec
  remaining_next := by
    intro it record hcurrent
    rw [next, hcurrent]
    unfold current? at hcurrent
    split_ifs at hcurrent
    calc total (start (skipKey record.key it.iterVec)).iterVec
        ≤ total (skipKey [] (skipKey record.key it.iterVec)) := total_settle_le _ _
      _ ≤ total (skipKey record.key it.iterVec) := total_skipKey_le _ _
      _ < total it.iterVec := total_skipKey_lt hcurrent

/-! ## The choice of the next key -/

/-- What the sources still yield, one run for each. -/
def runs (iterVec : List LevelSource) : List (List Entry) := iterVec.map Cursor.toList

/-- The sources are ready for a merge: one version of each key, and no markers. -/
def Ready (iterVec : List LevelSource) : Prop :=
  ∀ run ∈ runs iterVec, Versions.StrictKeys run ∧ ∀ entry ∈ run, entry.key ≠ []

private theorem headAt_eq (iterVec : List LevelSource) (idx : ℕ) :
    headAt iterVec idx = ((runs iterVec)[idx]?).bind List.head? := by
  rw [headAt, runs, List.getElem?_map]
  cases iterVec[idx]? with
  | none => rfl
  | some source => exact Cursor.current?_eq_head? source

private theorem runs_skipKey (key : Bytes) (iterVec : List LevelSource) :
    runs (skipKey key iterVec) =
      (runs iterVec).map fun run => run.dropWhile fun entry => entry.key = key := by
  unfold runs skipKey
  rw [List.map_map, List.map_map]
  apply List.map_congr_left
  intro source _
  exact Cursor.toList_skipWhile _ source

private theorem Ready.skipKey {iterVec : List LevelSource} (hready : Ready iterVec)
    (key : Bytes) : Ready (skipKey key iterVec) := by
  unfold Ready
  rw [runs_skipKey]
  intro run hrun
  obtain ⟨source, hsource, rfl⟩ := List.mem_map.mp hrun
  obtain ⟨hstrict, hkeys⟩ := hready source hsource
  have hsub := List.dropWhile_sublist (l := source) fun entry : Entry =>
    decide (entry.key = key)
  exact ⟨hstrict.sublist hsub, fun entry hmem => hkeys entry (hsub.subset hmem)⟩

/-- What `get_min_key_idx` has found among the first sources. -/
private structure BestOf (iterVec : List LevelSource) (count : ℕ) (found : ℕ × Bytes)
    (best : Entry) : Prop where
  lt_count : found.1 < count
  head : headAt iterVec found.1 = some best
  key_eq : found.2 = best.key
  least : ∀ idx < count, ∀ entry, headAt iterVec idx = some entry → best.key ≤ entry.key
  largest : ∀ idx < count, ∀ entry, headAt iterVec idx = some entry →
    entry.key = best.key → entry.txid ≤ best.txid ∧ (idx < found.1 → entry.txid < best.txid)

private theorem BestOf.step {iterVec : List LevelSource} {count : ℕ} {found : ℕ × Bytes}
    {best : Entry} (hfound : BestOf iterVec count found best) (hkey : best.key ≠ []) :
    ∃ best', BestOf iterVec (count + 1) (minKeyStep iterVec found count) best' := by
  unfold minKeyStep
  split
  next hnone =>
      refine ⟨best, hfound.lt_count.trans (Nat.lt_succ_self _), hfound.head, hfound.key_eq,
        ?_, ?_⟩
      · intro idx hidx entry hentry
        rcases Nat.lt_succ_iff_lt_or_eq.mp hidx with hidx | rfl
        · exact hfound.least idx hidx entry hentry
        · rw [hnone] at hentry
          cases hentry
      · intro idx hidx entry hentry
        rcases Nat.lt_succ_iff_lt_or_eq.mp hidx with hidx | rfl
        · exact hfound.largest idx hidx entry hentry
        · rw [hnone] at hentry
          cases hentry
  next entry hentry =>
      have hnil : found.2 ≠ [] := hfound.key_eq ▸ hkey
      split_ifs with hless hlarger
      · have hlt : entry.key < best.key := by
          rw [← hfound.key_eq]
          exact hless.resolve_left hnil
        refine ⟨entry, Nat.lt_succ_self _, hentry, rfl, ?_, ?_⟩
        · intro idx hidx other hother
          rcases Nat.lt_succ_iff_lt_or_eq.mp hidx with hidx | rfl
          · exact hlt.le.trans (hfound.least idx hidx other hother)
          · rw [hentry, Option.some.injEq] at hother
            exact hother ▸ le_rfl
        · intro idx hidx other hother hsame
          rcases Nat.lt_succ_iff_lt_or_eq.mp hidx with hidx | rfl
          · have hle := hfound.least idx hidx other hother
            exact absurd hsame (hlt.trans_le hle).ne'
          · rw [hentry, Option.some.injEq] at hother
            exact ⟨hother ▸ le_rfl, fun hidx => absurd hidx (lt_irrefl _)⟩
      · obtain ⟨hsame, htxid⟩ := hlarger
        rw [hfound.head] at htxid
        simp only [Option.any_some, decide_eq_true_eq] at htxid
        rw [hfound.key_eq] at hsame
        refine ⟨entry, Nat.lt_succ_self _, hentry, hfound.key_eq.trans hsame.symm, ?_, ?_⟩
        · intro idx hidx other hother
          rcases Nat.lt_succ_iff_lt_or_eq.mp hidx with hidx | rfl
          · exact hsame ▸ hfound.least idx hidx other hother
          · rw [hentry, Option.some.injEq] at hother
            exact hother ▸ le_rfl
        · intro idx hidx other hother hother'
          rcases Nat.lt_succ_iff_lt_or_eq.mp hidx with hidx | rfl
          · have hle := (hfound.largest idx hidx other hother (hother'.trans hsame)).1
            exact ⟨hle.trans htxid.le, fun _ => hle.trans_lt htxid⟩
          · rw [hentry, Option.some.injEq] at hother
            exact ⟨hother ▸ le_rfl, fun hidx => absurd hidx (lt_irrefl _)⟩
      · refine ⟨best, hfound.lt_count.trans (Nat.lt_succ_self _), hfound.head, hfound.key_eq,
          ?_, ?_⟩
        · intro idx hidx other hother
          rcases Nat.lt_succ_iff_lt_or_eq.mp hidx with hidx | rfl
          · exact hfound.least idx hidx other hother
          · rw [hentry, Option.some.injEq] at hother
            rw [← hother, ← hfound.key_eq]
            exact not_lt.mp fun hlt => hless (Or.inr hlt)
        · intro idx hidx other hother hsame
          rcases Nat.lt_succ_iff_lt_or_eq.mp hidx with hidx | rfl
          · exact hfound.largest idx hidx other hother hsame
          · rw [hentry, Option.some.injEq] at hother
            subst hother
            have hle : entry.txid ≤ best.txid := by
              rw [hfound.head, hfound.key_eq] at hlarger
              simpa [hsame] using hlarger
            exact ⟨hle, fun hidx => absurd hidx hfound.lt_count.not_gt⟩

private theorem minKey_found {iterVec : List LevelSource}
    (hkeys : ∀ idx entry, headAt iterVec idx = some entry → entry.key ≠ []) (count : ℕ) :
    let found := (List.range count).foldl (minKeyStep iterVec) (0, [])
    (found = (0, []) ∧ ∀ idx < count, headAt iterVec idx = none) ∨
      ∃ best, BestOf iterVec count found best := by
  induction count with
  | zero => exact Or.inl ⟨rfl, fun idx hidx => absurd hidx (Nat.not_lt_zero idx)⟩
  | succ count ih =>
      dsimp only at ih ⊢
      rw [List.range_succ, List.foldl_append, List.foldl_cons, List.foldl_nil]
      rcases ih with ⟨hfound, hnone⟩ | ⟨best, hbest⟩
      · rw [hfound]
        cases hhead : headAt iterVec count with
        | none =>
            left
            refine ⟨by rw [minKeyStep, hhead], fun idx hidx => ?_⟩
            rcases Nat.lt_succ_iff_lt_or_eq.mp hidx with hidx | rfl
            · exact hnone idx hidx
            · exact hhead
        | some entry =>
            right
            have hstep : minKeyStep iterVec (0, []) count = (count, entry.key) := by
              rw [minKeyStep, hhead]
              simp
            rw [hstep]
            refine ⟨entry, Nat.lt_succ_self _, hhead, rfl, ?_, ?_⟩
            · intro idx hidx other hother
              rcases Nat.lt_succ_iff_lt_or_eq.mp hidx with hidx | rfl
              · rw [hnone idx hidx] at hother
                cases hother
              · rw [hhead, Option.some.injEq] at hother
                exact hother ▸ le_rfl
            · intro idx hidx other hother _
              rcases Nat.lt_succ_iff_lt_or_eq.mp hidx with hidx | rfl
              · rw [hnone idx hidx] at hother
                cases hother
              · rw [hhead, Option.some.injEq] at hother
                exact ⟨hother ▸ le_rfl, fun hidx => absurd hidx (lt_irrefl _)⟩
      · exact Or.inr (hbest.step (hkeys _ best hbest.head))

private theorem isEnd_iff {iterVec : List LevelSource} :
    isEnd iterVec = true ↔ ∀ idx, headAt iterVec idx = none := by
  unfold isEnd headAt
  rw [List.all_eq_true]
  constructor
  · intro hall idx
    cases hsource : iterVec[idx]? with
    | none => rfl
    | some source => simpa using hall source (List.mem_of_getElem? hsource)
  · intro hnone source hmem
    obtain ⟨idx, hidx, rfl⟩ := List.mem_iff_getElem.mp hmem
    have hhead := hnone idx
    rw [List.getElem?_eq_getElem hidx] at hhead
    simpa using hhead

/-- The chosen source leads the merge. -/
private theorem leads_getMinKeyIdx {iterVec : List LevelSource} (hready : Ready iterVec)
    (hend : ¬isEnd iterVec = true) :
    ∃ best, headAt iterVec (getMinKeyIdx iterVec).1 = some best ∧
      Versions.Leads (runs iterVec) best := by
  have hmem : ∀ {idx entry}, headAt iterVec idx = some entry →
      ∃ run ∈ runs iterVec, entry ∈ run := by
    intro idx entry hhead
    rw [headAt_eq] at hhead
    obtain ⟨run, hrun, hfirst⟩ := Option.bind_eq_some_iff.mp hhead
    exact ⟨run, List.mem_of_getElem? hrun, List.mem_of_head? hfirst⟩
  have hkeys : ∀ idx entry, headAt iterVec idx = some entry → entry.key ≠ [] := by
    intro idx entry hhead
    obtain ⟨run, hrun, hentry⟩ := hmem hhead
    exact (hready run hrun).2 entry hentry
  have hlength : (runs iterVec).length = iterVec.length := List.length_map _
  rcases minKey_found hkeys iterVec.length with ⟨-, hnone⟩ | ⟨best, hbest⟩
  · refine absurd (isEnd_iff.mpr fun idx => ?_) hend
    rcases lt_or_ge idx iterVec.length with hlt | hge
    · exact hnone idx hlt
    · rw [headAt, List.getElem?_eq_none hge]
      rfl
  · have hidx : (getMinKeyIdx iterVec).1 < (runs iterVec).length := hlength ▸ hbest.lt_count
    have hat : ∀ idx (hidx : idx < (runs iterVec).length) version,
        (runs iterVec)[idx].head? = some version → headAt iterVec idx = some version := by
      intro idx hidx version hfirst
      rw [headAt_eq, List.getElem?_eq_getElem hidx]
      exact hfirst
    refine ⟨best, hbest.head, Versions.leads_of_heads (fun run hrun => (hready run hrun).1)
      hidx ?_ ?_ ?_ ?_⟩
    · have hhead := hbest.head
      rw [headAt_eq, ← getMinKeyIdx, List.getElem?_eq_getElem hidx] at hhead
      exact hhead
    · intro run hrun version hfirst
      obtain ⟨idx, hidx, rfl⟩ := List.mem_iff_getElem.mp hrun
      exact hbest.least idx (hlength ▸ hidx) version (hat idx hidx version hfirst)
    · intro run hrun version hfirst hkey
      obtain ⟨idx, hidx, rfl⟩ := List.mem_iff_getElem.mp hrun
      rw [List.length_take] at hidx
      have hidx' : idx < (runs iterVec).length := hidx.trans_le (min_le_right _ _)
      rw [List.getElem_take] at hfirst
      exact (hbest.largest idx (hlength ▸ hidx') version (hat idx hidx' version hfirst) hkey).2
        (hidx.trans_le (min_le_left _ _))
    · intro run hrun version hfirst hkey
      obtain ⟨idx, hidx, hget⟩ := List.mem_iff_getElem.mp (List.mem_of_mem_drop hrun)
      subst hget
      exact (hbest.largest idx (hlength ▸ hidx) version (hat idx hidx version hfirst) hkey).1


/-! ## What a scan yields -/

/-- The newest version of every key over all sources, without the deleted keys. -/
def liveRun (iterVec : List LevelSource) : List Entry :=
  (Versions.firstPerKey (Versions.mergeAll (runs iterVec))).filter fun entry =>
    decide (entry.value ≠ [])

private theorem Ready.sorted {iterVec : List LevelSource} (hready : Ready iterVec) :
    ∀ run ∈ runs iterVec, Versions.Sorted run :=
  fun run hrun => (hready run hrun).1.sorted

private theorem liveRun_of_leads {iterVec : List LevelSource} (hready : Ready iterVec)
    {best : Entry} (hleads : Versions.Leads (runs iterVec) best) :
    liveRun iterVec =
      (if best.value = [] then [] else [best]) ++ liveRun (skipKey best.key iterVec) := by
  rw [liveRun, hleads.firstPerKey_eq hready.sorted, ← runs_skipKey, liveRun]
  split_ifs with hvalue
  · rw [List.filter_cons_of_neg (by simpa using hvalue), List.nil_append]
  · rw [List.filter_cons_of_pos (by simpa using hvalue), List.singleton_append]

private theorem liveRun_of_isEnd {iterVec : List LevelSource} (hend : isEnd iterVec = true) :
    liveRun iterVec = [] := by
  have hnil : ∀ run ∈ runs iterVec, run = [] := by
    intro run hrun
    obtain ⟨idx, hidx, rfl⟩ := List.mem_iff_getElem.mp hrun
    have hhead := isEnd_iff.mp hend idx
    rw [headAt_eq, List.getElem?_eq_getElem hidx] at hhead
    exact List.head?_eq_none_iff.mp hhead
  have hmerged : Versions.mergeAll (runs iterVec) = [] := by
    generalize runs iterVec = sources at hnil
    induction sources with
    | nil => rfl
    | cons run rest ih =>
        rw [Versions.mergeAll_cons, hnil run List.mem_cons_self,
          ih fun other hmem => hnil other (List.mem_cons_of_mem _ hmem)]
        exact Versions.merge_nil_left []
  rw [liveRun, hmerged]
  rfl

/-- Where the loop stops: at the end, or on a live version that leads the merge. -/
def Settled (it : LevelIterator) : Prop :=
  isEnd it.iterVec = true ∨ ∃ best, headAt it.iterVec it.curIdx = some best ∧
    Versions.Leads (runs it.iterVec) best ∧ best.value ≠ []

private theorem settle_spec {fuel : ℕ} {iterVec : List LevelSource} (hready : Ready iterVec)
    (hfuel : total iterVec ≤ fuel) :
    Settled (settle fuel iterVec) ∧ Ready (settle fuel iterVec).iterVec ∧
      liveRun (settle fuel iterVec).iterVec = liveRun iterVec := by
  induction fuel generalizing iterVec with
  | zero =>
      refine ⟨Or.inl ?_, hready, rfl⟩
      by_contra hend
      obtain ⟨best, hhead, -⟩ := leads_getMinKeyIdx hready hend
      have hless := total_skipKey_lt hhead
      omega
  | succ fuel ih =>
      rw [settle]
      split_ifs with hend
      · exact ⟨Or.inl hend, hready, rfl⟩
      · obtain ⟨best, hhead, hleads⟩ := leads_getMinKeyIdx hready hend
        dsimp only
        rw [hhead]
        dsimp only
        split_ifs with hvalue
        · have hless := total_skipKey_lt hhead
          have hrest := ih (hready.skipKey best.key) (by omega)
          rw [liveRun_of_leads hready hleads, if_pos hvalue, List.nil_append]
          exact hrest
        · exact ⟨Or.inr ⟨best, hhead, hleads, hvalue⟩, hready, rfl⟩

private theorem skipKey_nil {iterVec : List LevelSource}
    (hstrict : ∀ run ∈ runs iterVec, Versions.StrictKeys run) :
    runs (skipKey [] iterVec) =
      (runs iterVec).map fun run => run.filter fun entry => decide (entry.key ≠ []) := by
  rw [runs_skipKey]
  apply List.map_congr_left
  intro run hrun
  rw [(hstrict run hrun).sorted.dropWhile_least fun entry _ =>
    not_lt.mp (List.not_lt_nil entry.key)]
  apply List.filter_congr
  intro entry _
  by_cases hkey : entry.key = []
  · simp [hkey]
  · obtain ⟨first, rest, hcons⟩ := List.exists_cons_of_ne_nil hkey
    simp [hcons]

private theorem ready_skipKey_nil {iterVec : List LevelSource}
    (hstrict : ∀ run ∈ runs iterVec, Versions.StrictKeys run) :
    Ready (skipKey [] iterVec) := by
  unfold Ready
  rw [skipKey_nil hstrict]
  intro run hrun
  obtain ⟨source, hsource, rfl⟩ := List.mem_map.mp hrun
  refine ⟨(hstrict source hsource).filter _, fun entry hmem => ?_⟩
  simpa using List.of_mem_filter hmem

private theorem skipKey_nil_of_ready {iterVec : List LevelSource} (hready : Ready iterVec) :
    liveRun (skipKey [] iterVec) = liveRun iterVec := by
  have hsame : runs (skipKey [] iterVec) = runs iterVec := by
    rw [skipKey_nil fun run hrun => (hready run hrun).1]
    calc (runs iterVec).map (fun run => run.filter fun entry => decide (entry.key ≠ []))
        = (runs iterVec).map id := by
          apply List.map_congr_left
          intro run hrun
          exact List.filter_eq_self.mpr fun entry hmem => by
            simpa using (hready run hrun).2 entry hmem
      _ = runs iterVec := List.map_id _
  rw [liveRun, hsame, liveRun]

private theorem toList_of_settled {it : LevelIterator} (hready : Ready it.iterVec)
    (hsettled : Settled it) : Cursor.toList it = liveRun it.iterVec := by
  induction htotal : total it.iterVec using Nat.strong_induction_on generalizing it with
  | _ count ih =>
      rcases hsettled with hend | ⟨best, hhead, hleads, hvalue⟩
      · have hcurrent : Cursor.current? it = none := by
          change current? it = none
          rw [current?, if_pos hend]
        rw [Cursor.toList_of_none hcurrent, liveRun_of_isEnd hend]
      · have hend : ¬isEnd it.iterVec = true := by
          intro hend
          rw [isEnd_iff.mp hend] at hhead
          cases hhead
        have hcurrent : Cursor.current? it = some best := by
          change current? it = some best
          rw [current?, if_neg hend, hhead]
        have hnext : Cursor.next it = start (skipKey best.key it.iterVec) := by
          change next it = _
          have hcurrent' : current? it = some best := hcurrent
          rw [next, hcurrent']
        have hskipped := hready.skipKey best.key
        have hstart := ready_skipKey_nil fun run hrun => (hskipped run hrun).1
        obtain ⟨hsettled, hready', hlive⟩ := settle_spec hstart le_rfl
        have hless : total (start (skipKey best.key it.iterVec)).iterVec < count := by
          calc total (start (skipKey best.key it.iterVec)).iterVec
              ≤ total (skipKey [] (skipKey best.key it.iterVec)) := total_settle_le _ _
            _ ≤ total (skipKey best.key it.iterVec) := total_skipKey_le _ _
            _ < count := htotal ▸ total_skipKey_lt hhead
        have hrest := ih _ hless hready' hsettled rfl
        rw [Cursor.toList_of_some hcurrent, hnext, start, hrest, hlive,
          skipKey_nil_of_ready hskipped, liveRun_of_leads hready hleads, if_neg hvalue,
          List.singleton_append]

/-- An iterator over sources that show every key once yields the keys in ascending
order, each with the newest version over all sources, and no deleted keys. -/
theorem toList_start {iterVec : List LevelSource}
    (hstrict : ∀ run ∈ runs iterVec, Versions.StrictKeys run) :
    Versions.StrictKeys (Cursor.toList (start iterVec)) ∧
      (∀ entry ∈ Cursor.toList (start iterVec), entry.key ≠ [] ∧ entry.value ≠ []) ∧
      ∀ key, key ≠ [] →
        (Cursor.toList (start iterVec)).find? (fun entry => entry.key = key) =
          (Versions.read (runs iterVec).flatten key 0 fun _ => false).filter fun entry =>
            decide (entry.value ≠ []) := by
  have hready := ready_skipKey_nil hstrict
  obtain ⟨hsettled, hready', hlive⟩ := settle_spec hready le_rfl
  have hlist : Cursor.toList (start iterVec) = liveRun (skipKey [] iterVec) := by
    rw [start, toList_of_settled hready' hsettled, hlive]
  have hsorted := Versions.Sorted.mergeAll hready.sorted
  have hsame := Versions.mergeAll_sameVersions hready.sorted
  rw [hlist, liveRun]
  refine ⟨hsorted.strictKeys_firstPerKey.filter _, ?_, ?_⟩
  · intro entry hmem
    obtain ⟨hmem, hvalue⟩ := List.mem_filter.mp hmem
    have hmerged := (Versions.firstPerKey_sublist _).subset hmem
    obtain ⟨run, hrun, hmem⟩ := List.mem_flatten.mp ((hsame.mem_iff entry).mp hmerged)
    exact ⟨(hready run hrun).2 entry hmem, by simpa using hvalue⟩
  · intro key hkey
    rw [hsorted.strictKeys_firstPerKey.find?_filter, hsorted.find?_firstPerKey]
    congr 1
    have hread : Versions.read (Versions.mergeAll (runs (skipKey [] iterVec))) key 0
        (fun _ => false) = (Versions.mergeAll (runs (skipKey [] iterVec))).find?
          fun entry => entry.key = key := by
      rw [hsorted.read_eq_find?]
      simp [Versions.visible]
    rw [← hread, Versions.read_congr (hsame.latestAgree key), skipKey_nil hstrict]
    have hflatten : ((runs iterVec).map fun run =>
        run.filter fun entry => decide (entry.key ≠ [])).flatten =
        (runs iterVec).flatten.filter fun entry =>
          decide (entry.key ≠ []) && Versions.visible 0 (fun _ => false) entry.txid := by
      rw [List.filter_flatten]
      simp [Versions.visible]
    rw [hflatten]
    exact Versions.read_filter_visible (fun key => decide (key ≠ [])) (by simpa using hkey) 0
      fun _ => false


end LevelIterator

end KopiDb
