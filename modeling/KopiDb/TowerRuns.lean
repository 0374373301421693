import KopiDb.TowerRange

/-!
# Runs of the skip list

Any sequence of writes, with any throws of the coins, leaves the towers in order, and what the
queries answer depends on the writes alone.
-/

namespace KopiDb

/-- The calls that change a skip list. -/
inductive TowerOp where
  | put (key value : Bytes) (trancId : ℕ)
  | remove (key : Bytes)
  | clear

def SkipList.apply (list : SkipList) : TowerOp → SkipList
  | .put key value trancId => list.put key value trancId
  | .remove key => list.remove key
  | .clear => list.clear

namespace TowerList

open DoublyLinked

/-- One call; the coins are those that `put` throws. -/
def step (table : TowerList) : TowerOp × (ℕ → Bool) → Option TowerList
  | (.put key value trancId, coins) => table.put key value trancId coins
  | (.remove key, _) => table.remove key
  | (.clear, _) => some table.clear

def run (maxLevel : ℕ+) (calls : List (TowerOp × (ℕ → Bool))) : Option TowerList :=
  calls.foldlM step (new maxLevel)

theorem Refines.step {table : TowerList} {ids : List ℕ} {list : SkipList}
    (hrefines : table.Refines ids list) (call : TowerOp × (ℕ → Bool)) :
    ∃ table' ids', table.step call = some table' ∧ table'.Refines ids' (list.apply call.1) ∧
      table'.maxLevel = table.maxLevel := by
  obtain ⟨op, coins⟩ := call
  cases op with
  | put key value trancId => exact hrefines.put key value trancId coins
  | remove key => exact hrefines.remove key
  | clear => exact ⟨table.clear, [], rfl, hrefines.clear, rfl⟩

theorem Refines.foldlM {table : TowerList} {ids : List ℕ} {list : SkipList}
    (hrefines : table.Refines ids list) (calls : List (TowerOp × (ℕ → Bool))) :
    ∃ table' ids', calls.foldlM TowerList.step table = some table' ∧
      table'.Refines ids' ((calls.map Prod.fst).foldl SkipList.apply list) ∧
      table'.maxLevel = table.maxLevel := by
  induction calls generalizing table ids list with
  | nil => exact ⟨table, ids, rfl, hrefines, rfl⟩
  | cons call calls ih =>
      obtain ⟨next, ids', hstep, hnext, hmax⟩ := hrefines.step call
      obtain ⟨table', ids'', hrun, hrefines', hmax'⟩ := ih hnext
      refine ⟨table', ids'', ?_, hrefines', hmax'.trans hmax⟩
      rw [List.foldlM_cons, hstep]
      exact hrun

/-- The records between two iterators. -/
def records (table : TowerList) (start stop : Option ℕ) : Option (List Entry) := do
  (← table.between 0 stop table.fresh start).mapM table.recordAt?

/-- The records of a prefix range. -/
def preffixRecords (table : TowerList) (preffix : Bytes) : Option (List Entry) := do
  table.records (← table.beginPreffix preffix) (← table.endPreffix preffix)

/-- The records of a predicate range, if there is one. -/
def predicateRecords (table : TowerList) (predicate : Bytes → ℤ) :
    Option (Option (List Entry)) := do
  match ← table.itersMonotonyPredicate predicate with
  | none => some none
  | some (start, stop) => some (← table.records start stop)

/-- The record under the iterator of `get`. -/
def getRecord (table : TowerList) (key : Bytes) (trancId : ℕ) (isAborted : ℕ → Bool) :
    Option (Option Entry) := do
  match ← table.get key trancId isAborted with
  | none => some none
  | some id => some (← table.recordAt? id)

theorem mapM_recordAt? {table : TowerList} {ids : List ℕ}
    (hheight : ∀ id ∈ ids, 0 < table.height id) :
    ids.mapM table.recordAt? = some (ids.map table.entry) := by
  induction ids with
  | nil => rfl
  | cons id ids ih =>
      have hrest := ih fun other hmem => hheight other (List.mem_cons_of_mem _ hmem)
      rw [List.mapM_cons, recordAt?_eq (hheight id List.mem_cons_self), hrest]
      rfl

theorem seekVisible_eq {table : TowerList} (key : Bytes) (trancId : ℕ) (isAborted : ℕ → Bool)
    {first fuel : ℕ} {rest : List ℕ} (hlinked : Linked (table.links 0) first rest)
    (hheight : ∀ id ∈ rest, 0 < table.height id) (hfuel : rest.length ≤ fuel) :
    ∃ found, table.seekVisible key trancId isAborted fuel rest.head? = some found ∧
      (∀ id ∈ found, id ∈ rest) ∧
      found.map table.entry =
        (SkipList.seekVisible key trancId isAborted (rest.map table.entry)).head? := by
  induction rest generalizing first fuel with
  | nil =>
      cases fuel with
      | zero => exact ⟨none, rfl, by simp, rfl⟩
      | succ fuel => exact ⟨none, rfl, by simp, rfl⟩
  | cons id rest ih =>
      obtain ⟨fuel, rfl⟩ := Nat.exists_eq_succ_of_ne_zero (Nat.zero_lt_of_lt hfuel).ne'
      have hrest := hlinked.2.2
      have hreach := hheight id List.mem_cons_self
      obtain ⟨found, hfound, hmem, hread⟩ := ih hrest
        (fun other hother => hheight other (List.mem_cons_of_mem _ hother))
        (Nat.le_of_succ_le_succ hfuel)
      rw [List.head?_cons, seekVisible, List.map_cons, SkipList.seekVisible]
      dsimp only [Option.bind_eq_bind]
      rw [recordAt?_eq hreach, forward?_eq hreach, hrest.next_eq]
      dsimp only [Option.bind_some]
      split_ifs with hkey hbound haborted
      · exact ⟨found, hfound, fun other hother => List.mem_cons_of_mem _ (hmem other hother), hread⟩
      · exact ⟨found, hfound, fun other hother => List.mem_cons_of_mem _ (hmem other hother), hread⟩
      · exact ⟨some id, rfl, by simp, rfl⟩
      · exact ⟨none, rfl, by simp, rfl⟩

section Answers

variable {table : TowerList} {ids : List ℕ} {list : SkipList}

/-- `get` stands on the newest visible version of the key. -/
theorem Refines.getRecord (hrefines : table.Refines ids list) (key : Bytes) (trancId : ℕ)
    (isAborted : ℕ → Bool) :
    table.getRecord key trancId isAborted =
      some (Versions.read list.nodes key trancId isAborted) := by
  obtain ⟨pre, post, rfl, hpre, hpost, -, hdrop⟩ :=
    exists_cut table.entry (SkipList.cut_of_ordered hrefines.ordered key)
  have hshape := hrefines.toShape
  have hpos := hshape.currentLevel_pos.trans_le hshape.currentLevel_le
  have hlinked := hshape.linked 0 hpos
  rw [hshape.level_zero] at hlinked
  have hfuel : post.length ≤ table.fresh := by
    have hlength := hshape.length_lt
    rw [List.length_append] at hlength
    omega
  have hdescend : table.descend (fun entry => decide (entry.key < key))
      table.currentLevel table.head = _ := hshape.descend_head hpre hpost
  have hheight : ∀ id ∈ post, 0 < table.height id := fun id hmem =>
    hshape.height_pos id (List.mem_append_right pre hmem)
  obtain ⟨found, hfound, hmem, hread⟩ :=
    seekVisible_eq key trancId isAborted hlinked.drop hheight hfuel
  have hget : table.get key trancId isAborted = some found := by
    rw [TowerList.get, hdescend]
    dsimp only [Option.bind_eq_bind, Option.bind_some]
    rw [hshape.candidate_eq]
    exact hfound
  rw [hdrop, hrefines.nodes] at hread
  rw [← list.get_rest_head?, SkipList.get, ← hread, TowerList.getRecord, hget]
  cases found with
  | none => rfl
  | some id =>
      dsimp only [Option.bind_eq_bind, Option.bind_some]
      rw [recordAt?_eq (hheight id (hmem id rfl))]
      rfl

/-- Each level links the nodes that reach it. -/
theorem Refines.chain (hrefines : table.Refines ids list) {lvl : ℕ}
    (hlvl : lvl < table.maxLevel) : table.chain lvl = some (table.level lvl ids) := by
  have hshape := hrefines.toShape
  have hlinked := hshape.linked lvl hlvl
  have hhead : lvl < table.height table.head := hshape.lt_height hlvl List.mem_cons_self
  have hsub : (table.level lvl ids).Sublist ids := List.filter_sublist
  have hloop := @between_eq table lvl table.fresh (table.level lvl ids) []
    (fun id hmem => (mem_level.mp hmem).2)
    (by
      intro id hmem
      rw [List.append_nil] at hmem ⊢
      cases hsplit : table.level lvl ids with
      | nil => simp [hsplit] at hmem
      | cons second rest =>
          rw [hsplit, List.head?_cons, Option.mem_some_iff] at hmem
          subst hmem
          rw [hsplit] at hlinked
          exact hlinked.2.2)
    (by
      rw [List.append_nil]
      exact (List.nodup_cons.mp hshape.nodup).2.sublist hsub)
    (hsub.length_le.trans hshape.length_lt.le)
  rw [List.append_nil] at hloop
  rw [TowerList.chain, forward?_eq hhead, hlinked.next_eq]
  exact hloop

theorem Refines.flush (hrefines : table.Refines ids list) : table.flush = some list.nodes := by
  have hpos := hrefines.currentLevel_pos.trans_le hrefines.currentLevel_le
  rw [TowerList.flush, hrefines.chain hpos, hrefines.level_zero, ← hrefines.nodes]
  exact mapM_recordAt? hrefines.height_pos

theorem Refines.records (hrefines : table.Refines ids list) (test : Entry → Bool)
    {start stop : Option ℕ} (hloop : table.between 0 stop table.fresh start =
      some (ids.filter fun id => test (table.entry id))) :
    table.records start stop = some (list.nodes.filter test) := by
  rw [TowerList.records, hloop, ← hrefines.nodes, List.filter_map]
  exact mapM_recordAt? fun id hmem => hrefines.height_pos id (List.mem_of_mem_filter hmem)

theorem Refines.preffixRecords (hrefines : table.Refines ids list) (preffix : Bytes) :
    table.preffixRecords preffix =
      some (list.nodes.filter fun entry => decide (preffix <+: entry.key)) := by
  obtain ⟨start, stop, hstart, hstop, hloop⟩ := hrefines.preffix_range preffix
  rw [TowerList.preffixRecords, hstart, hstop]
  exact hrefines.records (fun entry => decide (preffix <+: entry.key)) hloop

theorem Refines.predicateRecords (hrefines : table.Refines ids list) {predicate : Bytes → ℤ}
    (hmono : MonotonePredicate predicate) :
    table.predicateRecords predicate =
      some (let found := list.nodes.filter fun entry => decide (predicate entry.key = 0)
        if found = [] then none else some found) := by
  obtain ⟨found, hfound, hnone, hloop⟩ := hrefines.predicate_range hmono
  have hempty : list.nodes.filter (fun entry => decide (predicate entry.key = 0)) = [] ↔
      found = none := by
    rw [hnone, List.filter_eq_nil_iff, ← hrefines.nodes]
    simp
  dsimp only
  rw [TowerList.predicateRecords, hfound]
  cases found with
  | none => rw [if_pos (hempty.mpr rfl)]; rfl
  | some range =>
      have hne : ¬list.nodes.filter (fun entry => decide (predicate entry.key = 0)) = [] :=
        mt hempty.mp (by simp)
      have hrecords := hrefines.records (fun entry => decide (predicate entry.key = 0))
        (hloop range.1 range.2 rfl)
      rw [if_neg hne]
      dsimp only [Option.bind_eq_bind, Option.bind_some]
      rw [hrecords]
      rfl

/-- On every level the pointers back are the inverse of those forward. -/
theorem Refines.inverse (hrefines : table.Refines ids list) {lvl : ℕ}
    (hlvl : lvl < table.maxLevel) {id other : ℕ} (hmem : id ∈ table.head :: table.level lvl ids)
    (hother : other ∈ table.level lvl ids) :
    table.forward? id lvl = some (some other) ↔ table.backward? other lvl = some (some id) := by
  have hshape := hrefines.toShape
  have hlinked := hshape.linked lvl hlvl
  have hnodup : (table.head :: table.level lvl ids).Nodup :=
    hshape.nodup.sublist (List.filter_sublist.cons_cons table.head)
  have hiff := hlinked.next_iff_prev hnodup hmem hother
  have hreach := hshape.lt_height hlvl (List.mem_cons_of_mem _ hother)
  obtain ⟨front, back, hsplit⟩ := List.append_of_mem hother
  have hprev : (table.links lvl).prev other = some (front.getLastD table.head) := by
    rw [hsplit] at hlinked
    exact hlinked.prev_eq
  have halive : 0 < table.height (front.getLastD table.head) := by
    apply Nat.zero_lt_of_lt (hshape.lt_height hlvl _)
    rw [hsplit]
    exact List.mem_append_left (other :: back) List.getLastD_mem_cons
  rw [forward?_eq (hshape.lt_height hlvl hmem), Option.some.injEq, hiff,
    backward?_eq hreach hprev halive, hprev]
  simp

end Answers

/-- After any calls, and for any throws of the coins, the towers are in order; the answers are
those of the bottom list, so they are the same for all throws and all numbers of levels. -/
theorem skip_list_runs (maxLevel : ℕ+) (calls : List (TowerOp × (ℕ → Bool))) :
    ∃ (table : TowerList) (levels : ℕ → List ℕ) (nodes : List Entry),
      run maxLevel calls = some table ∧
      (∀ lvl < (maxLevel : ℕ), table.chain lvl = some (levels lvl)) ∧
      table.flush = some nodes ∧
      NodesOrdered nodes ∧
      (nodes.Pairwise fun left right => ¬(left.key = right.key ∧ left.txid = right.txid)) ∧
      (∀ lvl, (levels (lvl + 1)).Sublist (levels lvl)) ∧
      (∀ lvl < (maxLevel : ℕ), ∀ id ∈ table.head :: levels lvl, ∀ other ∈ levels lvl,
        (table.forward? id lvl = some (some other) ↔
          table.backward? other lvl = some (some id))) ∧
      table.getSize =
        (nodes.map fun node => node.key.length + node.value.length + 8).sum ∧
      (∀ key trancId isAborted, table.getRecord key trancId isAborted =
        some (Versions.read nodes key trancId isAborted)) ∧
      ∀ (maxLevel' : ℕ+) (calls' : List (TowerOp × (ℕ → Bool))),
        calls'.map Prod.fst = calls.map Prod.fst →
        ∃ table', run maxLevel' calls' = some table' ∧ table'.flush = table.flush ∧
          table'.getSize = table.getSize ∧
          (∀ key trancId isAborted, table'.getRecord key trancId isAborted =
            table.getRecord key trancId isAborted) ∧
          (∀ preffix, table'.preffixRecords preffix = table.preffixRecords preffix) ∧
          ∀ predicate, MonotonePredicate predicate →
            table'.predicateRecords predicate = table.predicateRecords predicate := by
  obtain ⟨table, ids, hrun, hrefines, hmax⟩ := (refines_new maxLevel).foldlM calls
  have hlevels : table.maxLevel = maxLevel := hmax
  generalize hlist : (calls.map Prod.fst).foldl SkipList.apply SkipList.new = list at hrefines
  refine ⟨table, fun lvl => table.level lvl ids, list.nodes, hrun, ?_, hrefines.flush,
    list.ordered, list.ordered.distinct, fun lvl => table.level_succ_sublist lvl ids, ?_, ?_,
    hrefines.getRecord, ?_⟩
  · intro lvl hlvl
    exact hrefines.chain (hlevels ▸ hlvl)
  · intro lvl hlvl id hmem other hother
    exact hrefines.inverse (hlevels ▸ hlvl) hmem hother
  · exact hrefines.size.trans list.accounted
  · intro maxLevel' calls' hsame
    obtain ⟨table', ids', hrun', hrefines', -⟩ := (refines_new maxLevel').foldlM calls'
    rw [hsame, hlist] at hrefines'
    refine ⟨table', hrun', ?_, hrefines'.size.trans hrefines.size.symm, ?_, ?_, ?_⟩
    · rw [hrefines'.flush, hrefines.flush]
    · intro key trancId isAborted
      rw [hrefines'.getRecord, hrefines.getRecord]
    · intro preffix
      rw [hrefines'.preffixRecords, hrefines.preffixRecords]
    · intro predicate hmono
      rw [hrefines'.predicateRecords hmono, hrefines.predicateRecords hmono]

example : (run 4 [(.put [97] [1] 1, fun lvl => lvl < 3), (.put [97] [2, 2] 2, fun _ => false),
    (.put [98] [3] 1, fun _ => true), (.remove [97], fun _ => false)]).bind
      (fun table => table.flush.map fun nodes => (nodes, table.getSize)) =
    some ([⟨[97], [1], 1⟩, ⟨[98], [3], 1⟩], 20) := by
  decide +kernel

end TowerList

end KopiDb
