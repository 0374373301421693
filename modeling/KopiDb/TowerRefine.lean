import KopiDb.MemRange
import KopiDb.TowerOps

/-!
# The towers refine the bottom list

Every operation on the towers does to the bottom list what it does to the table without towers,
for any heights of the nodes and any throws of the coins.
-/

namespace KopiDb

/-- `remove`: the newest version of the key leaves the list. -/
def SkipList.remove (list : SkipList) (key : Bytes) : SkipList where
  nodes := list.nodes.eraseP fun node => decide (node.key = key)
  sizeBytes := ((list.nodes.eraseP fun node => decide (node.key = key)).map memSize).sum
  ordered := list.ordered.sublist List.eraseP_sublist
  accounted := rfl

namespace TowerList

theorem le_climb (coins : ℕ → Bool) (room level : ℕ) : level ≤ climb coins room level := by
  induction room generalizing level with
  | zero => exact le_rfl
  | succ room ih =>
      rw [climb]
      split_ifs
      · exact (Nat.le_succ level).trans (ih (level + 1))
      · exact le_rfl

theorem climb_le (coins : ℕ → Bool) (room level : ℕ) :
    climb coins room level ≤ level + room := by
  induction room generalizing level with
  | zero => exact le_rfl
  | succ room ih =>
      rw [climb]
      split_ifs
      · exact (ih (level + 1)).trans_eq (by omega)
      · exact Nat.le_add_right _ _

theorem randomLevel_pos (maxLevel : ℕ) (coins : ℕ → Bool) : 0 < randomLevel maxLevel coins :=
  le_climb coins (maxLevel - 1) 1

theorem randomLevel_le {maxLevel : ℕ} (hpos : 0 < maxLevel) (coins : ℕ → Bool) :
    randomLevel maxLevel coins ≤ maxLevel :=
  (climb_le coins (maxLevel - 1) 1).trans_eq (by omega)

/-- The nodes that are linked, from the bottom list on, hold the records of a table. -/
structure Refines (table : TowerList) (ids : List ℕ) (list : SkipList) : Prop
    extends Shape table ids where
  nodes : ids.map table.entry = list.nodes
  size : table.sizeBytes = list.sizeBytes

/-- A test that passes only at the front cuts the linked nodes like the records. -/
theorem exists_cut (entry : ℕ → Entry) {ids : List ℕ} {test : Entry → Bool}
    (hcut : (ids.map entry).Pairwise fun left right =>
      test right = true → test left = true) :
    ∃ pre post, ids = pre ++ post ∧ (∀ id ∈ pre, test (entry id)) ∧
      (∀ id ∈ post, ¬test (entry id)) ∧ pre.map entry = (ids.map entry).takeWhile test ∧
      post.map entry = (ids.map entry).dropWhile test := by
  refine ⟨ids.takeWhile fun id => test (entry id), ids.dropWhile fun id => test (entry id),
    List.takeWhile_append_dropWhile.symm, ?_, ?_, ?_, ?_⟩
  · intro id hmem
    exact List.mem_takeWhile_imp (p := fun id => test (entry id)) hmem
  · rw [List.pairwise_map] at hcut
    rw [(SkipList.cut_eq_filter hcut).2]
    intro id hmem
    simpa using (List.mem_filter.mp hmem).2
  · rw [List.takeWhile_map]
    rfl
  · rw [List.dropWhile_map]
    rfl

theorem Refines.ordered {table : TowerList} {ids : List ℕ} {list : SkipList}
    (hrefines : table.Refines ids list) : NodesOrdered (ids.map table.entry) := by
  rw [hrefines.nodes]
  exact list.ordered

/-- The byte count is no part of the shape. -/
theorem Shape.withSize {table : TowerList} {ids : List ℕ} (hshape : table.Shape ids) (size : ℕ) :
    ({ table with sizeBytes := size } : TowerList).Shape ids :=
  ⟨hshape.nodup, hshape.unused, hshape.head_height, hshape.currentLevel_pos,
    hshape.currentLevel_le, hshape.height_pos, hshape.height_le, hshape.linked⟩

/-! ## Insertion -/

theorem nodeLt_cut {nodes : List Entry} (hordered : NodesOrdered nodes) (node : Entry) :
    nodes.Pairwise fun left right => nodeLt right node = true → nodeLt left node = true := by
  apply List.Pairwise.imp _ hordered
  intro left right hlt hright
  exact nodeLt_trans hlt hright

/-- `put` of a new version. -/
theorem Shape.put_insert {table : TowerList} {pre post : List ℕ}
    (hshape : table.Shape (pre ++ post)) (key value : Bytes) (trancId : ℕ) (coins : ℕ → Bool) :
    ∃ linked, (List.range (randomLevel table.maxLevel coins)).foldlM
        (link ((List.range table.currentLevel).map (table.stop pre) ++
          List.replicate (randomLevel table.maxLevel coins - table.currentLevel) table.head)
          table.fresh)
        (table.addNode key value trancId (randomLevel table.maxLevel coins)) = some linked ∧
      linked.Shape (pre ++ table.fresh :: post) ∧ linked.sizeBytes = table.sizeBytes ∧
      linked.maxLevel = table.maxLevel ∧
      (pre ++ table.fresh :: post).map linked.entry =
        pre.map table.entry ++ ⟨key, value, trancId⟩ :: post.map table.entry := by
  have hpos := hshape.currentLevel_pos.trans_le hshape.currentLevel_le
  obtain ⟨linked, hlinked, hrelinked⟩ := hshape.link_loop key value trancId
    (randomLevel_le hpos coins) fun lvl hlvl => hshape.update_getElem? hlvl
  refine ⟨linked, hlinked,
    hshape.linkedIn (randomLevel_pos _ coins) (randomLevel_le hpos coins) hrelinked,
    hrelinked.sizeBytes, hrelinked.maxLevel, ?_⟩
  have hentry {id : ℕ} (hmem : id ∈ pre ++ post) : linked.entry id = table.entry id := by
    rw [hrelinked.entry,
      entry_addNode _ _ _ _ (hshape.ne_fresh (List.mem_cons_of_mem _ hmem))]
  rw [List.map_append, List.map_cons, hrelinked.entry, entry_addNode_self]
  congr 1
  · exact List.map_congr_left fun id hmem => hentry (List.mem_append_left post hmem)
  · congr 1
    exact List.map_congr_left fun id hmem => hentry (List.mem_append_right pre hmem)

/-- `put` of a version that is there: its value is replaced. -/
theorem Shape.put_update {table : TowerList} {pre post : List ℕ} {id : ℕ} {node : SkipListNode}
    (hshape : table.Shape (pre ++ id :: post)) (hnode : table.node id = some node)
    (value : Bytes) :
    (table.setNode id (some (node.setValue value))).Shape (pre ++ id :: post) ∧
      (pre ++ id :: post).map (table.setNode id (some (node.setValue value))).entry =
        pre.map table.entry ++ { node.entry with value := value } :: post.map table.entry := by
  have hperm : (pre ++ id :: post).Perm (id :: (pre ++ post)) := List.perm_middle
  have hgone := (List.nodup_cons.mp (hperm.nodup_iff.mp (List.nodup_cons.mp hshape.nodup).2)).1
  have hentry {other : ℕ} (hmem : other ∈ pre ++ post) :
      (table.setNode id (some (node.setValue value))).entry other = table.entry other := by
    have hne : other ≠ id := fun heq => hgone (heq ▸ hmem)
    rw [entry, recordAt?, node_setNode _ hne, entry, recordAt?]
  have hheight (other : ℕ) : (table.setNode id (some (node.setValue value))).height other =
      table.height other := by
    by_cases hother : other = id
    · subst hother
      simp [height, hnode, SkipListNode.setValue]
    · simp [height, hother]
  have hlinks (lvl : ℕ) : (table.setNode id (some (node.setValue value))).links lvl =
      table.links lvl := by
    obtain ⟨hnext, hprev⟩ := links_of_node hnode lvl
    rw [links_setNode, SkipListNode.setValue, ← hnext, ← hprev, Function.update_eq_self,
      Function.update_eq_self]
  have hlevel (lvl : ℕ) (ids : List ℕ) :
      (table.setNode id (some (node.setValue value))).level lvl ids = table.level lvl ids := by
    simp only [level, hheight]
  refine ⟨⟨hshape.nodup, ?_, ?_, hshape.currentLevel_pos, hshape.currentLevel_le, ?_, ?_, ?_⟩, ?_⟩
  · intro other hle
    have hne : other ≠ id := by
      rintro rfl
      rw [hshape.unused other hle] at hnode
      cases hnode
    rw [node_setNode _ hne]
    exact hshape.unused other hle
  · rw [hheight]
    exact hshape.head_height
  · simp only [hheight]
    exact hshape.height_pos
  · simp only [hheight]
    exact hshape.height_le
  · intro lvl hlvl
    rw [hlinks, hlevel]
    exact hshape.linked lvl hlvl
  · rw [List.map_append, List.map_cons]
    congr 1
    · exact List.map_congr_left fun other hmem => hentry (List.mem_append_left post hmem)
    · congr 1
      · simp [entry, recordAt?, SkipListNode.setValue]
      · exact List.map_congr_left fun other hmem => hentry (List.mem_append_right pre hmem)

theorem Refines.put {table : TowerList} {ids : List ℕ} {list : SkipList}
    (hrefines : table.Refines ids list) (key value : Bytes) (trancId : ℕ) (coins : ℕ → Bool) :
    ∃ table' ids', table.put key value trancId coins = some table' ∧
      table'.Refines ids' (list.put key value trancId) ∧ table'.maxLevel = table.maxLevel := by
  have hordered := hrefines.ordered
  obtain ⟨pre, post, rfl, hpre, hpost, htake, hdrop⟩ :=
    exists_cut table.entry (nodeLt_cut hordered ⟨key, value, trancId⟩)
  rw [hrefines.nodes] at htake hdrop
  have hshape := hrefines.toShape
  have hraw := list.put_raw key value trancId
  have hsmaller : SkipList.smaller list.nodes ⟨key, value, trancId⟩ = pre.map table.entry :=
    htake.symm
  have hlarger : SkipList.notSmaller list.nodes ⟨key, value, trancId⟩ = post.map table.entry :=
    hdrop.symm
  obtain ⟨linked, hlinked, hshape', hsize', hmax, hentries⟩ :=
    hshape.put_insert key value trancId coins
  have hinsert (hnew : (table.put key value trancId coins) = some
        { linked with sizeBytes := linked.sizeBytes + (key.length + value.length + 8) })
      (hnodes : (list.put key value trancId).nodes =
        pre.map table.entry ++ ⟨key, value, trancId⟩ :: post.map table.entry)
      (hsize : (list.put key value trancId).sizeBytes =
        list.sizeBytes + (key.length + value.length + 8)) :
      ∃ table' ids', table.put key value trancId coins = some table' ∧
        table'.Refines ids' (list.put key value trancId) ∧
          table'.maxLevel = table.maxLevel := by
    refine ⟨_, _, hnew, ⟨hshape'.withSize _, ?_, ?_⟩, hmax⟩
    · rw [hnodes, ← hentries]
      rfl
    · rw [hsize, ← hrefines.size, ← hsize']
  have hdescend : table.descend (fun entry => nodeLt entry ⟨key, value, trancId⟩)
      table.currentLevel table.head = _ := hshape.descend_head hpre hpost
  have hcandidate := hshape.candidate_eq
  rw [RawTable.put, SkipList.raw] at hraw
  dsimp only at hraw
  rw [hsmaller, hlarger] at hraw
  unfold TowerList.put at hinsert ⊢
  dsimp only at hinsert ⊢
  rw [hdescend] at hinsert ⊢
  dsimp only [Option.bind_eq_bind, Option.bind_some] at hinsert ⊢
  rw [hcandidate] at hinsert ⊢
  cases post with
  | nil =>
      simp only [List.map_nil, Option.some.injEq] at hraw
      apply hinsert
      · simp [sameVersion?, hlinked]
      · exact (congrArg RawTable.nodes hraw).symm
      · exact (congrArg RawTable.sizeBytes hraw).symm
  | cons id rest =>
      obtain ⟨node, hnode, -, hentry⟩ := exists_node (hshape.height_pos id (by simp))
      rw [List.map_cons] at hraw
      dsimp only at hraw
      by_cases hsame : node.entry.key = key ∧ node.entry.txid = trancId
      · have hsame' : (table.entry id).key = key ∧ (table.entry id).txid = trancId := hentry ▸ hsame
        rw [if_pos hsame'] at hraw
        have hsize : sub? table.sizeBytes node.entry.value.length =
            sub? list.sizeBytes (table.entry id).value.length := by
          rw [hrefines.size, hentry]
        obtain ⟨size, hsub, hput⟩ := Option.map_eq_some_iff.mp hraw
        obtain ⟨hshape'', hentries'⟩ := hshape.put_update hnode value
        refine ⟨{ table.setNode id (some (node.setValue value)) with
          sizeBytes := size + value.length }, pre ++ id :: rest, ?_,
          ⟨hshape''.withSize _, ?_, ?_⟩, rfl⟩
        · simp [sameVersion?, hnode, hsame, hsize, hsub]
        · have hnodes := congrArg RawTable.nodes hput
          rw [hentry] at hentries'
          exact hentries'.trans hnodes
        · exact congrArg RawTable.sizeBytes hput
      · have hsame' : ¬((table.entry id).key = key ∧ (table.entry id).txid = trancId) :=
          hentry ▸ hsame
        rw [if_neg hsame', Option.some.injEq] at hraw
        apply hinsert
        · simp [sameVersion?, hnode, hsame, hlinked]
        · exact (congrArg RawTable.nodes hraw).symm
        · exact (congrArg RawTable.sizeBytes hraw).symm

/-! ## Removal -/

theorem Refines.remove {table : TowerList} {ids : List ℕ} {list : SkipList}
    (hrefines : table.Refines ids list) (key : Bytes) :
    ∃ table' ids', table.remove key = some table' ∧ table'.Refines ids' (list.remove key) ∧
      table'.maxLevel = table.maxLevel := by
  obtain ⟨pre, post, rfl, hpre, hpost, -, -⟩ :=
    exists_cut table.entry (SkipList.cut_of_ordered hrefines.ordered key)
  have hshape := hrefines.toShape
  have hdescend : table.descend (fun entry => decide (entry.key < key))
      table.currentLevel table.head = _ := hshape.descend_head hpre hpost
  have hother {entry : Entry} (hmem : entry ∈ pre.map table.entry) :
      ¬decide (entry.key = key) = true := by
    obtain ⟨id, hid, rfl⟩ := List.mem_map.mp hmem
    have hlt := of_decide_eq_true (hpre id hid)
    simpa using hlt.ne
  have hnodes := hrefines.nodes
  rw [List.map_append] at hnodes
  have herase : (list.remove key).nodes = pre.map table.entry ++
      (post.map table.entry).eraseP fun node => decide (node.key = key) := by
    show list.nodes.eraseP _ = _
    rw [← hnodes, List.eraseP_append_right _ fun entry hmem => hother hmem]
  have hkeep (hfree : (post.map table.entry).eraseP (fun node => decide (node.key = key)) =
      post.map table.entry) : table.Refines (pre ++ post) (list.remove key) := by
    rw [hfree, hnodes] at herase
    refine ⟨hshape, hrefines.nodes.trans herase.symm, ?_⟩
    rw [hrefines.size, list.accounted, (list.remove key).accounted, herase]
  unfold TowerList.remove
  dsimp only
  rw [hdescend]
  dsimp only [Option.bind_eq_bind, Option.bind_some]
  rw [hshape.candidate_eq]
  cases post with
  | nil => exact ⟨table, pre ++ [], rfl, hkeep rfl, rfl⟩
  | cons id rest =>
      have hreach := hshape.height_pos id (by simp)
      have hbelow := hshape.height_le id (by simp)
      obtain ⟨node, hnode, hlength, hentry⟩ := exists_node hreach
      rw [List.head?_cons, Option.bind_some]
      dsimp only
      rw [hnode, Option.bind_some]
      split_ifs with hkey
      · obtain ⟨linked, hlinked, hrelinked⟩ := hshape.unlink_loop fun lvl hlvl => by
          rw [List.getElem?_map, List.getElem?_range (hlvl.trans_le hbelow), Option.map_some]
        have hgone : (list.remove key).nodes = (pre ++ rest).map table.entry := by
          rw [herase, List.map_cons, List.eraseP_cons_of_pos (by simp [← hentry, hkey]),
            List.map_append]
        have hsum : list.sizeBytes = ((list.remove key).nodes.map memSize).sum +
            (node.entry.key.length + node.entry.value.length + 8) := by
          rw [list.accounted, ← hnodes, hgone, hentry]
          simp only [List.map_append, List.map_cons, List.sum_append, List.sum_cons, memSize]
          omega
        have hsize : linked.sizeBytes = list.sizeBytes :=
          hrelinked.sizeBytes.trans hrefines.size
        have hsub : sub? linked.sizeBytes (node.entry.key.length + node.entry.value.length + 8) =
            some (list.remove key).sizeBytes := by
          rw [hsize, hsum, (list.remove key).accounted, sub?_of_le (Nat.le_add_left _ _),
            Nat.add_sub_cancel]
        refine ⟨{ linked.setNode id none with sizeBytes := (list.remove key).sizeBytes },
          pre ++ rest, ?_, ⟨(hshape.linkedOut hrelinked).withSize _, ?_, rfl⟩,
          hrelinked.maxLevel⟩
        · rw [hlength, hlinked, Option.bind_some, hsub, Option.bind_some]
        · rw [hgone]
          apply List.map_congr_left
          intro other hmem
          have hperm : (pre ++ id :: rest).Perm (id :: (pre ++ rest)) := List.perm_middle
          have hnodup := hperm.nodup_iff.mp (List.nodup_cons.mp hshape.nodup).2
          have hne : other ≠ id := fun heq => (List.nodup_cons.mp hnodup).1 (heq ▸ hmem)
          rw [← hrelinked.entry other, entry, recordAt?, entry, recordAt?, ← node_setNode linked hne none]
      · refine ⟨table, pre ++ id :: rest, rfl, hkeep ?_, rfl⟩
        have hordered := list.ordered
        rw [NodesOrdered, ← hnodes, List.pairwise_append, List.map_cons,
          List.pairwise_cons] at hordered
        have habove : key < (table.entry id).key := by
          have hge := not_lt.mp (mt decide_eq_true (hpost id List.mem_cons_self))
          exact lt_of_le_of_ne hge fun heq => hkey (hentry ▸ heq.symm)
        apply List.eraseP_of_forall_not
        intro entry hmem
        rw [decide_eq_true_eq]
        rcases List.mem_cons.mp hmem with rfl | hmem
        · exact habove.ne'
        · exact (habove.trans_le (SkipList.key_le_of_nodeLt (hordered.2.1.1 entry hmem))).ne'

/-! ## Runs -/

/-- A head alone links no node on any level. -/
theorem shape_nil {table : TowerList}
    (hnode : table.node = Function.update (fun _ => none) table.head
      (some (SkipListNode.new [] [] table.maxLevel 0)))
    (hfresh : table.head < table.fresh) (hpos : 0 < table.currentLevel)
    (hle : table.currentLevel ≤ table.maxLevel) : table.Shape [] where
  nodup := List.nodup_singleton _
  unused id hid := by rw [hnode, Function.update_of_ne (hfresh.trans_le hid).ne']
  head_height := by simp [height, hnode, SkipListNode.new]
  currentLevel_pos := hpos
  currentLevel_le := hle
  height_pos := by simp
  height_le := by simp
  linked lvl hlvl := by
    show (table.forward? table.head lvl).join = none
    simp [forward?, hnode, SkipListNode.new, hlvl]

theorem refines_new (maxLevel : ℕ+) : (new maxLevel).Refines [] SkipList.new :=
  ⟨shape_nil rfl Nat.one_pos Nat.one_pos maxLevel.pos, rfl, rfl⟩

theorem Refines.clear {table : TowerList} {ids : List ℕ} {list : SkipList}
    (hrefines : table.Refines ids list) : table.clear.Refines [] list.clear :=
  ⟨shape_nil rfl (Nat.lt_succ_self _) hrefines.currentLevel_pos hrefines.currentLevel_le, rfl,
    rfl⟩

end TowerList

end KopiDb
