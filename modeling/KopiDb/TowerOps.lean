import KopiDb.TowerList

/-!
# Linking nodes in and out

`put` and `remove` change the pointers of one level in each round of their loop and leave all
other levels alone.  What is linked afterwards is the list that the table without towers keeps,
whatever the heights are.
-/

namespace KopiDb

namespace TowerList

open DoublyLinked

/-! ## Frames -/

/-- Only pointers changed. -/
structure SameNodes (table table' : TowerList) : Prop where
  frame : { table with node := table'.node } = table'
  height : ∀ id, table'.height id = table.height id
  entry : ∀ id, table'.entry id = table.entry id
  unused : ∀ id, table'.node id = none ↔ table.node id = none

theorem SameNodes.refl (table : TowerList) : SameNodes table table :=
  ⟨rfl, fun _ => rfl, fun _ => rfl, fun _ => Iff.rfl⟩

namespace SameNodes

variable {table table' : TowerList}

theorem head (hsame : SameNodes table table') : table'.head = table.head := by
  rw [← hsame.frame]

theorem maxLevel (hsame : SameNodes table table') : table'.maxLevel = table.maxLevel := by
  rw [← hsame.frame]

theorem currentLevel (hsame : SameNodes table table') :
    table'.currentLevel = table.currentLevel := by
  rw [← hsame.frame]

theorem sizeBytes (hsame : SameNodes table table') : table'.sizeBytes = table.sizeBytes := by
  rw [← hsame.frame]

theorem fresh (hsame : SameNodes table table') : table'.fresh = table.fresh := by
  rw [← hsame.frame]

end SameNodes

theorem SameNodes.trans {first second third : TowerList} (hleft : SameNodes first second)
    (hright : SameNodes second third) : SameNodes first third where
  frame := by rw [← hright.frame, ← hleft.frame]
  height id := (hright.height id).trans (hleft.height id)
  entry id := (hright.entry id).trans (hleft.entry id)
  unused id := (hright.unused id).trans (hleft.unused id)

/-- Only pointers of one level changed. -/
structure SameBut (lvl : ℕ) (table table' : TowerList) : Prop extends SameNodes table table' where
  links : ∀ other, other ≠ lvl → table'.links other = table.links other

theorem SameBut.trans {lvl : ℕ} {first second third : TowerList}
    (hleft : SameBut lvl first second) (hright : SameBut lvl second third) :
    SameBut lvl first third where
  toSameNodes := hleft.toSameNodes.trans hright.toSameNodes
  links other hne := (hright.links other hne).trans (hleft.links other hne)

@[simp]
theorem node_setNode_self (table : TowerList) (id : ℕ) (node : Option SkipListNode) :
    (table.setNode id node).node id = node := Function.update_self _ _ _

@[simp]
theorem node_setNode (table : TowerList) {id other : ℕ} (hne : other ≠ id)
    (node : Option SkipListNode) : (table.setNode id node).node other = table.node other :=
  Function.update_of_ne hne _ _

theorem links_setNode (table : TowerList) (id : ℕ) (node : SkipListNode) (lvl : ℕ) :
    (table.setNode id (some node)).links lvl =
      ⟨Function.update (table.links lvl).next id (node.forward[lvl]?).join,
        Function.update (table.links lvl).prev id (node.backward[lvl]?).join⟩ := by
  unfold links forward?
  congr 1
  · funext other
    by_cases hother : other = id
    · subst hother
      simp
    · simp [hother]
  · funext other
    by_cases hother : other = id
    · subst hother
      simp
    · simp [hother]

theorem sameNodes_setNode {table : TowerList} {id : ℕ} {node node' : SkipListNode}
    (hnode : table.node id = some node) (hlength : node'.forward.length = node.forward.length)
    (hentry : node'.entry = node.entry) :
    SameNodes table (table.setNode id (some node')) where
  frame := rfl
  height other := by
    by_cases hother : other = id
    · subst hother
      simp [height, hnode, hlength]
    · simp [height, hother]
  entry other := by
    by_cases hother : other = id
    · subst hother
      simp [entry, recordAt?, hnode, hentry]
    · simp [entry, recordAt?, hother]
  unused other := by
    by_cases hother : other = id
    · subst hother
      simp [hnode]
    · simp [hother]

/-- The pointers of a node that its links read. -/
theorem links_of_node {table : TowerList} {id : ℕ} {node : SkipListNode}
    (hnode : table.node id = some node) (lvl : ℕ) :
    (table.links lvl).next id = (node.forward[lvl]?).join ∧
      (table.links lvl).prev id = (node.backward[lvl]?).join := by
  simp [links, forward?, hnode]

theorem setForward_spec {table : TowerList} {id lvl : ℕ} (hlvl : lvl < table.height id)
    (ptr : Option ℕ) :
    ∃ table', table.setForward id lvl ptr = some table' ∧ SameBut lvl table table' ∧
      table'.links lvl =
        ⟨Function.update (table.links lvl).next id ptr, (table.links lvl).prev⟩ := by
  obtain ⟨node, hnode, hlength, -⟩ := exists_node (Nat.zero_lt_of_lt hlvl)
  rw [← hlength] at hlvl
  refine ⟨table.setNode id (some (node.setForward lvl ptr)), ?_, ⟨?_, ?_⟩, ?_⟩
  · rw [setForward, write, hnode, Option.bind_some, if_pos hlvl]
  · exact sameNodes_setNode hnode (by simp [SkipListNode.setForward]) rfl
  · intro other hne
    have hset : (node.setForward lvl ptr).forward[other]? = node.forward[other]? :=
      List.getElem?_set_ne hne.symm
    obtain ⟨hnext, hprev⟩ := links_of_node hnode other
    rw [links_setNode, hset, SkipListNode.setForward, ← hnext, ← hprev,
      Function.update_eq_self, Function.update_eq_self]
  · have hset : (node.setForward lvl ptr).forward[lvl]? = some ptr :=
      List.getElem?_set_self hlvl
    obtain ⟨-, hprev⟩ := links_of_node hnode lvl
    rw [links_setNode, hset, SkipListNode.setForward, ← hprev, Function.update_eq_self,
      Option.join_some]

theorem setBackward_spec {table : TowerList} {id lvl : ℕ} (hlvl : lvl < table.height id)
    (ptr : Option ℕ) :
    ∃ table', table.setBackward id lvl ptr = some table' ∧ SameBut lvl table table' ∧
      table'.links lvl =
        ⟨(table.links lvl).next, Function.update (table.links lvl).prev id ptr⟩ := by
  obtain ⟨node, hnode, hlength, -⟩ := exists_node (Nat.zero_lt_of_lt hlvl)
  rw [← hlength] at hlvl
  refine ⟨table.setNode id (some (node.setBackward lvl ptr)), ?_, ⟨?_, ?_⟩, ?_⟩
  · rw [setBackward, write, hnode, Option.bind_some, if_pos hlvl]
  · exact sameNodes_setNode hnode rfl rfl
  · intro other hne
    have hset : (node.setBackward lvl ptr).backward[other]? = node.backward[other]? :=
      List.getElem?_set_ne hne.symm
    obtain ⟨hnext, hprev⟩ := links_of_node hnode other
    rw [links_setNode, hset, SkipListNode.setBackward, ← hnext, ← hprev,
      Function.update_eq_self, Function.update_eq_self]
  · have hset : (node.setBackward lvl ptr).backward[lvl]? = some ptr :=
      List.getElem?_set_self (node.sameLevels ▸ hlvl)
    obtain ⟨hnext, -⟩ := links_of_node hnode lvl
    rw [links_setNode, hset, SkipListNode.setBackward, ← hnext, Function.update_eq_self,
      Option.join_some]

/-! ## One round of the loops -/

theorem link_spec {table : TowerList} {update : List ℕ} {id pre lvl : ℕ}
    (hupdate : update[lvl]? = some pre) (hne : pre ≠ id) (hpre : lvl < table.height pre)
    (hid : lvl < table.height id)
    (hnext : ∀ next, (table.links lvl).next pre = some next → lvl < table.height next) :
    ∃ table', link update id table lvl = some table' ∧ SameBut lvl table table' ∧
      table'.links lvl = linkIn (table.links lvl) pre id := by
  obtain ⟨first, hfirst, hsame, hlinks⟩ :=
    setForward_spec hid ((table.links lvl).next pre)
  obtain ⟨second, hsecond, hsame', hlinks'⟩ :=
    @setForward_spec first pre lvl (by rwa [hsame.height]) (some id)
  have hboth := hsame.trans hsame'
  obtain ⟨third, hthird, hsame'', hlinks''⟩ :=
    @setBackward_spec second id lvl (by rwa [hboth.height]) (some pre)
  have hall := hboth.trans hsame''
  have hforward : third.forward? id lvl = some ((table.links lvl).next pre) := by
    rw [forward?_eq (by rwa [hall.height]), hlinks'', hlinks', hlinks]
    simp [Function.update_of_ne hne.symm]
  unfold link
  simp only [hupdate, forward?_eq hpre, hfirst, hsecond, hthird, hforward,
    Option.bind_eq_bind, Option.bind_some]
  cases hafter : (table.links lvl).next pre with
  | none =>
      refine ⟨third, rfl, hall, ?_⟩
      rw [hlinks'', hlinks', hlinks, linkIn, hafter]
  | some next =>
      obtain ⟨fourth, hfourth, hsameLast, hlinksLast⟩ :=
        @setBackward_spec third next lvl
          (by rw [hall.height]; exact hnext next hafter) (some id)
      refine ⟨fourth, hfourth, hall.trans hsameLast, ?_⟩
      rw [hlinksLast, hlinks'', hlinks', hlinks, linkIn, hafter]

theorem unlink_spec {table : TowerList} {update : List ℕ} {target pre lvl : ℕ}
    (hupdate : update[lvl]? = some pre) (hne : pre ≠ target) (hpre : lvl < table.height pre)
    (htarget : lvl < table.height target)
    (hnext : ∀ next, (table.links lvl).next target = some next → lvl < table.height next) :
    ∃ table', unlink update target table lvl = some table' ∧ SameBut lvl table table' ∧
      table'.links lvl = linkOut (table.links lvl) pre target := by
  obtain ⟨first, hfirst, hsame, hlinks⟩ :=
    setForward_spec hpre ((table.links lvl).next target)
  have hforward : first.forward? target lvl = some ((table.links lvl).next target) := by
    rw [forward?_eq (by rwa [hsame.height]), hlinks]
    simp [Function.update_of_ne hne.symm]
  unfold unlink
  simp only [hupdate, forward?_eq htarget, hfirst, hforward, Option.bind_eq_bind,
    Option.bind_some]
  cases hafter : (table.links lvl).next target with
  | none =>
      refine ⟨first, rfl, hsame, ?_⟩
      rw [hlinks, linkOut, hafter]
  | some next =>
      obtain ⟨second, hsecond, hsame', hlinks'⟩ :=
        @setBackward_spec first next lvl
          (by rw [hsame.height]; exact hnext next hafter) (some pre)
      refine ⟨second, hsecond, hsame.trans hsame', ?_⟩
      rw [hlinks', hlinks, linkOut, hafter]

/-! ## The loops -/

/-- The levels below a count are changed, the others are as they were. -/
structure Relinked (change : ℕ → Links ℕ → Links ℕ) (count : ℕ) (table table' : TowerList) :
    Prop extends SameNodes table table' where
  done : ∀ lvl < count, table'.links lvl = change lvl (table.links lvl)
  untouched : ∀ lvl, count ≤ lvl → table'.links lvl = table.links lvl

theorem foldlM_relinked {round : TowerList → ℕ → Option TowerList}
    {change : ℕ → Links ℕ → Links ℕ} {table : TowerList} (count : ℕ)
    (hround : ∀ lvl < count, ∀ before, Relinked change lvl table before →
      ∃ after, round before lvl = some after ∧ SameBut lvl before after ∧
        after.links lvl = change lvl (before.links lvl)) :
    ∃ table', (List.range count).foldlM round table = some table' ∧
      Relinked change count table table' := by
  induction count with
  | zero =>
      exact ⟨table, rfl, SameNodes.refl table, fun lvl hlvl => absurd hlvl (Nat.not_lt_zero lvl),
        fun _ _ => rfl⟩
  | succ count ih =>
      obtain ⟨before, hbefore, hrelinked⟩ := ih fun lvl hlvl => hround lvl (Nat.lt_succ_of_lt hlvl)
      obtain ⟨after, hafter, hsame, hlinks⟩ := hround count (Nat.lt_succ_self count) before hrelinked
      refine ⟨after, ?_, hrelinked.toSameNodes.trans hsame.toSameNodes, ?_, ?_⟩
      · rw [List.range_succ, List.foldlM_append, hbefore]
        simpa using hafter
      · intro lvl hlvl
        rcases Nat.lt_succ_iff_lt_or_eq.mp hlvl with hlt | rfl
        · rw [hsame.links lvl hlt.ne, hrelinked.done lvl hlt]
        · rw [hlinks, hrelinked.untouched lvl le_rfl]
      · intro lvl hlvl
        rw [hsame.links lvl (Nat.lt_of_succ_le hlvl).ne', hrelinked.untouched lvl (Nat.le_of_succ_le hlvl)]

/-! ## A new node -/

section AddNode

variable {table : TowerList} {pre post : List ℕ} (key value : Bytes) (trancId level : ℕ)

theorem links_addNode (hunused : table.node table.fresh = none) (lvl : ℕ) :
    (table.addNode key value trancId level).links lvl = table.links lvl := by
  have hnull (levels : ℕ) : ((List.replicate levels (none : Option ℕ))[lvl]?).join = none := by
    rw [List.getElem?_replicate]
    split_ifs
    · rfl
    · rfl
  unfold links forward? addNode
  congr 1
  · funext id
    by_cases hid : id = table.fresh
    · subst hid
      simpa [hunused, SkipListNode.new] using hnull level
    · simp [Function.update_of_ne hid]
  · funext id
    by_cases hid : id = table.fresh
    · subst hid
      simpa [hunused, SkipListNode.new] using hnull level
    · simp [Function.update_of_ne hid]

theorem height_addNode_self :
    (table.addNode key value trancId level).height table.fresh = level := by
  simp [height, addNode, SkipListNode.new]

theorem entry_addNode_self :
    (table.addNode key value trancId level).entry table.fresh = ⟨key, value, trancId⟩ := by
  simp [entry, recordAt?, addNode, SkipListNode.new]

theorem height_addNode {id : ℕ} (hne : id ≠ table.fresh) :
    (table.addNode key value trancId level).height id = table.height id := by
  simp [height, addNode, Function.update_of_ne hne]

theorem entry_addNode {id : ℕ} (hne : id ≠ table.fresh) :
    (table.addNode key value trancId level).entry id = table.entry id := by
  simp [entry, recordAt?, addNode, Function.update_of_ne hne]

end AddNode

namespace Shape

variable {table : TowerList} {pre post ids : List ℕ}

theorem ne_fresh (hshape : table.Shape ids) {id : ℕ} (hmem : id ∈ table.head :: ids) :
    id ≠ table.fresh := by
  rcases List.mem_cons.mp hmem with rfl | hmem
  · exact (hshape.lt_fresh hshape.head_height_pos).ne
  · exact (hshape.lt_fresh (hshape.height_pos id hmem)).ne

theorem unused_fresh (hshape : table.Shape ids) : table.node table.fresh = none :=
  hshape.unused table.fresh le_rfl

/-- Above the levels in use the head is the last node before any place. -/
theorem stop_of_le (hshape : table.Shape (pre ++ post)) {lvl : ℕ}
    (hlvl : table.currentLevel ≤ lvl) : table.stop pre lvl = table.head := by
  have hnone : table.level lvl pre = [] := by
    rw [level, List.filter_eq_nil_iff]
    intro id hmem
    have hle := hshape.height_le id (List.mem_append_left post hmem)
    simpa using hle.trans hlvl
  rw [stop, hnone]
  rfl

/-- `update` holds the last node before the place on every level, also on the levels that the
head alone had so far. -/
theorem update_getElem? (hshape : table.Shape (pre ++ post)) {lvl height : ℕ}
    (hlvl : lvl < height) :
    ((List.range table.currentLevel).map (table.stop pre) ++
      List.replicate (height - table.currentLevel) table.head)[lvl]? =
        some (table.stop pre lvl) := by
  by_cases hused : lvl < table.currentLevel
  · rw [List.getElem?_append_left (by simpa using hused), List.getElem?_map,
      List.getElem?_range hused, Option.map_some]
  · have hle := not_lt.mp hused
    rw [List.getElem?_append_right (by simpa using hle), List.length_map, List.length_range,
      List.getElem?_replicate, if_pos (by omega), hshape.stop_of_le hle]

/-- The node behind the last one before a place reaches the level too. -/
theorem next_stop (hshape : table.Shape (pre ++ post)) {lvl next : ℕ}
    (hlvl : lvl < table.maxLevel)
    (hnext : (table.links lvl).next (table.stop pre lvl) = some next) :
    next ∈ table.level lvl post := by
  have hlinked := hshape.linked lvl hlvl
  rw [level_append] at hlinked
  rw [stop, hlinked.drop.next_eq] at hnext
  exact List.mem_of_mem_head? (Option.mem_def.mpr hnext)

theorem stop_mem_ids (table : TowerList) (pre post : List ℕ) (lvl : ℕ) :
    table.stop pre lvl ∈ table.head :: (pre ++ post) := by
  have hsub := (List.filter_sublist (p := fun id => decide (lvl < table.height id))
    (l := pre)).cons_cons table.head
  exact List.mem_append_left post (hsub.subset (stop_mem table pre lvl))

theorem lt_height_stop (hshape : table.Shape (pre ++ post)) {lvl : ℕ}
    (hlvl : lvl < table.maxLevel) : lvl < table.height (table.stop pre lvl) := by
  apply hshape.lt_height hlvl
  rw [level_append]
  exact List.mem_append_left (table.level lvl post) (stop_mem table pre lvl)

theorem link_loop (hshape : table.Shape (pre ++ post)) (key value : Bytes) (trancId : ℕ)
    {level : ℕ} (hlevel : level ≤ table.maxLevel) {update : List ℕ}
    (hupdate : ∀ lvl < level, update[lvl]? = some (table.stop pre lvl)) :
    ∃ table', (List.range level).foldlM (link update table.fresh)
        (table.addNode key value trancId level) = some table' ∧
      Relinked (fun lvl links => linkIn links (table.stop pre lvl) table.fresh) level
        (table.addNode key value trancId level) table' := by
  apply foldlM_relinked
  intro lvl hlvl before hrelinked
  have hmax := hlvl.trans_le hlevel
  have hne := hshape.ne_fresh (stop_mem_ids table pre post lvl)
  have hlinks : before.links lvl = table.links lvl := by
    rw [hrelinked.untouched lvl le_rfl, links_addNode _ _ _ _ hshape.unused_fresh]
  have hheight {id : ℕ} (hid : id ≠ table.fresh) : before.height id = table.height id := by
    rw [hrelinked.height, height_addNode _ _ _ _ hid]
  apply link_spec (hupdate lvl hlvl) hne
  · rw [hheight hne]
    exact hshape.lt_height_stop hmax
  · rw [hrelinked.height, height_addNode_self]
    exact hlvl
  · intro next hnext
    rw [hlinks] at hnext
    obtain ⟨hmem, hreach⟩ := mem_level.mp (hshape.next_stop hmax hnext)
    rwa [hheight (hshape.ne_fresh (List.mem_cons_of_mem _ (List.mem_append_right pre hmem)))]

/-- Linked in on all its levels, the new node stands between the others. -/
theorem linkedIn (hshape : table.Shape (pre ++ post)) {key value : Bytes} {trancId level : ℕ}
    (hpos : 0 < level) (hlevel : level ≤ table.maxLevel) {table' : TowerList}
    (hrelinked : Relinked (fun lvl links => linkIn links (table.stop pre lvl) table.fresh) level
      (table.addNode key value trancId level) table') :
    table'.Shape (pre ++ table.fresh :: post) := by
  have hheight {id : ℕ} (hmem : id ∈ table.head :: (pre ++ post)) :
      table'.height id = table.height id := by
    rw [hrelinked.height, height_addNode _ _ _ _ (hshape.ne_fresh hmem)]
  have hself : table'.height table.fresh = level := by
    rw [hrelinked.height, height_addNode_self]
  have hhead : table'.head = table.head := hrelinked.head
  have hcurrent : table'.currentLevel = max table.currentLevel level := hrelinked.currentLevel
  have hmax : table'.maxLevel = table.maxLevel := hrelinked.maxLevel
  have hcases {id : ℕ} (hmem : id ∈ pre ++ table.fresh :: post) :
      id = table.fresh ∨ id ∈ pre ++ post := by
    simp only [List.mem_append, List.mem_cons] at hmem ⊢
    tauto
  have hnew : table.fresh ∉ table.head :: (pre ++ post) := fun hmem =>
    hshape.ne_fresh hmem rfl
  constructor
  · rw [hhead]
    have hperm : (table.head :: (pre ++ table.fresh :: post)).Perm
        (table.fresh :: table.head :: (pre ++ post)) :=
      (List.perm_middle.cons table.head).trans (List.Perm.swap _ _ _)
    exact hperm.nodup_iff.mpr (List.nodup_cons.mpr ⟨hnew, hshape.nodup⟩)
  · intro id hle
    have hfresh : table'.fresh = table.fresh + 1 := hrelinked.fresh
    rw [hfresh] at hle
    have hne : id ≠ table.fresh := (Nat.lt_of_succ_le hle).ne'
    rw [hrelinked.unused]
    exact (Function.update_of_ne hne _ _).trans (hshape.unused id (Nat.le_of_succ_le hle))
  · rw [hhead, hheight List.mem_cons_self, hmax, hshape.head_height]
  · rw [hcurrent]
    exact lt_max_of_lt_left hshape.currentLevel_pos
  · rw [hcurrent, hmax]
    exact max_le hshape.currentLevel_le hlevel
  · intro id hmem
    rcases hcases hmem with rfl | hmem
    · rwa [hself]
    · rw [hheight (List.mem_cons_of_mem _ hmem)]
      exact hshape.height_pos id hmem
  · intro id hmem
    rw [hcurrent]
    rcases hcases hmem with rfl | hmem
    · rw [hself]
      exact le_max_right _ _
    · rw [hheight (List.mem_cons_of_mem _ hmem)]
      exact (hshape.height_le id hmem).trans (le_max_left _ _)
  · intro lvl hlvl
    rw [hmax] at hlvl
    have hlinked := hshape.linked lvl hlvl
    rw [level_append] at hlinked
    have hpre : table'.level lvl pre = table.level lvl pre := by
      apply List.filter_congr
      intro id hmem
      rw [hheight (List.mem_cons_of_mem _ (List.mem_append_left post hmem))]
    have hpost : table'.level lvl post = table.level lvl post := by
      apply List.filter_congr
      intro id hmem
      rw [hheight (List.mem_cons_of_mem _ (List.mem_append_right pre hmem))]
    have hsub : (table.head :: (table.level lvl pre ++ table.level lvl post)).Sublist
        (table.head :: (pre ++ post)) := by
      rw [← level_append]
      exact List.filter_sublist.cons_cons table.head
    rw [hhead, level_append, hpre]
    by_cases hreach : lvl < level
    · have hcons : table'.level lvl (table.fresh :: post) =
          table.fresh :: table.level lvl post := by
        rw [← hpost]
        exact List.filter_cons_of_pos (by simpa [hself] using hreach)
      rw [hcons, hrelinked.done lvl hreach, links_addNode _ _ _ _ hshape.unused_fresh]
      exact hlinked.insert (hshape.nodup.sublist hsub) fun hmem => hnew (hsub.subset hmem)
    · have hcons : table'.level lvl (table.fresh :: post) = table.level lvl post := by
        rw [← hpost]
        exact List.filter_cons_of_neg (by simpa [hself] using hreach)
      rw [hcons, hrelinked.untouched lvl (not_lt.mp hreach),
        links_addNode _ _ _ _ hshape.unused_fresh]
      exact hlinked

/-! ## A node that is taken out -/

theorem unlink_loop {target : ℕ} (hshape : table.Shape (pre ++ target :: post))
    {update : List ℕ}
    (hupdate : ∀ lvl < table.height target, update[lvl]? = some (table.stop pre lvl)) :
    ∃ table', (List.range (table.height target)).foldlM (unlink update target) table =
        some table' ∧
      Relinked (fun lvl links => linkOut links (table.stop pre lvl) target)
        (table.height target) table table' := by
  have htarget : target ∈ pre ++ target :: post := by simp
  apply foldlM_relinked
  intro lvl hlvl before hrelinked
  have hmax := hlvl.trans_le ((hshape.height_le target htarget).trans hshape.currentLevel_le)
  have hlinks := hrelinked.untouched lvl le_rfl
  have hlinked := hshape.linked lvl hmax
  have hcons : table.level lvl (target :: post) = target :: table.level lvl post :=
    List.filter_cons_of_pos (by simpa using hlvl)
  rw [level_append, hcons] at hlinked
  apply unlink_spec (hupdate lvl hlvl)
  · intro heq
    have hmem := stop_mem_ids table pre post lvl
    rw [heq] at hmem
    have hperm : (table.head :: (pre ++ target :: post)).Perm
        (target :: table.head :: (pre ++ post)) :=
      (List.perm_middle.cons table.head).trans (List.Perm.swap _ _ _)
    exact (List.nodup_cons.mp (hperm.nodup_iff.mp hshape.nodup)).1 hmem
  · rw [hrelinked.height]
    exact hshape.lt_height_stop hmax
  · rw [hrelinked.height]
    exact hlvl
  · intro next hnext
    rw [hlinks, hlinked.drop.2.2.next_eq] at hnext
    have hmem := List.mem_of_mem_head? (Option.mem_def.mpr hnext)
    rw [hrelinked.height]
    exact (mem_level.mp hmem).2

/-- Without its last pointer the node is gone, and the others stand as before. -/
theorem linkedOut {target : ℕ} (hshape : table.Shape (pre ++ target :: post))
    {table' : TowerList}
    (hrelinked : Relinked (fun lvl links => linkOut links (table.stop pre lvl) target)
      (table.height target) table table') :
    (table'.setNode target none).Shape (pre ++ post) := by
  have hperm : (table.head :: (pre ++ target :: post)).Perm
      (target :: table.head :: (pre ++ post)) :=
    (List.perm_middle.cons table.head).trans (List.Perm.swap _ _ _)
  obtain ⟨hgone, hnodup⟩ := List.nodup_cons.mp (hperm.nodup_iff.mp hshape.nodup)
  have hne {id : ℕ} (hmem : id ∈ table.head :: (pre ++ post)) : id ≠ target := fun heq =>
    hgone (heq ▸ hmem)
  have hsub : (pre ++ post).Sublist (pre ++ target :: post) :=
    (List.sublist_cons_self target post).append_left pre
  have hheight {id : ℕ} (hmem : id ∈ table.head :: (pre ++ post)) :
      (table'.setNode target none).height id = table.height id := by
    rw [← hrelinked.height, height, node_setNode _ (hne hmem), height]
  have hhead : (table'.setNode target none).head = table.head := hrelinked.head
  have hcurrent : (table'.setNode target none).currentLevel = table.currentLevel :=
    hrelinked.currentLevel
  have hmax : (table'.setNode target none).maxLevel = table.maxLevel := hrelinked.maxLevel
  constructor
  · rwa [hhead]
  · intro id hle
    have hfresh : (table'.setNode target none).fresh = table.fresh := hrelinked.fresh
    rw [hfresh] at hle
    by_cases hid : id = target
    · rw [hid, node_setNode_self]
    · rw [node_setNode _ hid, hrelinked.unused]
      exact hshape.unused id hle
  · rw [hhead, hheight List.mem_cons_self, hmax, hshape.head_height]
  · rw [hcurrent]
    exact hshape.currentLevel_pos
  · rw [hcurrent, hmax]
    exact hshape.currentLevel_le
  · intro id hmem
    rw [hheight (List.mem_cons_of_mem _ hmem)]
    exact hshape.height_pos id (hsub.subset hmem)
  · intro id hmem
    rw [hheight (List.mem_cons_of_mem _ hmem), hcurrent]
    exact hshape.height_le id (hsub.subset hmem)
  · intro lvl hlvl
    rw [hmax] at hlvl
    have hlinked := hshape.linked lvl hlvl
    have hlevel : (table'.setNode target none).level lvl (pre ++ post) =
        table.level lvl pre ++ table.level lvl post := by
      rw [← level_append]
      apply List.filter_congr
      intro id hmem
      rw [hheight (List.mem_cons_of_mem _ hmem)]
    have hlinked' : Linked (table'.links lvl) table.head
        (table.level lvl pre ++ table.level lvl post) := by
      rw [level_append] at hlinked
      by_cases hreach : lvl < table.height target
      · have hcons : table.level lvl (target :: post) = target :: table.level lvl post :=
          List.filter_cons_of_pos (by simpa using hreach)
        have hnodup' := hshape.nodup.sublist
          ((List.filter_sublist (p := fun id => decide (lvl < table.height id))).cons_cons
            table.head)
        rw [List.filter_append] at hnodup'
        rw [hrelinked.done lvl hreach]
        rw [hcons] at hlinked
        apply hlinked.remove
        rw [← hcons]
        exact hnodup'
      · have hcons : table.level lvl (target :: post) = table.level lvl post :=
          List.filter_cons_of_neg (by simpa using hreach)
        rw [hrelinked.untouched lvl (not_lt.mp hreach)]
        rwa [hcons] at hlinked
    rw [hhead, hlevel]
    have hmem {id : ℕ} (hid : id ∈ table.head :: (table.level lvl pre ++ table.level lvl post)) :
        id ∈ table.head :: (pre ++ post) := by
      rw [← level_append] at hid
      exact (List.filter_sublist.cons_cons table.head).subset hid
    apply hlinked'.congr
    · intro id hid
      simp only [links, forward?, node_setNode _ (hne (hmem hid))]
    · intro id hid
      simp only [links, node_setNode _ (hne (hmem (List.mem_cons_of_mem _ hid)))]

end Shape

end TowerList

end KopiDb
