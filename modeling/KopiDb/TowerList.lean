import KopiDb.MemAccounting
import KopiDb.Lib.DoublyLinked

/-!
# The towers of the skip list

The skip list as it lies in memory: nodes with a pointer forward and one back for each of their
levels.  A node of the bottom list alone decides what a query answers, so the descent from level
to level has to end where a walk on the bottom list would.
-/

namespace KopiDb

/-- `SkipListNode`: the record, and one pointer forward and one back for each level. -/
structure SkipListNode where
  entry : Entry
  forward : List (Option ℕ)
  backward : List (Option ℕ)
  sameLevels : backward.length = forward.length

namespace SkipListNode

/-- The constructor: all pointers are null. -/
def new (key value : Bytes) (level trancId : ℕ) : SkipListNode :=
  ⟨⟨key, value, trancId⟩, List.replicate level none, List.replicate level none, by simp⟩

def setForward (node : SkipListNode) (lvl : ℕ) (ptr : Option ℕ) : SkipListNode :=
  { node with forward := node.forward.set lvl ptr, sameLevels := by simp [node.sameLevels] }

/-- `set_backward` -/
def setBackward (node : SkipListNode) (lvl : ℕ) (ptr : Option ℕ) : SkipListNode :=
  { node with backward := node.backward.set lvl ptr, sameLevels := by simp [node.sameLevels] }

def setValue (node : SkipListNode) (value : Bytes) : SkipListNode :=
  { node with entry := { node.entry with value := value } }

end SkipListNode

/-- `SkipList` with its nodes in memory.  A pointer is the number of a node, and numbers from
`fresh` on were never given out.  What follows a pointer to no node, or reads a level that a
node does not have, has no result. -/
structure TowerList where
  head : ℕ
  maxLevel : ℕ
  currentLevel : ℕ
  sizeBytes : ℕ
  node : ℕ → Option SkipListNode
  fresh : ℕ

namespace TowerList

/-- `SkipList::SkipList` -/
def new (maxLevel : ℕ+) : TowerList where
  head := 0
  maxLevel := maxLevel
  currentLevel := 1
  sizeBytes := 0
  node := Function.update (fun _ => none) 0 (some (SkipListNode.new [] [] maxLevel 0))
  fresh := 1

def recordAt? (table : TowerList) (id : ℕ) : Option Entry := (table.node id).map SkipListNode.entry

/-- `forward_[lvl]` of a node. -/
def forward? (table : TowerList) (id lvl : ℕ) : Option (Option ℕ) :=
  (table.node id).bind fun node => node.forward[lvl]?

/-- `backward_[lvl].lock()` of a node: null when the node it points to is gone. -/
def backward? (table : TowerList) (id lvl : ℕ) : Option (Option ℕ) :=
  ((table.node id).bind fun node => node.backward[lvl]?).map fun ptr =>
    ptr.filter fun before => (table.node before).isSome

def setNode (table : TowerList) (id : ℕ) (node : Option SkipListNode) : TowerList :=
  { table with node := Function.update table.node id node }

/-- A write to a pointer of a node. -/
def write (table : TowerList) (id lvl : ℕ) (change : SkipListNode → SkipListNode) :
    Option TowerList :=
  (table.node id).bind fun node =>
    if lvl < node.forward.length then some (table.setNode id (some (change node))) else none

def setForward (table : TowerList) (id lvl : ℕ) (ptr : Option ℕ) : Option TowerList :=
  table.write id lvl fun node => node.setForward lvl ptr

def setBackward (table : TowerList) (id lvl : ℕ) (ptr : Option ℕ) : Option TowerList :=
  table.write id lvl fun node => node.setBackward lvl ptr

/-! ## Walks -/

/-- The walk on one level, as long as the next node passes a test. -/
def walk (table : TowerList) (goOn : Entry → Bool) (lvl : ℕ) : ℕ → ℕ → Option ℕ
  | 0, _ => none
  | fuel + 1, current => do
      match ← table.forward? current lvl with
      | none => some current
      | some next =>
          if goOn (← table.recordAt? next) then table.walk goOn lvl fuel next else some current

/-- The descent: the node where it ends on the bottom level, and `update`, the nodes where it
left the levels, the bottom one first. -/
def descend (table : TowerList) (goOn : Entry → Bool) : ℕ → ℕ → Option (ℕ × List ℕ)
  | 0, current => some (current, [])
  | lvl + 1, current => do
      let stop ← table.walk goOn lvl table.fresh current
      let (last, update) ← table.descend goOn lvl stop
      some (last, update ++ [stop])

/-- The loop from one iterator up to another along one level. -/
def between (table : TowerList) (lvl : ℕ) (stop : Option ℕ) : ℕ → Option ℕ → Option (List ℕ)
  | 0, it => if it = stop then some [] else none
  | fuel + 1, it =>
      if it = stop then some []
      else do
        let id ← it
        let rest ← table.between lvl stop fuel (← table.forward? id lvl)
        some (id :: rest)

/-- The walk of `get` over the versions of the key. -/
def seekVisible (table : TowerList) (key : Bytes) (trancId : ℕ) (isAborted : ℕ → Bool) :
    ℕ → Option ℕ → Option (Option ℕ)
  | _, none => some none
  | 0, some _ => none
  | fuel + 1, some candidate => do
      let entry ← table.recordAt? candidate
      if entry.key = key then
        if trancId ≠ 0 ∧ entry.txid > trancId then
          table.seekVisible key trancId isAborted fuel (← table.forward? candidate 0)
        else if isAborted entry.txid then
          table.seekVisible key trancId isAborted fuel (← table.forward? candidate 0)
        else some (some candidate)
      else some none

/-! ## Operations -/

/-- The coins of `random_level`, each looked at on the level it is thrown on. -/
def climb (coins : ℕ → Bool) : ℕ → ℕ → ℕ
  | 0, level => level
  | room + 1, level => if coins level then climb coins room (level + 1) else level

/-- `random_level` -/
def randomLevel (maxLevel : ℕ) (coins : ℕ → Bool) : ℕ := climb coins (maxLevel - 1) 1

/-- One round of the loop of `put` that links the new node in. -/
def link (update : List ℕ) (id : ℕ) (table : TowerList) (lvl : ℕ) : Option TowerList := do
  let pre ← update[lvl]?
  let table ← table.setForward id lvl (← table.forward? pre lvl)
  let table ← table.setForward pre lvl (some id)
  let table ← table.setBackward id lvl (some pre)
  match ← table.forward? id lvl with
  | none => some table
  | some next => table.setBackward next lvl (some id)

/-- One round of the loop of `remove` that takes a node out. -/
def unlink (update : List ℕ) (target : ℕ) (table : TowerList) (lvl : ℕ) : Option TowerList := do
  let pre ← update[lvl]?
  let table ← table.setForward pre lvl (← table.forward? target lvl)
  match ← table.forward? target lvl with
  | none => some table
  | some next => table.setBackward next lvl (some pre)

/-- The candidate of `put`, if it is the version to overwrite. -/
def sameVersion? (table : TowerList) (key : Bytes) (trancId : ℕ) :
    Option ℕ → Option (Option (ℕ × SkipListNode))
  | none => some none
  | some id => do
      let node ← table.node id
      if node.entry.key = key ∧ node.entry.txid = trancId then some (some (id, node))
      else some none

/-- The new node of `put`, before it is linked in. -/
def addNode (table : TowerList) (key value : Bytes) (trancId level : ℕ) : TowerList :=
  { table with
    node := Function.update table.node table.fresh
      (some (SkipListNode.new key value level trancId))
    fresh := table.fresh + 1
    currentLevel := max table.currentLevel level }

/-- `SkipList::put` -/
def put (table : TowerList) (key value : Bytes) (trancId : ℕ) (coins : ℕ → Bool) :
    Option TowerList := do
  let level := randomLevel table.maxLevel coins
  let (current, update) ← table.descend (fun entry => nodeLt entry ⟨key, value, trancId⟩)
    table.currentLevel table.head
  match ← table.sameVersion? key trancId (← table.forward? current 0) with
  | some (id, candidate) =>
      let size ← sub? table.sizeBytes candidate.entry.value.length
      some { table.setNode id (some (candidate.setValue value)) with
        sizeBytes := size + value.length }
  | none =>
      let update := update ++ List.replicate (level - table.currentLevel) table.head
      let linked ← (List.range level).foldlM (link update table.fresh)
        (table.addNode key value trancId level)
      some { linked with sizeBytes := linked.sizeBytes + (key.length + value.length + 8) }

/-- `SkipList::remove`: the newest version of the key is taken out, and with its last pointer the
node is gone. -/
def remove (table : TowerList) (key : Bytes) : Option TowerList := do
  let (current, update) ← table.descend (fun entry => decide (entry.key < key))
    table.currentLevel table.head
  match ← table.forward? current 0 with
  | none => some table
  | some id =>
      let target ← table.node id
      if target.entry.key = key then
        let linked ← (List.range target.forward.length).foldlM (unlink update id) table
        let size ← sub? linked.sizeBytes
          (target.entry.key.length + target.entry.value.length + 8)
        some { linked.setNode id none with sizeBytes := size }
      else some table

/-- `SkipList::clear`: with the old head all nodes are gone; the level stays. -/
def clear (table : TowerList) : TowerList :=
  { table with
    head := table.fresh
    sizeBytes := 0
    node := Function.update (fun _ => none) table.fresh
      (some (SkipListNode.new [] [] table.maxLevel 0))
    fresh := table.fresh + 1 }

/-- `SkipList::get` -/
def get (table : TowerList) (key : Bytes) (trancId : ℕ) (isAborted : ℕ → Bool) :
    Option (Option ℕ) := do
  let (current, _) ← table.descend (fun entry => decide (entry.key < key)) table.currentLevel
    table.head
  table.seekVisible key trancId isAborted table.fresh (← table.forward? current 0)

/-- The nodes that one level links behind the head. -/
def chain (table : TowerList) (lvl : ℕ) : Option (List ℕ) := do
  table.between lvl none table.fresh (← table.forward? table.head lvl)

/-- `SkipList::flush` -/
def flush (table : TowerList) : Option (List Entry) := do
  (← table.chain 0).mapM table.recordAt?

def getSize (table : TowerList) : ℕ := table.sizeBytes

/-! ## What the pointers link -/

open DoublyLinked

def height (table : TowerList) (id : ℕ) : ℕ :=
  ((table.node id).map fun node => node.forward.length).getD 0

def entry (table : TowerList) (id : ℕ) : Entry := (table.recordAt? id).getD ⟨[], [], 0⟩

/-- The pointers of one level. -/
def links (table : TowerList) (lvl : ℕ) : Links ℕ where
  next id := (table.forward? id lvl).join
  prev id := ((table.node id).bind fun node => node.backward[lvl]?).join

/-- The nodes that reach a level. -/
def level (table : TowerList) (lvl : ℕ) (ids : List ℕ) : List ℕ :=
  ids.filter fun id => decide (lvl < table.height id)

/-- The invariant: on each level the nodes that reach it are linked behind the head, and no
level above the current one is in use. -/
structure Shape (table : TowerList) (ids : List ℕ) : Prop where
  nodup : (table.head :: ids).Nodup
  unused : ∀ id, table.fresh ≤ id → table.node id = none
  head_height : table.height table.head = table.maxLevel
  currentLevel_pos : 0 < table.currentLevel
  currentLevel_le : table.currentLevel ≤ table.maxLevel
  height_pos : ∀ id ∈ ids, 0 < table.height id
  height_le : ∀ id ∈ ids, table.height id ≤ table.currentLevel
  linked : ∀ lvl < table.maxLevel, Linked (table.links lvl) table.head (table.level lvl ids)

theorem exists_node {table : TowerList} {id : ℕ} (hpos : 0 < table.height id) :
    ∃ node, table.node id = some node ∧ node.forward.length = table.height id ∧
      node.entry = table.entry id := by
  unfold height at hpos ⊢
  unfold entry recordAt?
  cases hnode : table.node id with
  | none => simp [hnode] at hpos
  | some node => exact ⟨node, rfl, rfl, rfl⟩

theorem forward?_eq {table : TowerList} {id lvl : ℕ} (hlvl : lvl < table.height id) :
    table.forward? id lvl = some ((table.links lvl).next id) := by
  obtain ⟨node, hnode, hlength, -⟩ := exists_node (Nat.zero_lt_of_lt hlvl)
  rw [← hlength] at hlvl
  simp only [links, forward?, hnode, Option.bind_some, List.getElem?_eq_getElem hlvl,
    Option.join_some]

theorem recordAt?_eq {table : TowerList} {id : ℕ} (hpos : 0 < table.height id) :
    table.recordAt? id = some (table.entry id) := by
  obtain ⟨node, hnode, -, hentry⟩ := exists_node hpos
  rw [recordAt?, hnode, Option.map_some, hentry]

namespace Shape

variable {table : TowerList} {ids : List ℕ}

theorem lt_fresh (hshape : table.Shape ids) {id : ℕ} (hpos : 0 < table.height id) :
    id < table.fresh := by
  obtain ⟨node, hnode, -⟩ := exists_node hpos
  by_contra hle
  rw [hshape.unused id (not_lt.mp hle)] at hnode
  cases hnode

theorem head_height_pos (hshape : table.Shape ids) : 0 < table.height table.head := by
  rw [hshape.head_height]
  exact hshape.currentLevel_pos.trans_le hshape.currentLevel_le

/-- There are fewer nodes than numbers given out, so no walk runs out of fuel. -/
theorem length_lt (hshape : table.Shape ids) : ids.length < table.fresh := by
  have hsub : table.head :: ids ⊆ List.range table.fresh := by
    intro id hmem
    rw [List.mem_range]
    rcases List.mem_cons.mp hmem with rfl | hmem
    · exact hshape.lt_fresh hshape.head_height_pos
    · exact hshape.lt_fresh (hshape.height_pos id hmem)
  have hlength := (hshape.nodup.subperm hsub).length_le
  rwa [List.length_range, List.length_cons] at hlength

/-- The head and the nodes of a level have pointers on it. -/
theorem lt_height (hshape : table.Shape ids) {lvl id : ℕ} (hlvl : lvl < table.maxLevel)
    (hmem : id ∈ table.head :: table.level lvl ids) : lvl < table.height id := by
  rcases List.mem_cons.mp hmem with rfl | hmem
  · rwa [hshape.head_height]
  · simpa [level] using (List.mem_filter.mp hmem).2

theorem level_zero (hshape : table.Shape ids) : table.level 0 ids = ids := by
  rw [level, List.filter_eq_self]
  intro id hmem
  simpa using hshape.height_pos id hmem

end Shape

/-! ## The descent -/

theorem walk_eq {table : TowerList} (goOn : Entry → Bool) {lvl fuel first : ℕ} {rest : List ℕ}
    (hlinked : Linked (table.links lvl) first rest)
    (hheight : ∀ id ∈ first :: rest, lvl < table.height id) (hfuel : rest.length < fuel) :
    table.walk goOn lvl fuel first =
      some ((rest.takeWhile fun id => goOn (table.entry id)).getLastD first) := by
  induction rest generalizing first fuel with
  | nil =>
      obtain ⟨fuel, rfl⟩ := Nat.exists_eq_succ_of_ne_zero hfuel.ne'
      have hnext : (table.links lvl).next first = none := hlinked
      rw [walk, forward?_eq (hheight first List.mem_cons_self), hnext]
      rfl
  | cons second rest ih =>
      obtain ⟨fuel, rfl⟩ := Nat.exists_eq_succ_of_ne_zero (Nat.zero_lt_of_lt hfuel).ne'
      obtain ⟨hnext, -, hrest⟩ := hlinked
      have htail : ∀ id ∈ second :: rest, lvl < table.height id := fun id hmem =>
        hheight id (List.mem_cons_of_mem _ hmem)
      have hentry := recordAt?_eq (Nat.zero_lt_of_lt (htail second List.mem_cons_self))
      rw [walk, forward?_eq (hheight first List.mem_cons_self), hnext]
      dsimp only [Option.bind_eq_bind, Option.bind_some]
      rw [hentry, Option.bind_some, List.takeWhile_cons]
      split_ifs with hgo
      · rw [List.getLastD_cons]
        exact ih hrest htail (Nat.lt_of_succ_lt_succ hfuel)
      · rfl

/-- The last node of a level that stands before a place of the list. -/
def stop (table : TowerList) (pre : List ℕ) (lvl : ℕ) : ℕ :=
  (table.level lvl pre).getLastD table.head

theorem level_append (table : TowerList) (lvl : ℕ) (pre post : List ℕ) :
    table.level lvl (pre ++ post) = table.level lvl pre ++ table.level lvl post :=
  List.filter_append ..

theorem mem_level {table : TowerList} {lvl id : ℕ} {ids : List ℕ} :
    id ∈ table.level lvl ids ↔ id ∈ ids ∧ lvl < table.height id := by
  rw [level, List.mem_filter, decide_eq_true_eq]

/-- What reaches a level reaches the one below. -/
theorem level_succ_sublist (table : TowerList) (lvl : ℕ) (ids : List ℕ) :
    (table.level (lvl + 1) ids).Sublist (table.level lvl ids) := by
  apply List.monotone_filter_right
  intro id hid
  rw [decide_eq_true_eq] at hid ⊢
  exact Nat.lt_of_succ_lt hid

namespace Shape

variable {table : TowerList} {pre post : List ℕ} {goOn : Entry → Bool}

theorem stop_mem (table : TowerList) (pre : List ℕ) (lvl : ℕ) :
    table.stop pre lvl ∈ table.head :: table.level lvl pre := List.getLastD_mem_cons

/-- On its level the last node before a place is followed by the first node behind it. -/
theorem stop_next (hshape : table.Shape (pre ++ post)) {lvl : ℕ} (hlvl : lvl < table.maxLevel) :
    table.forward? (table.stop pre lvl) lvl = some (table.level lvl post).head? := by
  have hlinked := hshape.linked lvl hlvl
  rw [level_append] at hlinked
  have hmem : table.stop pre lvl ∈ table.head :: table.level lvl (pre ++ post) := by
    rw [level_append]
    exact List.mem_append_left (table.level lvl post) (stop_mem table pre lvl)
  rw [forward?_eq (hshape.lt_height hlvl hmem), stop, hlinked.drop.next_eq]

/-- On a level the walk ends at the last node that passes, wherever among these it starts. -/
theorem walk_eq_stop (hshape : table.Shape (pre ++ post))
    (hpre : ∀ id ∈ pre, goOn (table.entry id)) (hpost : ∀ id ∈ post, ¬goOn (table.entry id))
    {lvl current : ℕ} (hlvl : lvl < table.maxLevel)
    (hcurrent : current ∈ table.head :: table.level lvl pre) :
    table.walk goOn lvl table.fresh current = some (table.stop pre lvl) := by
  obtain ⟨front, back, hsplit, rfl⟩ := exists_split hcurrent
  have hlinked := hshape.linked lvl hlvl
  rw [level_append, hsplit, List.append_assoc] at hlinked
  have hmem : ∀ id ∈ front.getLastD table.head :: (back ++ table.level lvl post),
      id ∈ table.head :: table.level lvl (pre ++ post) := by
    intro id hid
    rw [level_append, hsplit]
    rcases List.mem_cons.mp hid with rfl | hid
    · have hlast : front.getLastD table.head ∈ table.head :: front := List.getLastD_mem_cons
      simp only [List.mem_cons, List.mem_append] at hlast ⊢
      tauto
    · simp only [List.mem_cons, List.mem_append] at hid ⊢
      tauto
  have hlength : (back ++ table.level lvl post).length < table.fresh := by
    have hle : (table.level lvl (pre ++ post)).length ≤ (pre ++ post).length :=
      List.length_filter_le _ _
    rw [level_append, hsplit, List.append_assoc, List.length_append] at hle
    have hlt := hshape.length_lt
    omega
  rw [walk_eq goOn hlinked.drop (fun id hid => hshape.lt_height hlvl (hmem id hid)) hlength,
    stop, hsplit, getLastD_append]
  congr 2
  rw [List.takeWhile_append_of_pos, (List.takeWhile_eq_nil_iff).mpr]
  · simp
  · intro hpos
    exact hpost _ (mem_level.mp (List.getElem_mem hpos)).1
  · intro id hid
    have hlevel : id ∈ table.level lvl pre := hsplit ▸ List.mem_append_right _ hid
    exact hpre id (mem_level.mp hlevel).1

/-- The descent leaves every level at the last node of it that passes. -/
theorem descend_eq (hshape : table.Shape (pre ++ post))
    (hpre : ∀ id ∈ pre, goOn (table.entry id)) (hpost : ∀ id ∈ post, ¬goOn (table.entry id))
    {lvl current : ℕ} (hlvl : lvl < table.maxLevel)
    (hcurrent : current ∈ table.head :: table.level lvl pre) :
    table.descend goOn (lvl + 1) current =
      some (table.stop pre 0, (List.range (lvl + 1)).map (table.stop pre)) := by
  induction lvl generalizing current with
  | zero =>
      rw [descend, hshape.walk_eq_stop hpre hpost hlvl hcurrent]
      rfl
  | succ lvl ih =>
      have hbelow : table.stop pre (lvl + 1) ∈ table.head :: table.level lvl pre := by
        have hsub := (table.level_succ_sublist lvl pre).cons_cons table.head
        exact hsub.subset (stop_mem table pre (lvl + 1))
      rw [descend, hshape.walk_eq_stop hpre hpost hlvl hcurrent]
      dsimp only [Option.bind_eq_bind, Option.bind_some]
      rw [ih (Nat.lt_of_succ_lt hlvl) hbelow, Option.bind_some, List.range_succ (n := lvl + 1),
        List.map_append, List.map_singleton]

/-- The descent from the head, through all levels in use. -/
theorem descend_head (hshape : table.Shape (pre ++ post))
    (hpre : ∀ id ∈ pre, goOn (table.entry id)) (hpost : ∀ id ∈ post, ¬goOn (table.entry id)) :
    table.descend goOn table.currentLevel table.head =
      some (table.stop pre 0, (List.range table.currentLevel).map (table.stop pre)) := by
  have hsucc := Nat.sub_add_cancel hshape.currentLevel_pos
  have hle := hshape.currentLevel_le
  have hlt : table.currentLevel - 1 < table.maxLevel := by omega
  have hdescend := hshape.descend_eq hpre hpost hlt List.mem_cons_self
  rwa [hsucc] at hdescend

/-- Behind the descent stands the first node that does not pass. -/
theorem candidate_eq (hshape : table.Shape (pre ++ post)) :
    table.forward? (table.stop pre 0) 0 = some post.head? := by
  have hpos := hshape.currentLevel_pos.trans_le hshape.currentLevel_le
  have hlevel : table.level 0 post = post := by
    rw [level, List.filter_eq_self]
    intro id hmem
    simpa using hshape.height_pos id (List.mem_append_right _ hmem)
  rw [hshape.stop_next hpos, hlevel]

end Shape

end TowerList

end KopiDb
