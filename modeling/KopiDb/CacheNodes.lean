import Mathlib.Data.List.AList
import KopiDb.BlockCache
import KopiDb.Lib.LruK

/-!
# The nodes of the block cache

The two lists of the block cache are linked lists whose nodes stay where they are while they
move between the lists, and the map from keys holds iterators to these nodes.  An iterator to a
node that is gone, a node that is spliced out of a list that it is not in, and the last element
of an empty list have no defined behaviour; none of this ever happens.
-/

namespace KopiDb

/-- A node of a list, by the number of its allocation; an iterator is the node that it points
to. -/
abbrev NodeId := ℕ

/-- The members of `BlockCache` with the nodes of its lists. -/
structure CacheNodes (β : Type*) where
  capacity : ℕ
  k : ℕ
  cacheListGreaterK : List NodeId
  cacheListLessK : List NodeId
  cacheMap : AList fun _ : ℤ × ℤ => NodeId
  totalRequests : ℕ
  hitRequests : ℕ
  node : NodeId → Option (CacheItem β)
  nextNode : NodeId

namespace CacheNodes

variable {β : Type*}

/-- The constructor. -/
def new (capacity k : ℕ) : CacheNodes β where
  capacity := capacity
  k := k
  cacheListGreaterK := []
  cacheListLessK := []
  cacheMap := ∅
  totalRequests := 0
  hitRequests := 0
  node := fun _ => none
  nextNode := 0

/-- `update_access_count`, undefined for an iterator to a node that is gone, and where `splice`
is called with a list that the node is not in. -/
def updateAccessCount (cache : CacheNodes β) (it : NodeId) : Option (CacheNodes β) :=
  match cache.node it with
  | none => none
  | some item =>
      if item.accessCount < cache.k then
        let counted := { item with accessCount := item.accessCount + 1 }
        if it ∉ cache.cacheListLessK then none
        else if counted.accessCount = cache.k then
          some { cache with
            node := Function.update cache.node it (some counted)
            cacheListGreaterK := it :: cache.cacheListGreaterK
            cacheListLessK := cache.cacheListLessK.erase it }
        else
          some { cache with
            node := Function.update cache.node it (some counted)
            cacheListLessK := it :: cache.cacheListLessK.erase it }
      else if it ∉ cache.cacheListGreaterK then none
      else some { cache with cacheListGreaterK := it :: cache.cacheListGreaterK.erase it }

/-- `get` -/
def get (cache : CacheNodes β) (sstId blockId : ℤ) : Option (CacheNodes β × Option β) :=
  let cache := { cache with totalRequests := cache.totalRequests + 1 }
  match cache.cacheMap.lookup (sstId, blockId) with
  | none => some (cache, none)
  | some found =>
      let cache := { cache with hitRequests := cache.hitRequests + 1 }
      match cache.updateAccessCount found with
      | none => none
      | some cache => (cache.node found).map fun item => (cache, some item.cacheBlock)

/-- The eviction of `put`; the last element of an empty list is undefined. -/
def evict (cache : CacheNodes β) : Option (CacheNodes β) :=
  let fromGreater := cache.cacheListLessK.isEmpty
  let list := if fromGreater then cache.cacheListGreaterK else cache.cacheListLessK
  match list.getLast? with
  | none => none
  | some target =>
      (cache.node target).map fun item =>
        { cache with
          cacheMap := cache.cacheMap.erase item.key
          cacheListGreaterK :=
            if fromGreater then cache.cacheListGreaterK.dropLast else cache.cacheListGreaterK
          cacheListLessK :=
            if fromGreater then cache.cacheListLessK else cache.cacheListLessK.dropLast
          node := Function.update cache.node target none }

/-- The new node of `put` with its place in the map; `emplace` keeps a key that is there. -/
def pushFront (cache : CacheNodes β) (item : CacheItem β) : CacheNodes β :=
  { cache with
    cacheListGreaterK := if cache.k = 1 then cache.nextNode :: cache.cacheListGreaterK
      else cache.cacheListGreaterK
    cacheListLessK := if cache.k = 1 then cache.cacheListLessK
      else cache.nextNode :: cache.cacheListLessK
    cacheMap := if item.key ∈ cache.cacheMap then cache.cacheMap
      else cache.cacheMap.insert item.key cache.nextNode
    node := Function.update cache.node cache.nextNode (some item)
    nextNode := cache.nextNode + 1 }

/-- `put`, where no block is a null pointer. -/
def put (cache : CacheNodes β) (sstId blockId : ℤ) (blockPtr : Option β) :
    Option (Except Err (CacheNodes β)) :=
  if cache.k = 0 then some (.error (.runtimeError "BlockCache: k must be at least 1"))
  else
    match blockPtr with
    | none => some (.error (.logicError "BlockCache::put: block must not be null"))
    | some block =>
        if cache.capacity = 0 then some (.ok cache)
        else
          match cache.cacheMap.lookup (sstId, blockId) with
          | some found => (cache.updateAccessCount found).map .ok
          | none =>
              let kept := if cache.cacheMap.keys.length ≥ cache.capacity then cache.evict
                else some cache
              kept.map fun cache => .ok (cache.pushFront ⟨sstId, blockId, block, 1⟩)

/-! ## The nodes and the items -/

/-- The nodes of both lists. -/
def ids (cache : CacheNodes β) : List NodeId := cache.cacheListGreaterK ++ cache.cacheListLessK

/-- The map and the lists are in one-to-one correspondence: the lists have every node once, and
the map leads from every key to the node that holds it. -/
structure Linked (cache : CacheNodes β) : Prop where
  nodup : cache.ids.Nodup
  allocated : ∀ id, (cache.node id).isSome ↔ id ∈ cache.ids
  mapped : ∀ key id, cache.cacheMap.lookup key = some id ↔
    ∃ item, cache.node id = some item ∧ item.key = key
  fresh : ∀ id ∈ cache.ids, id < cache.nextNode

/-- The nodes of a list hold its items. -/
def Holds (node : NodeId → Option (CacheItem β)) (list : List NodeId)
    (items : List (CacheItem β)) : Prop := list.map node = items.map some

/-- The items of a block cache in linked nodes. -/
structure Represents (nodes : CacheNodes β) (cache : BlockCache β) : Prop extends Linked nodes where
  capacity : nodes.capacity = cache.capacity
  k : nodes.k = cache.k
  totalRequests : nodes.totalRequests = cache.totalRequests
  hitRequests : nodes.hitRequests = cache.hitRequests
  greater : Holds nodes.node nodes.cacheListGreaterK cache.cacheListGreaterK
  less : Holds nodes.node nodes.cacheListLessK cache.cacheListLessK

namespace Holds

variable {node : NodeId → Option (CacheItem β)} {list list' : List NodeId}
  {items items' : List (CacheItem β)}

theorem append (hlist : Holds node list items) (hlist' : Holds node list' items') :
    Holds node (list ++ list') (items ++ items') := by
  rw [Holds, List.map_append, List.map_append, hlist, hlist']

theorem cons {id : NodeId} {item : CacheItem β} (hid : node id = some item)
    (hlist : Holds node list items) : Holds node (id :: list) (item :: items) := by
  rw [Holds, List.map_cons, List.map_cons, hlist, hid]

theorem length (hlist : Holds node list items) : list.length = items.length := by
  have hlength := congrArg List.length hlist
  rwa [List.length_map, List.length_map] at hlength

theorem exists_item (hlist : Holds node list items) {id : NodeId} (hid : id ∈ list) :
    ∃ item ∈ items, node id = some item := by
  have hmem : node id ∈ items.map some := hlist ▸ List.mem_map_of_mem hid
  obtain ⟨item, hitem, heq⟩ := List.mem_map.mp hmem
  exact ⟨item, hitem, heq.symm⟩

theorem exists_node (hlist : Holds node list items) {item : CacheItem β} (hitem : item ∈ items) :
    ∃ id ∈ list, node id = some item := by
  have hmem : some item ∈ list.map node := hlist ▸ List.mem_map_of_mem hitem
  exact List.mem_map.mp hmem

theorem dropLast (hlist : Holds node list items) : Holds node list.dropLast items.dropLast := by
  rw [Holds, List.map_dropLast, List.map_dropLast, hlist]

/-- A node that is not in the list may change. -/
theorem update (hlist : Holds node list items) {id : NodeId} (hid : id ∉ list)
    (value : Option (CacheItem β)) : Holds (Function.update node id value) list items := by
  rw [Holds, ← hlist]
  apply List.map_congr_left
  rintro other hother
  exact Function.update_of_ne (ne_of_mem_of_not_mem hother hid) _ _

/-- Taking out one node takes out its item. -/
theorem filter {key : ℤ × ℤ} {it : NodeId} (hlist : Holds node list items)
    (hkey : ∀ id ∈ list, ∀ item, node id = some item → (item.key = key ↔ id = it)) :
    Holds node (list.filter fun id => id ≠ it) (BlockCache.without key items) := by
  induction list generalizing items with
  | nil =>
      obtain rfl := List.map_eq_nil_iff.mp hlist.symm
      rfl
  | cons id list ih =>
      cases items with
      | nil => cases hlist
      | cons item items =>
          obtain ⟨hid, hlist⟩ := List.cons.inj hlist
          have hrest := ih hlist fun other hother => hkey other (List.mem_cons_of_mem _ hother)
          have hhead := hkey id List.mem_cons_self item hid
          rw [BlockCache.without] at hrest ⊢
          rw [List.filter_cons, List.filter_cons]
          by_cases heq : id = it
          · simpa [heq, hhead.mpr heq] using hrest
          · have hne : item.key ≠ key := fun hsame => heq (hhead.mp hsame)
            simpa [heq, hne] using hrest.cons hid

end Holds

namespace Represents

variable {nodes : CacheNodes β} {cache : BlockCache β}

theorem holds_items (hrep : Represents nodes cache) : Holds nodes.node nodes.ids cache.items :=
  hrep.greater.append hrep.less

/-- Two nodes do not hold one key. -/
theorem key_eq_iff (hrep : Represents nodes cache) {id it : NodeId} {item held : CacheItem β}
    (hit : nodes.node it = some held) (hid : nodes.node id = some item) :
    item.key = held.key ↔ id = it := by
  constructor
  · intro hkey
    have hlookup := (hrep.mapped held.key it).mpr ⟨held, hit, rfl⟩
    have hother := (hrep.mapped held.key id).mpr ⟨item, hid, hkey⟩
    exact Option.some.inj (hother.symm.trans hlookup)
  · rintro rfl
    rw [Option.some.inj (hid.symm.trans hit)]

/-- The map finds the item that the lists hold. -/
theorem find?_of_lookup (hrep : Represents nodes cache) {key : ℤ × ℤ} {it : NodeId}
    (hlookup : nodes.cacheMap.lookup key = some it) :
    ∃ item, nodes.node it = some item ∧ cache.find? key = some item := by
  obtain ⟨item, hnode, rfl⟩ := (hrep.mapped key it).mp hlookup
  have hid := (hrep.allocated it).mp (hnode ▸ rfl)
  obtain ⟨held, hheld, heq⟩ := hrep.holds_items.exists_item hid
  obtain rfl := Option.some.inj (hnode.symm.trans heq)
  refine ⟨item, hnode, ?_⟩
  cases hfind : cache.find? item.key with
  | none =>
      have hnone := List.find?_eq_none.mp hfind item hheld
      simp at hnone
  | some found =>
      obtain ⟨hfound, hkey⟩ := BlockCache.find?_mem hfind
      rw [List.inj_on_of_nodup_map cache.keys_nodup hfound hheld hkey]

theorem find?_of_lookup_none (hrep : Represents nodes cache) {key : ℤ × ℤ}
    (hlookup : nodes.cacheMap.lookup key = none) : cache.find? key = none := by
  cases hfind : cache.find? key with
  | none => rfl
  | some item =>
      obtain ⟨hitem, hkey⟩ := BlockCache.find?_mem hfind
      obtain ⟨id, -, hnode⟩ := hrep.holds_items.exists_node hitem
      rw [(hrep.mapped key id).mpr ⟨item, hnode, hkey⟩] at hlookup
      cases hlookup

/-- `cache_map_.size()` -/
theorem length_keys (hrep : Represents nodes cache) :
    nodes.cacheMap.keys.length = cache.items.length := by
  have hperm : nodes.cacheMap.keys.Perm (cache.items.map CacheItem.key) := by
    refine (List.perm_ext_iff_of_nodup nodes.cacheMap.keys_nodup cache.keys_nodup).mpr ?_
    intro key
    rw [← AList.mem_keys, ← AList.lookup_isSome, Option.isSome_iff_exists, List.mem_map]
    constructor
    · rintro ⟨id, hlookup⟩
      obtain ⟨item, -, hfind⟩ := hrep.find?_of_lookup hlookup
      exact ⟨item, BlockCache.find?_mem hfind⟩
    · rintro ⟨item, hitem, rfl⟩
      obtain ⟨id, -, hnode⟩ := hrep.holds_items.exists_node hitem
      exact ⟨id, (hrep.mapped _ id).mpr ⟨item, hnode, rfl⟩⟩
  rw [hperm.length_eq, List.length_map]

/-- A node that gets another count and another place. -/
theorem moved (hrep : Represents nodes cache) {it : NodeId} {item used : CacheItem β}
    (hnode : nodes.node it = some item) (hkey : used.key = item.key) {list list' : List NodeId}
    (hperm : (list ++ list').Perm (it :: nodes.ids.filter fun id => id ≠ it)) :
    Linked { nodes with
      node := Function.update nodes.node it (some used)
      cacheListGreaterK := list
      cacheListLessK := list' } where
  nodup := by
    refine hperm.nodup_iff.mpr (List.nodup_cons.mpr ⟨fun hmem => ?_, hrep.nodup.filter _⟩)
    exact of_decide_eq_true (List.mem_filter.mp hmem).2 rfl
  allocated id := by
    have hmem : id ∈ list ++ list' ↔ id ∈ nodes.ids := by
      rw [hperm.mem_iff, List.mem_cons, List.mem_filter, decide_eq_true_iff]
      constructor
      · rintro (rfl | ⟨hid, -⟩)
        · exact (hrep.allocated id).mp (hnode ▸ rfl)
        · exact hid
      · exact fun hid => (eq_or_ne id it).imp_right fun hne => ⟨hid, hne⟩
    refine Iff.trans ?_ hmem.symm
    rw [← hrep.allocated]
    dsimp only
    by_cases heq : id = it
    · subst heq
      rw [Function.update_self, hnode]
      rfl
    · rw [Function.update_of_ne heq]
  mapped key id := by
    rw [hrep.mapped]
    by_cases heq : id = it
    · subst heq
      dsimp only
      rw [Function.update_self, hnode]
      constructor
      · rintro ⟨held, hheld, rfl⟩
        obtain rfl := Option.some.inj hheld
        exact ⟨used, rfl, hkey⟩
      · rintro ⟨held, hheld, rfl⟩
        obtain rfl := Option.some.inj hheld
        exact ⟨item, rfl, hkey.symm⟩
    · dsimp only
      rw [Function.update_of_ne heq]
  fresh id hid := by
    rcases List.mem_cons.mp (hperm.mem_iff.mp hid) with rfl | hother
    · exact hrep.fresh id ((hrep.allocated id).mp (hnode ▸ rfl))
    · exact hrep.fresh id (List.mem_filter.mp hother).1

/-- What `update_access_count` does to the items. -/
theorem updateAccessCount (hrep : Represents nodes cache) {it : NodeId} {item : CacheItem β}
    (hnode : nodes.node it = some item) (hitem : item ∈ cache.items) :
    ∃ nodes', nodes.updateAccessCount it = some nodes' ∧
      Represents nodes' (cache.updateAccessCount item hitem) ∧
      (nodes'.node it).map CacheItem.cacheBlock = some item.cacheBlock := by
  have hid := (hrep.allocated it).mp (hnode ▸ rfl)
  have hgreater : Holds nodes.node (nodes.cacheListGreaterK.filter fun id => id ≠ it)
      (BlockCache.without item.key cache.cacheListGreaterK) :=
    hrep.greater.filter fun id _ held hheld => hrep.key_eq_iff hnode hheld
  have hless : Holds nodes.node (nodes.cacheListLessK.filter fun id => id ≠ it)
      (BlockCache.without item.key cache.cacheListLessK) :=
    hrep.less.filter fun id _ held hheld => hrep.key_eq_iff hnode hheld
  have hfilter : ∀ list : List NodeId, it ∉ list.filter fun id => id ≠ it := fun list hmem =>
    of_decide_eq_true (List.mem_filter.mp hmem).2 rfl
  have hids : nodes.ids.filter (fun id => id ≠ it) =
      nodes.cacheListGreaterK.filter (fun id => id ≠ it) ++
        nodes.cacheListLessK.filter fun id => id ≠ it := List.filter_append _ _
  obtain ⟨hnodupGreater, hnodupLess, hdisjoint⟩ := List.nodup_append.mp hrep.nodup
  have herase : ∀ {list : List NodeId}, list.Nodup →
      list.erase it = list.filter fun id => id ≠ it := by
    intro list hnodup
    rw [hnodup.erase_eq_filter]
    refine List.filter_congr fun id _ => ?_
    by_cases heq : id = it <;> simp [heq]
  have hself : ∀ {list : List NodeId}, it ∉ list → list.filter (fun id => id ≠ it) = list :=
    fun hnot => List.filter_eq_self.mpr fun id hmem =>
      decide_eq_true (ne_of_mem_of_not_mem hmem hnot)
  have hmiddle : (nodes.cacheListGreaterK.filter (fun id => id ≠ it) ++
      it :: nodes.cacheListLessK.filter fun id => id ≠ it).Perm
        (it :: nodes.ids.filter fun id => id ≠ it) := by
    rw [hids]
    exact List.perm_middle
  unfold CacheNodes.updateAccessCount BlockCache.updateAccessCount
  rw [hnode, hrep.k]
  dsimp only
  by_cases hbelow : item.accessCount < cache.k
  · have hnotGreater : it ∉ nodes.cacheListGreaterK := by
      intro hmem
      obtain ⟨held, hheld, heq⟩ := hrep.greater.exists_item hmem
      obtain rfl := Option.some.inj (hnode.symm.trans heq)
      exact hbelow.ne (cache.accessCount_greater _ hheld)
    have hinLess : it ∈ nodes.cacheListLessK := (List.mem_append.mp hid).resolve_left hnotGreater
    let counted := { item with accessCount := item.accessCount + 1 }
    have hgreater' := hgreater.update (hfilter _) (some counted)
    have hless' := hless.update (hfilter _) (some counted)
    have hcounted : Function.update nodes.node it (some counted) it = some counted :=
      Function.update_self _ _ _
    rw [if_pos hbelow, if_neg (not_not.mpr hinLess), dif_pos hbelow, herase hnodupLess]
    by_cases hreached : item.accessCount + 1 = cache.k
    · rw [if_pos hreached, dif_pos hreached]
      have hperm : (it :: nodes.cacheListGreaterK ++
          nodes.cacheListLessK.filter fun id => id ≠ it).Perm
            (it :: nodes.ids.filter fun id => id ≠ it) := by
        rw [hids, hself hnotGreater]
        exact List.Perm.refl _
      have hlinked := @moved β nodes cache hrep it item counted hnode rfl _ _ hperm
      rw [hself hnotGreater] at hgreater'
      exact ⟨_, rfl,
        { hlinked with
          capacity := hrep.capacity
          k := rfl
          totalRequests := hrep.totalRequests
          hitRequests := hrep.hitRequests
          greater := hgreater'.cons hcounted
          less := hless' }, congrArg (Option.map CacheItem.cacheBlock) hcounted⟩
    · rw [if_neg hreached, dif_neg hreached]
      rw [hself hnotGreater] at hmiddle hgreater'
      have hlinked := @moved β nodes cache hrep it item counted hnode rfl _ _ hmiddle
      exact ⟨_, rfl,
        { hlinked with
          capacity := hrep.capacity
          k := rfl
          totalRequests := hrep.totalRequests
          hitRequests := hrep.hitRequests
          greater := hgreater'
          less := hless'.cons hcounted }, congrArg (Option.map CacheItem.cacheBlock) hcounted⟩
  · have hnotLess : it ∉ nodes.cacheListLessK := by
      intro hmem
      obtain ⟨held, hheld, heq⟩ := hrep.less.exists_item hmem
      obtain rfl := Option.some.inj (hnode.symm.trans heq)
      exact hbelow (cache.accessCount_less _ hheld)
    have hinGreater := (List.mem_append.mp hid).resolve_right hnotLess
    rw [if_neg hbelow, if_neg (not_not.mpr hinGreater), dif_neg hbelow, herase hnodupGreater]
    have hperm : (it :: nodes.cacheListGreaterK.filter (fun id => id ≠ it) ++
        nodes.cacheListLessK).Perm (it :: nodes.ids.filter fun id => id ≠ it) := by
      rw [hids, hself hnotLess]
      exact List.Perm.refl _
    have hlinked := @moved β nodes cache hrep it item item hnode rfl _ _ hperm
    have hsame : Function.update nodes.node it (some item) = nodes.node := by
      rw [← hnode, Function.update_eq_self]
    rw [hsame] at hlinked
    rw [hself hnotLess] at hless
    exact ⟨_, rfl,
      { hlinked with
        capacity := hrep.capacity
        k := rfl
        totalRequests := hrep.totalRequests
        hitRequests := hrep.hitRequests
        greater := hgreater.cons hnode
        less := hless }, congrArg (Option.map CacheItem.cacheBlock) hnode⟩

/-- `get` finds the items that the lists hold and uses them. -/
theorem get (hrep : Represents nodes cache) (sstId blockId : ℤ) :
    ∃ nodes', nodes.get sstId blockId = some (nodes', (cache.get sstId blockId).1) ∧
      Represents nodes' (cache.get sstId blockId).2 := by
  unfold CacheNodes.get
  dsimp only
  cases hlookup : nodes.cacheMap.lookup (sstId, blockId) with
  | none =>
      have hfind := hrep.find?_of_lookup_none hlookup
      have hget : cache.get sstId blockId =
          (none, { cache with totalRequests := cache.totalRequests + 1 }) := by
        unfold BlockCache.get
        split
        next => rfl
        next found hfound =>
            rw [hfind] at hfound
            cases hfound
      rw [hget]
      exact ⟨_, rfl, { hrep with totalRequests := congrArg Nat.succ hrep.totalRequests }⟩
  | some it =>
      obtain ⟨item, hnode, hfind⟩ := hrep.find?_of_lookup hlookup
      let nodes' : CacheNodes β := { nodes with
        totalRequests := nodes.totalRequests + 1
        hitRequests := nodes.hitRequests + 1 }
      let cache' : BlockCache β := { cache with
        totalRequests := cache.totalRequests + 1
        hitRequests := cache.hitRequests + 1 }
      have hrep' : Represents nodes' cache' := { hrep with
        totalRequests := congrArg Nat.succ hrep.totalRequests
        hitRequests := congrArg Nat.succ hrep.hitRequests }
      have hitem : item ∈ cache'.items := (BlockCache.find?_mem hfind).1
      obtain ⟨used, hused, hrepUsed, hblock⟩ := hrep'.updateAccessCount hnode hitem
      have hget : cache.get sstId blockId =
          (some item.cacheBlock, cache'.updateAccessCount item hitem) := by
        unfold BlockCache.get
        split
        next hnone =>
            rw [hfind] at hnone
            cases hnone
        next found hfound =>
            obtain rfl := Option.some.inj (hfind.symm.trans hfound)
            rw [Prod.mk.injEq]
            refine ⟨rfl, ?_⟩
            unfold BlockCache.updateAccessCount
            dsimp only [cache']
            split_ifs <;> rfl
      rw [hget]
      obtain ⟨held, hheld, hblock⟩ := Option.map_eq_some_iff.mp hblock
      have hresult : (match nodes'.updateAccessCount it with
          | none => none
          | some cache => (cache.node it).map fun item : CacheItem β =>
              (cache, some item.cacheBlock)) = some (used, some item.cacheBlock) := by
        rw [hused]
        dsimp only
        rw [hheld, Option.map_some, hblock]
      exact ⟨used, hresult, hrepUsed⟩

/-- A node that is given up with its key. -/
theorem dropped (hrep : Represents nodes cache) {target : NodeId} {item : CacheItem β}
    (hnode : nodes.node target = some item) {list list' : List NodeId}
    (hperm : nodes.ids.Perm (target :: (list ++ list'))) :
    Linked { nodes with
      cacheMap := nodes.cacheMap.erase item.key
      cacheListGreaterK := list
      cacheListLessK := list'
      node := Function.update nodes.node target none } := by
  obtain ⟨hnot, hnodup⟩ := List.nodup_cons.mp (hperm.nodup_iff.mp hrep.nodup)
  refine ⟨hnodup, fun id => ?_, fun key id => ?_, fun id hid => ?_⟩
  · change (Function.update nodes.node target none id).isSome ↔ id ∈ list ++ list'
    by_cases heq : id = target
    · subst heq
      rw [Function.update_self]
      exact iff_of_false (by simp) hnot
    · rw [Function.update_of_ne heq, hrep.allocated, hperm.mem_iff, List.mem_cons,
        or_iff_right heq]
  · change (nodes.cacheMap.erase item.key).lookup key = some id ↔
      ∃ held, Function.update nodes.node target none id = some held ∧ held.key = key
    by_cases hkey : key = item.key
    · subst hkey
      rw [AList.lookup_erase]
      refine iff_of_false (Option.some_ne_none id).symm ?_
      rintro ⟨held, hheld, hsame⟩
      by_cases heq : id = target
      · rw [heq, Function.update_self] at hheld
        cases hheld
      · rw [Function.update_of_ne heq] at hheld
        exact heq ((hrep.key_eq_iff hnode hheld).mp hsame)
    · rw [AList.lookup_erase_ne hkey, hrep.mapped]
      by_cases heq : id = target
      · subst heq
        rw [Function.update_self, hnode]
        refine iff_of_false ?_ ?_
        · rintro ⟨held, hheld, rfl⟩
          rw [Option.some.inj hheld] at hkey
          exact hkey rfl
        · rintro ⟨held, hheld, -⟩
          cases hheld
      · rw [Function.update_of_ne heq]
  · exact hrep.fresh id (hperm.mem_iff.mpr (List.mem_cons_of_mem _ hid))

private theorem isEmpty_eq {list : List NodeId} {items : List (CacheItem β)}
    (hlist : Holds nodes.node list items) : list.isEmpty = items.isEmpty := by
  cases list <;> cases items
  · rfl
  · cases hlist
  · cases hlist
  · rfl

private theorem last_of_holds {list : List NodeId} {items : List (CacheItem β)}
    (hlist : Holds nodes.node list items) (hne : items ≠ []) :
    ∃ front target item, list = front ++ [target] ∧ nodes.node target = some item ∧
      Holds nodes.node front items.dropLast := by
  have hlist' : list ≠ [] := by
    rintro rfl
    exact hne (List.map_eq_nil_iff.mp hlist.symm)
  obtain ⟨front, target, rfl⟩ := List.eq_nil_or_concat' list |>.resolve_left hlist'
  obtain ⟨item, -, hnode⟩ := hlist.exists_item (List.mem_append_right front List.mem_cons_self)
  have hfront := hlist.dropLast
  rw [List.dropLast_concat] at hfront
  exact ⟨front, target, item, rfl, hnode, hfront⟩

/-- The eviction of `put` gives up the last node of the list that is in question. -/
theorem evict (hrep : Represents nodes cache) (hne : cache.items ≠ []) :
    ∃ nodes', nodes.evict = some nodes' ∧ Represents nodes' cache.evict := by
  unfold CacheNodes.evict
  dsimp only
  rw [isEmpty_eq hrep.less]
  have hgreaterList : cache.evict.cacheListGreaterK = if cache.cacheListLessK.isEmpty then
      cache.cacheListGreaterK.dropLast else cache.cacheListGreaterK := rfl
  have hlessList : cache.evict.cacheListLessK = cache.cacheListLessK.dropLast := rfl
  by_cases hempty : cache.cacheListLessK = []
  · have hless := hrep.less
    rw [hempty] at hless hgreaterList hlessList ⊢
    rw [List.isEmpty_nil, if_pos rfl] at hgreaterList
    have hnil : nodes.cacheListLessK = [] := List.map_eq_nil_iff.mp hless
    have hne' : cache.cacheListGreaterK ≠ [] := by
      intro hnone
      rw [BlockCache.items, hnone, hempty] at hne
      exact hne rfl
    obtain ⟨front, target, item, hlist, hnode, hfront⟩ := last_of_holds hrep.greater hne'
    have hids : nodes.ids = front ++ [target] := by
      rw [ids, hlist, hnil, List.append_nil]
    have hperm : nodes.ids.Perm (target :: (front ++ [])) := by
      rw [hids, List.append_nil]
      exact List.perm_append_singleton target front
    have hlinked := hrep.dropped hnode hperm
    have hnot : target ∉ front := by
      have hnodup := hperm.nodup_iff.mp hrep.nodup
      rw [List.append_nil] at hnodup
      exact (List.nodup_cons.mp hnodup).1
    rw [hlist, hnil, List.isEmpty_nil, if_pos rfl, if_pos rfl, if_pos rfl,
      List.getLast?_concat, List.dropLast_concat]
    dsimp only
    rw [hnode, Option.map_some]
    exact ⟨_, rfl,
      { hlinked with
        capacity := hrep.capacity
        k := hrep.k
        totalRequests := hrep.totalRequests
        hitRequests := hrep.hitRequests
        greater := hgreaterList ▸ hfront.update hnot none
        less := hlessList ▸ rfl }⟩
  · obtain ⟨front, target, item, hlist, hnode, hfront⟩ := last_of_holds hrep.less hempty
    have hperm : nodes.ids.Perm (target :: (nodes.cacheListGreaterK ++ front)) := by
      rw [ids, hlist, ← List.append_assoc]
      exact List.perm_append_singleton target _
    have hlinked := hrep.dropped hnode hperm
    have hnot := (List.nodup_cons.mp (hperm.nodup_iff.mp hrep.nodup)).1
    rw [List.mem_append, not_or] at hnot
    have hfull : ¬cache.cacheListLessK.isEmpty = true := by
      rwa [List.isEmpty_iff]
    rw [if_neg hfull] at hgreaterList
    rw [hlist, if_neg hfull, if_neg hfull, if_neg hfull, List.getLast?_concat,
      List.dropLast_concat]
    dsimp only
    rw [hnode, Option.map_some]
    exact ⟨_, rfl,
      { hlinked with
        capacity := hrep.capacity
        k := hrep.k
        totalRequests := hrep.totalRequests
        hitRequests := hrep.hitRequests
        greater := hgreaterList ▸ hrep.greater.update hnot.1 none
        less := hlessList ▸ hfront.update hnot.2 none }⟩

/-- A new node with a key that no node holds. -/
theorem pushFront (hrep : Represents nodes cache) {item : CacheItem β} (hk : 0 < cache.k)
    (hcount : item.accessCount = 1) (hfresh : ∀ other ∈ cache.items, other.key ≠ item.key)
    (hroom : cache.items.length < cache.capacity) :
    Represents (nodes.pushFront item) (cache.pushFront item hk hcount hfresh hroom) := by
  have hnotNode : ∀ id held, nodes.node id = some held → held.key ≠ item.key := by
    intro id held hheld
    have hid := (hrep.allocated id).mp (hheld ▸ rfl)
    obtain ⟨other, hother, heq⟩ := hrep.holds_items.exists_item hid
    rw [Option.some.inj (hheld.symm.trans heq)]
    exact hfresh other hother
  have hnotMap : item.key ∉ nodes.cacheMap := by
    rw [← AList.lookup_isSome]
    intro hsome
    obtain ⟨id, hlookup⟩ := Option.isSome_iff_exists.mp hsome
    obtain ⟨held, hheld, hkey⟩ := (hrep.mapped _ id).mp hlookup
    exact hnotNode id held hheld hkey
  have hnew : nodes.nextNode ∉ nodes.ids := fun hmem => (hrep.fresh _ hmem).false
  have hperm : (nodes.pushFront item).ids.Perm (nodes.nextNode :: nodes.ids) := by
    unfold CacheNodes.pushFront ids
    dsimp only
    split_ifs
    · exact List.Perm.refl _
    · exact List.perm_middle
  have hlinked : Linked (nodes.pushFront item) := by
    refine ⟨hperm.nodup_iff.mpr (List.nodup_cons.mpr ⟨hnew, hrep.nodup⟩), fun id => ?_,
      fun key id => ?_, fun id hid => ?_⟩
    · rw [hperm.mem_iff, List.mem_cons, ← hrep.allocated]
      change (Function.update nodes.node nodes.nextNode (some item) id).isSome ↔ _
      by_cases heq : id = nodes.nextNode
      · rw [heq, Function.update_self]
        exact iff_of_true rfl (Or.inl rfl)
      · rw [Function.update_of_ne heq, or_iff_right heq]
    · change (if item.key ∈ nodes.cacheMap then nodes.cacheMap
          else nodes.cacheMap.insert item.key nodes.nextNode).lookup key = some id ↔
        ∃ held, Function.update nodes.node nodes.nextNode (some item) id = some held ∧
          held.key = key
      rw [if_neg hnotMap]
      by_cases heq : id = nodes.nextNode
      · subst heq
        rw [Function.update_self]
        by_cases hkey : key = item.key
        · subst hkey
          rw [AList.lookup_insert]
          exact iff_of_true rfl ⟨item, rfl, rfl⟩
        · rw [AList.lookup_insert_ne hkey]
          refine iff_of_false (fun hlookup => ?_) ?_
          · obtain ⟨held, hheld, -⟩ := (hrep.mapped _ _).mp hlookup
            exact hnew ((hrep.allocated _).mp (hheld ▸ rfl))
          · rintro ⟨held, hheld, rfl⟩
            exact hkey (Option.some.inj hheld ▸ rfl)
      · rw [Function.update_of_ne heq]
        by_cases hkey : key = item.key
        · subst hkey
          rw [AList.lookup_insert]
          refine iff_of_false (fun hsome => heq (Option.some.inj hsome).symm) ?_
          rintro ⟨held, hheld, hsame⟩
          exact hnotNode id held hheld hsame
        · rw [AList.lookup_insert_ne hkey, hrep.mapped]
    · rcases List.mem_cons.mp (hperm.mem_iff.mp hid) with rfl | hid
      · exact Nat.lt_succ_self _
      · exact (hrep.fresh id hid).trans (Nat.lt_succ_self _)
  have hnotGreater : nodes.nextNode ∉ nodes.cacheListGreaterK :=
    fun hmem => hnew (List.mem_append_left _ hmem)
  have hnotLess : nodes.nextNode ∉ nodes.cacheListLessK :=
    fun hmem => hnew (List.mem_append_right _ hmem)
  have hgreater := hrep.greater.update hnotGreater (some item)
  have hless := hrep.less.update hnotLess (some item)
  have hitem : Function.update nodes.node nodes.nextNode (some item) nodes.nextNode = some item :=
    Function.update_self _ _ _
  have hlists : Holds (nodes.pushFront item).node (nodes.pushFront item).cacheListGreaterK
        (cache.pushFront item hk hcount hfresh hroom).cacheListGreaterK ∧
      Holds (nodes.pushFront item).node (nodes.pushFront item).cacheListLessK
        (cache.pushFront item hk hcount hfresh hroom).cacheListLessK := by
    unfold CacheNodes.pushFront BlockCache.pushFront
    rw [hrep.k]
    dsimp only
    split_ifs
    · exact ⟨hgreater.cons hitem, hless⟩
    · exact ⟨hgreater, hless.cons hitem⟩
  have hrequests : (cache.pushFront item hk hcount hfresh hroom).totalRequests =
        cache.totalRequests ∧
      (cache.pushFront item hk hcount hfresh hroom).hitRequests = cache.hitRequests := by
    unfold BlockCache.pushFront
    dsimp only
    split_ifs <;> exact ⟨rfl, rfl⟩
  exact
    { hlinked with
      capacity := hrep.capacity.trans (BlockCache.capacity_pushFront _ _ _ _ _ _).symm
      k := hrep.k.trans (BlockCache.k_pushFront _ _ _ _ _ _).symm
      totalRequests := hrep.totalRequests.trans hrequests.1.symm
      hitRequests := hrep.hitRequests.trans hrequests.2.symm
      greater := hlists.1
      less := hlists.2 }

/-- `put` with a block. -/
theorem put (hrep : Represents nodes cache) (hk : 0 < cache.k) (sstId blockId : ℤ) (block : β) :
    ∃ nodes' cache', nodes.put sstId blockId (some block) = some (.ok nodes') ∧
      cache.put sstId blockId block = .ok cache' ∧ Represents nodes' cache' := by
  unfold CacheNodes.put BlockCache.put
  rw [hrep.k, if_neg hk.ne', dif_neg hk.ne', hrep.capacity]
  dsimp only
  by_cases hcapacity : cache.capacity = 0
  · rw [if_pos hcapacity, dif_pos hcapacity]
    exact ⟨nodes, cache, rfl, rfl, hrep⟩
  · rw [if_neg hcapacity, dif_neg hcapacity]
    cases hlookup : nodes.cacheMap.lookup (sstId, blockId) with
    | some it =>
        obtain ⟨item, hnode, hfind⟩ := hrep.find?_of_lookup hlookup
        obtain ⟨nodes', hused, hrep', -⟩ := hrep.updateAccessCount hnode (BlockCache.find?_mem hfind).1
        refine ⟨nodes', _, ?_, ?_, hrep'⟩
        · dsimp only
          rw [hused]
          rfl
        · split
          next found hfound =>
              obtain rfl := Option.some.inj (hfind.symm.trans hfound)
              rfl
          next hnone =>
              rw [hfind] at hnone
              cases hnone
    | none =>
        have hfind := hrep.find?_of_lookup_none hlookup
        have hfresh : ∀ other ∈ cache.items, other.key ≠ (sstId, blockId) := by
          intro other hother
          simpa using List.find?_eq_none.mp hfind other hother
        dsimp only
        rw [hrep.length_keys]
        by_cases hfull : cache.items.length ≥ cache.capacity
        · have hne : cache.items ≠ [] := by
            intro hnil
            rw [hnil] at hfull
            exact hcapacity (Nat.le_zero.mp hfull)
          have hroom : cache.evict.items.length < cache.evict.capacity := by
            have hsize : cache.items.length ≤ cache.capacity := cache.size_le
            have hevicted : cache.evict.capacity = cache.capacity := rfl
            rw [BlockCache.length_items_evict, hevicted]
            omega
          obtain ⟨kept, hkept, hrepKept⟩ := hrep.evict hne
          rw [if_pos hfull, hkept]
          refine ⟨_, _, rfl, ?_, @pushFront β kept cache.evict hrepKept
            ⟨sstId, blockId, block, 1⟩ hk rfl
            (fun other hother => hfresh other (cache.evict_items_sublist.subset hother)) hroom⟩
          split
          next found hfound =>
              rw [hfind] at hfound
              cases hfound
          next => exact dif_pos hfull
        · rw [if_neg hfull]
          refine ⟨_, _, rfl, ?_, @pushFront β nodes cache hrep ⟨sstId, blockId, block, 1⟩ hk rfl
            hfresh (not_le.mp hfull)⟩
          split
          next found hfound =>
              rw [hfind] at hfound
              cases hfound
          next => exact dif_neg hfull

end Represents

end CacheNodes

end KopiDb
