import KopiDb.CacheNodes

/-!
# The block cache replaces by LRU-K

The lists of the block cache decide without times what the reference decides by the times and
the numbers of uses: which block leaves.
-/

namespace KopiDb

variable {β : Type*}

/-- The item of an entry: its uses are counted up to `k`. -/
def itemOf (k : ℕ) (entry : LruK.Entry (ℤ × ℤ) β) : CacheItem β :=
  ⟨entry.key.1, entry.key.2, entry.block, min entry.uses k⟩

@[simp]
theorem key_itemOf (k : ℕ) (entry : LruK.Entry (ℤ × ℤ) β) : (itemOf k entry).key = entry.key := rfl

namespace BlockCache

/-- `put` changes no parameter. -/
theorem put_parameters {cache cache' : BlockCache β} {sstId blockId : ℤ} {block : β}
    (hput : cache.put sstId blockId block = .ok cache') :
    cache'.k = cache.k ∧ cache'.capacity = cache.capacity := by
  unfold put at hput
  by_cases hk : cache.k = 0
  · rw [dif_pos hk] at hput
    cases hput
  · by_cases hcapacity : cache.capacity = 0
    · rw [dif_neg hk, dif_pos hcapacity] at hput
      rw [Except.ok.inj hput]
      exact ⟨rfl, rfl⟩
    · rw [dif_neg hk, dif_neg hcapacity] at hput
      split at hput
      next found hfind =>
          rw [← Except.ok.inj hput]
          exact ⟨k_updateAccessCount _ _ _, capacity_updateAccessCount _ _ _⟩
      next =>
          dsimp only at hput
          split_ifs at hput
          · rw [← Except.ok.inj hput]
            exact ⟨k_pushFront _ _ _ _ _ _, capacity_pushFront _ _ _ _ _ _⟩
          · rw [← Except.ok.inj hput]
            exact ⟨k_pushFront _ _ _ _ _ _, capacity_pushFront _ _ _ _ _ _⟩

/-- The lists of the cache are those of the entries in the order of use. -/
structure Lists (cache : BlockCache β) (state : LruK.State (ℤ × ℤ) β)
    (hot cold : List (LruK.Entry (ℤ × ℤ) β)) : Prop where
  recency : LruK.Recency cache.k state hot cold
  greater : cache.cacheListGreaterK = hot.map (itemOf cache.k)
  less : cache.cacheListLessK = cold.map (itemOf cache.k)

def Tracks (cache : BlockCache β) (state : LruK.State (ℤ × ℤ) β) : Prop :=
  ∃ hot cold, cache.Lists state hot cold

theorem without_map (k : ℕ) (key : ℤ × ℤ) (entries : List (LruK.Entry (ℤ × ℤ) β)) :
    without key (entries.map (itemOf k)) = (LruK.without key entries).map (itemOf k) := by
  rw [without, LruK.without, List.filter_map]
  rfl

namespace Lists

variable {cache : BlockCache β} {now : ℕ} {entries hot cold : List (LruK.Entry (ℤ × ℤ) β)}

theorem items_eq (hlists : cache.Lists ⟨now, entries⟩ hot cold) :
    cache.items = (hot ++ cold).map (itemOf cache.k) := by
  rw [items, hlists.greater, hlists.less, List.map_append]

theorem length_items (hlists : cache.Lists ⟨now, entries⟩ hot cold) :
    cache.items.length = entries.length := by
  rw [hlists.items_eq, List.length_map, hlists.recency.perm.length_eq]

/-- The cache finds the entry with the key, if there is one. -/
theorem find?_none (hlists : cache.Lists ⟨now, entries⟩ hot cold) {key : ℤ × ℤ}
    (hfind : cache.find? key = none) : ∀ entry ∈ entries, entry.key ≠ key := by
  intro entry hentry
  have hitem : itemOf cache.k entry ∈ cache.items := by
    rw [hlists.items_eq]
    exact List.mem_map_of_mem (hlists.recency.perm.mem_iff.mp hentry)
  exact fun hkey => List.find?_eq_none.mp hfind _ hitem (decide_eq_true hkey)

theorem find?_some (hlists : cache.Lists ⟨now, entries⟩ hot cold) {key : ℤ × ℤ}
    {item : CacheItem β} (hfind : cache.find? key = some item) :
    ∃ entry ∈ hot ++ cold, itemOf cache.k entry = item ∧ entry.key = key := by
  obtain ⟨hitem, hkey⟩ := find?_mem hfind
  rw [hlists.items_eq] at hitem
  obtain ⟨entry, hentry, rfl⟩ := List.mem_map.mp hitem
  exact ⟨entry, hentry, rfl, hkey⟩

/-- `update_access_count` is a use of the entry. -/
theorem updateAccessCount (hlists : cache.Lists ⟨now, entries⟩ hot cold)
    {entry : LruK.Entry (ℤ × ℤ) β} (hentry : entry ∈ hot ++ cold)
    (hit : itemOf cache.k entry ∈ cache.items) :
    (cache.updateAccessCount (itemOf cache.k entry) hit).Tracks
      ⟨now + 1, LruK.touch entry.key now entries⟩ := by
  obtain ⟨hreached, hbelow⟩ := hlists.recency.used hentry
  dsimp only at hreached hbelow
  let used := { entry with uses := entry.uses + 1, lastUse := now }
  have hcount : (itemOf cache.k entry).accessCount = min entry.uses cache.k := rfl
  have hgreater : without (itemOf cache.k entry).key cache.cacheListGreaterK =
      (LruK.without entry.key hot).map (itemOf cache.k) := by
    rw [hlists.greater, without_map]
    rfl
  have hless : without (itemOf cache.k entry).key cache.cacheListLessK =
      (LruK.without entry.key cold).map (itemOf cache.k) := by
    rw [hlists.less, without_map]
    rfl
  have hcounted : ∀ {count}, count = min (entry.uses + 1) cache.k →
      ({ itemOf cache.k entry with accessCount := count } : CacheItem β) = itemOf cache.k used := by
    rintro count rfl
    rfl
  unfold BlockCache.updateAccessCount
  dsimp only
  split_ifs with hless' hequal
  · refine ⟨_, _, hreached (by omega), ?_, hless⟩
    dsimp only
    rw [hgreater, hcounted (by omega)]
    rfl
  · refine ⟨_, _, hbelow (by omega), hgreater, ?_⟩
    dsimp only
    rw [hless, hcounted (by omega)]
    rfl
  · refine ⟨_, _, hreached (by omega), ?_, hless⟩
    dsimp only
    rw [hgreater, List.map_cons]
    congr 1
    exact hcounted (by omega)

theorem get (hlists : cache.Lists ⟨now, entries⟩ hot cold) (capacity : ℕ) (key : ℤ × ℤ) :
    (cache.get key.1 key.2).2.Tracks (LruK.step capacity cache.k (.get key) ⟨now, entries⟩).1 ∧
      (cache.get key.1 key.2).1 = (LruK.step capacity cache.k (.get key) ⟨now, entries⟩).2 := by
  unfold BlockCache.get
  split
  next hfind =>
      have hmiss := hlists.find?_none hfind
      refine ⟨⟨hot, cold, hlists.recency.miss hmiss, hlists.greater, hlists.less⟩, ?_⟩
      exact (LruK.lookup_eq_none_iff.mpr hmiss).symm
  next found hfind =>
      obtain ⟨entry, hentry, rfl, hkey⟩ := hlists.find?_some hfind
      have hkey' : entry.key = key := hkey
      obtain ⟨hot', cold', hrecency, hgreater, hless⟩ :=
        hlists.updateAccessCount hentry (find?_mem hfind).1
      rw [hkey'] at hrecency
      refine ⟨⟨hot', cold', hrecency, hgreater, hless⟩, ?_⟩
      have hlookup := LruK.lookup_of_mem hlists.recency.entries_nodup
        (hlists.recency.perm.mem_iff.mpr hentry)
      rw [hkey'] at hlookup
      exact hlookup.symm

/-- The eviction of `put` is that of the reference. -/
theorem evict (hlists : cache.Lists ⟨now, entries⟩ hot cold) :
    cache.evict.Lists ⟨now, LruK.evict cache.k entries⟩
      (if cold.isEmpty then hot.dropLast else hot) cold.dropLast where
  recency := hlists.recency.evicted
  greater := by
    change (if cache.cacheListLessK.isEmpty then cache.cacheListGreaterK.dropLast
      else cache.cacheListGreaterK) = List.map (itemOf cache.k) _
    rw [hlists.less, hlists.greater, List.isEmpty_map]
    split_ifs
    · rw [List.map_dropLast]
    · rfl
  less := by
    change cache.cacheListLessK.dropLast = List.map (itemOf cache.k) _
    rw [hlists.less, List.map_dropLast]

/-- A new item. -/
theorem pushFront (hlists : cache.Lists ⟨now, entries⟩ hot cold) (hk : 0 < cache.k) {key : ℤ × ℤ}
    {block : β} (hnew : ∀ entry ∈ entries, entry.key ≠ key)
    (hfresh : ∀ other ∈ cache.items,
      other.key ≠ (⟨key.1, key.2, block, 1⟩ : CacheItem β).key)
    (hroom : cache.items.length < cache.capacity) :
    (cache.pushFront ⟨key.1, key.2, block, 1⟩ hk rfl hfresh hroom).Tracks
      ⟨now + 1, ⟨key, block, 1, now⟩ :: entries⟩ := by
  obtain ⟨hhot, hcold⟩ := hlists.recency.added hnew block
  have hitem : (⟨key.1, key.2, block, 1⟩ : CacheItem β) = itemOf cache.k ⟨key, block, 1, now⟩ := by
    rw [itemOf, min_eq_left hk]
  unfold BlockCache.pushFront
  split_ifs with hone
  · refine ⟨_, _, hhot hone.le, ?_, hlists.less⟩
    change (⟨key.1, key.2, block, 1⟩ : CacheItem β) :: cache.cacheListGreaterK =
      itemOf cache.k _ :: hot.map (itemOf cache.k)
    rw [← hitem, ← hlists.greater]
  · refine ⟨_, _, hcold (by omega), hlists.greater, ?_⟩
    change (⟨key.1, key.2, block, 1⟩ : CacheItem β) :: cache.cacheListLessK =
      itemOf cache.k _ :: cold.map (itemOf cache.k)
    rw [← hitem, ← hlists.less]

theorem put (hlists : cache.Lists ⟨now, entries⟩ hot cold) (hk : 0 < cache.k)
    (hcapacity : 0 < cache.capacity) (key : ℤ × ℤ) (block : β) {cache' : BlockCache β}
    (hput : cache.put key.1 key.2 block = .ok cache') :
    cache'.Tracks (LruK.step cache.capacity cache.k (.put key block) ⟨now, entries⟩).1 := by
  unfold BlockCache.put at hput
  rw [dif_neg hk.ne', dif_neg hcapacity.ne'] at hput
  rw [LruK.step]
  dsimp only
  split at hput
  next found hfind =>
      obtain ⟨entry, hentry, rfl, hkey⟩ := hlists.find?_some hfind
      have hkey' : entry.key = key := hkey
      have hlookup := LruK.lookup_of_mem hlists.recency.entries_nodup
        (hlists.recency.perm.mem_iff.mpr hentry)
      have htracks := hlists.updateAccessCount hentry (find?_mem hfind).1
      rw [Except.ok.inj hput, hkey'] at htracks
      rw [hkey'] at hlookup
      rw [hlookup, Option.isSome_some, if_pos rfl]
      exact htracks
  next hfind =>
      have hmiss := hlists.find?_none hfind
      rw [LruK.lookup_eq_none_iff.mpr hmiss, Option.isSome_none, if_neg Bool.false_ne_true,
        ← hlists.length_items]
      dsimp only at hput
      split_ifs at hput with hfull
      · rw [if_pos hfull, ← Except.ok.inj hput]
        exact hlists.evict.pushFront hk
          (fun entry hentry => hmiss entry (LruK.evict_subset _ _ hentry)) _ _
      · rw [if_neg hfull, ← Except.ok.inj hput]
        exact hlists.pushFront hk hmiss _ _

end Lists

end BlockCache

/-! ## Runs -/

namespace CacheNodes

/-- A call of `get` or `put`, `none` where its behaviour is undefined or it throws. -/
def call (nodes : CacheNodes β) : LruK.Call (ℤ × ℤ) β → Option (CacheNodes β × Option β)
  | .get key => nodes.get key.1 key.2
  | .put key block =>
      match nodes.put key.1 key.2 (some block) with
      | some (.ok nodes) => some (nodes, none)
      | _ => none

def runCalls : List (LruK.Call (ℤ × ℤ) β) → CacheNodes β → Option (CacheNodes β × List (Option β))
  | [], nodes => some (nodes, [])
  | call :: rest, nodes =>
      match nodes.call call with
      | none => none
      | some (next, answer) =>
          (runCalls rest next).map fun result => (result.1, answer :: result.2)

/-- The nodes of the two lists hold the entries of the reference: in one list those with at least
`k` uses, in the other those with fewer, and in both the most recent use comes first. -/
def InOrder (nodes : CacheNodes β) (state : LruK.State (ℤ × ℤ) β) : Prop :=
  ∃ hot cold, LruK.Recency nodes.k state hot cold ∧
    Holds nodes.node nodes.cacheListGreaterK (hot.map (itemOf nodes.k)) ∧
    Holds nodes.node nodes.cacheListLessK (cold.map (itemOf nodes.k))

/-- The nodes hold a cache that the reference describes. -/
def Follows (nodes : CacheNodes β) (cache : BlockCache β) (state : LruK.State (ℤ × ℤ) β) : Prop :=
  Represents nodes cache ∧ cache.Tracks state

/-- One call. -/
theorem Follows.step {nodes : CacheNodes β} {cache : BlockCache β}
    {state : LruK.State (ℤ × ℤ) β} (hfollows : Follows nodes cache state) (hk : 0 < cache.k)
    (hcapacity : 0 < cache.capacity) (call : LruK.Call (ℤ × ℤ) β) :
    ∃ nodes' cache', cache'.k = cache.k ∧ cache'.capacity = cache.capacity ∧
      nodes.call call = some (nodes', (LruK.step cache.capacity cache.k call state).2) ∧
      Follows nodes' cache' (LruK.step cache.capacity cache.k call state).1 := by
  obtain ⟨hrep, hot, cold, hlists⟩ := hfollows
  obtain ⟨now, entries⟩ := state
  cases call with
  | get key =>
      obtain ⟨nodes', hget, hrep'⟩ := hrep.get key.1 key.2
      obtain ⟨htracks, hanswer⟩ := hlists.get cache.capacity key
      rw [hanswer] at hget
      exact ⟨nodes', _, BlockCache.k_get _ _ _, BlockCache.capacity_get _ _ _, hget, hrep', htracks⟩
  | put key block =>
      obtain ⟨nodes', cache', hput, hput', hrep'⟩ := hrep.put hk key.1 key.2 block
      have htracks := hlists.put hk hcapacity key block hput'
      obtain ⟨hk', hcapacity'⟩ := BlockCache.put_parameters hput'
      have hanswer : (LruK.step cache.capacity cache.k (.put key block) ⟨now, entries⟩).2 =
          none := by
        rw [LruK.step]
        split_ifs <;> rfl
      refine ⟨nodes', cache', hk', hcapacity', ?_, hrep', htracks⟩
      rw [CacheNodes.call, hput, hanswer]

theorem Follows.run {nodes : CacheNodes β} {cache : BlockCache β}
    {state : LruK.State (ℤ × ℤ) β} (hfollows : Follows nodes cache state) (hk : 0 < cache.k)
    (hcapacity : 0 < cache.capacity) (calls : List (LruK.Call (ℤ × ℤ) β)) :
    ∃ nodes' cache', cache'.k = cache.k ∧ cache'.capacity = cache.capacity ∧
      runCalls calls nodes = some (nodes', (LruK.run cache.capacity cache.k calls state).2) ∧
      Follows nodes' cache' (LruK.run cache.capacity cache.k calls state).1 := by
  induction calls generalizing nodes cache state with
  | nil => exact ⟨nodes, cache, rfl, rfl, rfl, hfollows⟩
  | cons call rest ih =>
      obtain ⟨next, cache', hk', hcapacity', hcall, hnext⟩ := hfollows.step hk hcapacity call
      obtain ⟨last, cache'', hk'', hcapacity'', hrest, hlast⟩ :=
        ih hnext (hk'.symm ▸ hk) (hcapacity'.symm ▸ hcapacity)
      rw [hk', hcapacity'] at hrest hlast
      refine ⟨last, cache'', hk''.trans hk', hcapacity''.trans hcapacity', ?_, hlast⟩
      rw [runCalls, hcall]
      dsimp only
      rw [hrest]
      rfl

end CacheNodes

/-- Every sequence of `get` and `put` on a new block cache is that of the LRU-K reference.  No
call is undefined, the map and the lists stay in one-to-one correspondence within the capacity,
the lists have the entries by uses and in the order of use, the entry that leaves next is the
one that was not used for longest among those with fewer than `k` uses or among all, and the
answers are the blocks of the first puts since the evictions. -/
theorem block_cache_lru_k {capacity k : ℕ} (hcapacity : 0 < capacity) (hk : 0 < k)
    (calls : List (LruK.Call (ℤ × ℤ) β)) :
    let reference := LruK.run capacity k calls ⟨0, []⟩
    ∃ nodes, CacheNodes.runCalls calls (CacheNodes.new capacity k) = some (nodes, reference.2) ∧
      nodes.Linked ∧ nodes.cacheMap.keys.length ≤ capacity ∧ nodes.k = k ∧
      nodes.InOrder reference.1 ∧
      (∀ entry, LruK.victim k reference.1.entries = some entry →
        (∀ other ∈ reference.1.entries, other.uses < k → entry.uses < k) ∧
          ∀ other ∈ reference.1.entries, (other.uses < k ∨ k ≤ entry.uses) →
            entry.lastUse ≤ other.lastUse) ∧
      (LruK.lookup reference.1.entries, reference.2) =
        LruK.runHeld capacity k calls ⟨0, []⟩ fun _ => none := by
  intro reference
  have hstart : CacheNodes.Follows (CacheNodes.new capacity k) (BlockCache.new capacity k)
      (⟨0, []⟩ : LruK.State (ℤ × ℤ) β) := by
    constructor
    · exact
        { nodup := List.nodup_nil
          allocated := fun id => iff_of_false (by simp [CacheNodes.new]) List.not_mem_nil
          mapped := fun key id => by simp [CacheNodes.new]
          fresh := fun id hid => absurd hid List.not_mem_nil
          capacity := rfl
          k := rfl
          totalRequests := rfl
          hitRequests := rfl
          greater := rfl
          less := rfl }
    · refine ⟨[], [], ?_, rfl, rfl⟩
      exact ⟨List.Perm.refl _, List.nodup_nil, List.forall_mem_nil _, List.forall_mem_nil _,
        List.Pairwise.nil, List.Pairwise.nil, List.forall_mem_nil _⟩
  obtain ⟨nodes, cache, hk', hcapacity', hrun, hrep, hot, cold, hlists⟩ :=
    hstart.run hk hcapacity calls
  refine ⟨nodes, hrun, hrep.toLinked, ?_, hrep.k.trans hk', ⟨hot, cold, ?_, ?_, ?_⟩, ?_, ?_⟩
  · rw [hrep.length_keys]
    exact cache.size_le.trans_eq hcapacity'
  · rw [hrep.k]
    exact hlists.recency
  · rw [hrep.k, ← hlists.greater]
    exact hrep.greater
  · rw [hrep.k, ← hlists.less]
    exact hrep.less
  · exact fun entry hvictim => (LruK.victim_spec hvictim).2
  · exact LruK.run_eq_runHeld calls ⟨0, []⟩

/-- Two blocks of which one is used twice, and a third one for which there is no room. -/
theorem block_cache_lru_k_sample :
    ∃ nodes, CacheNodes.runCalls [.put (1, 1) true, .put (1, 2) true, .get (1, 1),
        .put (1, 3) false, .get (1, 2), .get (1, 3)] (CacheNodes.new 2 2) =
      some (nodes, [none, none, some true, none, none, some false]) ∧ nodes.Linked := by
  obtain ⟨nodes, hrun, hlinked, -⟩ := @block_cache_lru_k Bool 2 2 (by decide)
    (by decide) [.put (1, 1) true, .put (1, 2) true, .get (1, 1), .put (1, 3) false,
      .get (1, 2), .get (1, 3)]
  exact ⟨nodes, hrun, hlinked⟩

end KopiDb
