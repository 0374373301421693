import KopiDb.Core

/-!
# The block cache

The tables of an engine share one cache for their decoded blocks.  It evicts by LRU-K: a
block that was used fewer than `k` times leaves before every block that was used more often,
and within the two lists the block that was not used for longest leaves first.
-/

namespace KopiDb

/-- The conversion of an id or an index to the `int` under which a block is cached. -/
def cacheId (id : ℕ) : ℤ := (id : ℤ).bmod (2 ^ 32)

private theorem cacheId_emod (id : ℕ) : cacheId id % 4294967296 = id % 4294967296 := by
  have hmod := Int.bmod_emod (x := (id : ℤ)) (m := 4294967296)
  exact hmod

/-- Ids of 32 bits are told apart. -/
theorem cacheId_inj {left right : ℕ} (hleft : left < 2 ^ 32) (hright : right < 2 ^ 32)
    (hids : cacheId left = cacheId right) : left = right := by
  have hmod := congrArg (· % (4294967296 : ℤ)) hids
  simp only [cacheId_emod] at hmod
  omega

/-- `CacheItem` -/
structure CacheItem (β : Type*) where
  sstId : ℤ
  blockId : ℤ
  cacheBlock : β
  accessCount : ℕ

def CacheItem.key {β : Type*} (item : CacheItem β) : ℤ × ℤ := (item.sstId, item.blockId)

/-- `BlockCache`.  `cache_map_` finds the items of the two lists by their keys. -/
structure BlockCache (β : Type*) where
  capacity : ℕ
  k : ℕ
  cacheListGreaterK : List (CacheItem β)
  cacheListLessK : List (CacheItem β)
  totalRequests : ℕ
  hitRequests : ℕ
  keys_nodup : ((cacheListGreaterK ++ cacheListLessK).map CacheItem.key).Nodup
  size_le : (cacheListGreaterK ++ cacheListLessK).length ≤ capacity
  accessCount_greater : ∀ item ∈ cacheListGreaterK, item.accessCount = k
  accessCount_less : ∀ item ∈ cacheListLessK, item.accessCount < k

namespace BlockCache

variable {β : Type*}

/-- The constructor. -/
def new (capacity k : ℕ) : BlockCache β where
  capacity := capacity
  k := k
  cacheListGreaterK := []
  cacheListLessK := []
  totalRequests := 0
  hitRequests := 0
  keys_nodup := List.nodup_nil
  size_le := Nat.zero_le _
  accessCount_greater := by simp
  accessCount_less := by simp

/-- The cached items. -/
def items (cache : BlockCache β) : List (CacheItem β) :=
  cache.cacheListGreaterK ++ cache.cacheListLessK

/-- `cache_map_.find` -/
def find? (cache : BlockCache β) (key : ℤ × ℤ) : Option (CacheItem β) :=
  cache.items.find? fun item => item.key = key

/-- The block that is cached under a key. -/
def lookup (cache : BlockCache β) (key : ℤ × ℤ) : Option β :=
  (cache.find? key).map CacheItem.cacheBlock

/-- The items of a list besides the one with a key. -/
def without (key : ℤ × ℤ) (list : List (CacheItem β)) : List (CacheItem β) :=
  list.filter fun item => item.key ≠ key

theorem find?_mem {cache : BlockCache β} {key : ℤ × ℤ} {item : CacheItem β}
    (hfind : cache.find? key = some item) : item ∈ cache.items ∧ item.key = key := by
  refine ⟨List.mem_of_find?_eq_some hfind, ?_⟩
  simpa using List.find?_some hfind

/-- Every item is found under its key. -/
theorem lookup_of_mem {cache : BlockCache β} {item : CacheItem β}
    (hitem : item ∈ cache.items) : cache.lookup item.key = some item.cacheBlock := by
  cases hfind : cache.find? item.key with
  | none =>
      have hnone := List.find?_eq_none.mp hfind item hitem
      simp at hnone
  | some found =>
      obtain ⟨hfound, hkey⟩ := find?_mem hfind
      have heq : found = item :=
        List.inj_on_of_nodup_map cache.keys_nodup hfound hitem hkey
      rw [lookup, hfind, heq]
      rfl

theorem lookup_eq_some_iff {cache : BlockCache β} {key : ℤ × ℤ} {block : β} :
    cache.lookup key = some block ↔
      ∃ item ∈ cache.items, item.key = key ∧ item.cacheBlock = block := by
  constructor
  · intro hlookup
    obtain ⟨item, hfind, hblock⟩ := Option.map_eq_some_iff.mp hlookup
    exact ⟨item, (find?_mem hfind).1, (find?_mem hfind).2, hblock⟩
  · rintro ⟨item, hitem, rfl, rfl⟩
    exact lookup_of_mem hitem

theorem lookup_eq_none_iff {cache : BlockCache β} {key : ℤ × ℤ} :
    cache.lookup key = none ↔ ∀ item ∈ cache.items, item.key ≠ key := by
  rw [lookup, Option.map_eq_none_iff, find?, List.find?_eq_none]
  simp

/-! ## Using an item -/

private theorem keys_nodup_without {list : List (CacheItem β)} {item : CacheItem β}
    (hnodup : (list.map CacheItem.key).Nodup) :
    ((item :: without item.key list).map CacheItem.key).Nodup := by
  rw [List.map_cons, List.nodup_cons]
  constructor
  · intro hmem
    obtain ⟨other, hother, hkey⟩ := List.mem_map.mp hmem
    simpa [hkey] using (List.mem_filter.mp hother).2
  · exact hnodup.sublist (List.filter_sublist.map _)

private theorem length_without_lt {list : List (CacheItem β)} {item : CacheItem β}
    (hitem : item ∈ list) : (without item.key list).length < list.length := by
  rw [without, List.length_filter_lt_length_iff_exists]
  exact ⟨item, hitem, by simp⟩

private theorem without_append (key : ℤ × ℤ) (left right : List (CacheItem β)) :
    without key left ++ without key right = without key (left ++ right) :=
  (List.filter_append left right).symm

private theorem perm_cons_append (item : CacheItem β) (left right : List (CacheItem β)) :
    (left ++ item :: right).Perm (item :: (left ++ right)) := List.perm_middle

/-- `update_access_count`: the node leaves the list that it is in for the front of the list
in which its new count belongs. -/
def updateAccessCount (cache : BlockCache β) (it : CacheItem β) (hit : it ∈ cache.items) :
    BlockCache β :=
  have hcount : it.accessCount ≤ cache.k := by
    rcases List.mem_append.mp hit with hgreater | hless
    · exact (cache.accessCount_greater it hgreater).le
    · exact (cache.accessCount_less it hless).le
  have hnodup := @keys_nodup_without _ _ it cache.keys_nodup
  have hlength := (length_without_lt hit).trans_le cache.size_le
  let greater := without it.key cache.cacheListGreaterK
  let less := without it.key cache.cacheListLessK
  have hgreater : ∀ item ∈ greater, item.accessCount = cache.k :=
    fun item hitem => cache.accessCount_greater item (List.mem_filter.mp hitem).1
  have hless : ∀ item ∈ less, item.accessCount < cache.k :=
    fun item hitem => cache.accessCount_less item (List.mem_filter.mp hitem).1
  if hbelow : it.accessCount < cache.k then
    let counted := { it with accessCount := it.accessCount + 1 }
    if hreached : counted.accessCount = cache.k then
      { cache with
        cacheListGreaterK := counted :: greater
        cacheListLessK := less
        keys_nodup := by
          rw [List.cons_append, without_append]
          exact hnodup
        size_le := by
          rw [List.cons_append, without_append]
          exact hlength
        accessCount_greater := List.forall_mem_cons.mpr ⟨hreached, hgreater⟩
        accessCount_less := hless }
    else
      { cache with
        cacheListGreaterK := greater
        cacheListLessK := counted :: less
        keys_nodup := by
          rw [((perm_cons_append counted greater less).map CacheItem.key).nodup_iff,
            without_append]
          exact hnodup
        size_le := by
          rw [(perm_cons_append counted greater less).length_eq, without_append]
          exact hlength
        accessCount_greater := hgreater
        accessCount_less := List.forall_mem_cons.mpr ⟨lt_of_le_of_ne (Nat.succ_le_of_lt hbelow) hreached,
          hless⟩ }
  else
    { cache with
      cacheListGreaterK := it :: greater
      cacheListLessK := less
      keys_nodup := by
        rw [List.cons_append, without_append]
        exact hnodup
      size_le := by
        rw [List.cons_append, without_append]
        exact hlength
      accessCount_greater := List.forall_mem_cons.mpr
        ⟨le_antisymm hcount (not_lt.mp hbelow), hgreater⟩
      accessCount_less := hless }

/-- A used item stays with its block, and so do all others. -/
theorem lookup_updateAccessCount (cache : BlockCache β) (it : CacheItem β)
    (hit : it ∈ cache.items) : (cache.updateAccessCount it hit).lookup = cache.lookup := by
  have hitems : ∃ used : CacheItem β, used.key = it.key ∧ used.cacheBlock = it.cacheBlock ∧
      (cache.updateAccessCount it hit).items.Perm (used :: without it.key cache.items) := by
    unfold updateAccessCount
    dsimp only
    split_ifs with hbelow hreached
    · refine ⟨{ it with accessCount := it.accessCount + 1 }, rfl, rfl, ?_⟩
      rw [items, List.cons_append, without_append]
      exact List.Perm.refl _
    · refine ⟨{ it with accessCount := it.accessCount + 1 }, rfl, rfl, ?_⟩
      refine (perm_cons_append _ _ _).trans ?_
      rw [without_append]
      exact List.Perm.refl _
    · refine ⟨it, rfl, rfl, ?_⟩
      rw [items, List.cons_append, without_append]
      exact List.Perm.refl _
  obtain ⟨used, husedKey, husedBlock, hperm⟩ := hitems
  funext key
  apply Option.ext
  intro block
  rw [lookup_eq_some_iff, lookup_eq_some_iff]
  constructor
  · rintro ⟨item, hitem, hkey, hblock⟩
    rcases List.mem_cons.mp (hperm.mem_iff.mp hitem) with rfl | hother
    · exact ⟨it, hit, husedKey ▸ hkey, husedBlock ▸ hblock⟩
    · exact ⟨item, (List.mem_filter.mp hother).1, hkey, hblock⟩
  · rintro ⟨item, hitem, hkey, hblock⟩
    by_cases hsame : item.key = it.key
    · refine ⟨used, hperm.mem_iff.mpr List.mem_cons_self, ?_, ?_⟩
      · rw [husedKey, ← hsame, hkey]
      · have hlookup := lookup_of_mem hitem
        rw [hsame, lookup_of_mem hit, Option.some.injEq] at hlookup
        rw [husedBlock, hlookup, hblock]
    · refine ⟨item, hperm.mem_iff.mpr (List.mem_cons_of_mem _ ?_), hkey, hblock⟩
      exact List.mem_filter.mpr ⟨hitem, by simpa using hsame⟩

@[simp]
theorem k_updateAccessCount (cache : BlockCache β) (it : CacheItem β)
    (hit : it ∈ cache.items) : (cache.updateAccessCount it hit).k = cache.k := by
  unfold updateAccessCount
  dsimp only
  split_ifs <;> rfl

@[simp]
theorem capacity_updateAccessCount (cache : BlockCache β) (it : CacheItem β)
    (hit : it ∈ cache.items) : (cache.updateAccessCount it hit).capacity = cache.capacity := by
  unfold updateAccessCount
  dsimp only
  split_ifs <;> rfl

/-! ## Lookups and insertions -/

/-- `get` -/
def get (cache : BlockCache β) (sstId blockId : ℤ) : Option β × BlockCache β :=
  match hfind : cache.find? (sstId, blockId) with
  | none => (none, { cache with totalRequests := cache.totalRequests + 1 })
  | some found =>
      (some found.cacheBlock,
        { cache.updateAccessCount found (find?_mem hfind).1 with
          totalRequests := cache.totalRequests + 1
          hitRequests := cache.hitRequests + 1 })

theorem get_fst (cache : BlockCache β) (sstId blockId : ℤ) :
    (cache.get sstId blockId).1 = cache.lookup (sstId, blockId) := by
  unfold get
  split
  next hfind =>
      rw [lookup, hfind]
      rfl
  next found hfind =>
      change some found.cacheBlock = (cache.find? (sstId, blockId)).map CacheItem.cacheBlock
      rw [hfind]
      rfl

/-- A lookup leaves every block where it is. -/
theorem lookup_get (cache : BlockCache β) (sstId blockId : ℤ) :
    (cache.get sstId blockId).2.lookup = cache.lookup := by
  unfold get
  split
  next => rfl
  next found hfind => exact lookup_updateAccessCount cache found (find?_mem hfind).1

@[simp]
theorem k_get (cache : BlockCache β) (sstId blockId : ℤ) :
    (cache.get sstId blockId).2.k = cache.k := by
  unfold get
  split
  next => rfl
  next found hfind => exact k_updateAccessCount cache found (find?_mem hfind).1

@[simp]
theorem capacity_get (cache : BlockCache β) (sstId blockId : ℤ) :
    (cache.get sstId blockId).2.capacity = cache.capacity := by
  unfold get
  split
  next => rfl
  next found hfind => exact capacity_updateAccessCount cache found (find?_mem hfind).1

/-- The eviction of `put`: the last item of `cache_list_less_k`, or of the other list if that
one is empty. -/
def evict (cache : BlockCache β) : BlockCache β where
  capacity := cache.capacity
  k := cache.k
  cacheListGreaterK :=
    if cache.cacheListLessK.isEmpty then cache.cacheListGreaterK.dropLast
    else cache.cacheListGreaterK
  cacheListLessK := cache.cacheListLessK.dropLast
  totalRequests := cache.totalRequests
  hitRequests := cache.hitRequests
  keys_nodup := by
    refine cache.keys_nodup.sublist (List.Sublist.map _ ?_)
    split_ifs
    · exact (List.dropLast_sublist _).append (List.dropLast_sublist _)
    · exact (List.Sublist.refl _).append (List.dropLast_sublist _)
  size_le := by
    refine (List.Sublist.length_le ?_).trans cache.size_le
    split_ifs
    · exact (List.dropLast_sublist _).append (List.dropLast_sublist _)
    · exact (List.Sublist.refl _).append (List.dropLast_sublist _)
  accessCount_greater := by
    intro item hitem
    apply cache.accessCount_greater
    split_ifs at hitem
    · exact List.mem_of_mem_dropLast hitem
    · exact hitem
  accessCount_less := fun item hitem =>
    cache.accessCount_less item (List.mem_of_mem_dropLast hitem)

theorem evict_items_sublist (cache : BlockCache β) :
    cache.evict.items.Sublist cache.items := by
  unfold evict items
  dsimp only
  split_ifs
  · exact (List.dropLast_sublist _).append (List.dropLast_sublist _)
  · exact (List.Sublist.refl _).append (List.dropLast_sublist _)

theorem length_items_evict (cache : BlockCache β) :
    cache.evict.items.length = cache.items.length - 1 := by
  unfold evict items
  dsimp only
  cases hless : cache.cacheListLessK with
  | nil => simp
  | cons item rest => simp

/-- The front of the list in which a new item of count 1 belongs. -/
def pushFront (cache : BlockCache β) (item : CacheItem β) (hk : 0 < cache.k)
    (hcount : item.accessCount = 1) (hfresh : ∀ other ∈ cache.items, other.key ≠ item.key)
    (hroom : cache.items.length < cache.capacity) : BlockCache β :=
  have hnodup : ((item :: cache.items).map CacheItem.key).Nodup := by
    rw [List.map_cons, List.nodup_cons]
    refine ⟨?_, cache.keys_nodup⟩
    intro hmem
    obtain ⟨other, hother, hkey⟩ := List.mem_map.mp hmem
    exact hfresh other hother hkey
  have hperm := perm_cons_append item cache.cacheListGreaterK cache.cacheListLessK
  if hone : cache.k = 1 then
    { cache with
      cacheListGreaterK := item :: cache.cacheListGreaterK
      keys_nodup := hnodup
      size_le := hroom
      accessCount_greater := List.forall_mem_cons.mpr
        ⟨hcount.trans hone.symm, cache.accessCount_greater⟩ }
  else
    { cache with
      cacheListLessK := item :: cache.cacheListLessK
      keys_nodup := (hperm.map CacheItem.key).nodup_iff.mpr hnodup
      size_le := hperm.length_eq.trans_le hroom
      accessCount_less := List.forall_mem_cons.mpr
        ⟨by omega, cache.accessCount_less⟩ }

theorem pushFront_items_perm (cache : BlockCache β) (item : CacheItem β) (hk : 0 < cache.k)
    (hcount : item.accessCount = 1) (hfresh : ∀ other ∈ cache.items, other.key ≠ item.key)
    (hroom : cache.items.length < cache.capacity) :
    (cache.pushFront item hk hcount hfresh hroom).items.Perm (item :: cache.items) := by
  unfold pushFront
  dsimp only
  split_ifs
  · exact List.Perm.refl _
  · exact perm_cons_append _ _ _

@[simp]
theorem k_pushFront (cache : BlockCache β) (item : CacheItem β) (hk : 0 < cache.k)
    (hcount : item.accessCount = 1) (hfresh : ∀ other ∈ cache.items, other.key ≠ item.key)
    (hroom : cache.items.length < cache.capacity) :
    (cache.pushFront item hk hcount hfresh hroom).k = cache.k := by
  unfold pushFront
  dsimp only
  split_ifs <;> rfl

@[simp]
theorem capacity_pushFront (cache : BlockCache β) (item : CacheItem β) (hk : 0 < cache.k)
    (hcount : item.accessCount = 1) (hfresh : ∀ other ∈ cache.items, other.key ≠ item.key)
    (hroom : cache.items.length < cache.capacity) :
    (cache.pushFront item hk hcount hfresh hroom).capacity = cache.capacity := by
  unfold pushFront
  dsimp only
  split_ifs <;> rfl

/-- `put` -/
def put (cache : BlockCache β) (sstId blockId : ℤ) (block : β) :
    Except Err (BlockCache β) :=
  if hk : cache.k = 0 then
    .error (.runtimeError "BlockCache: k must be at least 1")
  else if hcapacity : cache.capacity = 0 then .ok cache
  else
    match hfind : cache.find? (sstId, blockId) with
    | some found => .ok (cache.updateAccessCount found (find?_mem hfind).1)
    | none =>
        have hfresh : ∀ other ∈ cache.items, other.key ≠ (sstId, blockId) := by
          intro other hother
          simpa using List.find?_eq_none.mp hfind other hother
        let item : CacheItem β := ⟨sstId, blockId, block, 1⟩
        if hfull : cache.items.length ≥ cache.capacity then
          .ok (cache.evict.pushFront item (Nat.pos_of_ne_zero hk) rfl
            (fun other hother => hfresh other (cache.evict_items_sublist.subset hother))
            (by
              have hsize : cache.items.length ≤ cache.capacity := cache.size_le
              have hcapacity' : cache.evict.capacity = cache.capacity := rfl
              rw [length_items_evict, hcapacity']
              omega))
        else .ok (cache.pushFront item (Nat.pos_of_ne_zero hk) rfl hfresh (not_le.mp hfull))

/-- What `put` does with a block that is not cached: it may drop other blocks, and the block
is cached unless the cache has no room at all. -/
theorem put_of_lookup_none {cache : BlockCache β} {sstId blockId : ℤ}
    (hk : 0 < cache.k) (hlookup : cache.lookup (sstId, blockId) = none) (block : β) :
    ∃ cache', cache.put sstId blockId block = .ok cache' ∧ cache'.k = cache.k ∧
      cache'.capacity = cache.capacity ∧
      (0 < cache.capacity → cache'.lookup (sstId, blockId) = some block) ∧
      ∀ key held, cache'.lookup key = some held →
        (key = (sstId, blockId) ∧ held = block) ∨ cache.lookup key = some held := by
  have hfresh := lookup_eq_none_iff.mp hlookup
  have hpushed : ∀ (front : BlockCache β), front.items.Sublist cache.items →
      ∀ pushed : BlockCache β, pushed.items.Perm (⟨sstId, blockId, block, 1⟩ :: front.items) →
      pushed.lookup (sstId, blockId) = some block ∧
      ∀ key held, pushed.lookup key = some held →
        (key = (sstId, blockId) ∧ held = block) ∨ cache.lookup key = some held := by
    intro front hsub pushed hperm
    constructor
    · exact lookup_of_mem (hperm.mem_iff.mpr List.mem_cons_self)
    · intro key held hheld
      obtain ⟨item, hitem, rfl, rfl⟩ := lookup_eq_some_iff.mp hheld
      rcases List.mem_cons.mp (hperm.mem_iff.mp hitem) with rfl | hother
      · exact Or.inl ⟨rfl, rfl⟩
      · exact Or.inr (lookup_of_mem (hsub.subset hother))
  unfold put
  rw [dif_neg hk.ne']
  by_cases hcapacity : cache.capacity = 0
  · rw [dif_pos hcapacity]
    exact ⟨cache, rfl, rfl, rfl, fun hpos => absurd hcapacity hpos.ne',
      fun key held hheld => Or.inr hheld⟩
  · rw [dif_neg hcapacity]
    split
    next found hfind => exact absurd (find?_mem hfind).2 (hfresh found (find?_mem hfind).1)
    next hfind =>
        dsimp only
        split_ifs with hfull
        · obtain ⟨hput, hothers⟩ := hpushed cache.evict cache.evict_items_sublist _
            (pushFront_items_perm _ _ _ _ _ _)
          exact ⟨_, rfl, k_pushFront _ _ _ _ _ _, capacity_pushFront _ _ _ _ _ _,
            fun _ => hput, hothers⟩
        · obtain ⟨hput, hothers⟩ := hpushed cache (List.Sublist.refl _) _
            (pushFront_items_perm _ _ _ _ _ _)
          exact ⟨_, rfl, k_pushFront _ _ _ _ _ _, capacity_pushFront _ _ _ _ _ _,
            fun _ => hput, hothers⟩

end BlockCache

end KopiDb
