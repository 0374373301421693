import KopiDb.BlockCache
import KopiDb.Sst

/-!
# Reading blocks through the cache

A block that is not cached is decoded into a new object.  Two block iterators are equal only
if they hold the same object, so an object carries its address next to the records.
-/

namespace KopiDb

/-- A decoded block behind a shared pointer. -/
structure SharedBlock where
  address : ℕ
  block : Block

/-- The cache with the number of objects that were decoded so far. -/
structure BlockPool where
  cache : BlockCache SharedBlock
  decoded : ℕ

/-- Code that reads blocks. -/
abbrev BlockReads := StateT BlockPool (Except Err)

namespace SST

/-- The key under which a block of the file is cached. -/
def blockKey (sst : SST) (idx : ℕ) : ℤ × ℤ := (cacheId sst.sstId, cacheId idx)

/-- `read_block` -/
def readBlock (sst : SST) (idx : ℕ) : BlockReads SharedBlock := fun pool =>
  if idx ≥ sst.numBlocks then
    .error (.runtimeError "SST::read_block: block_idx out of range")
  else
    match pool.cache.get (cacheId sst.sstId) (cacheId idx) with
    | (some cached, cache) => .ok (cached, { pool with cache := cache })
    | (none, cache) =>
        match sst.loadBlock idx with
        | .error err => .error err
        | .ok block =>
            let blockRes : SharedBlock := ⟨pool.decoded, block⟩
            match cache.put (cacheId sst.sstId) (cacheId idx) blockRes with
            | .error err => .error err
            | .ok cache => .ok (blockRes, ⟨cache, pool.decoded + 1⟩)

/-- Read blocks one after the other. -/
def readBlocks (sst : SST) : List ℕ → BlockReads Unit
  | [] => pure ()
  | idx :: rest => do
      let _ ← sst.readBlock idx
      sst.readBlocks rest

end SST

namespace BlockPool

variable {pool pool' : BlockPool} {sst : SST} {idx : ℕ}

/-- A pool in which the file finds its own blocks. -/
structure Serves (pool : BlockPool) (sst : SST) : Prop where
  k_pos : 0 < pool.cache.k
  address_lt : ∀ key shared, pool.cache.lookup key = some shared →
    shared.address < pool.decoded
  contents : ∀ (idx : ℕ) (hidx : idx < sst.blocks.length) (shared : SharedBlock),
    pool.cache.lookup (sst.blockKey idx) = some shared → shared.block = sst.blocks[idx].2

/-- What a read of a block does: it takes the cached object or decodes a new one, and caches
nothing else. -/
structure ReadsTo (sst : SST) (idx : ℕ) (pool : BlockPool) (shared : SharedBlock)
    (pool' : BlockPool) : Prop where
  source : pool.cache.lookup (sst.blockKey idx) = some shared ∧ pool'.decoded = pool.decoded ∨
    pool.cache.lookup (sst.blockKey idx) = none ∧ shared.address = pool.decoded ∧
      pool'.decoded = pool.decoded + 1
  cached : ∀ key held, pool'.cache.lookup key = some held →
    (key = sst.blockKey idx ∧ held = shared) ∨ pool.cache.lookup key = some held
  k_eq : pool'.cache.k = pool.cache.k

/-- A pool over an empty cache. -/
def new (capacity k : ℕ) : BlockPool := ⟨BlockCache.new capacity k, 0⟩

theorem serves_new (sst : SST) {capacity k : ℕ} (hk : 0 < k) :
    (new capacity k).Serves sst where
  k_pos := hk
  address_lt := by
    intro key shared hheld
    cases hheld
  contents := by
    intro idx hidx shared hheld
    cases hheld

theorem exists_readBlock (hk : 0 < pool.cache.k) (hsmall : sst.Addressable)
    (hidx : idx < sst.blocks.length) :
    ∃ shared pool', sst.readBlock idx pool = .ok (shared, pool') ∧
      ReadsTo sst idx pool shared pool' ∧
      (pool.cache.lookup (sst.blockKey idx) = none → shared.block = sst.blocks[idx].2) := by
  have hfst := pool.cache.get_fst (cacheId sst.sstId) (cacheId idx)
  have hlookup := pool.cache.lookup_get (cacheId sst.sstId) (cacheId idx)
  have hkeep := pool.cache.k_get (cacheId sst.sstId) (cacheId idx)
  have hrange : ¬idx ≥ sst.numBlocks := not_le.mpr hidx
  unfold SST.readBlock
  rw [if_neg hrange, hsmall.loadBlock hidx]
  generalize pool.cache.get (cacheId sst.sstId) (cacheId idx) = answer at hfst hlookup hkeep ⊢
  obtain ⟨cached, cache⟩ := answer
  dsimp only at hfst hlookup hkeep
  cases cached with
  | some cached =>
      refine ⟨cached, _, rfl, ⟨Or.inl ⟨hfst.symm, rfl⟩, ?_, hkeep⟩, ?_⟩
      · intro key held hheld
        rw [hlookup] at hheld
        exact Or.inr hheld
      · intro hnone
        rw [SST.blockKey, ← hfst] at hnone
        cases hnone
  | none =>
      have hmiss : cache.lookup (cacheId sst.sstId, cacheId idx) = none := by
        rw [hlookup, hfst]
      obtain ⟨cache', hput, hk', -, -, hothers⟩ := BlockCache.put_of_lookup_none
        (by rw [hkeep]; exact hk) hmiss (⟨pool.decoded, sst.blocks[idx].2⟩ : SharedBlock)
      dsimp only
      rw [hput]
      refine ⟨_, _, rfl, ⟨Or.inr ⟨hfst.symm, rfl, rfl⟩, ?_, hk'.trans hkeep⟩, fun _ => rfl⟩
      intro key held hheld
      rw [← hlookup]
      exact hothers key held hheld

/-- In a pool that serves the file a read succeeds with the block that was asked for. -/
theorem Serves.readBlock (hserves : pool.Serves sst) (hsmall : sst.Addressable)
    (hidx : idx < sst.blocks.length) :
    ∃ shared pool', sst.readBlock idx pool = .ok (shared, pool') ∧
      ReadsTo sst idx pool shared pool' ∧ pool'.Serves sst ∧
      shared.block = sst.blocks[idx].2 := by
  obtain ⟨shared, pool', hread, hto, hnew⟩ := exists_readBlock hserves.k_pos hsmall hidx
  have hblock : shared.block = sst.blocks[idx].2 := by
    rcases hto.source with ⟨hhit, -⟩ | ⟨hmiss, -⟩
    · exact hserves.contents idx hidx shared hhit
    · exact hnew hmiss
  have haddress : shared.address < pool'.decoded ∧ pool.decoded ≤ pool'.decoded := by
    rcases hto.source with ⟨hhit, hsame⟩ | ⟨-, hfresh, hmore⟩
    · have hold := hserves.address_lt _ shared hhit
      omega
    · omega
  refine ⟨shared, pool', hread, hto, ⟨?_, ?_, ?_⟩, hblock⟩
  · rw [hto.k_eq]
    exact hserves.k_pos
  · intro key held hheld
    rcases hto.cached key held hheld with ⟨-, rfl⟩ | hold
    · exact haddress.1
    · exact (hserves.address_lt key held hold).trans_le haddress.2
  · intro other hother held hheld
    rcases hto.cached _ held hheld with ⟨hkey, rfl⟩ | hold
    · obtain rfl : other = idx :=
        cacheId_inj (hsmall.idx_lt hother) (hsmall.idx_lt hidx) (Prod.mk.inj hkey).2
      exact hblock
    · exact hserves.contents other hother held hold

/-! ## Objects that iterators hold -/

/-- An iterator holds the object with this address for the block, and the cache holds no
other one. -/
def Holds (pool : BlockPool) (sst : SST) (idx address : ℕ) : Prop :=
  address < pool.decoded ∧
    ∀ shared, pool.cache.lookup (sst.blockKey idx) = some shared → shared.address = address

theorem ReadsTo.holds {shared : SharedBlock} (hto : ReadsTo sst idx pool shared pool')
    (hserves : pool.Serves sst) : pool'.Holds sst idx shared.address := by
  constructor
  · rcases hto.source with ⟨hhit, hsame⟩ | ⟨-, hfresh, hmore⟩
    · have hold := hserves.address_lt _ shared hhit
      omega
    · omega
  · intro held hheld
    rcases hto.cached _ held hheld with ⟨-, rfl⟩ | hold
    · rfl
    · rcases hto.source with ⟨hhit, -⟩ | ⟨hmiss, -⟩
      · rw [hhit] at hold
        rw [Option.some.inj hold]
      · rw [hmiss] at hold
        cases hold

/-- Reads of other blocks keep the object or evict it. -/
theorem Holds.readsTo {shared : SharedBlock} {other address : ℕ}
    (hholds : pool.Holds sst other address) (hto : ReadsTo sst idx pool shared pool')
    (hsmall : sst.Addressable) (hidx : idx < sst.blocks.length)
    (hother : other < sst.blocks.length) (hne : other ≠ idx) :
    pool'.Holds sst other address := by
  obtain ⟨hlt, hcached⟩ := hholds
  constructor
  · rcases hto.source with ⟨-, hsame⟩ | ⟨-, -, hmore⟩ <;> omega
  · intro held hheld
    rcases hto.cached _ held hheld with ⟨hkey, -⟩ | hold
    · exact absurd (cacheId_inj (hsmall.idx_lt hother) (hsmall.idx_lt hidx)
        (Prod.mk.inj hkey).2) hne
    · exact hcached held hold

/-- A read returns the object of the iterator exactly if it is still cached. -/
theorem Holds.address_eq_iff {shared : SharedBlock} {address : ℕ}
    (hholds : pool.Holds sst idx address) (hto : ReadsTo sst idx pool shared pool') :
    shared.address = address ↔ (pool.cache.lookup (sst.blockKey idx)).isSome := by
  rcases hto.source with ⟨hhit, -⟩ | ⟨hmiss, hfresh, -⟩
  · rw [hhit]
    exact iff_of_true (hholds.2 shared hhit) rfl
  · rw [hmiss]
    refine iff_of_false ?_ Bool.false_ne_true
    have hlt := hholds.1
    omega

theorem Serves.readBlocks (hserves : pool.Serves sst) (hsmall : sst.Addressable)
    {indices : List ℕ} (hindices : ∀ idx ∈ indices, idx < sst.blocks.length) :
    ∃ pool', sst.readBlocks indices pool = .ok ((), pool') ∧ pool'.Serves sst ∧
      ∀ other address, other < sst.blocks.length → other ∉ indices →
        pool.Holds sst other address → pool'.Holds sst other address := by
  induction indices generalizing pool with
  | nil => exact ⟨pool, rfl, hserves, fun _ _ _ _ hholds => hholds⟩
  | cons idx rest ih =>
      obtain ⟨hidx, hrest⟩ := List.forall_mem_cons.mp hindices
      obtain ⟨shared, middle, hread, hto, hmiddle, -⟩ := hserves.readBlock hsmall hidx
      obtain ⟨pool', hreads, hserves', hkeep⟩ := ih hmiddle hrest
      refine ⟨pool', ?_, hserves', ?_⟩
      · rw [SST.readBlocks]
        change (do
          let result ← sst.readBlock idx pool
          sst.readBlocks rest result.2) = Except.ok ((), pool')
        rw [hread]
        exact hreads
      · intro other address hother hmem hholds
        rw [List.mem_cons, not_or] at hmem
        exact hkeep other address hother hmem.2
          (hholds.readsTo hto hsmall hidx hother hmem.1)

theorem readBlocks_append (sst : SST) (front back : List ℕ) :
    sst.readBlocks (front ++ back) = sst.readBlocks front >>= fun _ => sst.readBlocks back := by
  induction front with
  | nil =>
      rw [List.nil_append, SST.readBlocks, pure_bind]
  | cons idx rest ih =>
      rw [List.cons_append, SST.readBlocks, SST.readBlocks, ih, bind_assoc]

end BlockPool

end KopiDb
