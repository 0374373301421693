import KopiDb.MemAccounting
import KopiDb.TableIds
import KopiDb.SharedBlocks
import KopiDb.TableLayout

/-!
# The block cache along runs

All tables that an engine ever builds read their blocks through one cache, whose keys are
numbers of tables and blocks.  Nothing is taken out of it when a table is compacted away or
everything is cleared.  Reads may stand anywhere between the file operations of a run, also
inside a call: a compaction reads the tables that it has just written, and an iterator reads
tables that are no longer listed.
-/

namespace KopiDb

/-- A decoded block behind a shared pointer, with the table and the index that it was decoded
for. -/
structure DecodedBlock where
  sst : SST
  idx : ℕ
  block : RawBlock

abbrev SharedCache := BlockCache DecodedBlock

namespace SST

/-- The object of a table whose file was opened, with offsets of 32 bits.  A table that was just
built narrows the offset of the meta section alone and keeps a `size_t` for every block; its
blocks are `SST.loadBlock`. -/
def object (config : Config) (sst : SST) : SstHandle :=
  { sst.handle config with
    metaEntries := (locate 0 sst.blocks).map fun located => (toUint32 located.1, located.2) }

/-- Decode the bytes of a block in the file. -/
def decodeBlock (config : Config) (params : BloomParams) (sst : SST) (idx : ℕ) :
    Except Err DecodedBlock :=
  match (sst.object config).readBlock (sst.fileBytes config params) idx with
  | .error err => .error err
  | .ok block => .ok ⟨sst, idx, block⟩

/-- `read_block` on the bytes of the file. -/
def readShared (config : Config) (params : BloomParams) (sst : SST) (idx : ℕ)
    (cache : SharedCache) : Except Err DecodedBlock × SharedCache :=
  if idx ≥ sst.numBlocks then
    (.error (.runtimeError "SST::read_block: block_idx out of range"), cache)
  else
    match cache.get (cacheId sst.sstId) (cacheId idx) with
    | (some cached, cache) => (.ok cached, cache)
    | (none, cache) =>
        match sst.decodeBlock config params idx with
        | .error err => (.error err, cache)
        | .ok blockRes =>
            match cache.put (cacheId sst.sstId) (cacheId idx) blockRes with
            | .error err => (.error err, cache)
            | .ok cache => (.ok blockRes, cache)

end SST

/-! ## Runs -/

/-- What happens to the files and to the cache. -/
inductive BlockEvent where
  | file (op : FileOp)
  /-- A call of `read_block`. -/
  | read (sst : SST) (idx : ℕ)

namespace BlockEvent

/-- Files are written and removed without a look at the cache. -/
def run (config : Config) (params : BloomParams) (cache : SharedCache) :
    BlockEvent → SharedCache
  | file _ => cache
  | read sst idx => (sst.readShared config params idx cache).2

def fileOp? : BlockEvent → Option FileOp
  | file op => some op
  | read _ _ => none

end BlockEvent

def fileOpsOf (events : List BlockEvent) : List FileOp := events.filterMap BlockEvent.fileOp?

def cacheAfter (config : Config) (params : BloomParams) (cache : SharedCache)
    (events : List BlockEvent) : SharedCache :=
  events.foldl (BlockEvent.run config params) cache

/-- The file operations are those of the calls, and every block is read from a table that was
there at the start or was written before. -/
structure CacheRun (config : Config) (start : Engine) (ops : List EngineOp)
    (events : List BlockEvent) : Prop where
  files : fileOpsOf events = runAllFileOps config start ops
  known : ∀ before sst idx after, events = before ++ .read sst idx :: after →
    start.Stores sst ∨ sst ∈ Engine.writtenTables (fileOpsOf before)

/-! ## What the cache holds -/

section Cache

variable {config : Config} {params : BloomParams} {cache : SharedCache} {sst : SST} {idx : ℕ}

theorem SST.decodeBlock_source {decoded : DecodedBlock}
    (hdecode : sst.decodeBlock config params idx = .ok decoded) :
    decoded.sst = sst ∧ decoded.idx = idx := by
  unfold decodeBlock at hdecode
  split at hdecode
  next => cases hdecode
  next => rw [← Except.ok.inj hdecode]; exact ⟨rfl, rfl⟩

/-- Out of range nothing is decoded. -/
theorem SST.decodeBlock_outOfRange (hidx : idx ≥ sst.numBlocks) :
    sst.decodeBlock config params idx =
      .error (.runtimeError "SST::read_block: block_idx out of range") := by
  have hnone : (sst.object config).metaEntries[idx]? = none := by
    rw [SST.object, List.getElem?_map, getElem?_locate, List.getElem?_eq_none hidx]
    rfl
  unfold decodeBlock SstHandle.readBlock
  rw [hnone]

/-- A block that is cached under its key is returned. -/
theorem SST.readShared_hit {cached : DecodedBlock} (hidx : idx < sst.numBlocks)
    (hcached : cache.lookup (sst.blockKey idx) = some cached) :
    (sst.readShared config params idx cache).1 = .ok cached ∧
      (sst.readShared config params idx cache).2.lookup = cache.lookup ∧
        (sst.readShared config params idx cache).2.k = cache.k := by
  have hfst := cache.get_fst (cacheId sst.sstId) (cacheId idx)
  have hlookup := cache.lookup_get (cacheId sst.sstId) (cacheId idx)
  have hk := cache.k_get (cacheId sst.sstId) (cacheId idx)
  unfold readShared
  rw [if_neg hidx.not_ge]
  generalize cache.get (cacheId sst.sstId) (cacheId idx) = answer at hfst hlookup hk ⊢
  obtain ⟨found, counted⟩ := answer
  obtain rfl : found = some cached := hfst.trans hcached
  exact ⟨rfl, hlookup, hk⟩

/-- A block that is not cached is decoded, and cached if that succeeds. -/
theorem SST.readShared_miss (hk : 0 < cache.k) (hidx : idx < sst.numBlocks)
    (hmiss : cache.lookup (sst.blockKey idx) = none) :
    (sst.readShared config params idx cache).1 = sst.decodeBlock config params idx ∧
      (sst.readShared config params idx cache).2.k = cache.k ∧
      (∀ key held, (sst.readShared config params idx cache).2.lookup key = some held →
        (key = sst.blockKey idx ∧ sst.decodeBlock config params idx = .ok held) ∨
          cache.lookup key = some held) ∧
      ∀ decoded, 0 < cache.capacity → sst.decodeBlock config params idx = .ok decoded →
        (sst.readShared config params idx cache).2.lookup (sst.blockKey idx) = some decoded := by
  have hfst := cache.get_fst (cacheId sst.sstId) (cacheId idx)
  have hlookup := cache.lookup_get (cacheId sst.sstId) (cacheId idx)
  have hk' := cache.k_get (cacheId sst.sstId) (cacheId idx)
  have hcapacity := cache.capacity_get (cacheId sst.sstId) (cacheId idx)
  unfold readShared
  rw [if_neg hidx.not_ge]
  generalize cache.get (cacheId sst.sstId) (cacheId idx) = answer at hfst hlookup hk' hcapacity ⊢
  obtain ⟨found, counted⟩ := answer
  obtain rfl : found = none := hfst.trans hmiss
  dsimp only at hlookup hk' hcapacity ⊢
  cases hdecode : sst.decodeBlock config params idx with
  | error err =>
      refine ⟨rfl, hk', ?_, ?_⟩
      · intro key held hheld
        rw [hlookup] at hheld
        exact Or.inr hheld
      · intro decoded hpos hdecoded
        cases hdecoded
  | ok decoded =>
      have hmiss' : counted.lookup (cacheId sst.sstId, cacheId idx) = none := by
        rw [hlookup]
        exact hmiss
      obtain ⟨filled, hput, hfilled, -, hheld, hothers⟩ :=
        BlockCache.put_of_lookup_none (by rw [hk']; exact hk) hmiss' decoded
      dsimp only
      rw [hput]
      refine ⟨rfl, hfilled.trans hk', ?_, ?_⟩
      · intro key held hcached
        rcases hothers key held hcached with ⟨hkey, rfl⟩ | hold
        · exact Or.inl ⟨hkey, rfl⟩
        · rw [hlookup] at hold
          exact Or.inr hold
      · intro other hpos hother
        rw [← Except.ok.inj hother]
        exact hheld (by rw [hcapacity]; exact hpos)

/-- A decoded block under its key, of a table and an index for which the key stands alone. -/
structure DecodedBlock.Genuine (config : Config) (params : BloomParams) (tables : SST → Prop)
    (key : ℤ × ℤ) (decoded : DecodedBlock) : Prop where
  table : tables decoded.sst
  idx_lt : decoded.idx < 2 ^ 32
  key_eq : key = decoded.sst.blockKey decoded.idx
  decodes : decoded.sst.decodeBlock config params decoded.idx = .ok decoded

/-- A cache that holds nothing but what was decoded under the right key. -/
structure BlockCache.Clean (config : Config) (params : BloomParams) (tables : SST → Prop)
    (cache : SharedCache) : Prop where
  k_pos : 0 < cache.k
  genuine : ∀ key decoded, cache.lookup key = some decoded →
    decoded.Genuine config params tables key

variable {tables : SST → Prop}

theorem BlockCache.clean_new (config : Config) (params : BloomParams) (tables : SST → Prop)
    (capacity : ℕ) {k : ℕ} (hk : 0 < k) :
    Clean config params tables (BlockCache.new capacity k) where
  k_pos := hk
  genuine := by
    intro key decoded hheld
    cases hheld

/-- A read of a block finds what decoding finds, and leaves a clean cache. -/
theorem BlockCache.Clean.readShared
    (hids : ∀ left right, tables left → tables right →
      cacheId left.sstId = cacheId right.sstId → left = right)
    (hclean : cache.Clean config params tables) (hsst : tables sst)
    (hidx : idx < sst.numBlocks → idx < 2 ^ 32) :
    (sst.readShared config params idx cache).1 = sst.decodeBlock config params idx ∧
      (sst.readShared config params idx cache).2.Clean config params tables := by
  by_cases hrange : idx < sst.numBlocks
  · cases hlookup : cache.lookup (sst.blockKey idx) with
    | some cached =>
        obtain ⟨hread, hsame, hk⟩ :=
          @SST.readShared_hit config params cache sst idx cached hrange hlookup
        refine ⟨?_, by rw [hk]; exact hclean.k_pos, by rw [hsame]; exact hclean.genuine⟩
        -- Numbers and indices of 32 bits are told apart, so it was decoded for this block.
        obtain ⟨htable, hcachedIdx, hkey, hdecodes⟩ := hclean.genuine _ cached hlookup
        obtain ⟨hid, hblock⟩ := Prod.mk.inj hkey
        rw [hread, hids sst cached.sst hsst htable hid,
          cacheId_inj (hidx hrange) hcachedIdx hblock, hdecodes]
    | none =>
        obtain ⟨hread, hk, hothers, -⟩ :=
          @SST.readShared_miss config params cache sst idx hclean.k_pos hrange hlookup
        refine ⟨hread, by rw [hk]; exact hclean.k_pos, ?_⟩
        intro key held hheld
        rcases hothers key held hheld with ⟨hkey, hdecode⟩ | hold
        · obtain ⟨rfl, rfl⟩ := SST.decodeBlock_source hdecode
          exact ⟨hsst, hidx hrange, hkey, hdecode⟩
        · exact hclean.genuine key held hold
  · unfold SST.readShared
    rw [if_pos (not_lt.mp hrange)]
    exact ⟨(SST.decodeBlock_outOfRange (not_lt.mp hrange)).symm, hclean⟩

/-- The cache stays clean along events that read blocks of these tables only. -/
theorem BlockCache.Clean.run
    (hids : ∀ left right, tables left → tables right →
      cacheId left.sstId = cacheId right.sstId → left = right)
    (hclean : cache.Clean config params tables) {events : List BlockEvent}
    (hreads : ∀ sst idx, .read sst idx ∈ events →
      tables sst ∧ (idx < sst.numBlocks → idx < 2 ^ 32)) :
    (cacheAfter config params cache events).Clean config params tables := by
  induction events generalizing cache with
  | nil => exact hclean
  | cons event rest ih =>
      have hrest : ∀ sst idx, .read sst idx ∈ rest →
          tables sst ∧ (idx < sst.numBlocks → idx < 2 ^ 32) :=
        fun sst idx hmem => hreads sst idx (List.mem_cons_of_mem _ hmem)
      cases event with
      | file op => exact ih hclean hrest
      | read sst idx =>
          obtain ⟨hsst, hidx⟩ := hreads sst idx List.mem_cons_self
          exact ih (hclean.readShared hids hsst hidx).2 hrest

end Cache

theorem fileOpsOf_append (front back : List BlockEvent) :
    fileOpsOf (front ++ back) = fileOpsOf front ++ fileOpsOf back := List.filterMap_append

/-- Every table that a run reads was there at the start or is written by the run. -/
theorem CacheRun.readable {config : Config} {start : Engine} {ops : List EngineOp}
    {events : List BlockEvent} (hrun : CacheRun config start ops events) {sst : SST} {idx : ℕ}
    (hmem : .read sst idx ∈ events) :
    start.Stores sst ∨ sst ∈ Engine.writtenTables (runAllFileOps config start ops) := by
  obtain ⟨before, after, hevents⟩ := List.append_of_mem hmem
  rcases hrun.known before sst idx after hevents with hstored | hwritten
  · exact Or.inl hstored
  · refine Or.inr ?_
    rw [← hrun.files, hevents, fileOpsOf_append, Engine.writtenTables_append]
    exact List.mem_append_left _ hwritten

theorem fileOpsOf_files (files : List FileOp) :
    fileOpsOf (files.map BlockEvent.file) = files := by
  rw [fileOpsOf, List.filterMap_map]
  exact List.filterMap_some

/-- Reads behind all file operations. -/
theorem CacheRun.of_reads {config : Config} {start : Engine} {ops : List EngineOp}
    {files : List FileOp} (hfiles : runAllFileOps config start ops = files)
    {reads : List (SST × ℕ)} (hreads : ∀ read ∈ reads, read.1 ∈ Engine.writtenTables files) :
    CacheRun config start ops
      (files.map BlockEvent.file ++ reads.map fun read => .read read.1 read.2) where
  files := by
    have hnone : fileOpsOf (reads.map fun read => .read read.1 read.2) = [] := by
      rw [fileOpsOf, List.filterMap_map]
      exact List.filterMap_eq_nil_iff.mpr fun read _ => rfl
    rw [fileOpsOf_append, fileOpsOf_files, hnone, List.append_nil, hfiles]
  known := by
    intro before sst idx after hevents
    obtain ⟨between, rfl, hrest⟩ : ∃ between, before = files.map BlockEvent.file ++ between ∧
        (reads.map fun read => BlockEvent.read read.1 read.2) =
          between ++ .read sst idx :: after := by
      rcases List.append_eq_append_iff.mp hevents with
        ⟨between, hbefore, hrest⟩ | ⟨between, hfront, hrest⟩
      · exact ⟨between, hbefore, hrest⟩
      · cases between with
        | nil => exact ⟨[], by rw [List.append_nil, hfront, List.append_nil], hrest.symm⟩
        | cons event more =>
            obtain ⟨rfl, -⟩ := List.cons.inj hrest
            have hmem : BlockEvent.read sst idx ∈ files.map BlockEvent.file := by
              rw [hfront]
              exact List.mem_append_right _ List.mem_cons_self
            obtain ⟨op, -, hop⟩ := List.mem_map.mp hmem
            cases hop
    obtain ⟨read, hread, hsame⟩ : ∃ read ∈ reads,
        BlockEvent.read read.1 read.2 = .read sst idx := by
      apply List.mem_map.mp
      rw [hrest]
      exact List.mem_append_right _ List.mem_cons_self
    obtain ⟨rfl, -⟩ := BlockEvent.read.inj hsame
    rw [fileOpsOf_append, fileOpsOf_files, Engine.writtenTables_append]
    exact Or.inr (List.mem_append_left _ (hreads read hread))

/-- Through a cache of any capacity and any K >= 1 every read of a block gives what decoding
that block of that table gives, as long as the numbers of tables stay below 2^31 and no block is
read whose index needs more than 32 bits. -/
theorem block_cache_transparent (config : Config) (params : BloomParams) (capacity k : ℕ)
    (start : Engine) (ops : List EngineOp) (events : List BlockEvent) (hk : 1 ≤ k)
    (hinv : start.LevelInvariant) (hrun : CacheRun config start ops events)
    (hids : (runAll config start ops).nextSstId ≤ 2 ^ 31)
    (hindices : ∀ sst idx, .read sst idx ∈ events → idx < sst.numBlocks → idx < 2 ^ 32) :
    ∀ before sst idx after, events = before ++ .read sst idx :: after →
      (sst.readShared config params idx
        (cacheAfter config params (BlockCache.new capacity k) before)).1 =
          sst.decodeBlock config params idx := by
  intro before sst idx after hevents
  let tables : SST → Prop := fun sst => start.Stores sst ∨
    sst ∈ Engine.writtenTables (runAllFileOps config start ops)
  have hlt : ∀ sst, tables sst → sst.sstId < 2 ^ 32 := fun sst hsst =>
    (Engine.sstId_lt config hinv ops hsst).trans_le (hids.trans (by decide))
  have happart : ∀ left right, tables left → tables right →
      cacheId left.sstId = cacheId right.sstId → left = right := by
    intro left right hleft hright hkeys
    exact Engine.sstId_inj config hinv ops hleft hright
      (cacheId_inj (hlt left hleft) (hlt right hright) hkeys)
  have hreads : ∀ sst idx, .read sst idx ∈ events →
      tables sst ∧ (idx < sst.numBlocks → idx < 2 ^ 32) :=
    fun sst idx hmem => ⟨hrun.readable hmem, hindices sst idx hmem⟩
  have hclean : (cacheAfter config params (BlockCache.new capacity k) before).Clean config params
      tables :=
    (BlockCache.clean_new config params tables capacity hk).run happart fun sst idx hmem =>
      hreads sst idx (by
        rw [hevents]
        exact List.mem_append_left _ hmem)
  obtain ⟨hsst, hidx⟩ := hreads sst idx (by
    rw [hevents]
    exact List.mem_append_right _ List.mem_cons_self)
  exact (hclean.readShared happart hsst hidx).1

/-- The table of the first flush is cleared away before that of the second one is written. -/
def clearedOps : List EngineOp := [.put [1] [7] 1, .flush, .clear, .put [1] [8] 2, .flush]

/-- A block of the table that is gone is cached, and the block of the other one is read. -/
theorem block_cache_transparent_sample : ∃ first second : SST,
    runAllFileOps smallConfig Engine.new clearedOps =
        [.write 1 0 first, .removeAll, .write 2 0 second] ∧
      (second.readShared smallConfig SST.oneKeyParams 0
        (cacheAfter smallConfig SST.oneKeyParams (BlockCache.new 4 2)
          [.file (.write 1 0 first), .file .removeAll, .file (.write 2 0 second),
            .read first 0])).1 = second.decodeBlock smallConfig SST.oneKeyParams 0 := by
  obtain ⟨first, second, hfiles⟩ : ∃ first second : SST,
      runAllFileOps smallConfig Engine.new clearedOps =
        [.write 1 0 first, .removeAll, .write 2 0 second] := ⟨_, _, rfl⟩
  refine ⟨first, second, hfiles, ?_⟩
  have hrun := @CacheRun.of_reads smallConfig Engine.new clearedOps _ hfiles
    [(first, 0), (second, 0)] (List.forall_mem_cons.mpr ⟨List.mem_cons_self,
      List.forall_mem_singleton.mpr (List.mem_cons_of_mem _ List.mem_cons_self)⟩)
  refine block_cache_transparent smallConfig SST.oneKeyParams 4 2 Engine.new clearedOps _
    (by decide) Engine.levelInvariant_new hrun (show _ ≤ 2 ^ 31 from ?_) ?_ _ second 0 [] rfl
  · rw [show (runAll smallConfig Engine.new clearedOps).nextSstId = 3 from rfl]
    decide
  · intro sst idx hmem hidx
    have hread : (sst = first ∧ idx = 0) ∨ (sst = second ∧ idx = 0) := by
      simpa using hmem
    omega

/-! ## A table with more than 2^32 blocks -/

theorem NodesOrdered.strictKeys {nodes : List Entry} (hordered : NodesOrdered nodes)
    (hdistinct : (nodes.map Version.key).Nodup) : Versions.StrictKeys nodes := by
  refine (hordered.and (List.pairwise_map.mp hdistinct)).imp ?_
  rintro left right ⟨hlt, hne⟩
  rcases nodeLt_iff.mp hlt with hkey | ⟨hsame, -⟩
  · exact hkey
  · exact absurd hsame hne

namespace SkipList

/-- A record under a new key joins the others. -/
theorem put_perm (table : SkipList) {key : Bytes}
    (hnew : ∀ node ∈ table.nodes, node.key ≠ key) (value : Bytes) (trancId : ℕ) :
    (table.put key value trancId).nodes.Perm (⟨key, value, trancId⟩ :: table.nodes) := by
  have hkept : (notSmaller table.nodes ⟨key, value, trancId⟩).filter (fun other =>
      !(decide (other.key = key) && decide (other.txid = trancId))) =
        notSmaller table.nodes ⟨key, value, trancId⟩ := by
    rw [List.filter_eq_self]
    intro other hmem
    have hne := hnew other ((List.dropWhile_sublist _).subset hmem)
    rw [decide_eq_false hne]
    rfl
  rw [put_nodes, hkept]
  refine List.perm_middle.trans ?_
  rw [smaller_append_notSmaller]

end SkipList

/-- A batch of new keys joins the current table. -/
theorem MemTable.foldl_put_perm {kvs : List (Bytes × Bytes)} (mem : MemTable) (trancId : ℕ)
    (hnodup : (kvs.map Prod.fst).Nodup)
    (hnew : ∀ node ∈ mem.currentTable.nodes, node.key ∉ kvs.map Prod.fst) :
    (kvs.foldl (fun mem kv => mem.put_ kv.1 kv.2 trancId) mem).currentTable.nodes.Perm
      (kvs.map (fun kv => ⟨kv.1, kv.2, trancId⟩) ++ mem.currentTable.nodes) := by
  induction kvs generalizing mem with
  | nil => exact List.Perm.refl _
  | cons kv rest ih =>
      rw [List.map_cons, List.nodup_cons] at hnodup
      have hfresh : ∀ node ∈ mem.currentTable.nodes, node.key ≠ kv.1 := fun node hmem hkey =>
        hnew node hmem (hkey ▸ List.mem_cons_self)
      have hput := mem.currentTable.put_perm hfresh kv.2 trancId
      refine (ih (mem.put_ kv.1 kv.2 trancId) hnodup.2 ?_).trans ?_
      · intro node hmem
        rcases List.mem_cons.mp (hput.subset hmem) with rfl | hold
        · exact hnodup.1
        · exact fun hlater => hnew node hold (List.mem_cons_of_mem _ hlater)
      · exact ((List.Perm.append_left _ hput).trans List.perm_middle)

/-- A first batch of new keys that fills no table. -/
theorem MemTable.putBatch_new (config : Config) {kvs : List (Bytes × Bytes)} (trancId : ℕ)
    (hnodup : (kvs.map Prod.fst).Nodup)
    (hroom : ((kvs.map fun kv => memSize ⟨kv.1, kv.2, trancId⟩).sum) <
      config.lsmPerMemSizeLimit) :
    let mem := MemTable.new.putBatch config kvs trancId
    mem.frozenTables = [] ∧ mem.currentTable.nodes.Perm (kvs.map fun kv => ⟨kv.1, kv.2, trancId⟩) ∧
      mem.getTotalSize = (kvs.map fun kv => memSize ⟨kv.1, kv.2, trancId⟩).sum := by
  have hperm := MemTable.new.foldl_put_perm trancId hnodup fun _ hmem => by cases hmem
  have hfrozen := frozenTables_foldl_put_ Prod.fst Prod.snd trancId kvs MemTable.new
  dsimp only
  rw [putBatch]
  generalize kvs.foldl (fun mem kv => mem.put_ kv.1 kv.2 trancId) MemTable.new = mem
    at hperm hfrozen ⊢
  have hnodes : mem.currentTable.nodes.Perm (kvs.map fun kv => ⟨kv.1, kv.2, trancId⟩) := by
    simpa [MemTable.new, SkipList.new] using hperm
  have hsize : mem.currentTable.getSize =
      (kvs.map fun kv => memSize ⟨kv.1, kv.2, trancId⟩).sum := by
    rw [SkipList.getSize, mem.currentTable.accounted, (hnodes.map memSize).sum_eq, List.map_map]
    rfl
  rw [freezeIfFull, if_neg (by rw [hsize]; exact hroom.not_ge)]
  refine ⟨hfrozen, hnodes, ?_⟩
  rw [getTotalSize, mem.accounted, hfrozen, hsize]
  rfl

/-- The oldest table is flushed. -/
theorem MemTable.flushLastOps_oldest {config : Config} {mem : MemTable} {sstId : ℕ}
    {table : SkipList} {builder : SSTBuilder} {sst : SST}
    (hback : (if mem.frozenTables.isEmpty then mem.frozenCurTable_ else mem).frozenTables.getLast? =
      some table)
    (hadd : (SSTBuilder.new config).addAll table.nodes = .ok builder)
    (hbuild : builder.build sstId = .ok sst) :
    mem.flushLastOps config sstId = [.write sstId 0 sst] := by
  unfold flushLastOps
  dsimp only
  rw [hback]
  dsimp only
  rw [SkipList.flush, hadd]
  exact SSTBuilder.fileOps_of_ok hbuild 0

/-- The only table is flushed. -/
theorem MemTable.flushLastOps_only {config : Config} {mem : MemTable} {sstId : ℕ}
    {builder : SSTBuilder} {sst : SST} (hfrozen : mem.frozenTables = [])
    (hnodes : mem.currentTable.nodes ≠ [])
    (hadd : (SSTBuilder.new config).addAll mem.currentTable.nodes = .ok builder)
    (hbuild : builder.build sstId = .ok sst) :
    mem.flushLastOps config sstId = [.write sstId 0 sst] := by
  refine flushLastOps_oldest ?_ hadd hbuild
  rw [hfrozen, List.isEmpty_nil, if_pos rfl]
  rcases mem.frozenTables_new_or with ⟨hnil, -⟩ | ⟨-, -, hpushed⟩
  · exact absurd hnil hnodes
  · rw [hpushed, hfrozen, List.getLast?_singleton]

/-- One batch and a flush. -/
theorem runAllFileOps_batch {config : Config} {kvs : List (Bytes × Bytes)} {trancId : ℕ}
    {ops : List FileOp} (hempty : (MemTable.new.putBatch config kvs trancId).getTotalSize ≠ 0)
    (hroom : (MemTable.new.putBatch config kvs trancId).getTotalSize < config.lsmTolMemSizeLimit)
    (hops : (MemTable.new.putBatch config kvs trancId).flushLastOps config 1 = ops) :
    runAllFileOps config Engine.new [.putBatch kvs trancId, .flush] = ops ∧
      (runAll config Engine.new [.putBatch kvs trancId, .flush]).nextSstId = 2 := by
  let written : Engine :=
    { Engine.new with memtable := MemTable.new.putBatch config kvs trancId }
  have hput : (EngineOp.putBatch kvs trancId).run config Engine.new = (written, .ok ⟨0, []⟩) :=
    if_neg hroom.not_ge
  have hputOps : (EngineOp.putBatch kvs trancId).fileOps config Engine.new = [] :=
    if_neg hroom.not_ge
  have hinv : written.LevelInvariant :=
    Engine.levelInvariant_new.withMemtable (MemTable.new.putBatch config kvs trancId)
  have hlevels : ¬(written.levelSstIds ≠ [] ∧
      (written.level 0).length ≥ config.lsmSstLevelRatio) := fun hfull => hfull.1 rfl
  have hcompact : written.compactFullL0 config = (written, .ok ()) := if_neg hlevels
  constructor
  · rw [runAllFileOps, runAllFileOps, hput, hputOps, runAllFileOps, List.nil_append,
      List.append_nil]
    change written.flushOps config = ops
    rw [Engine.flushOps, if_neg hempty, Engine.compactFullL0Ops, if_neg hlevels, hcompact]
    exact hops
  · rw [runAll, List.foldl_cons, hput, List.foldl_cons, List.foldl_nil]
    change (written.flush config).1.nextSstId = 2
    rw [Engine.flush_eq, if_neg hempty, hcompact]
    change (written.flushTable config).1.nextSstId = 2
    obtain ⟨mem, ⟨sst, flushed, -, -, -, hrun, -⟩ | ⟨hrun, -⟩⟩ :=
      Engine.flushTable_files config hinv
    · rw [hrun]
      rfl
    · rw [hrun]
      rfl

namespace SST

variable {config : Config} {params : BloomParams} {sst : SST} {entries : List Entry}

/-- The bytes of the blocks in front of an index, where every block holds one record. -/
theorem length_take (hblocks : (sst.blocks.map fun block => block.2.entries) =
      entries.map fun entry => [entry]) (idx : ℕ) :
    ((sst.blocks.take idx).flatMap fun block => block.2.raw.encoded).length =
      ((entries.take idx).map fun entry => Packing.blockLength [entry]).sum := by
  have htake := congrArg (List.map Packing.blockLength) (congrArg (List.take idx) hblocks)
  rw [← List.map_take, ← List.map_take, List.map_map, List.map_map] at htake
  rw [List.length_flatMap]
  refine Eq.trans (congrArg List.sum ?_) (congrArg List.sum htake)
  exact List.map_congr_left fun block _ => length_block block.2

/-- The last block lies where the offsets have wrapped and its end has wrapped once more. -/
theorem decodeBlock_wraps {last : Entry}
    (hblocks : (sst.blocks.map fun block => block.2.entries) =
      (entries ++ [last]).map fun entry => [entry])
    (hend : toUint32 ((entries ++ [last]).map fun entry => Packing.blockLength [entry]).sum <
      toUint32 (entries.map fun entry => Packing.blockLength [entry]).sum) :
    sst.decodeBlock config params entries.length = .error .sizeWraps := by
  have hlength : sst.blocks.length = entries.length + 1 := by
    have hmap := congrArg List.length hblocks
    rwa [List.length_map, List.length_map, List.length_append, List.length_singleton] at hmap
  have hlt : entries.length < sst.blocks.length := by
    rw [hlength]
    exact Nat.lt_succ_self _
  have hlocated : (sst.object config).metaEntries[entries.length]? =
      some (toUint32 (entries.map fun entry => Packing.blockLength [entry]).sum,
        sst.blocks[entries.length].1) := by
    rw [object, List.getElem?_map, getElem?_locate, List.getElem?_eq_getElem hlt,
      length_take hblocks, List.take_left, Nat.zero_add]
    rfl
  have hnone : (sst.object config).metaEntries[entries.length + 1]? = none := by
    rw [object, List.getElem?_map, getElem?_locate, List.getElem?_eq_none hlength.le]
    rfl
  have hdata : (sst.object config).metaBlockOffset =
      toUint32 ((entries ++ [last]).map fun entry => Packing.blockLength [entry]).sum := by
    have hall := length_take hblocks (entries ++ [last]).length
    rw [List.take_length, List.length_append, List.length_singleton, ← hlength,
      List.take_length] at hall
    exact congrArg toUint32 hall
  unfold decodeBlock SstHandle.readBlock
  rw [hlocated, hnone, hdata]
  dsimp only
  rw [Option.map_none, Option.getD_none, if_pos hend]

/-- The first block is found. -/
theorem decodeBlock_first {entry : Entry} {rest : List Entry}
    (hblocks : (sst.blocks.map fun block => block.2.entries) =
      (entry :: rest).map fun entry => [entry])
    (hnext : rest ≠ []) (hshort : Packing.blockLength [entry] < 256 ^ 4) :
    ∃ block, sst.decodeBlock config params 0 = .ok ⟨sst, 0, block⟩ := by
  obtain ⟨first, more, hsst⟩ : ∃ first more, sst.blocks = first :: more := by
    cases hblock : sst.blocks with
    | nil =>
        rw [hblock] at hblocks
        cases hblocks
    | cons first more => exact ⟨first, more, rfl⟩
  have hfirst : first.2.entries = [entry] := by
    rw [hsst] at hblocks
    exact (List.cons.inj hblocks).1
  have hmore : (more.map fun block => block.2.entries) = rest.map fun entry => [entry] := by
    rw [hsst] at hblocks
    exact (List.cons.inj hblocks).2
  obtain ⟨second, others, hothers⟩ : ∃ second others, more = second :: others := by
    cases more with
    | nil => exact absurd (List.map_eq_nil_iff.mp hmore.symm) hnext
    | cons second others => exact ⟨second, others, rfl⟩
  have hlength : first.2.raw.encoded.length = Packing.blockLength [entry] := by
    rw [length_block, hfirst]
  have hlocated : (sst.object config).metaEntries[0]? = some (0, first.1) := by
    rw [object, hsst]
    rfl
  have hend : (((sst.object config).metaEntries[0 + 1]?).map Prod.fst).getD
      (sst.object config).metaBlockOffset = first.2.raw.encoded.length := by
    rw [object, hsst, hothers]
    change toUint32 (0 + first.2.raw.encoded.length) = _
    rw [Nat.zero_add, toUint32, Nat.mod_eq_of_lt (by rw [hlength]; exact hshort)]
  have hread : SstHandle.readToSlice (sst.fileBytes config params) 0
      first.2.raw.encoded.length = .ok first.2.raw.encoded := by
    rw [fileBytes, data, hsst, List.flatMap_cons, List.append_assoc]
    exact readToSlice_append [] _ _
  have hdecode : RawBlock.decode first.2.raw.encoded = .ok first.2.raw := by
    apply Block.decode_encoded
    · intro offset hmem
      have hoffsets : first.2.raw.offsets = [0] := by
        rw [Block.raw, hfirst]
        rfl
      rw [hoffsets, List.mem_singleton] at hmem
      rw [hmem]
      exact Nat.zero_le _
    · rw [show first.2.raw.offsets.length = first.2.entries.length from
        Block.length_offsetsFrom _ _, hfirst]
      exact Nat.le_of_ble_eq_true rfl
  refine ⟨first.2.raw, ?_⟩
  unfold decodeBlock SstHandle.readBlock
  rw [hlocated]
  dsimp only
  rw [hend, if_neg (Nat.not_lt_zero _), Nat.sub_zero, hread]
  dsimp only [bind, Except.bind]
  rw [hdecode]

end SST

/-- A block for every key, and memory tables that fill up at 2^40 bytes. -/
def tinyBlocks : Config :=
  { smallConfig with
    lsmPerMemSizeLimit := 2 ^ 40
    lsmTolMemSizeLimit := 2 ^ 40
    lsmBlockSize := 1 }

/-- Keys of five bytes with values of two bytes, but for two that are a byte shorter. -/
def tinyBatch (count : ℕ) : List (Bytes × Bytes) :=
  (List.range (count + 2)).map fun i => (toLe 5 i, List.replicate (if i < 2 then 1 else 2) 7)

private theorem sum_range (short long count : ℕ) :
    ((List.range (count + 2)).map fun i => if i < 2 then short else long).sum =
      2 * short + count * long := by
  induction count with
  | zero =>
      change short + (short + 0) = _
      omega
  | succ count ih =>
      rw [show count + 1 + 2 = (count + 2) + 1 from rfl, List.range_succ, List.map_append,
        List.sum_append, ih, List.map_singleton, List.sum_singleton,
        if_neg (Nat.not_lt.mpr (Nat.le_add_left 2 count)), Nat.add_one_mul count,
        Nat.add_assoc]

private theorem sum_tinyBatch (count overhead : ℕ) (f : Entry → ℕ)
    (hf : ∀ entry, f entry = entry.key.length + entry.value.length + overhead) :
    ((tinyBatch count).map fun kv => f ⟨kv.1, kv.2, 1⟩).sum =
      2 * (overhead + 6) + count * (overhead + 7) := by
  rw [tinyBatch, List.map_map, ← sum_range]
  refine congrArg List.sum (List.map_congr_left fun i _ => ?_)
  change f ⟨toLe 5 i, List.replicate (if i < 2 then 1 else 2) 7, 1⟩ = _
  rw [hf, length_toLe, List.length_replicate]
  split_ifs <;> omega

private theorem tinyBatch_nodup {count : ℕ} (hcount : count + 2 ≤ 256 ^ 5) :
    ((tinyBatch count).map Prod.fst).Nodup := by
  rw [tinyBatch, List.map_map]
  refine List.Nodup.map_on ?_ List.nodup_range
  intro i hi j hj hkeys
  have hlt : ∀ n ∈ List.range (count + 2), n < 256 ^ 5 := fun n hn =>
    (List.mem_range.mp hn).trans_le hcount
  have hvalues := congrArg ofLe hkeys
  rwa [Function.comp_apply, Function.comp_apply, ofLe_toLe (hlt i hi), ofLe_toLe (hlt j hj)]
    at hvalues

/-- The flush of the batch writes one table with a block for every key. -/
private theorem tinyBatch_flushed {count : ℕ} (hsize : count + 2 ≤ 2 ^ 33) :
    ∃ (sst : SST) (nodes : List Entry),
      nodes.Perm ((tinyBatch count).map fun kv => (⟨kv.1, kv.2, 1⟩ : Entry)) ∧
      (sst.blocks.map fun block => block.2.entries) = nodes.map (fun entry => [entry]) ∧
      runAllFileOps tinyBlocks Engine.new [.putBatch (tinyBatch count) 1, .flush] =
        [.write 1 0 sst] ∧
      (runAll tinyBlocks Engine.new [.putBatch (tinyBatch count) 1, .flush]).nextSstId = 2 := by
  have hnodup := tinyBatch_nodup (hsize.trans (by decide))
  have hsum := sum_tinyBatch count 8 memSize fun entry => rfl
  have hroom : ((tinyBatch count).map fun kv => memSize ⟨kv.1, kv.2, 1⟩).sum < 2 ^ 40 := by
    rw [hsum]
    omega
  obtain ⟨hfrozen, hperm, htotal⟩ :=
    MemTable.putBatch_new tinyBlocks 1 hnodup hroom
  have hbatch := @runAllFileOps_batch tinyBlocks (tinyBatch count) 1
  generalize MemTable.new.putBatch tinyBlocks (tinyBatch count) 1 = mem at *
  have hkeys : ∀ entry ∈ mem.currentTable.nodes, ∃ i, entry =
      ⟨toLe 5 i, List.replicate (if i < 2 then 1 else 2) 7, 1⟩ := by
    intro entry hmem
    obtain ⟨kv, hkv, rfl⟩ := List.mem_map.mp (hperm.subset hmem)
    obtain ⟨i, -, rfl⟩ := List.mem_map.mp hkv
    exact ⟨i, rfl⟩
  have hdistinct : (mem.currentTable.nodes.map Version.key).Nodup := by
    rw [(hperm.map Version.key).nodup_iff, List.map_map]
    exact hnodup
  have hstrict := mem.currentTable.ordered.strictKeys hdistinct
  have hnonempty : mem.currentTable.nodes ≠ [] := by
    intro hnil
    have hlength := hperm.length_eq
    rw [hnil, List.length_map, tinyBatch, List.length_map, List.length_range] at hlength
    cases hlength
  have hpositive : mem.getTotalSize ≠ 0 := by
    rw [htotal, hsum]
    omega
  have haccepted : ∀ entry ∈ mem.currentTable.nodes, entry.Accepted := by
    intro entry hmem
    obtain ⟨i, rfl⟩ := hkeys entry hmem
    constructor
    · rw [length_toLe]
      decide
    · rw [List.length_replicate]
      split_ifs <;> decide
  obtain ⟨builder, hadd, hready, hpacks⟩ : ∃ builder,
      (SSTBuilder.new tinyBlocks).addAll mem.currentTable.nodes = .ok builder ∧
        builder.Ready tinyBlocks ∧
          builder.Packs 1 (Packing.ofRun 1 ([] ++ mem.currentTable.nodes)) := by
    refine (SSTBuilder.ready_new tinyBlocks).addAll (SSTBuilder.packs_new tinyBlocks) (by decide)
      haccepted hstrict ?_
    intro entry hmem
    obtain ⟨i, rfl⟩ := hkeys entry hmem
    exact List.nil_lt_cons _ _
  obtain ⟨front, last, hnodes⟩ := (List.eq_nil_or_concat' mem.currentTable.nodes).resolve_left
    hnonempty
  have hpacking : Packing.ofRun 1 ([] ++ mem.currentTable.nodes) =
      ⟨front.map fun entry => [entry], [last]⟩ := by
    rw [List.nil_append, hnodes]
    rw [hnodes] at hstrict
    exact Packing.ofRun_apart (by decide) hstrict
  rw [hpacking] at hpacks
  obtain ⟨sst, hbuild⟩ := hready.build (by rw [hpacks.current]; exact List.cons_ne_nil _ _)
    (show tinyBlocks.createFails 1 = false from rfl)
  have hops := MemTable.flushLastOps_only hfrozen hnonempty hadd hbuild
  have hlimit : mem.getTotalSize < tinyBlocks.lsmTolMemSizeLimit := htotal ▸ hroom
  obtain ⟨hfiles, hnext⟩ := hbatch hpositive hlimit hops
  refine ⟨sst, mem.currentTable.nodes, hperm, ?_, hfiles, hnext⟩
  rw [(hpacks.build hbuild).1, hnodes, List.map_append]
  rfl

/-- After the first block the block with index 2^32 is read: the cache answers with the first
one, where the bytes at the wrapped offsets cannot be decoded at all. -/
theorem block_cache_confuses : ∃ (sst : SST) (block : RawBlock) (events : List BlockEvent),
    CacheRun tinyBlocks Engine.new [.putBatch (tinyBatch (2 ^ 32 - 1)) 1, .flush]
        (events ++ [.read sst (2 ^ 32)]) ∧
      (runAll tinyBlocks Engine.new
        [.putBatch (tinyBatch (2 ^ 32 - 1)) 1, .flush]).nextSstId ≤ 2 ^ 31 ∧
      (sst.readShared tinyBlocks SST.oneKeyParams (2 ^ 32)
        (cacheAfter tinyBlocks SST.oneKeyParams (BlockCache.new 1 1) events)).1 =
          .ok ⟨sst, 0, block⟩ ∧
      sst.decodeBlock tinyBlocks SST.oneKeyParams (2 ^ 32) = .error .sizeWraps := by
  obtain ⟨count, hcount⟩ : ∃ count, count = 2 ^ 32 - 1 := ⟨_, rfl⟩
  rw [← hcount]
  obtain ⟨sst, nodes, hperm, hblocks, hfiles, hnext⟩ :=
    @tinyBatch_flushed count (by rw [hcount]; decide)
  have hlength : nodes.length = 2 ^ 32 + 1 := by
    rw [hperm.length_eq, List.length_map, tinyBatch, List.length_map, List.length_range, hcount]
    decide
  have htotal : (nodes.map fun entry => Packing.blockLength [entry]).sum = 27 * 2 ^ 32 + 25 := by
    have hsum := sum_tinyBatch count 20 (fun entry => Packing.blockLength [entry]) fun entry => by
      simp only [Packing.blockLength, Packing.bodyLength, entrySize, List.map_cons, List.map_nil,
        List.sum_cons, List.sum_nil, List.length_singleton]
      omega
    rw [(hperm.map fun entry => Packing.blockLength [entry]).sum_eq, List.map_map]
    refine Eq.trans hsum ?_
    rw [hcount]
    decide
  have hone : ∀ entry ∈ nodes, Packing.blockLength [entry] = 26 ∨
      Packing.blockLength [entry] = 27 := by
    intro entry hmem
    obtain ⟨kv, hkv, rfl⟩ := List.mem_map.mp (hperm.subset hmem)
    obtain ⟨i, -, rfl⟩ := List.mem_map.mp hkv
    simp only [Packing.blockLength, Packing.bodyLength, entrySize, List.map_cons, List.map_nil,
      List.sum_cons, List.sum_nil, List.length_singleton, length_toLe, List.length_replicate]
    split_ifs
    · exact Or.inl rfl
    · exact Or.inr rfl
  obtain ⟨front, last, rfl⟩ := (List.eq_nil_or_concat' nodes).resolve_left (by
    rintro rfl
    cases hlength)
  have hfront : front.length = 2 ^ 32 := by
    rw [List.length_append, List.length_singleton] at hlength
    exact Nat.add_right_cancel hlength
  have hwraps : sst.decodeBlock tinyBlocks SST.oneKeyParams (2 ^ 32) = .error .sizeWraps := by
    have hlast := hone last (List.mem_append_right _ List.mem_cons_self)
    have hsplit := htotal
    rw [List.map_append, List.sum_append, List.map_singleton, List.sum_singleton] at hsplit
    rw [← hfront]
    refine SST.decodeBlock_wraps hblocks ?_
    rw [htotal, SST.toUint32, SST.toUint32]
    omega
  obtain ⟨entry, rest, hfirst⟩ : ∃ entry rest, front = entry :: rest := by
    cases front with
    | nil => cases hfront
    | cons entry rest => exact ⟨entry, rest, rfl⟩
  rw [hfirst, List.cons_append] at hblocks
  obtain ⟨block, hdecode⟩ := @SST.decodeBlock_first tinyBlocks SST.oneKeyParams sst entry
    (rest ++ [last]) hblocks (List.append_ne_nil_of_right_ne_nil _ (List.cons_ne_nil _ _)) (by
      rcases hone entry (by rw [hfirst]; exact List.mem_cons_self) with hlen | hlen
      · rw [hlen]
        decide
      · rw [hlen]
        decide)
  have hcount' : sst.numBlocks = 2 ^ 32 + 1 := by
    have hmap := congrArg List.length hblocks
    rwa [List.length_map, List.length_map, ← List.cons_append, ← hfirst, hlength] at hmap
  have hrun : CacheRun tinyBlocks Engine.new [.putBatch (tinyBatch count) 1, .flush]
      [.file (.write 1 0 sst), .read sst 0, .read sst (2 ^ 32)] :=
    @CacheRun.of_reads _ _ _ _ hfiles [(sst, 0), (sst, 2 ^ 32)]
      (List.forall_mem_cons.mpr ⟨List.mem_cons_self,
        List.forall_mem_singleton.mpr List.mem_cons_self⟩)
  have hnext' : (runAll tinyBlocks Engine.new
      [.putBatch (tinyBatch count) 1, .flush]).nextSstId ≤ 2 ^ 31 := by
    rw [hnext]
    decide
  refine ⟨sst, block, [.file (.write 1 0 sst), .read sst 0], hrun, hnext', ?_, hwraps⟩
  have hmiss : (BlockCache.new 1 1 : SharedCache).lookup (sst.blockKey 0) = none := rfl
  have hfilled := (@SST.readShared_miss tinyBlocks SST.oneKeyParams (BlockCache.new 1 1) sst 0
    Nat.one_pos (by rw [hcount']; exact Nat.succ_pos _) hmiss).2.2.2 _ Nat.one_pos hdecode
  have hkey : sst.blockKey 0 = sst.blockKey (2 ^ 32) := rfl
  rw [hkey] at hfilled
  exact (SST.readShared_hit (by rw [hcount']; exact Nat.lt_succ_self _) hfilled).1

end KopiDb
