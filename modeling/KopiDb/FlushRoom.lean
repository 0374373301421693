import KopiDb.Flushability
import KopiDb.TableReads

/-!
# Room for the keys of a run

Every flush in a run of calls finds records that were written under their keys once, so it
depends on the commit markers alone whether it throws a length error.  The invariant counts
the user keys that are stored or staged.
-/

namespace KopiDb

/-! ## What the store holds -/

/-- A store whose records pass the checks of the block one by one. -/
structure Engine.Sound (engine : Engine) : Prop where
  inv : Engine.LevelInvariant engine
  accepted : ∀ entry ∈ engine.records, entry.Accepted
  marker : ∀ entry ∈ engine.records, entry.key = [] → entry.value = []

namespace Engine

variable {config : Config} {engine : Engine}

theorem Sound.light (hsound : engine.Sound) (honce : (userKeys engine.records).Nodup) :
    Light engine.records := ⟨hsound.accepted, hsound.marker, honce⟩

theorem userKeys_subperm {left right : List Entry} (hsub : left.Subperm right) :
    userKeys left ≤ userKeys right := by
  obtain ⟨other, hperm, hsub⟩ := hsub
  rw [← userKeys_perm hperm]
  exact Multiset.coe_le.mpr ((hsub.map Version.key).filter _).subperm

/-- Writes to the memory tables add at most their records. -/
theorem Sound.write (hsound : engine.Sound) {mem : MemTable} {added : List Entry}
    (hsub : mem.records.Subperm (added ++ engine.memtable.records))
    (haccepted : ∀ entry ∈ added, entry.Accepted)
    (hmarker : ∀ entry ∈ added, entry.key = [] → entry.value = []) :
    ({ engine with memtable := mem } : Engine).Sound ∧
      userKeys ({ engine with memtable := mem } : Engine).records ≤
        userKeys added + userKeys engine.records := by
  have hall : ({ engine with memtable := mem } : Engine).records.Subperm
      (added ++ engine.records) := by
    have happend := hsub.append (List.Subperm.refl engine.fileRecords)
    rwa [List.append_assoc] at happend
  refine ⟨⟨hsound.inv.withMemtable mem, ?_, ?_⟩, ?_⟩
  · intro entry hmem
    rcases List.mem_append.mp (hall.subset hmem) with hmem | hmem
    · exact haccepted entry hmem
    · exact hsound.accepted entry hmem
  · intro entry hmem
    rcases List.mem_append.mp (hall.subset hmem) with hmem | hmem
    · exact hmarker entry hmem
    · exact hsound.marker entry hmem
  · rw [← userKeys_append]
    exact userKeys_subperm hall

/-- Maintenance keeps the records. -/
theorem Sound.perm {engine' : Engine} (hsound : engine.Sound) (hinv : LevelInvariant engine')
    (hperm : engine'.records.Perm engine.records) : engine'.Sound :=
  ⟨hinv, fun entry hmem => hsound.accepted entry (hperm.subset hmem),
    fun entry hmem => hsound.marker entry (hperm.subset hmem)⟩

theorem Sound.flush (hsound : engine.Sound) : (engine.flush config).1.Sound ∧
    userKeys (engine.flush config).1.records = userKeys engine.records := by
  obtain ⟨hinv, hsame⟩ := flush_kept config hsound.inv
  exact ⟨hsound.perm hinv hsame.perm, userKeys_perm hsame.perm⟩

theorem Sound.compact (hsound : engine.Sound) (srcLevel : ℕ) :
    (engine.compact config srcLevel).1.Sound ∧
      userKeys (engine.compact config srcLevel).1.records = userKeys engine.records := by
  have hkept := fullCompact_kept config hsound.inv (engine.levelSstIds.length + 1) srcLevel
  have hsame : Versions.SameVersions (engine.compact config srcLevel).1.records
      engine.records := by
    rw [records, records, Engine.compact, hkept.memtable]
    exact (Versions.SameVersions.refl _).append hkept.sameVersions
  exact ⟨hsound.perm hkept.invariant hsame.perm, userKeys_perm hsame.perm⟩

/-- The searches in the files do not throw. -/
theorem sstGet_isOk (hinv : LevelInvariant engine) (key : Bytes) (trancId : ℕ)
    (isAborted : ℕ → Bool) : ∃ found, engine.sstGet_ key trancId isAborted = .ok found := by
  by_cases hkey : key = []
  · subst hkey
    obtain ⟨found, hget, -⟩ :=
      get_empty_key_mem trancId hinv ⟨isAborted, fun id _ => isAborted id⟩ false
    rw [get_some] at hget
    dsimp only at hget
    cases hfound : engine.sstGet_ [] trancId isAborted with
    | error err => rw [hfound] at hget; cases hget
    | ok found => exact ⟨found, rfl⟩
  · exact ⟨_, sstGet_fileRecords trancId isAborted hinv hkey⟩

end Engine

/-! ## Writes to the memory tables -/

namespace MemTable

theorem put_subperm (mem : MemTable) (key value : Bytes) (trancId : ℕ) :
    (mem.put_ key value trancId).records.Subperm (⟨key, value, trancId⟩ :: mem.records) := by
  have hnodes : (mem.currentTable.put key value trancId).nodes.Subperm
      (⟨key, value, trancId⟩ :: mem.currentTable.nodes) := by
    have hperm := @List.perm_middle _ (⟨key, value, trancId⟩ : Entry)
      (SkipList.smaller mem.currentTable.nodes ⟨key, value, trancId⟩)
      (SkipList.notSmaller mem.currentTable.nodes ⟨key, value, trancId⟩)
    rw [SkipList.smaller_append_notSmaller] at hperm
    rw [SkipList.put_nodes]
    refine List.Subperm.trans (List.Sublist.subperm ?_) hperm.subperm
    exact (List.Sublist.refl _).append (List.filter_sublist.cons_cons _)
  have happend := hnodes.append
    (List.Subperm.refl (mem.frozenTables.flatMap SkipList.nodes))
  simpa [records, tables, put_] using happend

theorem foldl_put_subperm {α : Type} (keyOf valueOf : α → Bytes) (trancId : ℕ)
    (batch : List α) (mem : MemTable) :
    (batch.foldl (fun mem item => mem.put_ (keyOf item) (valueOf item) trancId)
      mem).records.Subperm
        ((batch.map fun item => ⟨keyOf item, valueOf item, trancId⟩) ++ mem.records) := by
  induction batch generalizing mem with
  | nil => exact List.Subperm.refl _
  | cons item rest ih =>
      have hput := mem.put_subperm (keyOf item) (valueOf item) trancId
      have hrest := ih (mem.put_ (keyOf item) (valueOf item) trancId)
      refine hrest.trans (List.Subperm.trans ((List.Subperm.refl _).append hput) ?_)
      rw [List.map_cons, List.cons_append]
      exact List.perm_middle.subperm

end MemTable

/-! ## The flushes of a call -/

/-- The stores that the flush at the end of a write starts from. -/
def Engine.flushStates (config : Config) (engine : Engine) : List Engine :=
  if engine.memtable.getTotalSize ≥ config.lsmTolMemSizeLimit then [engine] else []

/-- The stores that the flushes at the end of `commit` start from. -/
def TranContext.flushStates (config : Config) : ℕ → LSM → List Engine
  | 0, _ => []
  | fuel + 1, lsm =>
      let totalSize := lsm.engine.memtable.getTotalSize
      if totalSize = 0 ∨ totalSize < config.lsmTolMemSizeLimit then []
      else
        lsm.engine :: match (lsm.flush config).2 with
          | .error _ => []
          | .ok () => TranContext.flushStates config fuel (lsm.flush config).1

/-- The stores that the flushes of a call start from. -/
def Call.flushStates (config : Config) (lsm : LSM) : Call → List Engine
  | .write handle op walOk =>
      match lsm.contexts[handle]? with
      | none => []
      | some context =>
          match context.finished, op.record context.trancId with
          | false, .ok record =>
              if context.isolationLevel = .readUnopCommitted then
                match TranContext.persist lsm handle (context.logged record) walOk with
                | (_, .error _) => []
                | (lsm, .ok ()) =>
                    Engine.flushStates config { lsm.engine with
                      memtable := lsm.engine.memtable.put config op.key op.value
                        context.trancId }
              else []
          | _, _ => []
  | .commit handle walOk =>
      match lsm.contexts[handle]? with
      | none => []
      | some context =>
          if context.finished ∨ context.endAttempted then []
          else
            match TranContext.commitLocked config lsm handle context walOk with
            | (lsm, .ok true) => TranContext.flushStates config (TranContext.flushFuel lsm) lsm
            | _ => []
  | .plainPut key value =>
      Engine.flushStates config { lsm.engine with
        memtable := lsm.engine.memtable.put config key value lsm.takeTrancId.2 }
  | .plainPutBatch kvs =>
      Engine.flushStates config { lsm.engine with
        memtable := lsm.engine.memtable.putBatch config kvs lsm.takeTrancId.2 }
  | .plainRemove key =>
      Engine.flushStates config { lsm.engine with
        memtable := lsm.engine.memtable.remove config key lsm.takeTrancId.2 }
  | .plainRemoveBatch keys =>
      Engine.flushStates config { lsm.engine with
        memtable := lsm.engine.memtable.removeBatch config keys lsm.takeTrancId.2 }
  | .flush => [lsm.engine]
  | _ => []

/-- Every merge and every flush of a call brings few markers together, and the tables that the
call and its flushes find have not outgrown their offsets. -/
structure Call.Fits (config : Config) (lsm : LSM) (call : Call) : Prop where
  flushes : ∀ engine ∈ call.flushStates config lsm, engine.FlushFits config
  compacts : ∀ srcLevel, call = .compact srcLevel →
    lsm.engine.CompactFits config (lsm.engine.levelSstIds.length + 1) srcLevel
  addressable : ∀ engine ∈ lsm.engine :: call.flushStates config lsm, engine.Addressable

/-- What a call asks to write. -/
def Call.writes : Call → List WriteOp
  | .write _ op _ => [op]
  | .plainPut key value => [.put key value]
  | .plainPutBatch kvs => kvs.map fun kv => .put kv.1 kv.2
  | .plainRemove key => [.remove key]
  | .plainRemoveBatch keys => keys.map .remove
  | _ => []

/-- A write under a user key that passes the length checks of the log and of the block. -/
structure WriteOp.Passes (op : WriteOp) : Prop where
  key_ne : op.key ≠ []
  record : ∀ trancId, ∃ record, op.record trancId = .ok record
  key_le : op.key.length ≤ uint16Max
  value_le : op.value.length ≤ uint16Max

/-- The keys that a transaction has staged and not applied yet. -/
def TranContext.stagedKeys (context : TranContext) : Multiset Bytes :=
  if context.finished then 0 else (context.tempMap.keys : Multiset Bytes)

theorem TranContext.stagedKeys_of_open {context : TranContext}
    (hopen : context.finished = false) :
    context.stagedKeys = (context.tempMap.keys : Multiset Bytes) := by
  rw [stagedKeys, hopen]
  rfl

theorem TranContext.stagedKeys_of_finished {context : TranContext}
    (hfinished : context.finished = true) : context.stagedKeys = 0 := by
  rw [stagedKeys, hfinished]
  rfl

/-- The keys that all transactions have staged. -/
def stagedKeys (contexts : List TranContext) : Multiset Bytes :=
  (contexts.map TranContext.stagedKeys).sum

/-- Staged writes under user keys whose records pass the checks of the block. -/
def TranContext.StagesUserKeys (context : TranContext) : Prop :=
  ∀ pair ∈ context.tempMap.entries,
    pair.1 ≠ [] ∧ pair.1.length ≤ uint16Max ∧ pair.2.length ≤ uint16Max

/-- The invariant of a run that has asked to write under some keys. -/
structure LSM.Room (lsm : LSM) (keys : Multiset Bytes) : Prop where
  sound : lsm.engine.Sound
  staged : ∀ context ∈ lsm.contexts, context.StagesUserKeys
  keys_le : userKeys lsm.engine.records + KopiDb.stagedKeys lsm.contexts ≤ keys

/-! ## Staged keys -/

theorem stagedKeys_append (front back : List TranContext) :
    stagedKeys (front ++ back) = stagedKeys front + stagedKeys back := by
  rw [stagedKeys, List.map_append, List.sum_append]
  rfl

theorem stagedKeys_singleton (context : TranContext) :
    stagedKeys [context] = context.stagedKeys := by
  rw [stagedKeys, List.map_singleton, List.sum_singleton]

/-- Only the keys of one context change. -/
theorem stagedKeys_set {contexts : List TranContext} {handle : ℕ} {context : TranContext}
    (hcontext : contexts[handle]? = some context) (context' : TranContext) :
    stagedKeys (contexts.set handle context') + context.stagedKeys =
      stagedKeys contexts + context'.stagedKeys := by
  induction contexts generalizing handle with
  | nil => cases hcontext
  | cons first rest ih =>
      cases handle with
      | zero =>
          obtain rfl := Option.some.inj hcontext
          rw [List.set_cons_zero, stagedKeys, stagedKeys, List.map_cons, List.map_cons,
            List.sum_cons, List.sum_cons]
          abel
      | succ handle =>
          have hrest := ih hcontext
          rw [stagedKeys, stagedKeys] at hrest ⊢
          rw [List.set_cons_succ, List.map_cons, List.map_cons, List.sum_cons, List.sum_cons,
            add_assoc, hrest, add_assoc]

theorem OrdMap.keys_insert_le (map : OrdMap Bytes Bytes) (key value : Bytes) :
    ((map.insert key value).keys : Multiset Bytes) ≤ key ::ₘ (map.keys : Multiset Bytes) := by
  rw [Multiset.cons_coe, Multiset.coe_le]
  apply (map.insert key value).keys_nodup.subperm
  intro other hmem
  exact List.mem_cons.mpr (OrdMap.mem_keys_insert.mp hmem)

theorem OrdMap.eq_or_mem_of_mem_insert {map : OrdMap Bytes Bytes} {key value : Bytes}
    {pair : Bytes × Bytes} (hmem : pair ∈ (map.insert key value).entries) :
    pair = (key, value) ∨ pair ∈ map.entries := by
  have hfind := OrdMap.find?_eq_some_iff.mpr hmem
  rw [OrdMap.find?_insert] at hfind
  split_ifs at hfind with hkey
  · exact Or.inl (Prod.ext hkey (Option.some.inj hfind).symm)
  · exact Or.inr (OrdMap.find?_eq_some_iff.mp hfind)

namespace LSM

variable {config : Config} {lsm lsm' : LSM} {keys added : Multiset Bytes} {handle : ℕ}
  {context context' : TranContext}

theorem room_new : Room LSM.new 0 where
  sound := by
    refine ⟨Engine.levelInvariant_new, ?_, ?_⟩
    · intro entry hmem
      cases hmem
    · intro entry hmem
      cases hmem
  staged context hmem := by cases hmem
  keys_le := le_rfl

theorem Room.mono (hroom : Room lsm keys) {keys' : Multiset Bytes} (hle : keys ≤ keys') :
    Room lsm keys' := ⟨hroom.sound, hroom.staged, hroom.keys_le.trans hle⟩

theorem Room.light (hroom : Room lsm keys) (hnodup : keys.Nodup) : Light lsm.engine.records :=
  hroom.sound.light
    (Multiset.nodup_of_le ((Multiset.le_add_right _ _).trans hroom.keys_le) hnodup)

/-- The engine changes and the contexts stay. -/
theorem Room.withEngine (hroom : Room lsm keys) (hsound : lsm'.engine.Sound)
    (hcontexts : lsm'.contexts = lsm.contexts)
    (hkeys : userKeys lsm'.engine.records ≤ added + userKeys lsm.engine.records) :
    Room lsm' (keys + added) where
  sound := hsound
  staged := by
    rw [hcontexts]
    exact hroom.staged
  keys_le := by
    rw [hcontexts]
    calc
      userKeys lsm'.engine.records + KopiDb.stagedKeys lsm.contexts
        ≤ added + userKeys lsm.engine.records + KopiDb.stagedKeys lsm.contexts :=
          add_le_add_left hkeys _
      _ = userKeys lsm.engine.records + KopiDb.stagedKeys lsm.contexts + added := by abel
      _ ≤ keys + added := add_le_add_left hroom.keys_le _

/-- The engine changes and its keys stay. -/
theorem Room.keepKeys (hroom : Room lsm keys) (hsound : lsm'.engine.Sound)
    (hcontexts : lsm'.contexts = lsm.contexts)
    (hkeys : userKeys lsm'.engine.records = userKeys lsm.engine.records) : Room lsm' keys := by
  rw [← add_zero keys]
  apply hroom.withEngine hsound hcontexts
  rw [hkeys, zero_add]

/-- The engine and one context change. -/
theorem Room.withContext (hroom : Room lsm keys) (hcontext : lsm.contexts[handle]? = some context)
    (hsound : lsm'.engine.Sound) (hcontexts : lsm'.contexts = lsm.contexts.set handle context')
    (hstaged : context'.StagesUserKeys)
    (hkeys : userKeys lsm'.engine.records + context'.stagedKeys ≤
      added + (userKeys lsm.engine.records + context.stagedKeys)) :
    Room lsm' (keys + added) where
  sound := hsound
  staged := by
    rw [hcontexts]
    intro other hmem
    rcases List.mem_or_eq_of_mem_set hmem with hmem | rfl
    · exact hroom.staged other hmem
    · exact hstaged
  keys_le := by
    have hset := stagedKeys_set hcontext context'
    rw [hcontexts]
    refine le_of_add_le_add_right (a := context.stagedKeys) ?_
    calc
      userKeys lsm'.engine.records + KopiDb.stagedKeys (lsm.contexts.set handle context') +
          context.stagedKeys
        = userKeys lsm'.engine.records + context'.stagedKeys +
            KopiDb.stagedKeys lsm.contexts := by
          rw [add_assoc, hset]
          abel
      _ ≤ added + (userKeys lsm.engine.records + context.stagedKeys) +
            KopiDb.stagedKeys lsm.contexts := add_le_add_left hkeys _
      _ = userKeys lsm.engine.records + KopiDb.stagedKeys lsm.contexts +
            (added + context.stagedKeys) := by abel
      _ ≤ keys + (added + context.stagedKeys) := add_le_add_left hroom.keys_le _
      _ = keys + added + context.stagedKeys := by abel

/-- One context changes and does not stage new keys. -/
theorem Room.setContext (hroom : Room lsm keys) (hcontext : lsm.contexts[handle]? = some context)
    (hengine : lsm'.engine = lsm.engine)
    (hcontexts : lsm'.contexts = lsm.contexts.set handle context')
    (hstaged : context'.StagesUserKeys) (hkeys : context'.stagedKeys ≤ context.stagedKeys) :
    Room lsm' keys := by
  rw [← add_zero keys]
  apply hroom.withContext hcontext (by rw [hengine]; exact hroom.sound) hcontexts hstaged
  rw [hengine, zero_add]
  exact add_le_add_right hkeys _

end LSM

/-! ## Single steps -/

namespace Engine

variable {config : Config} {engine : Engine}

theorem Sound.flush_light (hsound : engine.Sound) (hcapacity : config.lsmBlockSize ≤ uint16Max)
    (honce : (userKeys engine.records).Nodup) (hfits : engine.FlushFits config) :
    NoLengthError (engine.flush config).2 :=
  Engine.flush_light hcapacity hsound.inv (hsound.light honce) hfits

/-- The end of every write. -/
theorem Sound.flushIfFull (hsound : engine.Sound) (hcapacity : config.lsmBlockSize ≤ uint16Max)
    (honce : (userKeys engine.records).Nodup)
    (hfits : ∀ start ∈ flushStates config engine, start.FlushFits config) :
    (flushIfFull config engine).1.Sound ∧
      userKeys (flushIfFull config engine).1.records = userKeys engine.records ∧
      NoLengthError (flushIfFull config engine).2 := by
  rw [flushStates] at hfits
  rw [Engine.flushIfFull]
  split_ifs at hfits ⊢ with hfull
  · obtain ⟨hflush, hkeys⟩ := @Sound.flush config engine hsound
    exact ⟨hflush, hkeys,
      hsound.flush_light hcapacity honce (hfits engine List.mem_cons_self)⟩
  · exact ⟨hsound, rfl, noLengthError_ok _⟩

end Engine

/-- The record that a write stores. -/
def WriteOp.entry (trancId : ℕ) (op : WriteOp) : Entry := ⟨op.key, op.value, trancId⟩

/-- The keys that a call asks to write. -/
def Call.writtenKeys (call : Call) : Multiset Bytes := (call.writes.map WriteOp.key : List Bytes)

theorem userKeys_written {ops : List WriteOp} (trancId : ℕ) (hpasses : ∀ op ∈ ops, op.Passes) :
    userKeys (ops.map (WriteOp.entry trancId)) = (ops.map WriteOp.key : List Bytes) := by
  have hkeys : (ops.map (WriteOp.entry trancId)).map Version.key = ops.map WriteOp.key := by
    rw [List.map_map]
    rfl
  rw [userKeys, hkeys, List.filter_eq_self.mpr]
  intro key hmem
  obtain ⟨op, hop, rfl⟩ := List.mem_map.mp hmem
  exact decide_eq_true (hpasses op hop).key_ne

namespace LSM

variable {config : Config} {lsm lsm' : LSM} {keys : Multiset Bytes} {handle : ℕ}
  {context context' : TranContext}

theorem noLengthError_notify {outcome : Engine × Except Err Flushed}
    (hnone : Engine.NoLengthError outcome.2) : Engine.NoLengthError (lsm.notify outcome).2 := by
  unfold notify
  split
  next err herr =>
    intro text heq
    cases heq
    exact hnone text herr
  next => exact Engine.noLengthError_ok ()

/-- Writes to the memory tables with the flush behind them. -/
theorem Room.write (hroom : Room lsm keys) (hcapacity : config.lsmBlockSize ≤ uint16Max)
    {mem : MemTable} {ops : List WriteOp} {trancId : ℕ} (hpasses : ∀ op ∈ ops, op.Passes)
    (hsub : mem.records.Subperm (ops.map (WriteOp.entry trancId) ++ lsm.engine.memtable.records))
    (honce : (keys + (ops.map WriteOp.key : List Bytes)).Nodup)
    (hfits : ∀ start ∈ Engine.flushStates config { lsm.engine with memtable := mem },
      start.FlushFits config)
    (hcontexts : lsm'.contexts = lsm.contexts) :
    Room (lsm'.notify (Engine.flushIfFull config { lsm.engine with memtable := mem })).1
        (keys + (ops.map WriteOp.key : List Bytes)) ∧
      Engine.NoLengthError
        (lsm'.notify (Engine.flushIfFull config { lsm.engine with memtable := mem })).2 := by
  obtain ⟨hwritten, hkeys⟩ := hroom.sound.write hsub
    (by
      intro entry hmem
      obtain ⟨op, hop, rfl⟩ := List.mem_map.mp hmem
      exact ⟨(hpasses op hop).key_le, (hpasses op hop).value_le⟩)
    (by
      intro entry hmem hkey
      obtain ⟨op, hop, rfl⟩ := List.mem_map.mp hmem
      exact absurd hkey (hpasses op hop).key_ne)
  rw [userKeys_written trancId hpasses] at hkeys
  have hnodup : (userKeys ({ lsm.engine with memtable := mem } : Engine).records).Nodup := by
    refine Multiset.nodup_of_le (hkeys.trans ?_) honce
    rw [add_comm keys]
    exact add_le_add_right ((Multiset.le_add_right _ _).trans hroom.keys_le) _
  obtain ⟨hsound, hsame, hnone⟩ := hwritten.flushIfFull hcapacity hnodup hfits
  refine ⟨hroom.withEngine ?_ ?_ ?_, noLengthError_notify hnone⟩
  · rw [engine_notify]
    exact hsound
  · rw [contexts_notify, hcontexts]
  · rw [engine_notify, hsame]
    exact hkeys

theorem Room.flush (hroom : Room lsm keys) : Room (lsm.flush config).1 keys := by
  obtain ⟨hsound, hkeys⟩ := @Engine.Sound.flush config lsm.engine hroom.sound
  apply hroom.keepKeys
  · rw [LSM.flush, engine_notify]
    exact hsound
  · rw [LSM.flush, contexts_notify]
  · rw [LSM.flush, engine_notify, hkeys]

theorem Room.flush_light (hroom : Room lsm keys) (hcapacity : config.lsmBlockSize ≤ uint16Max)
    (hnodup : keys.Nodup) (hfits : lsm.engine.FlushFits config) :
    Engine.NoLengthError (lsm.flush config).2 :=
  noLengthError_notify
    (Engine.flush_light hcapacity hroom.sound.inv (hroom.light hnodup) hfits)

end LSM

end KopiDb
