import KopiDb.LogReplay

/-!
# Checkpoint safety

A flush reports the transactions whose commit markers it moves into a file.  In every
table the marker comes before all other versions of its transaction, and no newer table
holds any of them, so that nothing of the transaction is left in the memory.  The
watermark of the manager collects what was reported.
-/

namespace KopiDb

/-- No version of a transaction is in front of its marker. -/
def MarkersFirst (records : List Entry) : Prop :=
  records.Pairwise fun first second => second.key = [] → first.txid ≠ second.txid

namespace MemTable

variable {mem : MemTable} {trancId : ℕ}

/-- In one table the markers come first. -/
private theorem markersFirst_table (table : SkipList) : MarkersFirst table.nodes := by
  apply List.Pairwise.imp ?_ table.ordered
  intro first second hlt hkey htxid
  rw [nodeLt_iff, hkey, htxid] at hlt
  rcases hlt with hlt | ⟨-, hlt⟩
  · exact absurd hlt (List.not_lt_nil _)
  · exact hlt.false

/-- A writer without a marker adds a version. -/
theorem markersFirst_put_ (hfirst : MarkersFirst mem.records)
    (hnew : ∀ entry ∈ mem.records, entry.key = [] → entry.txid ≠ trancId)
    (key value : Bytes) : MarkersFirst (mem.put_ key value trancId).records := by
  have hbefore : mem.records =
      mem.currentTable.nodes ++ mem.frozenTables.flatMap SkipList.nodes := rfl
  have hrecords : (mem.put_ key value trancId).records =
      (mem.currentTable.put key value trancId).nodes ++
        mem.frozenTables.flatMap SkipList.nodes := rfl
  rw [hbefore] at hfirst hnew
  obtain ⟨-, hfrozen, hacross⟩ := List.pairwise_append.mp hfirst
  rw [hrecords]
  refine List.pairwise_append.mpr ⟨markersFirst_table _, hfrozen, ?_⟩
  intro first hfirstMem second hsecond hkey
  rcases SkipList.mem_put hfirstMem with rfl | hold
  · exact (hnew second (List.mem_append_right _ hsecond) hkey).symm
  · exact hacross first hold second hsecond hkey

/-- A writer without a marker adds a batch of versions of user keys. -/
theorem markersFirst_foldl_put_ {α : Type} (keyOf valueOf : α → Bytes) {batch : List α}
    (hkeys : ∀ item ∈ batch, keyOf item ≠ []) (hfirst : MarkersFirst mem.records)
    (hnew : ∀ entry ∈ mem.records, entry.key = [] → entry.txid ≠ trancId) :
    let written := batch.foldl (fun mem item => mem.put_ (keyOf item) (valueOf item) trancId) mem
    MarkersFirst written.records ∧
      (∀ entry ∈ written.records, entry.key = [] → entry.txid ≠ trancId) ∧
      ∀ entry ∈ written.records,
        entry ∈ mem.records ∨ entry.txid = trancId ∧ entry.key ≠ [] := by
  induction batch generalizing mem with
  | nil => exact ⟨hfirst, hnew, fun _ hmem => Or.inl hmem⟩
  | cons item rest ih =>
      have hput : ∀ entry ∈ (mem.put_ (keyOf item) (valueOf item) trancId).records,
          entry ∈ mem.records ∨ entry.txid = trancId ∧ entry.key ≠ [] := by
        intro entry hmem
        rcases List.mem_cons.mp ((mem.reflects_put_ _ _ _).subset entry hmem) with rfl | hold
        · exact Or.inr ⟨rfl, hkeys item List.mem_cons_self⟩
        · exact Or.inl hold
      have hnext : ∀ entry ∈ (mem.put_ (keyOf item) (valueOf item) trancId).records,
          entry.key = [] → entry.txid ≠ trancId := by
        intro entry hmem hkey
        rcases hput entry hmem with hold | ⟨-, hne⟩
        · exact hnew entry hold hkey
        · exact absurd hkey hne
      obtain ⟨hrestFirst, hrestNew, hrestMem⟩ := ih
        (fun other hmem => hkeys other (List.mem_cons_of_mem _ hmem))
        (markersFirst_put_ hfirst hnew _ _) hnext
      refine ⟨hrestFirst, hrestNew, fun entry hmem => ?_⟩
      rcases hrestMem entry hmem with hold | hown
      · exact hput entry hold
      · exact Or.inr hown

end MemTable

/-- What the manager says about the transactions behind its watermark is true of the
memory. -/
structure Settled (floor : ℕ) (memory : List Entry) (manager : TranManager)
    (contexts : List TranContext) : Prop where
  reached : floor ≤ manager.getCheckpointTrancId
  order : MarkersFirst memory
  owner : ∀ entry ∈ memory, entry.key = [] → entry.value = [] ∧
    ∃ context ∈ contexts, context.trancId = entry.txid ∧ context.isCommited = true
  ready : ∀ id state, manager.readyToFlushTrancIds.find? id = some state →
    ∃ context ∈ contexts, context.trancId = id ∧
      (state = .aborted → context.isAborted = true)
  covered : ∀ id, 0 < id → manager.flushedTrancIds.Covers id →
    ∃ context ∈ contexts, context.trancId = id ∧ (context.isAborted = true ∨
      context.isCommited = true ∧ ∀ entry ∈ memory, entry.txid ≠ id)

namespace Settled

variable {floor : ℕ} {memory memory' : List Entry} {manager : TranManager}
  {contexts contexts' : List TranContext}

/-- The transactions go on: none is lost, and the end of one is final. -/
structure Continues (contexts contexts' : List TranContext) : Prop where
  kept : ∀ context ∈ contexts, ∃ next ∈ contexts', next.trancId = context.trancId ∧
    (context.isCommited = true → next.isCommited = true) ∧
    (context.isAborted = true → next.isAborted = true)

theorem Continues.refl (contexts : List TranContext) : Continues contexts contexts :=
  ⟨fun context hmem => ⟨context, hmem, rfl, id, id⟩⟩

theorem Continues.append (contexts added : List TranContext) :
    Continues contexts (contexts ++ added) :=
  ⟨fun context hmem => ⟨context, List.mem_append_left _ hmem, rfl, id, id⟩⟩

theorem Continues.set {handle : ℕ} {context context' : TranContext}
    (hcontext : contexts[handle]? = some context) (hid : context'.trancId = context.trancId)
    (hcommited : context.isCommited = true → context'.isCommited = true)
    (haborted : context.isAborted = true → context'.isAborted = true) :
    Continues contexts (contexts.set handle context') := by
  constructor
  intro other hmem
  obtain ⟨idx, hidx, rfl⟩ := List.mem_iff_getElem.mp hmem
  by_cases hsame : idx = handle
  · subst hsame
    obtain ⟨_, hget⟩ := List.getElem?_eq_some_iff.mp hcontext
    rw [hget]
    exact ⟨context', List.mem_set hidx _, hid, hcommited, haborted⟩
  · refine ⟨contexts[idx], ?_, rfl, id, id⟩
    rw [List.mem_iff_getElem]
    exact ⟨idx, by rwa [List.length_set], List.getElem_set_ne (Ne.symm hsame) _⟩

/-- A new version in the memory: its writer is not over, and only a commit writes a
marker. -/
def Fresh (contexts contexts' : List TranContext) (entry : Entry) : Prop :=
  (∀ context ∈ contexts, context.trancId = entry.txid → context.isCommited = false) ∧
    (entry.key = [] → entry.value = [] ∧
      ∃ context ∈ contexts', context.trancId = entry.txid ∧ context.isCommited = true)

theorem write (hsettled : Settled floor memory manager contexts)
    (hcontinues : Continues contexts contexts') (horder : MarkersFirst memory')
    (hwritten : ∀ entry ∈ memory', entry ∈ memory ∨ Fresh contexts contexts' entry) :
    Settled floor memory' manager contexts' where
  reached := hsettled.reached
  order := horder
  owner entry hmem hkey := by
    rcases hwritten entry hmem with hold | ⟨-, hmarker⟩
    · obtain ⟨hvalue, context, hcontext, hid, hcommitted⟩ := hsettled.owner entry hold hkey
      obtain ⟨next, hnext, hsame, hstill, -⟩ := hcontinues.kept context hcontext
      exact ⟨hvalue, next, hnext, hsame.trans hid, hstill hcommitted⟩
    · exact hmarker hkey
  ready id state hfind := by
    obtain ⟨context, hcontext, hid, haborted⟩ := hsettled.ready id state hfind
    obtain ⟨next, hnext, hsame, -, hstill⟩ := hcontinues.kept context hcontext
    exact ⟨next, hnext, hsame.trans hid, fun hstate => hstill (haborted hstate)⟩
  covered id hpos hcovers := by
    obtain ⟨context, hcontext, rfl, hover⟩ := hsettled.covered id hpos hcovers
    obtain ⟨next, hnext, hsame, hcommitted, haborted⟩ := hcontinues.kept context hcontext
    refine ⟨next, hnext, hsame, ?_⟩
    rcases hover with hrolled | ⟨hdone, hgone⟩
    · exact Or.inl (haborted hrolled)
    · refine Or.inr ⟨hcommitted hdone, fun entry hmem => ?_⟩
      rcases hwritten entry hmem with hold | ⟨hrunning, -⟩
      · exact hgone entry hold
      · intro hid
        have hopen := hrunning context hcontext hid.symm
        exact Bool.false_ne_true (hopen.symm.trans hdone)

theorem extend (hsettled : Settled floor memory manager contexts)
    (hcontinues : Continues contexts contexts') : Settled floor memory manager contexts' :=
  hsettled.write hcontinues hsettled.order fun _ hmem => Or.inl hmem

/-- A transaction ends. -/
theorem register (hsettled : Settled floor memory manager contexts) (context : TranContext)
    (state : TransactionState) (hmem : context ∈ contexts)
    (hstate : state = .aborted → context.isAborted = true) :
    Settled floor memory (manager.addReadyToFlushTrancId context.trancId state) contexts where
  reached := hsettled.reached
  order := hsettled.order
  owner := hsettled.owner
  ready id found hfind := by
    change (manager.readyToFlushTrancIds.insert context.trancId state).find? id = some found
      at hfind
    rw [OrdMap.find?_insert] at hfind
    split_ifs at hfind with hid
    · obtain rfl := Option.some.inj hfind
      exact ⟨context, hmem, hid.symm, hstate⟩
    · exact hsettled.ready id found hfind
  covered := hsettled.covered

/-- One transaction whose marker left the memory is reported. -/
private theorem report (hsettled : Settled floor memory manager contexts) {trancId : ℕ}
    (hmoved : ∃ context ∈ contexts, context.trancId = trancId ∧ context.isCommited = true ∧
      ∀ entry ∈ memory, entry.txid ≠ trancId) :
    Settled floor memory (manager.addFlushedTrancId trancId) contexts where
  reached := hsettled.reached.trans (manager.checkpoint_le_addFlushedTrancId trancId)
  order := hsettled.order
  owner := hsettled.owner
  ready id state hfind := hsettled.ready id state (manager.ready_addFlushedTrancId trancId hfind)
  covered id hpos hcovers := by
    rcases manager.covers_addFlushedTrancId trancId hcovers with hold | ⟨state, hfind, hreason⟩
    · exact hsettled.covered id hpos hold
    · rcases hreason with rfl | rfl
      · obtain ⟨context, hcontext, hid, hdone⟩ := hmoved
        exact ⟨context, hcontext, hid, Or.inr hdone⟩
      · obtain ⟨context, hcontext, hid, haborted⟩ := hsettled.ready id _ hfind
        exact ⟨context, hcontext, hid, Or.inl (haborted rfl)⟩

/-- Records leave the memory, and the markers among them are reported. -/
theorem flushed (hsettled : Settled floor memory manager contexts) {moved : List Entry}
    (hmoved : memory' ++ moved = memory) :
    Settled floor memory' manager contexts ∧
      Settled floor memory' ((MemTable.markerIds moved).foldl TranManager.addFlushedTrancId manager)
        contexts := by
  subst hmoved
  have hstays : Settled floor memory' manager contexts :=
    { reached := hsettled.reached
      order := (List.pairwise_append.mp hsettled.order).1
      owner := fun entry hmem => hsettled.owner entry (List.mem_append_left _ hmem)
      ready := hsettled.ready
      covered := fun id hpos hcovers => by
        obtain ⟨context, hcontext, hid, hover⟩ := hsettled.covered id hpos hcovers
        refine ⟨context, hcontext, hid, hover.imp_right fun ⟨hdone, hgone⟩ => ⟨hdone, ?_⟩⟩
        exact fun entry hmem => hgone entry (List.mem_append_left _ hmem) }
  refine ⟨hstays, ?_⟩
  have hids : ∀ id ∈ MemTable.markerIds moved, ∃ context ∈ contexts, context.trancId = id ∧
      context.isCommited = true ∧ ∀ entry ∈ memory', entry.txid ≠ id := by
    intro id hid
    obtain ⟨marker, hmarker, rfl⟩ := List.mem_map.mp hid
    obtain ⟨hmem, hkey⟩ := List.mem_filter.mp hmarker
    have hkey := (of_decide_eq_true hkey).1
    obtain ⟨-, context, hcontext, hown, hcommitted⟩ :=
      hsettled.owner marker (List.mem_append_right _ hmem) hkey
    refine ⟨context, hcontext, hown, hcommitted, fun entry hentry => ?_⟩
    exact (List.pairwise_append.mp hsettled.order).2.2 entry hentry marker hmem hkey
  generalize MemTable.markerIds moved = ids at hids
  clear hsettled
  induction ids generalizing manager with
  | nil => exact hstays
  | cons id rest ih =>
      exact ih (hstays.report (hids id List.mem_cons_self))
        fun other hmem => hids other (List.mem_cons_of_mem _ hmem)

end Settled

/-! ## The store -/

/-- The keys that a call writes. -/
def Call.keys : Call → List Bytes
  | .write _ op _ => [op.key]
  | .plainPut key _ => [key]
  | .plainPutBatch kvs => kvs.map Prod.fst
  | .plainRemove key => [key]
  | .plainRemoveBatch keys => keys
  | _ => []

namespace LSM

variable {floor : ℕ} {lsm : LSM} {history : List Entry}

def Settled (floor : ℕ) (lsm : LSM) : Prop :=
  KopiDb.Settled floor lsm.engine.memtable.records lsm.tranManager lsm.contexts

/-- Behind an engine call the manager hears of the markers that left the memory. -/
theorem settled_notify {memory : List Entry}
    (hsettled : KopiDb.Settled floor memory lsm.tranManager lsm.contexts)
    {outcome : Engine × Except Err Flushed}
    (hmoved : ∃ moved, outcome.1.memtable.records ++ moved = memory ∧
      ∀ flushed, outcome.2 = .ok flushed →
        flushed.flushedTrancIds = MemTable.markerIds moved) :
    (lsm.notify outcome).1.Settled floor := by
  obtain ⟨moved, hmemory, hids⟩ := hmoved
  obtain ⟨hstays, hreported⟩ := hsettled.flushed hmemory
  unfold notify
  split
  · exact hstays
  next flushed hok =>
    change KopiDb.Settled _ _ (flushed.flushedTrancIds.foldl _ _) _
    rw [hids flushed hok]
    exact hreported

/-- User keys are written by a writer that did not commit. -/
theorem settled_batch (config : Config) (hinv : Engine.LevelInvariant lsm.engine) {α : Type}
    (keyOf valueOf : α → Bytes) (trancId : ℕ) (batch : List α)
    (hkeys : ∀ item ∈ batch, keyOf item ≠ [])
    (hrunning : ∀ context ∈ lsm.contexts, context.trancId = trancId →
      context.isCommited = false)
    (hsettled : lsm.Settled floor) {mem : MemTable}
    (hmem : mem.records = (batch.foldl (fun mem item =>
      mem.put_ (keyOf item) (valueOf item) trancId) lsm.engine.memtable).records) :
    (lsm.notify (Engine.flushIfFull config { lsm.engine with memtable := mem })).1.Settled floor := by
  have hnew : ∀ entry ∈ lsm.engine.memtable.records, entry.key = [] → entry.txid ≠ trancId := by
    intro entry hentry hkey hid
    obtain ⟨-, context, hcontext, hown, hcommitted⟩ := hsettled.owner entry hentry hkey
    have hopen := hrunning context hcontext (hown.trans hid)
    exact Bool.false_ne_true (hopen.symm.trans hcommitted)
  obtain ⟨horder, -, hwritten⟩ :=
    MemTable.markersFirst_foldl_put_ keyOf valueOf hkeys hsettled.order hnew
  rw [← hmem] at horder hwritten
  have hwrite : KopiDb.Settled floor mem.records lsm.tranManager lsm.contexts := by
    apply hsettled.write (Settled.Continues.refl _) horder
    intro entry hentry
    apply (hwritten entry hentry).imp_right
    rintro ⟨rfl, hkey⟩
    exact ⟨hrunning, fun hnil => absurd hnil hkey⟩
  exact settled_notify hwrite (Engine.flushIfFull_moves config (hinv.withMemtable mem))

/-- A plain write has a number that no transaction has. -/
theorem settled_plain (config : Config) (hfollows : Engine.Follows lsm.engine history)
    (hcoherent : (lsm.view history).Coherent) {α : Type} (keyOf valueOf : α → Bytes)
    (batch : List α) (hkeys : ∀ item ∈ batch, keyOf item ≠ []) (hsettled : lsm.Settled floor)
    {mem : MemTable}
    (hmem : mem.records = (batch.foldl (fun mem item =>
      mem.put_ (keyOf item) (valueOf item) lsm.takeTrancId.2) lsm.engine.memtable).records) :
    (lsm.takeTrancId.1.notify
      (Engine.flushIfFull config { lsm.engine with memtable := mem })).1.Settled floor := by
  have htaken : lsm.takeTrancId.1.Settled floor :=
    { reached := hsettled.reached
      order := hsettled.order
      owner := hsettled.owner
      ready := hsettled.ready
      covered := hsettled.covered }
  have hinv : Engine.LevelInvariant lsm.takeTrancId.1.engine := hfollows.invariant
  apply settled_batch config hinv keyOf valueOf lsm.takeTrancId.2 batch hkeys ?_ htaken hmem
  intro context hcontext hid
  exact absurd hid (hcoherent.id_lt context hcontext).ne

end LSM

namespace TranContext

variable {floor : ℕ} {lsm : LSM} {history : List Entry}

/-- The write of a transaction at the lowest level, behind its log. -/
private theorem settled_apply (config : Config) (hsettled : lsm.Settled floor)
    (hinv : Engine.LevelInvariant lsm.engine) (op : WriteOp) (trancId : ℕ) (hkey : op.key ≠ [])
    (hrunning : ∀ context ∈ lsm.contexts, context.trancId = trancId →
      context.isCommited = false) :
    (lsm.notify (op.apply config lsm.engine trancId)).1.Settled floor := by
  have hkeys : ∀ item ∈ [op], WriteOp.key item ≠ [] := by
    intro item hmem
    rwa [List.mem_singleton.mp hmem]
  cases op with
  | put key value =>
      exact LSM.settled_batch config hinv WriteOp.key WriteOp.value trancId [_] hkeys
        hrunning hsettled (MemTable.records_freezeIfFull _ config)
  | remove key =>
      exact LSM.settled_batch config hinv WriteOp.key WriteOp.value trancId [_] hkeys
        hrunning hsettled (MemTable.records_freezeIfFull _ config)

/-- The transaction at the handle is the only one with its number, and it is open. -/
private theorem running_set (hcoherent : (lsm.view history).Coherent) {handle : ℕ}
    {context : TranContext} (hcontext : lsm.contexts[handle]? = some context)
    (hopen : context.finished = false) {context' : TranContext}
    (hcommited : context'.isCommited = context.isCommited) :
    ∀ other ∈ lsm.contexts.set handle context', other.trancId = context.trancId →
      other.isCommited = false := by
  intro other hother hid
  rcases View.Coherent.mem_set_cases hcontext hcoherent hother with rfl | ⟨-, hne⟩
  · exact hcommited.trans (Bool.or_eq_false_iff.mp hopen).1
  · exact absurd hid hne

/-- A write of a transaction. -/
theorem settled_write (config : Config) (hfollows : Engine.Follows lsm.engine history)
    (hcoherent : (lsm.view history).Coherent) (hsettled : lsm.Settled floor) (handle : ℕ)
    {op : WriteOp} (hkey : op.key ≠ []) (walOk : Bool) :
    (write config lsm handle op walOk).1.Settled floor := by
  unfold write
  split
  · exact hsettled
  next context hcontext =>
    split
    · exact hsettled
    next hopen =>
      rw [Bool.not_eq_true] at hopen
      split
      · exact hsettled
      next record hrecord =>
        have hset : ∀ (context' : TranContext) (wal : List Record),
            context'.trancId = context.trancId →
            context'.isCommited = context.isCommited → context'.isAborted = context.isAborted →
            LSM.Settled floor { lsm.setContext handle context' with wal := wal } := by
          intro context' wal hid hcommited haborted
          apply Settled.extend hsettled
          exact Settled.Continues.set hcontext hid hcommited.ge haborted.ge
        dsimp only
        split
        next hlevel =>
          rcases persist_cases lsm handle (context.logged record) walOk with
            ⟨hpersist, -⟩ | ⟨err, hpersist, -⟩
          · rw [hpersist]
            simp only [andThen]
            have hpersisted := hset (context.logged record).persisted
              (lsm.wal ++ (context.logged record).pending) rfl rfl rfl
            exact settled_apply config hpersisted hfollows.invariant op context.trancId hkey
              (running_set hcoherent hcontext hopen rfl)
          · rw [hpersist]
            exact hset _ lsm.wal rfl rfl rfl
        next hlevel => exact hset _ lsm.wal rfl rfl rfl

/-- The writes of a commit: the staged keys, then the marker. -/
theorem markersFirst_applyStaged (context : TranContext) (mem : MemTable)
    (hstaged : ∀ staged ∈ context.tempMap.entries, staged.1 ≠ [])
    (hfirst : MarkersFirst mem.records)
    (hnew : ∀ entry ∈ mem.records, entry.key = [] → entry.txid ≠ context.trancId) :
    MarkersFirst (context.applyStaged mem).records := by
  unfold applyStaged
  split_ifs
  · exact MemTable.markersFirst_put_ hfirst hnew [] []
  · obtain ⟨hwritten, hmarkers, -⟩ :=
      MemTable.markersFirst_foldl_put_ Prod.fst Prod.snd hstaged hfirst hnew
    exact MemTable.markersFirst_put_ hwritten hmarkers [] []

private theorem settled_applyCommit (config : Config) (hsettled : lsm.Settled floor) {handle : ℕ}
    {context : TranContext} (hcontext : lsm.contexts[handle]? = some context)
    (hrunning : ∀ other ∈ lsm.contexts, other.trancId = context.trancId →
      other.isCommited = false)
    (hstaged : ∀ staged ∈ context.tempMap.entries, staged.1 ≠ []) :
    (applyCommit config lsm handle context).Settled floor := by
  have hnew : ∀ entry ∈ lsm.engine.memtable.records, entry.key = [] →
      entry.txid ≠ context.trancId := by
    intro entry hentry hkey hsame
    obtain ⟨-, other, hother, hown, hcommitted⟩ := hsettled.owner entry hentry hkey
    exact Bool.false_ne_true ((hrunning other hother (hown.trans hsame)).symm.trans hcommitted)
  have hself : { context with isCommited := true } ∈
      lsm.contexts.set handle { context with isCommited := true } :=
    List.mem_set (List.getElem?_eq_some_iff.mp hcontext).1 _
  have hwrite : Settled floor (context.applyStaged lsm.engine.memtable).records lsm.tranManager
      (lsm.contexts.set handle { context with isCommited := true }) := by
    apply Settled.write hsettled
    · refine @Settled.Continues.set _ _ _ { context with isCommited := true } hcontext rfl ?_ id
      exact fun _ => rfl
    · exact markersFirst_applyStaged context _ hstaged hsettled.order hnew
    · intro entry hentry
      have hentry := (context.reflects_applyStaged lsm.engine.memtable).subset entry hentry
      rcases List.mem_append.mp hentry with hown | hold
      · right
        have htxid := txid_of_mem_committedEntries hown
        refine ⟨fun other hother hsame => hrunning other hother (hsame.trans htxid), ?_⟩
        intro hkey
        rcases mem_committedEntries.mp hown with rfl | ⟨-, staged, hmem, rfl⟩
        · exact ⟨rfl, _, hself, rfl, rfl⟩
        · exact absurd hkey (hstaged staged hmem)
      · exact Or.inl hold
  have hregistered := hwrite.register { context with isCommited := true } .opCommitted hself
    fun hstate => by cases hstate
  rw [← MemTable.records_freezeIfFull _ config] at hregistered
  exact hregistered

private theorem settled_commit (config : Config) (hfollows : Engine.Follows lsm.engine history)
    (hcoherent : (lsm.view history).Coherent) (hsettled : lsm.Settled floor)
    (hstaged : ∀ context ∈ lsm.contexts, ∀ staged ∈ context.tempMap.entries, staged.1 ≠ [])
    (handle : ℕ) (walOk : Bool) : (commit config lsm handle false walOk).1.Settled floor := by
  unfold commit
  split
  · exact hsettled
  next context hcontext =>
    split
    · exact hsettled
    next hopen =>
      rw [Bool.not_eq_true] at hopen
      rw [if_neg Bool.false_ne_true]
      split
      · exact hsettled
      · unfold commitLocked
        split
        · exact hsettled
        · have hrolled : Settled floor lsm.engine.memtable.records lsm.tranManager
              (lsm.contexts.set handle { context with isAborted := true }) := by
            apply hsettled.extend
            exact @Settled.Continues.set _ _ _ { context with isAborted := true } hcontext rfl
              id fun _ => rfl
          exact hrolled.register { context with isAborted := true } .aborted
            (List.mem_set (List.getElem?_eq_some_iff.mp hcontext).1 _) fun _ => rfl
        · dsimp only
          rcases persist_cases lsm handle
              (context.logged (Record.commitRecord context.trancId)) walOk with
            ⟨hpersist, -⟩ | ⟨err, hpersist, -⟩
          · rw [hpersist]
            have hpersisted : LSM.Settled floor { lsm.setContext handle
                (context.logged (Record.commitRecord context.trancId)).persisted with
                wal := lsm.wal ++
                  (context.logged (Record.commitRecord context.trancId)).pending } := by
              apply hsettled.extend
              exact @Settled.Continues.set _ _ _
                (context.logged (Record.commitRecord context.trancId)).persisted hcontext rfl
                id id
            have happlied := settled_applyCommit config hpersisted
              (List.getElem?_set_self (List.getElem?_eq_some_iff.mp hcontext).1)
              (running_set hcoherent hcontext hopen rfl)
              (hstaged context (List.mem_of_getElem? hcontext))
            have hfollowed := follows_applyCommit config hfollows handle
              (context.logged (Record.commitRecord context.trancId)).persisted
            have hflush : ∀ next : LSM, (next.Settled floor ∧ Engine.Follows next.engine
                ((context.logged (Record.commitRecord context.trancId)).persisted.committedEntries
                  ++ history)) → (next.flush config).1.Settled floor ∧
                Engine.Follows (next.flush config).1.engine
                  ((context.logged (Record.commitRecord context.trancId)).persisted.committedEntries
                    ++ history) := by
              intro next hkept
              refine ⟨LSM.settled_notify hkept.1 (Engine.flush_moves config hkept.2.invariant), ?_⟩
              rw [LSM.flush, LSM.engine_notify]
              exact hkept.2.run config .flush
            exact (finish_rule hflush (_, .ok true) ⟨happlied, hfollowed⟩).1
          · rw [hpersist]
            apply hsettled.extend
            exact @Settled.Continues.set _ _ _
              (context.logged (Record.commitRecord context.trancId)) hcontext rfl id id

private theorem settled_abort (hsettled : lsm.Settled floor) (handle : ℕ) :
    (abort lsm handle).1.Settled floor := by
  unfold abort
  split
  · exact hsettled
  next context hcontext =>
    split_ifs
    · exact hsettled
    · exact hsettled
    · exact hsettled
    · let rolled : TranContext := { context with
        isAborted := true
        tempMap := ∅
        readMap := ∅
        operations := [] }
      have hrolled := hsettled.extend
        (@Settled.Continues.set _ _ _ rolled hcontext rfl id fun _ => rfl)
      exact hrolled.register rolled .aborted
        (List.mem_set (List.getElem?_eq_some_iff.mp hcontext).1 _) fun _ => rfl

private theorem settled_get (hsettled : lsm.Settled floor) (handle : ℕ) (key : Bytes) :
    (get lsm handle key).1.Settled floor := by
  unfold get
  split
  · exact hsettled
  next context hcontext =>
    split
    · exact hsettled
    · split
      · exact hsettled
      · dsimp only
        split
        · exact hsettled
        · split
          · exact hsettled
          · split
            · exact hsettled
            next query _ =>
              apply hsettled.extend
              exact @Settled.Continues.set _ _ _
                { context with readMap := context.readMap.insert key query } hcontext rfl id id

end TranContext

/-- What the manager says stays true of the memory. -/
theorem Call.run_settled (config : Config) {floor : ℕ} {lsm : LSM} {history : List Entry}
    (hfollows : Engine.Follows lsm.engine history) (hcoherent : (lsm.view history).Coherent)
    (hstaged : ∀ context ∈ lsm.contexts, ∀ staged ∈ context.tempMap.entries, staged.1 ≠ [])
    (hsettled : lsm.Settled floor) (call : Call) (hkeys : ∀ key ∈ call.keys, key ≠ []) :
    (call.run config lsm).1.Settled floor := by
  have htaken : lsm.takeTrancId.1.Settled floor :=
    { reached := hsettled.reached
      order := hsettled.order
      owner := hsettled.owner
      ready := hsettled.ready
      covered := hsettled.covered }
  cases call with
  | beginTran isolationLevel =>
      have hbegun := Settled.extend htaken (Settled.Continues.append lsm.contexts
        [TranContext.start lsm.takeTrancId.2 isolationLevel])
      exact
        { reached := hbegun.reached
          order := hbegun.order
          owner := hbegun.owner
          ready := hbegun.ready
          covered := hbegun.covered }
  | write handle op walOk =>
      exact TranContext.settled_write config hfollows hcoherent hsettled handle
        (hkeys op.key List.mem_cons_self) walOk
  | get handle key => exact TranContext.settled_get hsettled handle key
  | commit handle walOk =>
      exact TranContext.settled_commit config hfollows hcoherent hsettled hstaged handle walOk
  | abort handle => exact TranContext.settled_abort hsettled handle
  | plainPut key value =>
      exact LSM.settled_plain config hfollows hcoherent Prod.fst Prod.snd
        [(key, value)] (by simpa [keys] using hkeys) hsettled
        (MemTable.records_freezeIfFull _ config)
  | plainPutBatch kvs =>
      exact LSM.settled_plain config hfollows hcoherent Prod.fst Prod.snd
        kvs (fun kv hmem => hkeys kv.1 (List.mem_map_of_mem hmem)) hsettled
        (MemTable.records_freezeIfFull _ config)
  | plainRemove key =>
      exact LSM.settled_plain config hfollows hcoherent id (fun _ => [])
        [key] hkeys hsettled
        (MemTable.records_freezeIfFull _ config)
  | plainRemoveBatch keys =>
      exact LSM.settled_plain config hfollows hcoherent id (fun _ => [])
        keys hkeys hsettled
        (MemTable.records_freezeIfFull _ config)
  | plainGet key => exact htaken
  | plainGetBatch keys => exact htaken
  | flush => exact LSM.settled_notify hsettled (Engine.flush_moves config hfollows.invariant)
  | freeze =>
      change Settled _ lsm.engine.memtable.frozenCurTable_.records _ _
      rw [MemTable.records_frozenCurTable_]
      exact hsettled
  | compact srcLevel =>
      have hmemory := (Engine.fullCompact_kept config hfollows.invariant
        (lsm.engine.levelSstIds.length + 1) srcLevel).memtable
      change Settled _ (lsm.engine.compact config srcLevel).1.memtable.records _ _
      rw [Engine.compact, hmemory]
      exact hsettled

/-! ## What the history says of the transactions -/

/-- The keys a call writes are not empty, so that the empty key stands for markers. -/
theorem Call.key_ne_nil_of_mem_plainEntries {call : Call} (hkeys : ∀ key ∈ call.keys, key ≠ [])
    {trancId : ℕ} {entry : Entry} (hmem : entry ∈ call.plainEntries trancId) :
    entry.key ≠ [] := by
  cases call with
  | plainPut key value =>
      rw [List.mem_singleton.mp hmem]
      exact hkeys key List.mem_cons_self
  | plainRemove key =>
      rw [List.mem_singleton.mp hmem]
      exact hkeys key List.mem_cons_self
  | plainPutBatch kvs =>
      obtain ⟨kv, hkv, rfl⟩ := List.mem_map.mp (List.mem_reverse.mp hmem)
      exact hkeys kv.1 (List.mem_map_of_mem hkv)
  | plainRemoveBatch keys =>
      obtain ⟨key, hkey, rfl⟩ := List.mem_map.mp (List.mem_reverse.mp hmem)
      exact hkeys key hkey
  | _ => cases hmem

namespace View

/-- Markers stand for commits. -/
structure Marked (view : View) : Prop where
  staged : ∀ context ∈ view.contexts, ∀ staged ∈ context.tempMap.entries, staged.1 ≠ []
  marker : ∀ entry ∈ view.history, entry.key = [] → entry.value = []
  marked : ∀ context ∈ view.contexts, context.isCommited = true →
    ⟨[], [], context.trancId⟩ ∈ view.history

theorem marked_empty : Marked empty where
  staged _ hmem := by cases hmem
  marker _ hmem := by cases hmem
  marked _ hmem := by cases hmem

namespace Marked

variable {view : View} {handle : ℕ} {context : TranContext}

private theorem set (hmarked : Marked view) (context' : TranContext) (written : List Entry)
    (active aborted : Finset ℕ) (wal : List Record)
    (hstaged : ∀ staged ∈ context'.tempMap.entries, staged.1 ≠ [])
    (hmarker : ∀ entry ∈ written, entry.key = [] → entry.value = [])
    (hself : context'.isCommited = true →
      ⟨[], [], context'.trancId⟩ ∈ written ++ view.history) :
    Marked { view with
      contexts := view.contexts.set handle context'
      history := written ++ view.history
      active := active
      aborted := aborted
      wal := wal } where
  staged other hmem := by
    rcases List.mem_or_eq_of_mem_set hmem with hold | rfl
    · exact hmarked.staged other hold
    · exact hstaged
  marker entry hmem := by
    rcases List.mem_append.mp hmem with hnew | hold
    · exact hmarker entry hnew
    · exact hmarked.marker entry hold
  marked other hmem hcommitted := by
    rcases List.mem_or_eq_of_mem_set hmem with hold | rfl
    · exact List.mem_append_right _ (hmarked.marked other hold hcommitted)
    · exact hself hcommitted

/-- The context at a handle changes, but writes nothing and does not commit. -/
private theorem touch (hmarked : Marked view) (hcontext : view.contexts[handle]? = some context)
    (context' : TranContext) (active aborted : Finset ℕ) (wal : List Record)
    (hstaged : ∀ staged ∈ context'.tempMap.entries, staged.1 ≠ [])
    (hid : context'.trancId = context.trancId)
    (hcommited : context'.isCommited = context.isCommited) :
    Marked { view.setContext handle context' with
      active := active
      aborted := aborted
      wal := wal } := by
  apply hmarked.set context' [] active aborted wal hstaged
  · exact fun _ hmem => absurd hmem List.not_mem_nil
  · rw [hid, hcommited]
    exact hmarked.marked context (List.mem_of_getElem? hcontext)

theorem step {view' : View} {call : Call} {outcome : Except Err Reply} (hmarked : Marked view)
    (hstep : Step view call outcome view') (hkeys : ∀ key ∈ call.keys, key ≠ []) :
    Marked view' := by
  cases hstep with
  | maintained | refused | gotStaged | gotFresh | gotCached | alreadyOver => exact hmarked
  | plain hcall =>
      refine ⟨hmarked.staged, fun entry hmem hkey => ?_, fun context hcontext hcommitted => ?_⟩
      · rcases List.mem_append.mp hmem with hnew | hold
        · exact absurd hkey (Call.key_ne_nil_of_mem_plainEntries hkeys hnew)
        · exact hmarked.marker entry hold hkey
      · exact List.mem_append_right _ (hmarked.marked context hcontext hcommitted)
  | begun isolationLevel =>
      refine ⟨fun context hmem => ?_, hmarked.marker, fun context hmem hcommitted => ?_⟩
      · rcases List.mem_append.mp hmem with hold | hnew
        · exact hmarked.staged context hold
        · rw [List.mem_singleton.mp hnew]
          exact fun _ hmem => absurd hmem List.not_mem_nil
      · rcases List.mem_append.mp hmem with hold | hnew
        · exact hmarked.marked context hold hcommitted
        · rw [List.mem_singleton.mp hnew] at hcommitted
          cases hcommitted
  | @staged handle op walOk context record hcontext hopen hlevel hrecord =>
      refine hmarked.touch hcontext _ view.active view.aborted view.wal ?_ rfl rfl
      rintro ⟨key, value⟩ hmem
      change (key, value) ∈ (context.tempMap.insert op.key op.value).entries at hmem
      rw [← OrdMap.find?_eq_some_iff, OrdMap.find?_insert] at hmem
      split_ifs at hmem with hkey
      · rw [hkey]
        exact hkeys _ List.mem_cons_self
      · exact hmarked.staged context (List.mem_of_getElem? hcontext) _
          (OrdMap.find?_eq_some_iff.mp hmem)
  | @unlogged _ _ _ context _ _ hcontext =>
      exact hmarked.touch hcontext _ view.active view.aborted view.wal
        (hmarked.staged context (List.mem_of_getElem? hcontext)) rfl rfl
  | @applied handle op walOk context record outcome hcontext =>
      have hmem := List.mem_of_getElem? hcontext
      apply hmarked.set (context.logged record).persisted
        [⟨op.key, op.value, context.trancId⟩] view.active view.aborted _
        (hmarked.staged context hmem)
      · intro entry hentry hkey
        rw [List.mem_singleton.mp hentry] at hkey
        exact absurd hkey (hkeys _ List.mem_cons_self)
      · exact fun hcommitted => List.mem_append_right _ (hmarked.marked context hmem hcommitted)
  | @gotFirst _ _ context _ hcontext =>
      exact hmarked.touch hcontext _ view.active view.aborted view.wal
        (hmarked.staged context (List.mem_of_getElem? hcontext)) rfl rfl
  | @conflict _ _ context hcontext =>
      exact hmarked.touch hcontext _ _ _ view.wal
        (hmarked.staged context (List.mem_of_getElem? hcontext)) rfl rfl
  | @commitUnlogged _ _ context _ hcontext =>
      exact hmarked.touch hcontext _ view.active view.aborted view.wal
        (hmarked.staged context (List.mem_of_getElem? hcontext)) rfl rfl
  | @committed handle walOk context outcome hcontext =>
      have hkept := hmarked.staged context (List.mem_of_getElem? hcontext)
      apply hmarked.set
        { (context.logged (Record.commitRecord context.trancId)).persisted with
          isCommited := true } context.committedEntries _ view.aborted _ hkept
      · intro entry hmem hkey
        rcases TranContext.mem_committedEntries.mp hmem with rfl | ⟨-, staged, hstaged, rfl⟩
        · rfl
        · exact absurd hkey (hkept staged hstaged)
      · exact fun _ => List.mem_append_left _ List.mem_cons_self
  | @rolledBack _ context hcontext =>
      exact hmarked.touch hcontext _ _ _ view.wal
        (fun _ hmem => absurd hmem List.not_mem_nil) rfl rfl

theorem run {view' : View} {events : List Event} (hmarked : Marked view)
    (hrun : Run view events view')
    (hkeys : ∀ event ∈ events, ∀ key ∈ event.call.keys, key ≠ []) : Marked view' := by
  induction hrun with
  | nil => exact hmarked
  | cons hstep hrest ih =>
      exact ih (hmarked.step hstep (hkeys _ List.mem_cons_self))
        fun event hmem => hkeys event (List.mem_cons_of_mem _ hmem)

end Marked

/-- A write that was accepted is staged or in the history, until its transaction rolls
back. -/
theorem Run.written {view view' : View} {events : List Event} (hrun : Run view events view')
    {handle : ℕ} {op : WriteOp} {walOk : Bool}
    (haccepted : (⟨.write handle op walOk, .ok .done⟩ : Event) ∈ events) :
    ∃ context, view'.contexts[handle]? = some context ∧ (context.isAborted = false →
      (context.isolationLevel ≠ .readUnopCommitted ∧
        (context.tempMap.find? op.key).isSome) ∨
      ∃ entry ∈ view'.history, entry.key = op.key ∧ entry.txid = context.trancId) := by
  obtain ⟨front, back, rfl⟩ := List.mem_iff_append.mp haccepted
  obtain ⟨middle, -, hback⟩ := hrun.split
  cases hback with
  | @cons _ next _ _ _ _ hstep hrest =>
      have hgrows := hrest.grows
      cases hstep with
      | maintained hcall => cases hcall
      | plain hcall => cases hcall
      | @staged _ _ _ context record hcontext hopen hlevel hrecord =>
          obtain ⟨last, hlast, hgoes⟩ := hgrows.contexts handle _
            (List.getElem?_set_self (List.getElem?_eq_some_iff.mp hcontext).1)
          refine ⟨last, hlast, fun hkept => Or.inl ⟨?_, hgoes.tempMap hkept op.key ?_⟩⟩
          · rw [hgoes.isolationLevel]
            exact hlevel
          · dsimp only
            rw [OrdMap.find?_insert_self]
            rfl
      | @applied _ _ _ context record _ hcontext hopen hlevel hrecord =>
          obtain ⟨last, hlast, hgoes⟩ := hgrows.contexts handle _
            (List.getElem?_set_self (List.getElem?_eq_some_iff.mp hcontext).1)
          refine ⟨last, hlast, fun _ => Or.inr ⟨_, hgrows.history _ List.mem_cons_self, rfl, ?_⟩⟩
          exact hgoes.trancId.symm

end View

/-! ## Runs -/

variable (config : Config) {calls : List Call}

theorem runCalls_marked (hkeys : ∀ call ∈ calls, ∀ key ∈ call.keys, key ≠ [])
    {history : List Entry}
    (hrun : View.Run View.empty (runCalls config LSM.new calls).2
      ((runCalls config LSM.new calls).1.view history)) :
    ((runCalls config LSM.new calls).1.view history).Marked := by
  apply View.marked_empty.run hrun
  intro event hmem
  apply hkeys
  rw [← runCalls_call config LSM.new calls]
  exact List.mem_map_of_mem hmem

theorem settled_new : LSM.new.Settled 0 where
  reached := le_rfl
  order := List.Pairwise.nil
  owner _ hmem := by cases hmem
  ready _ _ hfind := by cases hfind
  covered id hpos hcovers := by
    rcases hcovers with hle | hmem
    · exact absurd hpos (not_lt.mpr hle)
    · cases hmem

/-- What held behind some calls of a run holds behind more of them. -/
theorem runCalls_settled {floor : ℕ} (front : List Call) (rest : List Call)
    (hkeys : ∀ call ∈ front ++ rest, ∀ key ∈ call.keys, key ≠ [])
    (hfront : (runCalls config LSM.new front).1.Settled floor) :
    (runCalls config LSM.new (front ++ rest)).1.Settled floor := by
  induction rest using List.reverseRecOn with
  | nil =>
      rw [List.append_nil]
      exact hfront
  | append_singleton middle call ih =>
      rw [← List.append_assoc] at hkeys ⊢
      have hbefore : ∀ call ∈ front ++ middle, ∀ key ∈ call.keys, key ≠ [] :=
        fun other hmem => hkeys other (List.mem_append_left _ hmem)
      obtain ⟨history, hrun, hfollows⟩ :=
        runCalls_refines config LSM.follows_new (front ++ middle)
      rw [runCalls_snoc]
      exact Call.run_settled config hfollows (View.coherent_empty.run hrun)
        (runCalls_marked config hbefore hrun).staged (ih hbefore) call
        (hkeys call (List.mem_append_right _ List.mem_cons_self))

/-- All that a transaction wrote is in the files: its marker, every version of the history
and every write that was accepted. -/
structure LSM.InFiles (lsm : LSM) (history : List Entry) (events : List Event)
    (handle trancId : ℕ) : Prop where
  memory : ∀ entry ∈ lsm.engine.memtable.records, entry.txid ≠ trancId
  marker : ⟨[], [], trancId⟩ ∈ lsm.engine.fileRecords
  stored : ∀ key, versionOf lsm.engine.fileRecords key trancId = versionOf history key trancId
  accepted : ∀ op walOk, (⟨.write handle op walOk, .ok .done⟩ : Event) ∈ events →
    ∃ entry ∈ lsm.engine.fileRecords, entry.key = op.key ∧ entry.txid = trancId

section

variable {lsm : LSM} {history : List Entry} {events : List Event} {handle : ℕ}
  {context : TranContext}

/-- What left the memory is in the files. -/
private theorem written_of_gone (hfollows : Engine.Follows lsm.engine history) {trancId : ℕ}
    (hgone : ∀ entry ∈ lsm.engine.memtable.records, entry.txid ≠ trancId) {entry : Entry}
    (hmem : entry ∈ history) (hid : entry.txid = trancId) :
    ∃ other ∈ lsm.engine.fileRecords, other.key = entry.key ∧ other.txid = trancId := by
  obtain ⟨other, hother, hkey, htxid⟩ := hfollows.reflects.writer hmem
  have hid := htxid.trans hid
  rcases List.mem_append.mp hother with hmemory | hfiles
  · exact absurd hid (hgone other hmemory)
  · exact ⟨other, hfiles, hkey, hid⟩

theorem inFiles_of_gone (hrun : View.Run View.empty events (lsm.view history))
    (hfollows : Engine.Follows lsm.engine history) (hmarked : (lsm.view history).Marked)
    (hcontext : lsm.contexts[handle]? = some context) (hcommitted : context.isCommited = true)
    (hgone : ∀ entry ∈ lsm.engine.memtable.records, entry.txid ≠ context.trancId) :
    lsm.InFiles history events handle context.trancId where
  memory := hgone
  marker := by
    have hmarker := hmarked.marked context (List.mem_of_getElem? hcontext) hcommitted
    obtain ⟨⟨key, value, txid⟩, hfiles, rfl, rfl⟩ := written_of_gone hfollows hgone hmarker rfl
    have hvalue := hmarked.marker _
      (hfollows.reflects.subset _ (List.mem_append_right _ hfiles)) rfl
    dsimp only at hvalue
    subst hvalue
    exact hfiles
  stored key := by
    have hlatest := hfollows.reflects.latest key context.trancId
    rw [Engine.records, Versions.versionsOf_append, versionsOf_eq_nil hgone,
      List.nil_append] at hlatest
    rw [versionOf, versionOf, hlatest]
  accepted op walOk hevent := by
    have hcoherent := View.coherent_empty.run hrun
    obtain ⟨found, hfound, hwritten⟩ := hrun.written hevent
    obtain rfl := Option.some.inj (hcontext.symm.trans hfound)
    have hmem := List.mem_of_getElem? hcontext
    have hkept : context.isAborted = false := by
      rw [← Bool.not_eq_true]
      exact fun haborted => hcoherent.exclusive context hmem ⟨hcommitted, haborted⟩
    rcases hwritten hkept with ⟨hlevel, hstaged⟩ | ⟨entry, hentry, hkey, hid⟩
    · obtain ⟨value, hvalue⟩ := Option.isSome_iff_exists.mp hstaged
      obtain ⟨entry, hentry, hkey, hid⟩ := hcoherent.published context hmem hlevel hcommitted
        (op.key, value) (OrdMap.find?_eq_some_iff.mp hvalue)
      obtain ⟨other, hother, hsame, hown⟩ := written_of_gone hfollows hgone hentry hid
      exact ⟨other, hother, hsame.trans hkey, hown⟩
    · obtain ⟨other, hother, hsame, hown⟩ := written_of_gone hfollows hgone hentry hid
      exact ⟨other, hother, hsame.trans hkey, hown⟩

end

/-- Every transaction up to the checkpoint is over, and it rolled back or all that it wrote
is in the files.  The checkpoint never goes back. -/
theorem checkpoint_safe (hkeys : ∀ call ∈ calls, ∀ key ∈ call.keys, key ≠ []) :
    let run := runCalls config LSM.new calls
    (∃ history, View.Run View.empty run.2 (run.1.view history) ∧
      ∀ handle context, run.1.contexts[handle]? = some context →
        context.trancId ≤ run.1.tranManager.getCheckpointTrancId →
        context.trancId ∉ run.1.tranManager.activeTrans ∧
          (context.trancId ∈ run.1.tranManager.abortedTrancIds ∨
            context.isCommited = true ∧
              run.1.InFiles history run.2 handle context.trancId)) ∧
      ∀ front, front <+: calls →
        (runCalls config LSM.new front).1.tranManager.getCheckpointTrancId ≤
          run.1.tranManager.getCheckpointTrancId := by
  constructor
  · obtain ⟨history, hrun, hfollows⟩ := runCalls_refines config LSM.follows_new calls
    have hsettled := runCalls_settled config [] calls hkeys settled_new
    have hcoherent := View.coherent_empty.run hrun
    refine ⟨history, hrun, fun handle context hcontext hle => ?_⟩
    have hmem := List.mem_of_getElem? hcontext
    obtain ⟨other, hother, hid, hover⟩ :=
      hsettled.covered context.trancId (hcoherent.id_pos context hmem) (Or.inl hle)
    obtain rfl := hcoherent.eq_of_trancId hother hmem hid
    constructor
    · intro hactive
      have hopen := (hcoherent.active_iff other hmem).mp hactive
      obtain ⟨hrunning, hkept⟩ := Bool.or_eq_false_iff.mp hopen
      rcases hover with haborted | ⟨hcommitted, -⟩
      · exact Bool.false_ne_true (hkept.symm.trans haborted)
      · exact Bool.false_ne_true (hrunning.symm.trans hcommitted)
    · rcases hover with haborted | ⟨hcommitted, hgone⟩
      · exact Or.inl ((hcoherent.aborted_iff other hmem).mpr haborted)
      · exact Or.inr ⟨hcommitted, inFiles_of_gone hrun hfollows
          (runCalls_marked config hkeys hrun) hcontext hcommitted hgone⟩
  · rintro front ⟨rest, rfl⟩
    have hfront := runCalls_settled config [] front
      (fun call hmem => hkeys call (List.mem_append_left _ hmem)) settled_new
    exact (runCalls_settled config front rest hkeys { hfront with reached := le_rfl }).reached

/-- One transaction rolls back; the write and the marker of the other one are flushed
apart. -/
theorem checkpoint_safe_sample :
    let calls : List Call := [.beginTran .repeatableRead, .beginTran .readUnopCommitted,
      .write 1 (.put [1] [7]) true, .freeze, .abort 0, .commit 1 true, .flush, .flush]
    let run := runCalls smallConfig LSM.new calls
    (∃ history, View.Run View.empty run.2 (run.1.view history) ∧
      ∀ handle context, run.1.contexts[handle]? = some context →
        context.trancId ≤ run.1.tranManager.getCheckpointTrancId →
        context.trancId ∉ run.1.tranManager.activeTrans ∧
          (context.trancId ∈ run.1.tranManager.abortedTrancIds ∨
            context.isCommited = true ∧
              run.1.InFiles history run.2 handle context.trancId)) ∧
      ∀ front, front <+: calls →
        (runCalls smallConfig LSM.new front).1.tranManager.getCheckpointTrancId ≤
          run.1.tranManager.getCheckpointTrancId := by
  apply checkpoint_safe
  decide

end KopiDb
