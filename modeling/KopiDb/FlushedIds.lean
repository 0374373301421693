import KopiDb.EngineContract
import KopiDb.Refine
import KopiDb.Restart

/-!
# The order of flush notifications

The manager is told one by one which transactions a flush wrote out.  What it has settled
in the end depends on the set of the numbers alone: a packed watermark is known by the
numbers that it covers, and every notification adds its numbers to those.
-/

namespace KopiDb

namespace TranManager

attribute [ext] TranManager

/-- The part of `init_new_wal` behind the log: everything handed out so far is settled. -/
def initNewWal (manager : TranManager) : TranManager :=
  { manager with flushedTrancIds := Watermark.upTo (manager.nextTransactionId - 1) }

/-- The states that the manager can be in. -/
inductive Reachable : TranManager → Prop where
  | new : Reachable new
  | getNextTransactionId {manager : TranManager} (hreachable : Reachable manager) :
      Reachable manager.getNextTransactionId.1
  | register {manager : TranManager} (hreachable : Reachable manager) (trancId : ℕ) :
      Reachable (manager.register trancId)
  | addReadyToFlushTrancId {manager : TranManager} (hreachable : Reachable manager)
      (trancId : ℕ) (state : TransactionState) :
      Reachable (manager.addReadyToFlushTrancId trancId state)
  | addFlushedTrancId {manager : TranManager} (hreachable : Reachable manager)
      (trancId : ℕ) : Reachable (manager.addFlushedTrancId trancId)
  | initNewWal {manager : TranManager} (hreachable : Reachable manager) :
      Reachable manager.initNewWal
  | restarted {manager : TranManager} (hreachable : Reachable manager) :
      Reachable manager.restarted

/-- What notifications settle of the transactions that are registered as ended: the notified
ones, and those that rolled back up to the largest notified number. -/
def settles (trancIds : List ℕ) (readyId : ℕ) (state : TransactionState) : Bool :=
  decide (readyId ∈ trancIds) ||
    (decide (state = .aborted) && trancIds.max?.any fun largest => decide (readyId ≤ largest))

/-- The numbers that notifications settle. -/
def settledIds (manager : TranManager) (trancIds : List ℕ) : Finset ℕ :=
  ((manager.readyToFlushTrancIds.entries.filter fun ready =>
    settles trancIds ready.1 ready.2).map Prod.fst).toFinset

/-- The ended transactions that notifications leave. -/
def unsettled (manager : TranManager) (trancIds : List ℕ) : OrdMap ℕ TransactionState :=
  ⟨manager.readyToFlushTrancIds.entries.filter fun ready => !settles trancIds ready.1 ready.2,
    manager.readyToFlushTrancIds.sorted.filter _⟩

section

variable {manager : TranManager} {trancId : ℕ} {trancIds : List ℕ}

theorem settles_iff {readyId : ℕ} {state : TransactionState} :
    settles trancIds readyId state = true ↔ readyId ∈ trancIds ∨
      state = .aborted ∧ ∃ trancId ∈ trancIds, readyId ≤ trancId := by
  rw [settles, Bool.or_eq_true, Bool.and_eq_true, decide_eq_true_iff, decide_eq_true_iff]
  have hlargest : (trancIds.max?.any fun largest => decide (readyId ≤ largest)) = true ↔
      ∃ trancId ∈ trancIds, readyId ≤ trancId := by
    cases hmax : trancIds.max? with
    | none =>
        rw [List.max?_eq_none_iff] at hmax
        simp [hmax]
    | some largest =>
        obtain ⟨hmem, hle⟩ := List.max?_eq_some_iff.mp hmax
        rw [Option.any_some, decide_eq_true_iff]
        constructor
        · exact fun hready => ⟨largest, hmem, hready⟩
        · rintro ⟨trancId, htranc, hready⟩
          exact hready.trans (hle trancId htranc)
  rw [hlargest]

theorem settles_singleton {readyId : ℕ} {state : TransactionState} :
    settles [trancId] readyId state = true ↔
      readyId ≤ trancId ∧ ¬(readyId ≠ trancId ∧ state ≠ .aborted) := by
  rw [settles_iff]
  simp only [List.mem_singleton, exists_eq_left]
  constructor
  · rintro (rfl | ⟨rfl, hle⟩)
    · exact ⟨le_rfl, fun hother => hother.1 rfl⟩
    · exact ⟨hle, fun hother => hother.2 rfl⟩
  · rintro ⟨hle, hother⟩
    rw [not_and_or, not_not, not_not] at hother
    rcases hother with rfl | rfl
    · exact Or.inl rfl
    · exact Or.inr ⟨rfl, hle⟩

theorem settles_cons {readyId : ℕ} {state : TransactionState} :
    settles (trancId :: trancIds) readyId state =
      (settles [trancId] readyId state || settles trancIds readyId state) := by
  rw [Bool.eq_iff_iff, Bool.or_eq_true, settles_iff, settles_iff, settles_iff]
  simp only [List.mem_cons, List.not_mem_nil, or_false, exists_eq_or_imp, exists_eq_left]
  tauto

theorem mem_settledIds {readyId : ℕ} :
    readyId ∈ manager.settledIds trancIds ↔ ∃ state,
      manager.readyToFlushTrancIds.find? readyId = some state ∧
        settles trancIds readyId state = true := by
  simp [settledIds, OrdMap.find?_eq_some_iff]

theorem find?_unsettled (manager : TranManager) (trancIds : List ℕ) (readyId : ℕ) :
    (manager.unsettled trancIds).find? readyId =
      (manager.readyToFlushTrancIds.find? readyId).filter
        fun state => !settles trancIds readyId state := by
  apply Option.ext
  intro state
  rw [OrdMap.find?_eq_some_iff, Option.filter_eq_some_iff, OrdMap.find?_eq_some_iff]
  exact List.mem_filter

/-- The loop settles what one notification settles, and passes over the rest. -/
private theorem settleReady_spec {entries : List (ℕ × TransactionState)}
    (hsorted : entries.Pairwise fun left right => left.1 < right.1) (manager : TranManager) :
    let settled := settleReady trancId entries manager
    let taken (id : ℕ) : Prop :=
      ∃ state, (id, state) ∈ entries ∧ settles [trancId] id state = true
    (∀ id, settled.flushedTrancIds.Covers id ↔ manager.flushedTrancIds.Covers id ∨ taken id) ∧
    (∀ id, taken id → settled.readyToFlushTrancIds.find? id = none) ∧
    (∀ id, ¬taken id → settled.readyToFlushTrancIds.find? id =
      manager.readyToFlushTrancIds.find? id) ∧
    (manager.flushedTrancIds.Packed → settled.flushedTrancIds.Packed) := by
  induction entries generalizing manager with
  | nil =>
      refine ⟨fun id => ?_, fun id htaken => ?_, fun _ _ => rfl, id⟩
      · simp [settleReady]
      · obtain ⟨state, hmem, -⟩ := htaken
        cases hmem
  | cons ready rest ih =>
      obtain ⟨readyId, state⟩ := ready
      obtain ⟨hfirst, hrest⟩ := List.pairwise_cons.mp hsorted
      have hcons : ∀ id, (∃ other, (id, other) ∈ (readyId, state) :: rest ∧
          settles [trancId] id other = true) ↔
          (id = readyId ∧ settles [trancId] readyId state = true) ∨
            ∃ other, (id, other) ∈ rest ∧ settles [trancId] id other = true := by
        intro id
        constructor
        · rintro ⟨other, hmem, hsettles⟩
          rcases List.mem_cons.mp hmem with heq | hmem
          · obtain ⟨rfl, rfl⟩ := Prod.mk.inj heq
            exact Or.inl ⟨rfl, hsettles⟩
          · exact Or.inr ⟨other, hmem, hsettles⟩
        · rintro (⟨rfl, hsettles⟩ | ⟨other, hmem, hsettles⟩)
          · exact ⟨state, List.mem_cons_self, hsettles⟩
          · exact ⟨other, List.mem_cons_of_mem _ hmem, hsettles⟩
      dsimp only
      simp only [hcons]
      rw [settleReady]
      split_ifs with hle hskip
      · have hpassed : ¬settles [trancId] readyId state = true := by
          rw [settles_singleton]
          exact fun hsettles => hsettles.2 hskip
        have hfalse : ∀ id, ¬(id = readyId ∧ settles [trancId] readyId state = true) :=
          fun id htaken => hpassed htaken.2
        simp only [hfalse, false_or]
        exact ih hrest manager
      · have htaken : settles [trancId] readyId state = true :=
          settles_singleton.mpr ⟨hle, hskip⟩
        obtain ⟨hcovers, hgone, hkept, hpacked⟩ := ih hrest { manager with
          flushedTrancIds := manager.flushedTrancIds.add readyId
          readyToFlushTrancIds := manager.readyToFlushTrancIds.erase readyId }
        simp only [htaken, and_true]
        refine ⟨fun id => ?_, fun id hid => ?_, fun id hid => ?_,
          fun hold => hpacked (hold.add readyId)⟩
        · rw [hcovers, Watermark.covers_add, or_assoc]
        · by_cases hother : ∃ other, (id, other) ∈ rest ∧ settles [trancId] id other = true
          · exact hgone id hother
          · rw [hkept id hother, OrdMap.find?_erase, if_pos (hid.resolve_right hother)]
        · obtain ⟨hne, hother⟩ := not_or.mp hid
          rw [hkept id hother, OrdMap.find?_erase, if_neg hne]
      · -- The numbers ascend, so all others are larger than the notified one, too.
        have hnone : ∀ id, ¬∃ other, (id, other) ∈ (readyId, state) :: rest ∧
            settles [trancId] id other = true := by
          rintro id ⟨other, hmem, hsettles⟩
          have hbelow := (settles_singleton.mp hsettles).1
          rcases List.mem_cons.mp hmem with heq | hmem
          · obtain ⟨rfl, rfl⟩ := Prod.mk.inj heq
            exact hle hbelow
          · have hlt := hfirst _ hmem
            dsimp only at hlt
            omega
        simp only [hcons] at hnone
        exact ⟨fun id => ⟨Or.inl, fun hid => hid.resolve_right (hnone id)⟩,
          fun id hid => absurd hid (hnone id), fun _ _ => rfl, id⟩

/-- What one notification does. -/
theorem addFlushedTrancId_spec (manager : TranManager) (trancId : ℕ) :
    (∀ id, (manager.addFlushedTrancId trancId).flushedTrancIds.Covers id ↔
      manager.flushedTrancIds.Covers id ∨ id ∈ manager.settledIds [trancId]) ∧
    (∀ id, (manager.addFlushedTrancId trancId).readyToFlushTrancIds.find? id =
      (manager.unsettled [trancId]).find? id) ∧
    (manager.flushedTrancIds.Packed →
      (manager.addFlushedTrancId trancId).flushedTrancIds.Packed) := by
  obtain ⟨hcovers, hgone, hkept, hpacked⟩ :=
    @settleReady_spec trancId _ manager.readyToFlushTrancIds.sorted manager
  have hsettled : ∀ id, id ∈ manager.settledIds [trancId] ↔ ∃ state,
      (id, state) ∈ manager.readyToFlushTrancIds.entries ∧
        settles [trancId] id state = true := by
    intro id
    simp only [mem_settledIds, OrdMap.find?_eq_some_iff]
  simp only [← hsettled] at hcovers hgone hkept
  refine ⟨hcovers, fun id => ?_, hpacked⟩
  rw [find?_unsettled]
  by_cases hid : id ∈ manager.settledIds [trancId]
  · obtain ⟨state, hready, hsettles⟩ := mem_settledIds.mp hid
    rw [addFlushedTrancId, hgone id hid, hready, Option.filter_some, hsettles]
    rfl
  · rw [addFlushedTrancId, hkept id hid]
    cases hready : manager.readyToFlushTrancIds.find? id with
    | none => rfl
    | some state =>
        have hpassed : settles [trancId] id state = false := by
          rw [← Bool.not_eq_true]
          exact fun hsettles => hid (mem_settledIds.mpr ⟨state, hready, hsettles⟩)
        rw [Option.filter_some, hpassed]
        rfl

/-- What a sequence of notifications does. -/
theorem foldl_addFlushed_spec (manager : TranManager) (trancIds : List ℕ) :
    (∀ id, (trancIds.foldl addFlushedTrancId manager).flushedTrancIds.Covers id ↔
      manager.flushedTrancIds.Covers id ∨ id ∈ manager.settledIds trancIds) ∧
    (∀ id, (trancIds.foldl addFlushedTrancId manager).readyToFlushTrancIds.find? id =
      (manager.unsettled trancIds).find? id) ∧
    (manager.flushedTrancIds.Packed →
      (trancIds.foldl addFlushedTrancId manager).flushedTrancIds.Packed) := by
  induction trancIds generalizing manager with
  | nil =>
      have hnone : ∀ id state, settles [] id state = false := fun id state => by
        simp [settles]
      refine ⟨fun id => ?_, fun id => ?_, id⟩
      · simp [mem_settledIds, hnone]
      · rw [find?_unsettled, List.foldl_nil]
        cases manager.readyToFlushTrancIds.find? id with
        | none => rfl
        | some state =>
            rw [Option.filter_some, hnone]
            rfl
  | cons trancId rest ih =>
      obtain ⟨hcovers, hfind, hpacked⟩ := addFlushedTrancId_spec manager trancId
      obtain ⟨hcoversRest, hfindRest, hpackedRest⟩ := ih (manager.addFlushedTrancId trancId)
      rw [List.foldl_cons]
      refine ⟨fun id => ?_, fun id => ?_, fun hold => hpackedRest (hpacked hold)⟩
      · rw [hcoversRest, hcovers, or_assoc]
        simp only [mem_settledIds, hfind, find?_unsettled, @settles_cons trancId rest, Bool.or_eq_true]
        cases manager.readyToFlushTrancIds.find? id with
        | none => simp
        | some state => cases hsettles : settles [trancId] id state <;> simp [hsettles]
      · rw [hfindRest, find?_unsettled, hfind, find?_unsettled, find?_unsettled,
          Option.filter_filter]
        simp only [@settles_cons trancId rest, Bool.not_or,
          Bool.and_comm]

end

/-- The settled numbers of every state are packed. -/
theorem Reachable.packed {manager : TranManager} (hreachable : Reachable manager) :
    manager.flushedTrancIds.Packed := by
  induction hreachable with
  | new => exact Watermark.packed_upTo 0
  | getNextTransactionId _ ih => exact ih
  | register _ _ ih => exact ih
  | addReadyToFlushTrancId _ _ _ ih => exact ih
  | @addFlushedTrancId manager _ trancId ih =>
      exact (addFlushedTrancId_spec manager trancId).2.2 ih
  | initNewWal _ _ => exact Watermark.packed_upTo _
  | restarted _ ih => exact ih

theorem Reachable.foldl_addFlushed {manager : TranManager} (hreachable : Reachable manager)
    (trancIds : List ℕ) : Reachable (trancIds.foldl TranManager.addFlushedTrancId manager) := by
  induction trancIds generalizing manager with
  | nil => exact hreachable
  | cons trancId rest ih => exact ih (hreachable.addFlushedTrancId trancId)

end TranManager

/-! ## The manager of a store -/

namespace LSM

variable {config : Config} {lsm : LSM}

private theorem reachable_notify (hreachable : lsm.tranManager.Reachable)
    (outcome : Engine × Except Err Flushed) : (lsm.notify outcome).1.tranManager.Reachable := by
  unfold notify
  split
  · exact hreachable
  next flushed hok => exact hreachable.foldl_addFlushed flushed.flushedTrancIds

private theorem reachable_write (hreachable : lsm.tranManager.Reachable) (handle : ℕ)
    (op : WriteOp) (walOk : Bool) :
    (TranContext.write config lsm handle op walOk).1.tranManager.Reachable := by
  unfold TranContext.write
  split
  · exact hreachable
  next context hcontext =>
    split
    · exact hreachable
    · split
      · exact hreachable
      next record hrecord =>
        dsimp only
        split
        · rcases TranContext.persist_cases lsm handle (context.logged record) walOk with
            ⟨hpersist, -⟩ | ⟨err, hpersist, -⟩
          · rw [hpersist]
            exact @reachable_notify { lsm with
              contexts := lsm.contexts.set handle (context.logged record).persisted
              wal := lsm.wal ++ (context.logged record).pending } hreachable _
          · rw [hpersist]
            exact hreachable
        · exact hreachable

private theorem reachable_get (hreachable : lsm.tranManager.Reachable) (handle : ℕ)
    (key : Bytes) : (TranContext.get lsm handle key).1.tranManager.Reachable := by
  unfold TranContext.get
  split
  · exact hreachable
  · split
    · exact hreachable
    · split
      · exact hreachable
      · dsimp only
        split
        · exact hreachable
        · split
          · exact hreachable
          · split <;> exact hreachable

private theorem reachable_commit (hreachable : lsm.tranManager.Reachable) (handle : ℕ)
    (walOk : Bool) :
    (TranContext.commit config lsm handle false walOk).1.tranManager.Reachable := by
  unfold TranContext.commit
  split
  · exact hreachable
  next context hcontext =>
    split
    · exact hreachable
    · rw [if_neg Bool.false_ne_true]
      split
      · exact hreachable
      · apply @TranContext.finish_rule config fun lsm => lsm.tranManager.Reachable
        · exact fun next hnext => reachable_notify hnext _
        · unfold TranContext.commitLocked
          split
          · exact hreachable
          · exact hreachable.addReadyToFlushTrancId _ _
          · dsimp only
            rcases TranContext.persist_cases lsm handle
                (context.logged (Record.commitRecord context.trancId)) walOk with
              ⟨hpersist, -⟩ | ⟨err, hpersist, -⟩
            · rw [hpersist]
              exact hreachable.addReadyToFlushTrancId _ _
            · rw [hpersist]
              exact hreachable

private theorem reachable_abort (hreachable : lsm.tranManager.Reachable) (handle : ℕ) :
    (TranContext.abort lsm handle).1.tranManager.Reachable := by
  unfold TranContext.abort
  split
  · exact hreachable
  · split_ifs
    · exact hreachable
    · exact hreachable
    · exact hreachable
    · exact hreachable.addReadyToFlushTrancId _ _

end LSM

theorem Call.run_reachable (config : Config) {lsm : LSM}
    (hreachable : lsm.tranManager.Reachable) (call : Call) :
    (call.run config lsm).1.tranManager.Reachable := by
  have htaken : lsm.takeTrancId.1.tranManager.Reachable := hreachable.getNextTransactionId
  cases call with
  | beginTran isolationLevel => exact htaken.register _
  | write handle op walOk => exact LSM.reachable_write hreachable handle op walOk
  | get handle key => exact LSM.reachable_get hreachable handle key
  | commit handle walOk => exact LSM.reachable_commit hreachable handle walOk
  | abort handle => exact LSM.reachable_abort hreachable handle
  | plainPut | plainPutBatch | plainRemove | plainRemoveBatch =>
      exact LSM.reachable_notify htaken _
  | plainGet key => exact htaken
  | plainGetBatch keys => exact htaken
  | flush => exact LSM.reachable_notify hreachable _
  | freeze => exact hreachable
  | compact srcLevel => exact hreachable

/-- The manager of a store is in such a state throughout every run. -/
theorem runCalls_reachable (config : Config) (calls : List Call) :
    (runCalls config LSM.new calls).1.tranManager.Reachable := by
  induction calls using List.reverseRecOn with
  | nil => exact TranManager.Reachable.new
  | append_singleton front call ih =>
      rw [runCalls_snoc]
      exact Call.run_reachable config ih call

namespace TranManager

/-- The order of notifications does not matter, nor how often one comes, and what they leave
is the reference. -/
theorem flushed_order_insensitive {manager : TranManager} (hreachable : Reachable manager)
    (trancIds : List ℕ) :
    let after := trancIds.foldl addFlushedTrancId manager
    let mark := manager.getCheckpointTrancId
    let stored := manager.flushedTrancIds.ids.toFinset ∪
      (manager.settledIds trancIds).filter fun id => mark < id
    (∀ trancIds' : List ℕ, (∀ id, id ∈ trancIds' ↔ id ∈ trancIds) →
      trancIds'.foldl addFlushedTrancId manager = after) ∧
    after.flushedTrancIds.ids.toFinset = Watermark.compress stored mark ∧
    after.getCheckpointTrancId = Watermark.lastOfRun stored mark ∧
    after.readyToFlushTrancIds = manager.unsettled trancIds := by
  intro after mark stored
  obtain ⟨hcovers, hfind, hpacked⟩ := foldl_addFlushed_spec manager trancIds
  obtain ⟨hmark, hstored⟩ := (hpacked hreachable.packed).compressed hcovers
  refine ⟨fun trancIds' hsame => ?_, hstored, hmark, OrdMap.ext_find? hfind⟩
  obtain ⟨hcovers', hfind', hpacked'⟩ := foldl_addFlushed_spec manager trancIds'
  have hsettles : ∀ id state, settles trancIds' id state = settles trancIds id state := by
    intro id state
    rw [Bool.eq_iff_iff, settles_iff, settles_iff]
    simp only [hsame]
  have hflushed : (trancIds'.foldl addFlushedTrancId manager).flushedTrancIds =
      after.flushedTrancIds := by
    apply (hpacked' hreachable.packed).ext (hpacked hreachable.packed)
    intro id
    rw [hcovers, hcovers', mem_settledIds, mem_settledIds]
    simp only [hsettles]
  have hready : (trancIds'.foldl addFlushedTrancId manager).readyToFlushTrancIds =
      after.readyToFlushTrancIds := by
    apply OrdMap.ext_find?
    intro id
    rw [hfind, hfind', find?_unsettled, find?_unsettled]
    simp only [hsettles]
  obtain ⟨haborted, hnext, hactive⟩ := LSM.foldl_addFlushed trancIds manager
  obtain ⟨haborted', hnext', hactive'⟩ := LSM.foldl_addFlushed trancIds' manager
  exact TranManager.ext (haborted'.trans haborted.symm) (hnext'.trans hnext.symm)
    (hactive'.trans hactive.symm) hready hflushed

/-- The manager behind one committed, one rolled-back and one more committed transaction. -/
def threeEnded : TranManager :=
  (runCalls smallConfig LSM.new [.beginTran .repeatableRead, .beginTran .repeatableRead,
    .beginTran .repeatableRead, .write 0 (.put [1] [7]) true, .write 2 (.put [2] [8]) true,
    .commit 0 true, .abort 1, .commit 2 true]).1.tranManager

theorem flushed_order_insensitive_sample :
    [1, 3, 1].foldl addFlushedTrancId threeEnded = [3, 1].foldl addFlushedTrancId threeEnded ∧
      ([3, 1].foldl addFlushedTrancId threeEnded).readyToFlushTrancIds =
        threeEnded.unsettled [3, 1] := by
  obtain ⟨hany, -, -, hready⟩ :=
    flushed_order_insensitive (runCalls_reachable smallConfig _ : Reachable threeEnded) [3, 1]
  refine ⟨hany [1, 3, 1] fun id => ?_, hready⟩
  simp only [List.mem_cons, List.not_mem_nil, or_false]
  tauto

end TranManager

end KopiDb
