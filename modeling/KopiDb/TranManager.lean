import KopiDb.Engine
import KopiDb.Lib.Watermark

/-!
# Transaction manager

The manager hands out the numbers of transactions and plain writes and remembers which
transactions are active, which rolled back, which ended but are not settled yet, and
which are settled.  Numbers are never reused, so they are not taken modulo the machine
word.
-/

namespace KopiDb

inductive TransactionState where
  | opCommitted
  | aborted
  deriving DecidableEq, Repr

/-- `TranManager` without its log; of the active contexts only the numbers matter
here. -/
structure TranManager where
  abortedTrancIds : Finset ℕ
  nextTransactionId : ℕ
  activeTrans : Finset ℕ
  readyToFlushTrancIds : OrdMap ℕ TransactionState
  flushedTrancIds : Watermark

namespace TranManager

/-- The constructor without a state file. -/
def new : TranManager where
  abortedTrancIds := ∅
  nextTransactionId := 1
  activeTrans := ∅
  readyToFlushTrancIds := ∅
  flushedTrancIds := Watermark.upTo 0

def isAborted (manager : TranManager) (trancId : ℕ) : Bool :=
  decide (trancId ∈ manager.abortedTrancIds)

def shouldSkipRead (manager : TranManager) (trancId : ℕ) (requireCommitted : Bool) : Bool :=
  manager.isAborted trancId ||
    (requireCommitted && decide (trancId ∈ manager.activeTrans))

/-- What the engine asks the manager during a read. -/
def policy (manager : TranManager) : ReadPolicy where
  isAborted := manager.isAborted
  shouldSkipRead := manager.shouldSkipRead

/-- `getNextTransactionId`: the number that is handed out is the old counter. -/
def getNextTransactionId (manager : TranManager) : TranManager × ℕ :=
  ({ manager with nextTransactionId := manager.nextTransactionId + 1 },
    manager.nextTransactionId)

/-- The registration of `new_tranc`. -/
def register (manager : TranManager) (trancId : ℕ) : TranManager :=
  { manager with activeTrans := insert trancId manager.activeTrans }

def addReadyToFlushTrancId (manager : TranManager) (trancId : ℕ)
    (state : TransactionState) : TranManager :=
  { manager with
    abortedTrancIds :=
      if state = .aborted then insert trancId manager.abortedTrancIds
      else manager.abortedTrancIds
    readyToFlushTrancIds := manager.readyToFlushTrancIds.insert trancId state
    activeTrans := manager.activeTrans.erase trancId }

/-- The loop of `add_flushed_tranc_id` over the ended transactions, smallest number
first: the notified one and smaller ones that rolled back are settled. -/
def settleReady (trancId : ℕ) : List (ℕ × TransactionState) → TranManager → TranManager
  | [], manager => manager
  | (readyId, state) :: rest, manager =>
      if readyId ≤ trancId then
        if readyId ≠ trancId ∧ state ≠ .aborted then settleReady trancId rest manager
        else
          settleReady trancId rest { manager with
            flushedTrancIds := manager.flushedTrancIds.add readyId
            readyToFlushTrancIds := manager.readyToFlushTrancIds.erase readyId }
      else manager

def addFlushedTrancId (manager : TranManager) (trancId : ℕ) : TranManager :=
  settleReady trancId manager.readyToFlushTrancIds.entries manager

/-- `get_checkpoint_tranc_id` -/
def getCheckpointTrancId (manager : TranManager) : ℕ := manager.flushedTrancIds.mark

/-- `get_max_flushed_tranc_id` -/
def getMaxFlushedTrancId (manager : TranManager) : ℕ :=
  manager.flushedTrancIds.beyond.getLastD manager.flushedTrancIds.mark

/-! ## What the operations keep -/

section

variable (manager : TranManager) (trancId : ℕ)

theorem shouldSkipRead_of_aborted {manager : TranManager} {trancId : ℕ}
    (haborted : trancId ∈ manager.abortedTrancIds) (requireCommitted : Bool) :
    manager.shouldSkipRead trancId requireCommitted = true := by
  simp [shouldSkipRead, isAborted, haborted]

private theorem settleReady_kept (entries : List (ℕ × TransactionState)) :
    (settleReady trancId entries manager).abortedTrancIds = manager.abortedTrancIds ∧
      (settleReady trancId entries manager).nextTransactionId = manager.nextTransactionId ∧
      (settleReady trancId entries manager).activeTrans = manager.activeTrans := by
  induction entries generalizing manager with
  | nil => exact ⟨rfl, rfl, rfl⟩
  | cons entry rest ih =>
      rw [settleReady]
      split_ifs
      · exact ih manager
      · exact ih _
      · exact ⟨rfl, rfl, rfl⟩

@[simp]
theorem abortedTrancIds_addFlushedTrancId :
    (manager.addFlushedTrancId trancId).abortedTrancIds = manager.abortedTrancIds :=
  (settleReady_kept manager trancId _).1

@[simp]
theorem nextTransactionId_addFlushedTrancId :
    (manager.addFlushedTrancId trancId).nextTransactionId = manager.nextTransactionId :=
  (settleReady_kept manager trancId _).2.1

@[simp]
theorem activeTrans_addFlushedTrancId :
    (manager.addFlushedTrancId trancId).activeTrans = manager.activeTrans :=
  (settleReady_kept manager trancId _).2.2

/-- Settling adds the notified number and numbers that rolled back, and only those that
were ready. -/
private theorem settleReady_settled (entries : List (ℕ × TransactionState)) :
    let settled := settleReady trancId entries manager
    (∀ id, settled.flushedTrancIds.Covers id → manager.flushedTrancIds.Covers id ∨
      ∃ state, (id, state) ∈ entries ∧ (id = trancId ∨ state = .aborted)) ∧
    (∀ id state, settled.readyToFlushTrancIds.find? id = some state →
      manager.readyToFlushTrancIds.find? id = some state) ∧
    manager.flushedTrancIds.mark ≤ settled.flushedTrancIds.mark := by
  induction entries generalizing manager with
  | nil => exact ⟨fun _ hcovers => Or.inl hcovers, fun _ _ hfind => hfind, le_rfl⟩
  | cons entry rest ih =>
      obtain ⟨readyId, state⟩ := entry
      dsimp only
      rw [settleReady]
      split_ifs with hle hskip
      · obtain ⟨hcovers, hready, hmark⟩ := ih manager
        refine ⟨fun id hid => ?_, hready, hmark⟩
        rcases hcovers id hid with hold | ⟨other, hmem, hreason⟩
        · exact Or.inl hold
        · exact Or.inr ⟨other, List.mem_cons_of_mem _ hmem, hreason⟩
      · obtain ⟨hcovers, hready, hmark⟩ := ih { manager with
          flushedTrancIds := manager.flushedTrancIds.add readyId
          readyToFlushTrancIds := manager.readyToFlushTrancIds.erase readyId }
        refine ⟨fun id hid => ?_, fun id found hfind => ?_,
          (manager.flushedTrancIds.mark_le_add readyId).trans hmark⟩
        · rcases hcovers id hid with hold | ⟨other, hmem, hreason⟩
          · rcases (Watermark.covers_add _ _ _).mp hold with hold | rfl
            · exact Or.inl hold
            · refine Or.inr ⟨state, List.mem_cons_self, ?_⟩
              rwa [not_and_or, not_not, not_not] at hskip
          · exact Or.inr ⟨other, List.mem_cons_of_mem _ hmem, hreason⟩
        · have hkept := hready id found hfind
          dsimp only at hkept
          rw [OrdMap.find?_erase] at hkept
          split_ifs at hkept
          exact hkept
      · exact ⟨fun _ hcovers => Or.inl hcovers, fun _ _ hfind => hfind, le_rfl⟩

theorem covers_addFlushedTrancId {id : ℕ}
    (hcovers : (manager.addFlushedTrancId trancId).flushedTrancIds.Covers id) :
    manager.flushedTrancIds.Covers id ∨ ∃ state,
      manager.readyToFlushTrancIds.find? id = some state ∧
        (id = trancId ∨ state = .aborted) := by
  rcases (settleReady_settled manager trancId _).1 id hcovers with hold | ⟨state, hmem, hreason⟩
  · exact Or.inl hold
  · exact Or.inr ⟨state, OrdMap.find?_eq_some_iff.mpr hmem, hreason⟩

theorem ready_addFlushedTrancId {id : ℕ} {state : TransactionState}
    (hfind : (manager.addFlushedTrancId trancId).readyToFlushTrancIds.find? id = some state) :
    manager.readyToFlushTrancIds.find? id = some state :=
  (settleReady_settled manager trancId _).2.1 id state hfind

theorem checkpoint_le_addFlushedTrancId :
    manager.getCheckpointTrancId ≤ (manager.addFlushedTrancId trancId).getCheckpointTrancId :=
  (settleReady_settled manager trancId _).2.2

end

end TranManager

end KopiDb
