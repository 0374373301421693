import KopiDb.TranManager

/-!
# The state file of the transaction manager

The manager saves what a restart has to know: the next number, the settled numbers, the
transactions that ended but are not settled, and the rolled-back ones.  A file is taken
here as the list of its 64-bit words.
-/

namespace KopiDb

namespace TransactionState

/-- The code of a state in the file. -/
def code : TransactionState → ℕ
  | opCommitted => 0
  | aborted => 1

def ofCode : ℕ → Option TransactionState
  | 0 => some opCommitted
  | 1 => some aborted
  | _ => none

@[simp]
theorem ofCode_code (state : TransactionState) : ofCode state.code = some state := by
  cases state <;> rfl

theorem code_of_ofCode {code : ℕ} {state : TransactionState} (hcode : ofCode code = some state) :
    state.code = code := by
  unfold ofCode at hcode
  split at hcode
  · obtain rfl := Option.some.inj hcode
    rfl
  · obtain rfl := Option.some.inj hcode
    rfl
  · cases hcode

end TransactionState

/-- Words two by two. -/
def pairUp : List ℕ → List (ℕ × ℕ)
  | first :: second :: rest => (first, second) :: pairUp rest
  | _ => []

namespace TranManager

/-- What `write_tranc_id_file` encodes, with the rolled-back numbers in the order in which
the hash set lists them. -/
def encodeWords (manager : TranManager) (order : List ℕ) : List ℕ :=
  [manager.nextTransactionId, manager.flushedTrancIds.ids.length,
      manager.readyToFlushTrancIds.size, manager.abortedTrancIds.card] ++
    (manager.flushedTrancIds.ids ++
      (manager.readyToFlushTrancIds.entries.flatMap (fun ready => [ready.1, ready.2.code]) ++
        order))

/-- The words of a save in which the rolled-back numbers ascend. -/
def fileWords (manager : TranManager) : List ℕ :=
  manager.encodeWords (manager.abortedTrancIds.sort (· ≤ ·))

/-- An order in which a hash set may list its elements. -/
def Lists (order : List ℕ) (ids : Finset ℕ) : Prop := order.Nodup ∧ order.toFinset = ids

/-- `write_tranc_id_file`, whatever stands for the content of a file: the check comes first, and
`saved` is how the rest ends. -/
def saveFile {α : Type*} (manager : TranManager) (file : α) (saved : α × Except Err Unit) :
    α × Except Err Unit :=
  if manager.nextTransactionId = 0 then
    (file, .error (.logicError
      "TranManager::write_tranc_id_file: invalid transaction state"))
  else saved

theorem saveFile_of_ne {α : Type*} {manager : TranManager} (hnext : manager.nextTransactionId ≠ 0)
    (file : α) (saved : α × Except Err Unit) : manager.saveFile file saved = saved :=
  if_neg hnext

/-- The exception of a save whose bytes did not reach the file. -/
def saveFailed : Err :=
  .runtimeError "TranManager::write_tranc_id_file: failed to save transaction state"

/-- A save as words.  The old file is cut to nothing first; when the new content does not reach
the disk, `torn` is what stays there. -/
def writeTrancIdFile (manager : TranManager) (file : List ℕ) (torn : Option (List ℕ)) :
    List ℕ × Except Err Unit :=
  manager.saveFile file <|
    match torn with
    | none => (manager.fileWords, .ok ())
    | some left => (left, .error saveFailed)

/-- The settled numbers of a file, which have to ascend. -/
def readFlushed (words : List ℕ) : Except Err Watermark :=
  match words with
  | [] => .error (.runtimeError "TranManager::read_tranc_id_file: invalid header")
  | mark :: beyond =>
      if hascending : (mark :: beyond).Pairwise fun left right => left < right then
        .ok ⟨mark, beyond, hascending⟩
      else .error (.runtimeError "TranManager::read_tranc_id_file: invalid flushed order")

/-- The ended transactions of a file: ascending numbers, each with a known state. -/
def readReady (words : List ℕ) : Except Err (OrdMap ℕ TransactionState) :=
  match (pairUp words).mapM fun pair =>
      (TransactionState.ofCode pair.2).map fun state => (pair.1, state) with
  | none => .error (.runtimeError "TranManager::read_tranc_id_file: invalid ready entry")
  | some entries =>
      if hsorted : entries.Pairwise fun left right => left.1 < right.1 then
        .ok ⟨entries, hsorted⟩
      else .error (.runtimeError "TranManager::read_tranc_id_file: invalid ready entry")

/-- The rolled-back numbers of a file, none of them twice. -/
def readAborted (words : List ℕ) : Except Err (Finset ℕ) :=
  if words.Nodup then .ok words.toFinset
  else .error (.runtimeError "TranManager::read_tranc_id_file: duplicate aborted ID")

/-- `read_tranc_id_file` on the words of a file, which reading its bytes comes down to.  The
manager changes only when the whole file is sound, and the active transactions stay. -/
def readTrancIdFile (manager : TranManager) (words : List ℕ) : TranManager × Except Err Unit :=
  match words with
  | next :: flushedCount :: readyCount :: abortedCount :: rest =>
      if next = 0 ∨ flushedCount = 0 ∨ flushedCount > rest.length then
        (manager, .error (.runtimeError "TranManager::read_tranc_id_file: invalid header"))
      else if readyCount > (rest.length - flushedCount) / 2 then
        (manager, .error (.runtimeError "TranManager::read_tranc_id_file: invalid ready count"))
      else if abortedCount ≠ rest.length - flushedCount - 2 * readyCount then
        (manager, .error (.runtimeError
          "TranManager::read_tranc_id_file: invalid aborted count"))
      else
        let behind := rest.drop flushedCount
        match readFlushed (rest.take flushedCount), readReady (behind.take (2 * readyCount)),
          readAborted (behind.drop (2 * readyCount)) with
        | .ok flushed, .ok ready, .ok aborted =>
            ({ manager with
                abortedTrancIds := aborted
                nextTransactionId := next
                readyToFlushTrancIds := ready
                flushedTrancIds := flushed }, .ok ())
        | .error err, _, _ => (manager, .error err)
        | .ok _, .error err, _ => (manager, .error err)
        | .ok _, .ok _, .error err => (manager, .error err)
  | _ => (manager, .error (.runtimeError
      "TranManager::read_tranc_id_file: invalid file length"))

/-! ## Round trip -/

theorem readAborted_eq_ok {words : List ℕ} {aborted : Finset ℕ} :
    readAborted words = .ok aborted ↔ Lists words aborted := by
  unfold readAborted Lists
  constructor
  · intro hread
    split_ifs at hread with hnodup
    exact ⟨hnodup, Except.ok.inj hread⟩
  · rintro ⟨hnodup, rfl⟩
    exact if_pos hnodup

theorem length_readyWords (ready : OrdMap ℕ TransactionState) :
    (ready.entries.flatMap fun ready => [ready.1, ready.2.code]).length = 2 * ready.size := by
  simp [List.length_flatMap, OrdMap.size, mul_comm]

theorem Lists.length {order : List ℕ} {ids : Finset ℕ} (hlists : Lists order ids) :
    order.length = ids.card := by
  rw [← hlists.2, List.toFinset_card_of_nodup hlists.1]

section

variable (manager : TranManager)

private theorem readFlushed_ids : readFlushed manager.flushedTrancIds.ids =
    .ok manager.flushedTrancIds := by
  rw [Watermark.ids, readFlushed, dif_pos manager.flushedTrancIds.ascending]

private theorem pairUp_flatMap (entries : List (ℕ × TransactionState)) :
    pairUp (entries.flatMap fun ready => [ready.1, ready.2.code]) =
      entries.map fun ready => (ready.1, ready.2.code) := by
  induction entries with
  | nil => rfl
  | cons entry rest ih =>
      rw [List.flatMap_cons, List.cons_append, List.cons_append, List.nil_append, pairUp, ih]
      rfl

private theorem mapM_code (entries : List (ℕ × TransactionState)) :
    (entries.map fun ready => (ready.1, ready.2.code)).mapM (fun pair =>
      (TransactionState.ofCode pair.2).map fun state => (pair.1, state)) = some entries := by
  induction entries with
  | nil => rfl
  | cons entry rest ih =>
      rw [List.map_cons, List.mapM_cons, ih]
      simp

private theorem readReady_entries : readReady (manager.readyToFlushTrancIds.entries.flatMap
    fun ready => [ready.1, ready.2.code]) = .ok manager.readyToFlushTrancIds := by
  rw [readReady, pairUp_flatMap, mapM_code]
  dsimp only
  rw [dif_pos manager.readyToFlushTrancIds.sorted]

/-- A manager reads what another one has saved, except for the active transactions. -/
theorem readTrancIdFile_encodeWords (saved : TranManager) {order : List ℕ}
    (hnext : saved.nextTransactionId ≠ 0) (hlists : Lists order saved.abortedTrancIds) :
    manager.readTrancIdFile (saved.encodeWords order) =
      ({ saved with activeTrans := manager.activeTrans }, .ok ()) := by
  have hready := length_readyWords saved.readyToFlushTrancIds
  have haborted := hlists.length
  have hflushed : saved.flushedTrancIds.ids.length ≠ 0 := Nat.succ_ne_zero _
  have hsettled := readFlushed_ids saved
  have hended := readReady_entries saved
  have hrolled := readAborted_eq_ok.mpr hlists
  rw [encodeWords]
  generalize saved.readyToFlushTrancIds.entries.flatMap
    (fun ready => [ready.1, ready.2.code]) = readyWords at hready hended
  simp only [List.cons_append, List.nil_append, readTrancIdFile]
  rw [List.take_left, List.drop_left, List.take_left' hready, List.drop_left' hready, hsettled,
    hended, hrolled]
  simp only [List.length_append, hready, haborted]
  rw [if_neg (by omega), if_neg (by omega), if_neg (by omega)]

theorem readTrancIdFile_fileWords (saved : TranManager) (hnext : saved.nextTransactionId ≠ 0) :
    manager.readTrancIdFile saved.fileWords =
      ({ saved with activeTrans := manager.activeTrans }, .ok ()) :=
  readTrancIdFile_encodeWords manager saved hnext
    ⟨Finset.sort_nodup _ _, Finset.sort_toFinset _ _⟩

end

end TranManager

end KopiDb
