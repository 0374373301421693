import KopiDb.StateFile
import KopiDb.Lib.LittleEndian

/-!
# The bytes of the state file

The state file is a sequence of 64-bit words, the lowest byte first.  Reading it never
looks past its end, whatever it holds, and accepts nothing but what a save writes.
-/

namespace KopiDb

namespace TranManager

def fileBytes (manager : TranManager) (order : List ℕ) : Bytes :=
  wordsLe 8 (manager.encodeWords order)

/-- The numbers of a manager are machine words, and a buffer can hold its save. -/
structure Fits (manager : TranManager) : Prop where
  next : manager.nextTransactionId < 256 ^ 8
  flushed : ∀ id ∈ manager.flushedTrancIds.ids, id < 256 ^ 8
  ready : ∀ ready ∈ manager.readyToFlushTrancIds.entries, ready.1 < 256 ^ 8
  aborted : ∀ id ∈ manager.abortedTrancIds, id < 256 ^ 8
  size : 8 * (4 + (manager.flushedTrancIds.ids.length +
    (2 * manager.readyToFlushTrancIds.size + manager.abortedTrancIds.card))) < 2 ^ 64

/-! ## Reading -/

/-- `read_u64`: the number at an offset and the offset behind it. -/
def readU64 (buf : Bytes) (offset : ℕ) : Except Err (ℕ × ℕ) :=
  if buf.length < offset + 8 then .error .outOfBounds
  else .ok (ofLe ((buf.drop offset).take 8), offset + 8)

/-- The numbers of one list of the file. -/
def readWords (buf : Bytes) : ℕ → ℕ → Except Err (List ℕ × ℕ)
  | 0, offset => .ok ([], offset)
  | count + 1, offset => do
      let (word, offset) ← readU64 buf offset
      let (words, offset) ← readWords buf count offset
      return (word :: words, offset)

/-- A difference of sizes that must not wrap. -/
def sizeLess (left right : ℕ) : Except Err ℕ :=
  if left < right then .error .sizeWraps else .ok (left - right)

/-- Twice a size. -/
def sizeDouble (size : ℕ) : Except Err ℕ :=
  if size * 2 < 2 ^ 64 then .ok (size * 2) else .error .sizeWraps

/-- The three lists behind the fixed fields.  The source checks each number when it has
read it; here a list is read and then checked. -/
def readLists (manager : TranManager) (buf : Bytes)
    (nextId flushedCount readyWords abortedCount offset : ℕ) : Except Err TranManager := do
  let (words, offset) ← readWords buf flushedCount offset
  let flushed ← readFlushed words
  let (words, offset) ← readWords buf readyWords offset
  let ready ← readReady words
  let (words, _) ← readWords buf abortedCount offset
  let aborted ← readAborted words
  return { manager with
    abortedTrancIds := aborted
    nextTransactionId := nextId
    readyToFlushTrancIds := ready
    flushedTrancIds := flushed }

/-- The fixed fields, checked against the length of the file. -/
def readState (manager : TranManager) (buf : Bytes) : Except Err TranManager := do
  let (nextId, offset) ← readU64 buf 0
  let (flushedCount, offset) ← readU64 buf offset
  let (readyCount, offset) ← readU64 buf offset
  let (abortedCount, offset) ← readU64 buf offset
  let behind ← sizeLess buf.length offset
  let remaining := behind / 8
  if nextId = 0 ∨ flushedCount = 0 ∨ flushedCount > remaining then
    throw (.runtimeError "TranManager::read_tranc_id_file: invalid header")
  let remaining ← sizeLess remaining flushedCount
  if readyCount > remaining / 2 then
    throw (.runtimeError "TranManager::read_tranc_id_file: invalid ready count")
  let readyWords ← sizeDouble readyCount
  let remaining ← sizeLess remaining readyWords
  if abortedCount ≠ remaining then
    throw (.runtimeError "TranManager::read_tranc_id_file: invalid aborted count")
  readLists manager buf nextId flushedCount readyWords abortedCount offset

/-- `read_tranc_id_file` -/
def readTrancIdBytes (manager : TranManager) (buf : Bytes) : TranManager × Except Err Unit :=
  if buf.length < 32 ∨ buf.length % 8 ≠ 0 then
    (manager, .error (.runtimeError
      "TranManager::read_tranc_id_file: invalid file length"))
  else
    match manager.readState buf with
    | .error err => (manager, .error err)
    | .ok read => (read, .ok ())

section

variable {words : List ℕ}

theorem readU64_wordsLe {index word : ℕ} (hwords : ∀ word ∈ words, word < 256 ^ 8)
    (hindex : words[index]? = some word) :
    readU64 (wordsLe 8 words) (8 * index) = .ok (word, 8 * (index + 1)) := by
  obtain ⟨hlt, rfl⟩ := List.getElem?_eq_some_iff.mp hindex
  have hword := hwords _ (List.getElem_mem hlt)
  rw [readU64, if_neg, drop_wordsLe, List.drop_eq_getElem_cons hlt, wordsLe,
    List.flatMap_cons, List.take_left' (length_toLe _ _), ofLe_toLe hword, Nat.mul_succ]
  rw [length_wordsLe]
  omega

theorem readWords_wordsLe {count index : ℕ} (hwords : ∀ word ∈ words, word < 256 ^ 8)
    (hcount : index + count ≤ words.length) :
    readWords (wordsLe 8 words) count (8 * index) =
      .ok ((words.drop index).take count, 8 * (index + count)) := by
  induction count generalizing index with
  | zero => rfl
  | succ count ih =>
      have hlt : index < words.length := by omega
      rw [readWords, readU64_wordsLe hwords (List.getElem?_eq_getElem hlt)]
      change (readWords (wordsLe 8 words) count (8 * (index + 1)) >>= _) = _
      rw [ih (by omega), List.drop_eq_getElem_cons hlt, List.take_succ_cons,
        Nat.add_right_comm index 1 count]
      rfl

/-- The three lists are found where the fixed fields say. -/
private theorem readLists_wordsLe (manager : TranManager)
    {nextId flushedCount readyWords abortedCount : ℕ} (hwords : ∀ word ∈ words, word < 256 ^ 8)
    (hlength : words.length = 4 + flushedCount + readyWords + abortedCount) :
    readLists manager (wordsLe 8 words) nextId flushedCount readyWords abortedCount 32 =
      match readFlushed ((words.drop 4).take flushedCount),
        readReady (((words.drop 4).drop flushedCount).take readyWords),
        readAborted (((words.drop 4).drop flushedCount).drop readyWords) with
      | .ok flushed, .ok ready, .ok aborted => .ok { manager with
          abortedTrancIds := aborted
          nextTransactionId := nextId
          readyToFlushTrancIds := ready
          flushedTrancIds := flushed }
      | .error err, _, _ => .error err
      | .ok _, .error err, _ => .error err
      | .ok _, .ok _, .error err => .error err := by
  have hflushed := @readWords_wordsLe words flushedCount 4 hwords (by omega)
  have hready := @readWords_wordsLe words readyWords (4 + flushedCount) hwords (by omega)
  have haborted := @readWords_wordsLe words abortedCount (4 + flushedCount + readyWords) hwords
    (by omega)
  rw [List.take_of_length_le (by rw [List.length_drop]; omega)] at haborted
  rw [List.drop_drop, List.drop_drop]
  unfold readLists
  simp only [bind, Except.bind, pure, Except.pure]
  rw [show 32 = 8 * 4 from rfl, hflushed]
  dsimp only
  rw [hready]
  dsimp only
  rw [haborted]
  dsimp only
  cases readFlushed ((words.drop 4).take flushedCount) with
  | error err => rfl
  | ok flushed =>
      cases readReady ((words.drop (4 + flushedCount)).take readyWords) with
      | error err => rfl
      | ok ready =>
          cases readAborted (words.drop (4 + flushedCount + readyWords)) with
          | error err => rfl
          | ok aborted => rfl

/-- The fixed fields are checked without a size that wraps. -/
private theorem readState_wordsLe (manager : TranManager)
    {nextId flushedCount readyCount abortedCount : ℕ} (hwords : ∀ word ∈ words, word < 256 ^ 8)
    (hsize : 8 * words.length < 2 ^ 64) (hnext : words[0]? = some nextId)
    (hflushed : words[1]? = some flushedCount) (hready : words[2]? = some readyCount)
    (haborted : words[3]? = some abortedCount) :
    manager.readState (wordsLe 8 words) =
      if nextId = 0 ∨ flushedCount = 0 ∨ flushedCount > words.length - 4 then
        .error (.runtimeError "TranManager::read_tranc_id_file: invalid header")
      else if readyCount > (words.length - 4 - flushedCount) / 2 then
        .error (.runtimeError "TranManager::read_tranc_id_file: invalid ready count")
      else if abortedCount ≠ words.length - 4 - flushedCount - readyCount * 2 then
        .error (.runtimeError "TranManager::read_tranc_id_file: invalid aborted count")
      else readLists manager (wordsLe 8 words) nextId flushedCount (readyCount * 2)
        abortedCount 32 := by
  have hlength : 3 < words.length := (List.getElem?_eq_some_iff.mp haborted).1
  have hbehind : sizeLess (wordsLe 8 words).length 32 = .ok (8 * (words.length - 4)) := by
    rw [length_wordsLe, sizeLess, if_neg (by omega)]
    congr 1
    omega
  have hremaining : 8 * (words.length - 4) / 8 = words.length - 4 :=
    Nat.mul_div_cancel_left _ (by decide)
  unfold readState
  simp only [bind, Except.bind]
  rw [show 0 = 8 * 0 from rfl, readU64_wordsLe hwords hnext]
  dsimp only
  rw [readU64_wordsLe hwords hflushed]
  dsimp only
  rw [readU64_wordsLe hwords hready]
  dsimp only
  rw [readU64_wordsLe hwords haborted]
  dsimp only
  rw [hbehind]
  dsimp only
  rw [hremaining]
  by_cases hheader : nextId = 0 ∨ flushedCount = 0 ∨ flushedCount > words.length - 4
  · rw [if_pos hheader, if_pos hheader]
    rfl
  · rw [if_neg hheader, if_neg hheader, sizeLess, if_neg (by omega)]
    dsimp only [pure, Except.pure]
    by_cases hcount : readyCount > (words.length - 4 - flushedCount) / 2
    · rw [if_pos hcount, if_pos hcount]
      rfl
    · rw [if_neg hcount, if_neg hcount, sizeDouble, if_pos (by omega)]
      dsimp only
      rw [sizeLess, if_neg (by omega)]
      dsimp only
      by_cases hrest : abortedCount ≠ words.length - 4 - flushedCount - readyCount * 2
      · rw [if_pos hrest, if_pos hrest]
        rfl
      · rw [if_neg hrest, if_neg hrest]

/-- The bytes are read as the words they stand for: no index leaves the file and no size
wraps. -/
theorem readTrancIdBytes_wordsLe (manager : TranManager)
    (hwords : ∀ word ∈ words, word < 256 ^ 8) (hsize : 8 * words.length < 2 ^ 64) :
    manager.readTrancIdBytes (wordsLe 8 words) = manager.readTrancIdFile words := by
  have hlength := length_wordsLe 8 words
  rcases words with - | ⟨nextId, - | ⟨flushedCount, - | ⟨readyCount, - | ⟨abortedCount, rest⟩⟩⟩⟩
  · rfl
  · exact if_pos (Or.inl (hlength.trans_lt (Nat.lt_of_sub_eq_succ rfl)))
  · exact if_pos (Or.inl (hlength.trans_lt (Nat.lt_of_sub_eq_succ rfl)))
  · exact if_pos (Or.inl (hlength.trans_lt (Nat.lt_of_sub_eq_succ rfl)))
  · have hstate := @readState_wordsLe _ manager nextId flushedCount readyCount abortedCount
      hwords hsize rfl rfl rfl rfl
    have hlists := @readLists_wordsLe _ manager nextId flushedCount (2 * readyCount)
      abortedCount hwords
    have hdrop : (nextId :: flushedCount :: readyCount :: abortedCount :: rest).drop 4 = rest :=
      rfl
    have hcount : (nextId :: flushedCount :: readyCount :: abortedCount :: rest).length =
        rest.length + 4 := rfl
    rw [hcount] at hlength hstate hlists
    rw [readTrancIdBytes, if_neg (by omega), hstate, readTrancIdFile, Nat.add_sub_cancel,
      Nat.mul_comm readyCount]
    split_ifs with hheader hready haborted
    · rfl
    · rfl
    · rfl
    · rw [hlists (by omega), hdrop]
      dsimp only
      cases readFlushed (rest.take flushedCount) with
      | error err => rfl
      | ok flushed =>
          cases readReady ((rest.drop flushedCount).take (2 * readyCount)) with
          | error err => rfl
          | ok ready =>
              cases readAborted ((rest.drop flushedCount).drop (2 * readyCount)) with
              | error err => rfl
              | ok aborted => rfl

end

/-! ## What is accepted -/

theorem readFlushed_eq_ok {words : List ℕ} {flushed : Watermark}
    (hread : readFlushed words = .ok flushed) : words = flushed.ids := by
  unfold readFlushed at hread
  split at hread
  next => cases hread
  next mark beyond =>
    split_ifs at hread with hascending
    obtain rfl := Except.ok.inj hread
    rfl

private theorem flatMap_pairUp {words : List ℕ} (heven : words.length % 2 = 0)
    {entries : List (ℕ × TransactionState)}
    (hentries : (pairUp words).mapM (fun pair =>
      (TransactionState.ofCode pair.2).map fun state => (pair.1, state)) = some entries) :
    words = entries.flatMap fun ready => [ready.1, ready.2.code] := by
  induction words using pairUp.induct generalizing entries with
  | case1 first second rest ih =>
      rw [pairUp, List.mapM_cons] at hentries
      cases hcode : TransactionState.ofCode second with
      | none =>
          rw [hcode] at hentries
          cases hentries
      | some state =>
          cases hrest : (pairUp rest).mapM (fun pair =>
              (TransactionState.ofCode pair.2).map fun state => (pair.1, state)) with
          | none =>
              rw [hcode, hrest] at hentries
              cases hentries
          | some found =>
              rw [hcode, hrest] at hentries
              obtain rfl := Option.some.inj hentries
              have hshort : rest.length % 2 = 0 := by
                rw [List.length_cons, List.length_cons] at heven
                omega
              rw [List.flatMap_cons, ← ih hshort hrest, TransactionState.code_of_ofCode hcode]
              rfl
  | case2 words hshort =>
      rcases words with - | ⟨word, - | ⟨other, rest⟩⟩
      · obtain rfl := Option.some.inj hentries
        rfl
      · cases heven
      · exact absurd rfl (hshort word other rest)

theorem readReady_eq_ok {words : List ℕ} (heven : words.length % 2 = 0)
    {ready : OrdMap ℕ TransactionState} (hread : readReady words = .ok ready) :
    words = ready.entries.flatMap fun ready => [ready.1, ready.2.code] := by
  unfold readReady at hread
  split at hread
  next => cases hread
  next entries hentries =>
    split_ifs at hread with hsorted
    obtain rfl := Except.ok.inj hread
    exact flatMap_pairUp heven hentries

/-- A file that is read without an error is a save of what was read. -/
theorem readTrancIdFile_eq_ok {manager read : TranManager} {words : List ℕ}
    (hread : manager.readTrancIdFile words = (read, .ok ())) :
    ∃ order, Lists order read.abortedTrancIds ∧ words = read.encodeWords order ∧
      read.nextTransactionId ≠ 0 ∧ read.activeTrans = manager.activeTrans := by
  unfold readTrancIdFile at hread
  split at hread
  next nextId flushedCount readyCount abortedCount rest =>
    split_ifs at hread with hheader hready haborted
    · cases (Prod.mk.inj hread).2
    · cases (Prod.mk.inj hread).2
    · cases (Prod.mk.inj hread).2
    · dsimp only at hread
      split at hread
      next flushed ready aborted hflushedRead hreadyRead habortedRead =>
        obtain rfl := (Prod.mk.inj hread).1
        have hlists := readAborted_eq_ok.mp habortedRead
        obtain ⟨hnext, hsome, hle⟩ := not_or.mp hheader |>.imp_right not_or.mp
        have hflushedLength : flushedCount = flushed.ids.length := by
          rw [← readFlushed_eq_ok hflushedRead, List.length_take]
          omega
        have hreadyTake : ((rest.drop flushedCount).take (2 * readyCount)).length =
            2 * readyCount := by
          rw [List.length_take, List.length_drop]
          omega
        have hreadyWords := readReady_eq_ok (by omega) hreadyRead
        have hreadyLength : readyCount = ready.size := by
          have hlength := congrArg List.length hreadyWords
          rw [hreadyTake, length_readyWords] at hlength
          omega
        have habortedLength : abortedCount = aborted.card := by
          rw [← hlists.length, List.length_drop, List.length_drop]
          omega
        refine ⟨(rest.drop flushedCount).drop (2 * readyCount), hlists, ?_, hnext, rfl⟩
        rw [encodeWords, ← hflushedLength, ← hreadyLength, ← habortedLength, ← hreadyWords,
          ← readFlushed_eq_ok hflushedRead, List.take_append_drop, List.take_append_drop]
        rfl
      next => cases (Prod.mk.inj hread).2
      next => cases (Prod.mk.inj hread).2
      next => cases (Prod.mk.inj hread).2
  next => cases (Prod.mk.inj hread).2

/-- A file that is refused changes nothing. -/
theorem readTrancIdFile_error {manager : TranManager} {words : List ℕ} {err : Err}
    (herror : (manager.readTrancIdFile words).2 = .error err) :
    (manager.readTrancIdFile words).1 = manager ∧ ∃ what, err = .runtimeError what := by
  have hflushedError {found : List ℕ} (hread : readFlushed found = .error err) :
      ∃ what, err = .runtimeError what := by
    unfold readFlushed at hread
    split at hread
    · exact ⟨_, (Except.error.inj hread).symm⟩
    · split_ifs at hread
      exact ⟨_, (Except.error.inj hread).symm⟩
  have hreadyError {found : List ℕ} (hread : readReady found = .error err) :
      ∃ what, err = .runtimeError what := by
    unfold readReady at hread
    split at hread
    · exact ⟨_, (Except.error.inj hread).symm⟩
    · split_ifs at hread
      exact ⟨_, (Except.error.inj hread).symm⟩
  have habortedError {found : List ℕ} (hread : readAborted found = .error err) :
      ∃ what, err = .runtimeError what := by
    unfold readAborted at hread
    split_ifs at hread
    exact ⟨_, (Except.error.inj hread).symm⟩
  unfold readTrancIdFile at herror ⊢
  split at herror
  next =>
    split_ifs at herror ⊢ with hheader hready haborted
    · exact ⟨rfl, _, (Except.error.inj herror).symm⟩
    · exact ⟨rfl, _, (Except.error.inj herror).symm⟩
    · exact ⟨rfl, _, (Except.error.inj herror).symm⟩
    · dsimp only at herror ⊢
      split at herror
      next => cases herror
      next other hread =>
        obtain rfl := Except.error.inj herror
        exact ⟨rfl, hflushedError hread⟩
      next other _ hread =>
        obtain rfl := Except.error.inj herror
        exact ⟨rfl, hreadyError hread⟩
      next other _ _ hread =>
        obtain rfl := Except.error.inj herror
        exact ⟨rfl, habortedError hread⟩
  next => exact ⟨rfl, _, (Except.error.inj herror).symm⟩

/-! ## Saving -/

/-- Where a save stops early, by an exception or with the process: before the file is cut to
nothing, or when some bytes have reached it. -/
inductive SaveStop where
  | opening (err : Err)
  | writing (reached : ℕ)

/-- `write_tranc_id_file`: the bytes of the words. -/
def writeTrancIdBytes (manager : TranManager) (order : List ℕ) (file : Option Bytes)
    (stop : Option SaveStop) : Option Bytes × Except Err Unit :=
  manager.saveFile file <|
    match stop with
    | none => (some (manager.fileBytes order), .ok ())
    | some (.opening err) => (file, .error err)
    | some (.writing reached) =>
        (some ((manager.fileBytes order).take reached), .error saveFailed)

section

variable {saved : TranManager} {order : List ℕ}

theorem length_encodeWords (hlists : Lists order saved.abortedTrancIds) :
    (saved.encodeWords order).length = 4 + (saved.flushedTrancIds.ids.length +
      (2 * saved.readyToFlushTrancIds.size + saved.abortedTrancIds.card)) := by
  rw [encodeWords, List.length_append, List.length_append, List.length_append,
    length_readyWords, hlists.length]
  rfl

theorem Fits.words (hfits : saved.Fits) (hlists : Lists order saved.abortedTrancIds) :
    ∀ word ∈ saved.encodeWords order, word < 256 ^ 8 := by
  have hsize := hfits.size
  intro word hmem
  rcases List.mem_append.mp hmem with hhead | hlist
  · simp only [List.mem_cons, List.not_mem_nil, or_false] at hhead
    rcases hhead with rfl | rfl | rfl | rfl
    · exact hfits.next
    · omega
    · omega
    · omega
  · rcases List.mem_append.mp hlist with hflushed | hlist
    · exact hfits.flushed word hflushed
    · rcases List.mem_append.mp hlist with hready | haborted
      · obtain ⟨ready, hentry, hword⟩ := List.mem_flatMap.mp hready
        simp only [List.mem_cons, List.not_mem_nil, or_false] at hword
        rcases hword with rfl | rfl
        · exact hfits.ready ready hentry
        · cases ready.2 with
          | opCommitted => decide
          | aborted => decide
      · apply hfits.aborted
        rw [← hlists.2]
        exact List.mem_toFinset.mpr haborted

theorem readTrancIdBytes_fileBytes (manager : TranManager) (hfits : saved.Fits)
    (hnext : saved.nextTransactionId ≠ 0) (hlists : Lists order saved.abortedTrancIds) :
    manager.readTrancIdBytes (saved.fileBytes order) =
      ({ saved with activeTrans := manager.activeTrans }, .ok ()) := by
  have hsize := hfits.size
  rw [fileBytes, readTrancIdBytes_wordsLe manager (hfits.words hlists),
    readTrancIdFile_encodeWords manager saved hnext hlists]
  rw [length_encodeWords hlists]
  exact hsize

/-- Any content is refused, and then nothing changes, or is the save of what is read. -/
theorem readTrancIdBytes_cases (manager : TranManager) {content : Bytes}
    (hsize : content.length < 2 ^ 64) :
    (∃ what, manager.readTrancIdBytes content = (manager, .error (.runtimeError what))) ∨
      ∃ read order, manager.readTrancIdBytes content = (read, .ok ()) ∧
        Lists order read.abortedTrancIds ∧ content = read.fileBytes order ∧
        read.nextTransactionId ≠ 0 ∧ read.activeTrans = manager.activeTrans := by
  by_cases hwhole : content.length % 8 = 0
  · obtain ⟨words, hwords, rfl⟩ := exists_wordsLe content hwhole (by decide)
    rw [length_wordsLe] at hsize
    rw [readTrancIdBytes_wordsLe manager hwords hsize]
    cases hread : manager.readTrancIdFile words with
    | mk read result =>
        cases result with
        | error err =>
            obtain ⟨hsame, what, rfl⟩ := @readTrancIdFile_error manager words err (by rw [hread])
            rw [hread] at hsame
            exact Or.inl ⟨what, by rw [← hsame]⟩
        | ok done =>
            obtain ⟨order, hlists, hencode, hnext, hactive⟩ := readTrancIdFile_eq_ok hread
            exact Or.inr ⟨read, order, rfl, hlists, congrArg (wordsLe 8) hencode, hnext, hactive⟩
  · exact Or.inl ⟨_, if_pos (Or.inr hwhole)⟩

end

/-- What a save writes is read back as it was, in whatever order the rolled-back numbers stand.
Any other content is refused and leaves the manager as it is; no index leaves the content and no
size wraps. -/
theorem stateFile_codec (manager : TranManager) :
    (∀ (saved : TranManager) (order : List ℕ) (file : Option Bytes), saved.Fits →
      saved.nextTransactionId ≠ 0 → Lists order saved.abortedTrancIds →
      ∃ content, saved.writeTrancIdBytes order file none = (some content, .ok ()) ∧
        manager.readTrancIdBytes content =
          ({ saved with activeTrans := manager.activeTrans }, .ok ())) ∧
    ∀ content : Bytes, content.length < 2 ^ 64 →
      (∃ err, manager.readTrancIdBytes content = (manager, .error err) ∧
        err ≠ .outOfBounds ∧ err ≠ .sizeWraps) ∨
      ∃ read order file, manager.readTrancIdBytes content = (read, .ok ()) ∧
        read.activeTrans = manager.activeTrans ∧ Lists order read.abortedTrancIds ∧
        read.writeTrancIdBytes order file none = (some content, .ok ()) := by
  constructor
  · intro saved order file hfits hnext hlists
    exact ⟨_, saveFile_of_ne hnext _ _, readTrancIdBytes_fileBytes manager hfits hnext hlists⟩
  · intro content hsize
    rcases readTrancIdBytes_cases manager hsize with
      ⟨what, hread⟩ | ⟨read, order, hread, hlists, rfl, hnext, hactive⟩
    · exact Or.inl ⟨.runtimeError what, hread, Err.noConfusion, Err.noConfusion⟩
    · exact Or.inr ⟨read, order, none, hread, hactive, hlists, saveFile_of_ne hnext _ _⟩

end TranManager

end KopiDb
