import KopiDb.StateBytes

/-!
# Restart of the transaction manager

A manager starts from its state file.  Of the old manager only what was saved comes back:
the rolled-back transactions stay hidden and the active ones are forgotten.  A save cuts
the file to nothing before it writes, so one that stops in between leaves a file that the
next start refuses.
-/

namespace KopiDb

namespace TranManager

/-- The constructor; `opens` says whether the state file can be opened or created. -/
def construct (file : Option Bytes) (opens : Bool) : Option Bytes × Except Err TranManager :=
  if opens = false then (file, .error (.runtimeError "Failed to open file"))
  else
    match file with
    | none => (some [], .ok new)
    | some content =>
        match new.readTrancIdBytes content with
        | (_, .error err) => (file, .error err)
        | (read, .ok _) => (file, .ok read)

/-- What a new manager knows of a saved one. -/
def restarted (saved : TranManager) : TranManager := { saved with activeTrans := ∅ }

section

variable {saved : TranManager} {order : List ℕ}

theorem construct_fileBytes (hfits : saved.Fits) (hnext : saved.nextTransactionId ≠ 0)
    (hlists : Lists order saved.abortedTrancIds) :
    construct (some (saved.fileBytes order)) true =
      (some (saved.fileBytes order), .ok saved.restarted) := by
  rw [construct, if_neg Bool.false_ne_true.symm, readTrancIdBytes_fileBytes new hfits hnext hlists]
  rfl

/-- Only the whole save is read. -/
private theorem readTrancIdFile_take {manager read : TranManager} {count : ℕ}
    (hlists : Lists order saved.abortedTrancIds)
    (hread : manager.readTrancIdFile ((saved.encodeWords order).take count) = (read, .ok ())) :
    (saved.encodeWords order).length ≤ count := by
  obtain ⟨found, hfound, hwords, -, -⟩ := readTrancIdFile_eq_ok hread
  have hlength := congrArg List.length hwords
  rw [List.length_take, length_encodeWords hlists, length_encodeWords hfound] at hlength
  have hfour : 4 ≤ count := by omega
  have hheads := congrArg (List.take 4) hwords
  rw [List.take_take, min_eq_left hfour] at hheads
  obtain ⟨-, hflushed, hready, haborted⟩ : saved.nextTransactionId = read.nextTransactionId ∧
      saved.flushedTrancIds.ids.length = read.flushedTrancIds.ids.length ∧
      saved.readyToFlushTrancIds.size = read.readyToFlushTrancIds.size ∧
      saved.abortedTrancIds.card = read.abortedTrancIds.card := by
    simpa [encodeWords] using hheads
  rw [length_encodeWords hlists]
  omega

theorem construct_take {reached : ℕ} (hfits : saved.Fits)
    (hlists : Lists order saved.abortedTrancIds)
    (hshort : reached < (saved.fileBytes order).length) :
    ∃ what, (construct (some ((saved.fileBytes order).take reached)) true).2 =
      .error (.runtimeError what) := by
  have hlength := length_wordsLe 8 (saved.encodeWords order)
  have hsize := hfits.size
  rw [← length_encodeWords hlists, ← hlength] at hsize
  have htake : ((saved.fileBytes order).take reached).length = reached :=
    List.length_take_of_le hshort.le
  rw [construct, if_neg Bool.false_ne_true.symm]
  by_cases hwhole : reached % 8 = 0
  · obtain ⟨count, rfl⟩ := Nat.dvd_of_mod_eq_zero hwhole
    have hbytes : (saved.fileBytes order).take (8 * count) =
        wordsLe 8 ((saved.encodeWords order).take count) := take_wordsLe ..
    have hcount : count < (saved.encodeWords order).length := by
      rw [fileBytes, hlength] at hshort
      omega
    have hread := readTrancIdBytes_wordsLe new
      (fun word hmem => hfits.words hlists word (List.mem_of_mem_take hmem))
      (show 8 * ((saved.encodeWords order).take count).length < 2 ^ 64 by
        rw [List.length_take]
        omega)
    rw [← hbytes] at hread
    cases hfile : new.readTrancIdFile ((saved.encodeWords order).take count) with
    | mk read result =>
        rw [hfile] at hread
        rw [hread]
        cases result with
        | ok done => exact absurd (readTrancIdFile_take hlists hfile) (not_le.mpr hcount)
        | error err =>
            obtain ⟨-, what, rfl⟩ := @readTrancIdFile_error new _ err (congrArg Prod.snd hfile)
            exact ⟨what, rfl⟩
  · have hread : new.readTrancIdBytes ((saved.fileBytes order).take reached) = _ :=
      if_pos (Or.inr (by rw [htake]; exact hwhole))
    rw [hread]
    exact ⟨_, rfl⟩

/-- After a save and a restart exactly the rolled-back numbers are hidden. -/
theorem shouldSkipRead_restarted (trancId : ℕ) (requireCommitted : Bool) :
    saved.restarted.shouldSkipRead trancId requireCommitted = saved.isAborted trancId := by
  have hnone : decide (trancId ∈ saved.restarted.activeTrans) = false :=
    decide_eq_false (Finset.notMem_empty trancId)
  rw [shouldSkipRead, hnone, Bool.and_false, Bool.or_false]
  rfl

end

/-- What a new manager reads back after a save hides the rolled-back transactions and nothing
else: whatever was shown stays shown, and a transaction that was still active at the save is
hidden from committed reads no longer, unless it had rolled back. -/
theorem restart_policy {saved : TranManager} {order : List ℕ} (hfits : saved.Fits)
    (hnext : saved.nextTransactionId ≠ 0) (hlists : Lists order saved.abortedTrancIds)
    (file : Option Bytes) :
    ∃ content read, saved.writeTrancIdBytes order file none = (content, .ok ()) ∧
      construct content true = (content, .ok read) ∧
      read.nextTransactionId = saved.nextTransactionId ∧
      ∀ trancId,
        (trancId ∈ saved.abortedTrancIds → ∀ committed, read.shouldSkipRead trancId committed) ∧
        (∀ committed, saved.shouldSkipRead trancId committed = false →
          read.shouldSkipRead trancId committed = false) ∧
        (trancId ∈ saved.activeTrans → trancId ∉ saved.abortedTrancIds →
          saved.shouldSkipRead trancId true ∧ read.shouldSkipRead trancId true = false) := by
  refine ⟨_, _, saveFile_of_ne hnext _ _, construct_fileBytes hfits hnext hlists, rfl, fun trancId =>
    ⟨fun haborted committed => ?_, fun committed hshown => ?_, fun hactive hkept => ?_⟩⟩
  · rw [shouldSkipRead_restarted]
    exact decide_eq_true haborted
  · rw [shouldSkipRead_restarted]
    exact (Bool.or_eq_false_iff.mp hshown).1
  · rw [shouldSkipRead_restarted]
    constructor
    · rw [shouldSkipRead, decide_eq_true hactive, Bool.and_self, Bool.or_true]
    · exact decide_eq_false hkept

/-- A manager whose first transaction is still active. -/
def oneActive : TranManager := (new.getNextTransactionId.1.register new.getNextTransactionId.2)

theorem oneActive_fits : oneActive.Fits where
  next := by decide
  flushed := by decide
  ready := by decide
  aborted := by decide
  size := by decide

theorem oneActive_lists : Lists [] oneActive.abortedTrancIds := ⟨List.nodup_nil, rfl⟩

/-- The active transaction was hidden from committed reads and is shown after a restart. -/
theorem restart_policy_sample :
    ∃ content read, oneActive.writeTrancIdBytes [] (some []) none = (content, .ok ()) ∧
      construct content true = (content, .ok read) ∧
      oneActive.shouldSkipRead 1 true ∧ read.shouldSkipRead 1 true = false := by
  obtain ⟨content, read, hsave, hread, -, hpolicy⟩ :=
    restart_policy oneActive_fits (by decide) oneActive_lists (some [])
  exact ⟨content, read, hsave, hread, (hpolicy 1).2.2 (by decide) (by decide)⟩

/-- A restart does not hide everything that was hidden. -/
theorem restart_shows_active :
    ¬ ∀ content read, oneActive.writeTrancIdBytes [] (some []) none = (content, .ok ()) →
      construct content true = (content, .ok read) →
      ∀ trancId, oneActive.shouldSkipRead trancId true → read.shouldSkipRead trancId true := by
  intro hclaim
  have hread := construct_fileBytes oneActive_fits (by decide) oneActive_lists
  have hhidden := hclaim _ _ (saveFile_of_ne (by decide) _ _) hread 1 (by decide)
  rw [shouldSkipRead_restarted] at hhidden
  exact absurd hhidden (by decide)

/-- A new manager is refused or holds the state that was being saved or, when the save stopped
before the file was cut, what the file held before.  It is refused when the file was cut and not
yet complete; it is also refused on the empty file that the very first start leaves until a save
succeeds. -/
theorem interrupted_save {saved last : TranManager} {order lastOrder : List ℕ}
    (hsaved : saved.Fits) (hnext : saved.nextTransactionId ≠ 0)
    (hlists : Lists order saved.abortedTrancIds) (hlast : last.Fits)
    (hlastNext : last.nextTransactionId ≠ 0)
    (hlastLists : Lists lastOrder last.abortedTrancIds) :
    let holds (file : Option Bytes) (state : TranManager) : Prop :=
      (construct file true).2 = .ok state
    let refused (file : Option Bytes) : Prop := ∃ what,
      (construct file true).2 = .error (.runtimeError what)
    let left (file : Option Bytes) (stop : Option SaveStop) : Option Bytes :=
      (saved.writeTrancIdBytes order file stop).1
    ((construct none false).1 = none ∧ (construct none true).1 = some [] ∧ holds none new ∧
      refused (some [])) ∧
    ∀ file,
      holds (left file none) saved.restarted ∧
      (∀ err, refused (left (some []) (some (.opening err))) ∧
        holds (left (some (last.fileBytes lastOrder)) (some (.opening err))) last.restarted) ∧
      ∀ reached,
        (reached < (saved.fileBytes order).length →
          refused (left file (some (.writing reached)))) ∧
        ((saved.fileBytes order).length ≤ reached →
          holds (left file (some (.writing reached))) saved.restarted) := by
  intro holds refused left
  have hwhole : ∀ file, left file none = some (saved.fileBytes order) := by
    intro file
    unfold left writeTrancIdBytes
    rw [saveFile_of_ne hnext]
  have hopening : ∀ file err, left file (some (.opening err)) = file := by
    intro file err
    unfold left writeTrancIdBytes
    rw [saveFile_of_ne hnext]
  have hwriting : ∀ file reached,
      left file (some (.writing reached)) = some ((saved.fileBytes order).take reached) := by
    intro file reached
    unfold left writeTrancIdBytes
    rw [saveFile_of_ne hnext]
  have hnew := construct_fileBytes hsaved hnext hlists
  refine ⟨⟨rfl, rfl, rfl, _, rfl⟩, fun file => ⟨?_, fun err => ⟨?_, ?_⟩, fun reached =>
    ⟨fun hshort => ?_, fun hreached => ?_⟩⟩⟩
  · rw [hwhole]
    exact congrArg Prod.snd hnew
  · rw [hopening]
    exact ⟨_, rfl⟩
  · rw [hopening]
    exact congrArg Prod.snd (construct_fileBytes hlast hlastNext hlastLists)
  · rw [hwriting]
    exact construct_take hsaved hlists hshort
  · rw [hwriting, List.take_of_length_le hreached]
    exact congrArg Prod.snd hnew

/-- A save over the save of the first transaction stops when one byte is written. -/
theorem interrupted_save_sample :
    (construct (oneActive.writeTrancIdBytes [] (some (oneActive.fileBytes []))
      (some (.opening .outOfBounds))).1 true).2 = .ok oneActive.restarted ∧
    ∃ what, (construct (oneActive.writeTrancIdBytes [] (some (oneActive.fileBytes []))
      (some (.writing 1))).1 true).2 = .error (.runtimeError what) := by
  have hstops := (interrupted_save oneActive_fits (by decide) oneActive_lists oneActive_fits
    (by decide) oneActive_lists).2 (some (oneActive.fileBytes []))
  have hlength : (oneActive.fileBytes []).length = 8 * 5 := length_wordsLe _ _
  refine ⟨(hstops.2.1 .outOfBounds).2, (hstops.2.2 1).1 ?_⟩
  rw [hlength]
  decide

/-- A save that stops can leave a file that no manager starts from. -/
theorem interrupted_save_refused :
    ¬ ∀ (saved : TranManager) (file : Option Bytes) (stop : Option SaveStop), saved.Fits →
      file = none ∨ file = some (oneActive.fileBytes []) → ∃ read,
      (construct (saved.writeTrancIdBytes [] file stop).1 true).2 = .ok read := by
  intro hclaim
  obtain ⟨read, hread⟩ := hclaim oneActive (some (oneActive.fileBytes [])) (some (.writing 0))
    oneActive_fits (Or.inr rfl)
  cases hread

end TranManager

end KopiDb
