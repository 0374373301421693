import KopiDb.RecordCodec
import KopiDb.Lib.OrdMap

/-!
# The write-ahead log

The log collects records in a buffer and appends them to the active file of a sequence of
numbered files.  What the file operations of a call do is a parameter of the call: each
can fail, and a failed append may have written a part of its bytes.
-/

namespace KopiDb

/-- The log directory by name: the bytes of a regular file, `none` for anything else. -/
abbrev Directory := OrdMap Bytes (Option Bytes)

/-- The bytes of a file; a file that is not there has none. -/
def Directory.content (dir : Directory) (name : Bytes) : Bytes :=
  ((dir.find? name).join).getD []

/-! ## File names -/

/-- `wal.` -/
def logPrefix : Bytes := [119, 97, 108, 46]

/-- `std::to_string`: decimal digits, the highest one first. -/
def decimal (number : ℕ) : Bytes :=
  if number = 0 then [48] else (Nat.digits 10 number).reverse.map fun digit => Fin.ofNat 256 (48 + digit)

def isDigit (char : Fin 256) : Bool := decide (48 ≤ char ∧ char ≤ 57)

/-- `std::stoull` of a string of digits, before the check of its range. -/
def parseDecimal (text : Bytes) : ℕ :=
  text.foldl (fun number char => 10 * number + (char.val - 48)) 0

def logName (seq : ℕ) : Bytes := logPrefix ++ decimal seq

/-- The number of a log file; files with other names are left alone. -/
def logSeq (name : Bytes) : Option ℕ :=
  if logPrefix.isPrefixOf name then
    let suffix := name.drop 4
    if suffix.isEmpty || !suffix.all isDigit then none else some (parseDecimal suffix)
  else none

/-- The range of `uint64_t`. -/
def uint64Max : ℕ := 2 ^ 64 - 1

private theorem parse_digits (digits : List ℕ) (hdigits : ∀ digit ∈ digits, digit < 10) :
    parseDecimal (digits.reverse.map fun digit => Fin.ofNat 256 (48 + digit)) =
      Nat.ofDigits 10 digits := by
  induction digits with
  | nil => rfl
  | cons digit rest ih =>
      have hrest := ih fun other hmem => hdigits other (List.mem_cons_of_mem _ hmem)
      have hlt := hdigits digit List.mem_cons_self
      rw [List.reverse_cons, List.map_append, parseDecimal, List.foldl_append, ← parseDecimal,
        hrest, Nat.ofDigits_cons]
      change 10 * Nat.ofDigits 10 rest + ((48 + digit) % 256 - 48) = _
      have hmod : (48 + digit) % 256 = 48 + digit := Nat.mod_eq_of_lt (by omega)
      rw [hmod]
      omega

theorem parseDecimal_decimal (number : ℕ) : parseDecimal (decimal number) = number := by
  unfold decimal
  split_ifs with hzero
  · rw [hzero]
    rfl
  · rw [parse_digits _ fun digit hmem => Nat.digits_lt_base (by decide) hmem,
      Nat.ofDigits_digits]

theorem isDigit_decimal (number : ℕ) :
    decimal number ≠ [] ∧ (decimal number).all isDigit = true := by
  unfold decimal
  split_ifs with hzero
  · exact ⟨by simp, rfl⟩
  · constructor
    · intro hnil
      exact Nat.digits_ne_nil_iff_ne_zero.mpr hzero
        (List.reverse_eq_nil_iff.mp (List.map_eq_nil_iff.mp hnil))
    · rw [List.all_map, List.all_eq_true]
      intro digit hmem
      have hlt : digit < 10 := Nat.digits_lt_base (by decide) (List.mem_reverse.mp hmem)
      interval_cases digit <;> rfl

/-- The number of a file is found from its name. -/
theorem logSeq_logName (seq : ℕ) : logSeq (logName seq) = some seq := by
  obtain ⟨hne, hdigits⟩ := isDigit_decimal seq
  have hprefix : logPrefix.isPrefixOf (logPrefix ++ decimal seq) = true :=
    List.isPrefixOf_iff_prefix.mpr (List.prefix_append _ _)
  have hdrop : (logPrefix ++ decimal seq).drop 4 = decimal seq := List.drop_left' rfl
  rw [logSeq, logName, if_pos hprefix]
  dsimp only
  rw [hdrop, hdigits, parseDecimal_decimal, List.isEmpty_eq_false_iff.mpr hne]
  rfl

theorem logName_inj {first second : ℕ} (hname : logName first = logName second) :
    first = second := by
  have hseq := congrArg logSeq hname
  rw [logSeq_logName, logSeq_logName] at hseq
  exact Option.some.inj hseq

/-! ## Log -/

structure Wal where
  logDir : String
  activeLogName : Bytes
  fileSizeLimit : ℕ
  logBuffer : List Record
  bufferSize : ℕ
  checkpointTrancId : ℕ
  writeFailed : Bool

/-- How `create_and_write` of an empty file fails: the file cannot be opened, or it is
there and cannot be flushed. -/
inductive CreateFault where
  | opening
  | flushing

/-- What fails in the file operations of one call.  A failed append or flush leaves the
first bytes of the batch in the file. -/
structure FileFaults where
  size : Bool
  create : Option CreateFault
  append : Option ℕ
  sync : Option ℕ

/-- A directory and a file in it. -/
def joinPath (dir name : String) : String :=
  if dir.endsWith "/" then dir ++ name else dir ++ "/" ++ name

def logPath (logDir : String) (seq : ℕ) : String :=
  joinPath logDir ("wal." ++ toString seq)

/-- A new log goes behind a file of the directory. -/
def seqAfter (next : ℕ) (entry : Bytes × Option Bytes) : Except Err ℕ :=
  match entry.2, logSeq entry.1 with
  | some _, some seq =>
      if seq > uint64Max then .error (.outOfRange "stoull")
      else if seq = uint64Max then .error (.overflowError "WAL: log file sequence exhausted")
      else .ok (max next (seq + 1))
  | _, _ => .ok next

/-- The number of a new log: above every log file of the directory. -/
def nextSeq (entries : List (Bytes × Option Bytes)) : Except Err ℕ :=
  entries.foldlM seqAfter 0

namespace Wal

/-- The constructor. -/
def create (dir : Directory) (logDir : String)
    (bufferSize checkpointTrancId fileSizeLimit : ℕ) (opens : Bool) :
    Directory × Except Err Wal :=
  let logDir := if logDir = "" then "." else logDir
  match nextSeq dir.entries with
  | .error err => (dir, .error err)
  | .ok seq =>
      if opens ∧ dir.find? (logName seq) ≠ some none then
        (dir.insert (logName seq) (some []), .ok
          { logDir := logDir
            activeLogName := logName seq
            fileSizeLimit := fileSizeLimit
            logBuffer := []
            bufferSize := bufferSize
            checkpointTrancId := checkpointTrancId
            writeFailed := false })
      else (dir, .error (.runtimeError ("Failed to open file: " ++ logPath logDir seq)))

def activeSeq (wal : Wal) : ℕ := parseDecimal (wal.activeLogName.drop 4)

/-- `reset_file`: the name of the new file. -/
def resetFile (wal : Wal) (dir : Directory) (fault : Option CreateFault) :
    Directory × Except Err Bytes :=
  if wal.activeSeq = uint64Max then
    (dir, .error (.overflowError "WAL: log file sequence exhausted"))
  else
    let seq := wal.activeSeq + 1
    if dir.contains (logName seq) then
      (dir, .error (.runtimeError
        ("WAL: next log file already exists: " ++ logPath wal.logDir seq)))
    else
      match fault with
      | none => (dir.insert (logName seq) (some []), .ok (logName seq))
      | some .opening => (dir, .error (.runtimeError "Failed to open file for writing"))
      | some .flushing =>
          (dir.insert (logName seq) (some []), .error (.runtimeError
            ("Failed to flush file: " ++ logPath wal.logDir seq)))

/-- The file that takes the next batch: a file that reached the limit is left. -/
def rotate (wal : Wal) (dir : Directory) (faults : FileFaults) :
    Directory × Except Err Bytes :=
  if wal.fileSizeLimit = 0 then (dir, .ok wal.activeLogName)
  else if faults.size then
    (dir, .error (.runtimeError "WAL: failed to read log file size"))
  else if (dir.content wal.activeLogName).length ≥ wal.fileSizeLimit then
    wal.resetFile dir faults.create
  else (dir, .ok wal.activeLogName)

/-- Bytes behind those of a file. -/
def appendBytes (dir : Directory) (name bytes : Bytes) : Directory :=
  dir.insert name (some (dir.content name ++ bytes))

/-- `append` and `sync` of a batch. -/
def appendBatch (dir : Directory) (name encoded : Bytes) (faults : FileFaults) :
    Directory × Except Err Unit :=
  match faults.append, faults.sync with
  | some reached, _ =>
      (appendBytes dir name (encoded.take reached),
        .error (.runtimeError "WAL: failed to append log records"))
  | none, some reached =>
      (appendBytes dir name (encoded.take reached),
        .error (.runtimeError "WAL: failed to sync log file"))
  | none, none => (appendBytes dir name encoded, .ok ())

def log (wal : Wal) (dir : Directory) (records : List Record) (forceFlush : Bool)
    (faults : FileFaults) : (Wal × Directory) × Except Err Unit :=
  if wal.writeFailed then
    ((wal, dir), .error (.runtimeError "WAL: previous file operation failed"))
  else
    let buffer := wal.logBuffer ++ records
    if buffer = [] ∨ (forceFlush = false ∧ buffer.length < wal.bufferSize) then
      (({ wal with logBuffer := buffer }, dir), .ok ())
    else
      match wal.rotate dir faults with
      | (dir, .error err) =>
          (({ wal with logBuffer := buffer, writeFailed := true }, dir), .error err)
      | (dir, .ok name) =>
          match appendBatch dir name (Record.encodeAll buffer) faults with
          | (dir, .error err) =>
              (({ wal with
                  activeLogName := name, logBuffer := buffer, writeFailed := true }, dir),
                .error err)
          | (dir, .ok _) =>
              (({ wal with activeLogName := name, logBuffer := [] }, dir), .ok ())

def flush (wal : Wal) (dir : Directory) (faults : FileFaults) :
    (Wal × Directory) × Except Err Unit :=
  wal.log dir [] true faults

def setCheckpointTrancId (wal : Wal) (checkpointTrancId : ℕ) : Wal :=
  { wal with checkpointTrancId := checkpointTrancId }

/-- Whether `cleanWALFile` removes an entry of the directory; what it cannot read stays. -/
def canDelete (wal : Wal) (name : Bytes) (content : Option Bytes) : Bool :=
  match content, logSeq name with
  | some bytes, some seq =>
      if seq > uint64Max ∨ seq ≥ wal.activeSeq then false
      else
        match Record.decode bytes with
        | .error _ => false
        | .ok records => records.all fun record => decide (record.trancId ≤ wal.checkpointTrancId)
  | _, _ => false

/-- `cleanWALFile`; `works` says for which files reading and removing succeed. -/
def cleanWALFile (wal : Wal) (dir : Directory) (works : Bytes → Bool) : Directory :=
  ⟨dir.entries.filter fun entry => !(works entry.1 && wal.canDelete entry.1 entry.2),
    dir.sorted.filter _⟩

variable {wal : Wal} {dir dir' : Directory} {records : List Record} {forceFlush : Bool}
  {faults : FileFaults}

/-- A file is added under a free name, or nothing happens. -/
def Adds (dir : Directory) (name : Bytes) (dir' : Directory) : Prop :=
  dir' = dir ∨ (dir.find? name = none ∧ dir' = dir.insert name (some []))

private theorem resetFile_cases {fault : Option CreateFault} {result : Except Err Bytes}
    (hreset : wal.resetFile dir fault = (dir', result)) :
    (result = .ok (logName (wal.activeSeq + 1)) ∧ wal.activeSeq ≠ uint64Max ∧
        dir.find? (logName (wal.activeSeq + 1)) = none ∧
        dir' = dir.insert (logName (wal.activeSeq + 1)) (some [])) ∨
      ((∃ err, result = .error err) ∧ Adds dir (logName (wal.activeSeq + 1)) dir') := by
  have hpair {first : Directory} {second : Except Err Bytes}
      (heq : (first, second) = (dir', result)) : dir' = first ∧ result = second :=
    ⟨(congrArg Prod.fst heq).symm, (congrArg Prod.snd heq).symm⟩
  unfold resetFile at hreset
  dsimp only at hreset
  by_cases hmax : wal.activeSeq = uint64Max
  · rw [if_pos hmax] at hreset
    exact Or.inr ⟨⟨_, (hpair hreset).2⟩, Or.inl (hpair hreset).1⟩
  · rw [if_neg hmax] at hreset
    by_cases hcontains : dir.contains (logName (wal.activeSeq + 1)) = true
    · rw [if_pos hcontains] at hreset
      exact Or.inr ⟨⟨_, (hpair hreset).2⟩, Or.inl (hpair hreset).1⟩
    · rw [if_neg hcontains] at hreset
      have hfree : dir.find? (logName (wal.activeSeq + 1)) = none :=
        Option.not_isSome_iff_eq_none.mp hcontains
      split at hreset
      · exact Or.inl ⟨(hpair hreset).2, hmax, hfree, (hpair hreset).1⟩
      · exact Or.inr ⟨⟨_, (hpair hreset).2⟩, Or.inl (hpair hreset).1⟩
      · exact Or.inr ⟨⟨_, (hpair hreset).2⟩, Or.inr ⟨hfree, (hpair hreset).1⟩⟩

/-- The next name is taken only when nothing has it. -/
theorem rotate_cases {result : Except Err Bytes}
    (hrotate : wal.rotate dir faults = (dir', result)) :
    (result = .ok wal.activeLogName ∧ dir' = dir) ∨
      (result = .ok (logName (wal.activeSeq + 1)) ∧ wal.activeSeq ≠ uint64Max ∧
        dir.find? (logName (wal.activeSeq + 1)) = none ∧
        dir' = dir.insert (logName (wal.activeSeq + 1)) (some [])) ∨
      ((∃ err, result = .error err) ∧ Adds dir (logName (wal.activeSeq + 1)) dir') := by
  unfold rotate at hrotate
  split_ifs at hrotate
  · obtain ⟨rfl, rfl⟩ := Prod.mk.inj hrotate
    exact Or.inl ⟨rfl, rfl⟩
  · obtain ⟨rfl, rfl⟩ := Prod.mk.inj hrotate
    exact Or.inr (Or.inr ⟨⟨_, rfl⟩, Or.inl rfl⟩)
  · exact Or.inr (resetFile_cases hrotate)
  · obtain ⟨rfl, rfl⟩ := Prod.mk.inj hrotate
    exact Or.inl ⟨rfl, rfl⟩

private theorem appendBatch_cases (dir : Directory) (name encoded : Bytes)
    (faults : FileFaults) :
    appendBatch dir name encoded faults = (appendBytes dir name encoded, .ok ()) ∨
      ∃ bytes err,
        appendBatch dir name encoded faults = (appendBytes dir name bytes, .error err) := by
  unfold appendBatch
  split
  · exact Or.inr ⟨_, _, rfl⟩
  · exact Or.inr ⟨_, _, rfl⟩
  · exact Or.inl rfl

/-- What one call does: it is refused, it fills the buffer, it writes the buffer, or it
fails with the buffer kept. -/
theorem log_cases (wal : Wal) (dir : Directory) (records : List Record) (forceFlush : Bool)
    (faults : FileFaults) :
    (wal.writeFailed = true ∧ wal.log dir records forceFlush faults = ((wal, dir),
      .error (.runtimeError "WAL: previous file operation failed"))) ∨
    (wal.writeFailed = false ∧ (forceFlush = true → wal.logBuffer ++ records = []) ∧
      wal.log dir records forceFlush faults =
        (({ wal with logBuffer := wal.logBuffer ++ records }, dir), .ok ())) ∨
    (wal.writeFailed = false ∧ ∃ name dir',
      wal.rotate dir faults = (dir', .ok name) ∧
      wal.log dir records forceFlush faults =
        (({ wal with activeLogName := name, logBuffer := [] },
          appendBytes dir' name (Record.encodeAll (wal.logBuffer ++ records))), .ok ())) ∨
    (wal.writeFailed = false ∧ ∃ name dir' bytes err,
      wal.log dir records forceFlush faults =
        (({ wal with
            activeLogName := name, logBuffer := wal.logBuffer ++ records,
            writeFailed := true }, dir'), .error err) ∧
      ((name = wal.activeLogName ∧ Adds dir (logName (wal.activeSeq + 1)) dir') ∨
        ∃ rotated, wal.rotate dir faults = (rotated, .ok name) ∧
          dir' = appendBytes rotated name bytes)) := by
  unfold log
  dsimp only
  split_ifs with hfailed hkeep
  · exact Or.inl ⟨hfailed, rfl⟩
  · refine Or.inr (Or.inl ⟨Bool.eq_false_iff.mpr hfailed, fun hforce => ?_, rfl⟩)
    rcases hkeep with hempty | ⟨hlazy, -⟩
    · exact hempty
    · rw [hforce] at hlazy
      cases hlazy
  · have hfailed := Bool.eq_false_iff.mpr hfailed
    cases hrotate : wal.rotate dir faults with
    | mk rotated result =>
        cases result with
        | error err =>
            refine Or.inr (Or.inr (Or.inr ⟨hfailed, wal.activeLogName, rotated, [], err,
              rfl, Or.inl ⟨rfl, ?_⟩⟩))
            rcases rotate_cases hrotate with ⟨habsurd, -⟩ | ⟨habsurd, -⟩ | ⟨-, hadds⟩
            · cases habsurd
            · cases habsurd
            · exact hadds
        | ok name =>
            dsimp only
            rcases appendBatch_cases rotated name
              (Record.encodeAll (wal.logBuffer ++ records)) faults with
              hbatch | ⟨bytes, err, hbatch⟩
            · rw [hbatch]
              exact Or.inr (Or.inr (Or.inl ⟨hfailed, name, rotated, rfl, rfl⟩))
            · rw [hbatch]
              exact Or.inr (Or.inr (Or.inr ⟨hfailed, name, _, bytes, err, rfl,
                Or.inr ⟨rotated, rfl, rfl⟩⟩))

end Wal

end KopiDb
