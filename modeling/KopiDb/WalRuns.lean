import KopiDb.Wal

/-!
# Runs of the write-ahead log

As long as no call failed the files of a log and its buffer hold every record once and in
order.  A failure stops the log for good.  No file that was there before is touched, and
cleaning removes only what the checkpoint covers.
-/

namespace KopiDb

/-- From one directory to another no file is lost or changed, except that the active one
may have grown. -/
structure Directory.Grows (active : Bytes) (dir dir' : Directory) : Prop where
  other : ∀ name content, dir.find? name = some content → name ≠ active →
    dir'.find? name = some content
  own : ∀ bytes, dir.find? active = some (some bytes) →
    ∃ added, dir'.find? active = some (some (bytes ++ added))

theorem Directory.Grows.refl (active : Bytes) (dir : Directory) : dir.Grows active dir where
  other _ _ hfind _ := hfind
  own bytes hfind := ⟨[], by rw [List.append_nil]; exact hfind⟩

theorem Directory.content_of_find {dir : Directory} {name bytes : Bytes}
    (hfind : dir.find? name = some (some bytes)) : dir.content name = bytes := by
  rw [Directory.content, hfind]
  rfl

theorem logName_drop (seq : ℕ) : (logName seq).drop 4 = decimal seq :=
  List.drop_left' rfl

namespace Wal

/-- One call of `log`. -/
structure LogCall where
  records : List Record
  forceFlush : Bool
  faults : FileFaults

/-- `flush` is the forced call with no records. -/
def LogCall.flush (faults : FileFaults) : LogCall := ⟨[], true, faults⟩

def logCall (state : Wal × Directory) (call : LogCall) :
    (Wal × Directory) × Except Err Unit :=
  state.1.log state.2 call.records call.forceFlush call.faults

def runLogs (state : Wal × Directory) (calls : List LogCall) : Wal × Directory :=
  calls.foldl (fun state call => (logCall state call).1) state

/-- No call of a run threw. -/
def NoneThrew (state : Wal × Directory) : List LogCall → Prop
  | [] => True
  | call :: rest => (logCall state call).2 = .ok () ∧ NoneThrew (logCall state call).1 rest

/-- What the files with the given numbers hold. -/
def readLogs (dir : Directory) (seqs : List ℕ) : Except Err (List Record) :=
  (seqs.mapM fun seq => Record.decode (dir.content (logName seq))).map List.flatten

/-- The numbers of the files that a log made since its first one. -/
def ownSeqs (first : ℕ) (wal : Wal) : List ℕ := List.range' first (wal.activeSeq + 1 - first)

variable {wal : Wal} {dir dir' : Directory} {records : List Record} {forceFlush : Bool}
  {faults : FileFaults} {state : Wal × Directory} {first : ℕ}

theorem activeSeq_of_name {seq : ℕ} (hname : wal.activeLogName = logName seq) :
    wal.activeSeq = seq := by
  rw [activeSeq, hname, logName_drop, parseDecimal_decimal]

theorem runLogs_snoc (state : Wal × Directory) (calls : List LogCall) (call : LogCall) :
    runLogs state (calls ++ [call]) = (logCall (runLogs state calls) call).1 := by
  rw [runLogs, List.foldl_append]
  rfl

theorem NoneThrew.of_snoc {calls : List LogCall} {call : LogCall}
    (hnone : NoneThrew state (calls ++ [call])) :
    NoneThrew state calls ∧ (logCall (runLogs state calls) call).2 = .ok () := by
  induction calls generalizing state with
  | nil => exact ⟨trivial, hnone.1⟩
  | cons earlier rest ih =>
      obtain ⟨hrest, hlast⟩ := ih hnone.2
      exact ⟨⟨hnone.1, hrest⟩, hlast⟩

/-! ## What one call changes -/

theorem Adds.grows {name : Bytes} (active : Bytes) (hadds : Adds dir name dir') :
    dir.Grows active dir' := by
  rcases hadds with rfl | ⟨hfree, rfl⟩
  · exact Directory.Grows.refl active dir'
  · have hkeep {other : Bytes} {content : Option Bytes}
        (hfind : dir.find? other = some content) :
        (dir.insert name (some [])).find? other = some content := by
      rw [OrdMap.find?_insert, if_neg, hfind]
      rintro rfl
      rw [hfree] at hfind
      cases hfind
    exact ⟨fun other content hfind _ => hkeep hfind,
      fun bytes hfind => ⟨[], by rw [List.append_nil]; exact hkeep hfind⟩⟩

theorem find?_appendBytes (dir : Directory) (name bytes other : Bytes) :
    (appendBytes dir name bytes).find? other =
      if other = name then some (some (dir.content name ++ bytes)) else dir.find? other := by
  rw [appendBytes, OrdMap.find?_insert]
  congr

/-- The file written is the active one or one that was not there. -/
private theorem rotate_name {name : Bytes} (hrotate : wal.rotate dir faults = (dir', .ok name)) :
    Adds dir name dir' ∧ (name = wal.activeLogName ∨
      (dir.find? name = none ∧ dir'.find? name = some (some []) ∧
        name = logName (wal.activeSeq + 1))) := by
  rcases rotate_cases hrotate with ⟨hname, rfl⟩ | ⟨hname, -, hfree, rfl⟩ | ⟨⟨err, habsurd⟩, -⟩
  · exact ⟨Or.inl rfl, Or.inl (Except.ok.inj hname)⟩
  · obtain rfl := Except.ok.inj hname
    exact ⟨Or.inr ⟨hfree, rfl⟩, Or.inr ⟨hfree, OrdMap.find?_insert_self .., rfl⟩⟩
  · cases habsurd

private theorem appendBytes_grows {name : Bytes} (bytes : Bytes)
    (hrotate : wal.rotate dir faults = (dir', .ok name)) :
    dir.Grows wal.activeLogName (appendBytes dir' name bytes) := by
  obtain ⟨hadds, hname⟩ := rotate_name hrotate
  have hgrows := hadds.grows wal.activeLogName
  rcases hname with rfl | ⟨hfree, -, -⟩
  · constructor
    · intro other content hfind hne
      rw [find?_appendBytes, if_neg hne]
      exact hgrows.other other content hfind hne
    · intro old hfind
      obtain ⟨added, hadded⟩ := hgrows.own old hfind
      refine ⟨added ++ bytes, ?_⟩
      rw [find?_appendBytes, if_pos rfl, Directory.content_of_find hadded, List.append_assoc]
  · have hne {other : Bytes} {content : Option Bytes}
        (hfind : dir.find? other = some content) : other ≠ name := by
      rintro rfl
      rw [hfree] at hfind
      cases hfind
    constructor
    · intro other content hfind hother
      rw [find?_appendBytes, if_neg (hne hfind)]
      exact hgrows.other other content hfind hother
    · intro old hfind
      rw [find?_appendBytes, if_neg (hne hfind)]
      exact hgrows.own old hfind

/-- A call changes no file but the active one, and that one only grows.  When another file
becomes active, it was not there before. -/
theorem log_grows (wal : Wal) (dir : Directory) (records : List Record) (forceFlush : Bool)
    (faults : FileFaults) :
    dir.Grows wal.activeLogName (wal.log dir records forceFlush faults).1.2 ∧
      ((wal.log dir records forceFlush faults).1.1.activeLogName ≠ wal.activeLogName →
        dir.find? (wal.log dir records forceFlush faults).1.1.activeLogName = none) := by
  rcases log_cases wal dir records forceFlush faults with
    ⟨-, hlog⟩ | ⟨-, -, hlog⟩ | ⟨-, name, rotated, hrotate, hlog⟩ |
      ⟨-, name, dir', bytes, err, hlog, hfailed⟩
  · rw [hlog]
    exact ⟨Directory.Grows.refl _ _, fun hne => absurd rfl hne⟩
  · rw [hlog]
    exact ⟨Directory.Grows.refl _ _, fun hne => absurd rfl hne⟩
  · rw [hlog]
    refine ⟨appendBytes_grows _ hrotate, fun hne => ?_⟩
    rcases (rotate_name hrotate).2 with hsame | ⟨hfree, -, -⟩
    · exact absurd hsame hne
    · exact hfree
  · rw [hlog]
    rcases hfailed with ⟨rfl, hadds⟩ | ⟨rotated, hrotate, rfl⟩
    · exact ⟨hadds.grows _, fun hne => absurd rfl hne⟩
    · refine ⟨appendBytes_grows _ hrotate, fun hne => ?_⟩
      rcases (rotate_name hrotate).2 with hsame | ⟨hfree, -, -⟩
      · exact absurd hsame hne
      · exact hfree

/-- A call that threw leaves the log closed. -/
theorem log_error {err : Err} (herror : (wal.log dir records forceFlush faults).2 = .error err) :
    (wal.log dir records forceFlush faults).1.1.writeFailed = true := by
  rcases log_cases wal dir records forceFlush faults with
    ⟨hfailed, hlog⟩ | ⟨-, -, hlog⟩ | ⟨-, name, rotated, hrotate, hlog⟩ |
      ⟨-, name, dir', bytes, err, hlog, -⟩
  · rw [hlog]
    exact hfailed
  · rw [hlog] at herror
    cases herror
  · rw [hlog] at herror
    cases herror
  · rw [hlog]

/-- A forced call that succeeds leaves nothing in the buffer. -/
theorem log_force (hok : (wal.log dir records true faults).2 = .ok ()) :
    (wal.log dir records true faults).1.1.logBuffer = [] := by
  rcases log_cases wal dir records true faults with
    ⟨-, hlog⟩ | ⟨-, hempty, hlog⟩ | ⟨-, name, rotated, -, hlog⟩ |
      ⟨-, name, dir', bytes, err, hlog, -⟩
  · rw [hlog] at hok
    cases hok
  · rw [hlog]
    exact hempty rfl
  · rw [hlog]
  · rw [hlog] at hok
    cases hok

theorem logCall_failed (hfailed : state.1.writeFailed = true) (call : LogCall) :
    logCall state call =
      (state, .error (.runtimeError "WAL: previous file operation failed")) :=
  if_pos hfailed

theorem runLogs_failed (hfailed : state.1.writeFailed = true) (calls : List LogCall) :
    runLogs state calls = state := by
  induction calls with
  | nil => rfl
  | cons call rest ih =>
      rw [runLogs, List.foldl_cons, logCall_failed hfailed]
      exact ih

/-! ## Order and completeness -/

/-- The files from `first` on hold `closed` and, in the active one, `current`; with the
buffer these are the records accepted so far. -/
structure Holds (first : ℕ) (closed : List (List Record)) (current accepted : List Record)
    (state : Wal × Directory) : Prop where
  name : state.1.activeLogName = logName (first + closed.length)
  files : ∀ offset records, (closed ++ [current])[offset]? = some records →
    state.2.find? (logName (first + offset)) = some (some (Record.encodeAll records))
  made : ∀ record ∈ accepted, record.Made
  all : (closed ++ [current]).flatten ++ state.1.logBuffer = accepted

theorem encodeAll_append (left right : List Record) :
    Record.encodeAll (left ++ right) = Record.encodeAll left ++ Record.encodeAll right :=
  List.flatMap_append

section

variable {closed : List (List Record)} {current accepted : List Record}

/-- The buffer goes behind the records of the active file. -/
theorem Holds.append (hholds : Holds first closed current accepted (wal, dir))
    (hmade : ∀ record ∈ records, record.Made) :
    Holds first closed (current ++ (wal.logBuffer ++ records)) (accepted ++ records)
      ({ wal with logBuffer := [] },
        appendBytes dir wal.activeLogName (Record.encodeAll (wal.logBuffer ++ records))) where
  name := hholds.name
  files offset stored hstored := by
    have hname : wal.activeLogName = logName (first + closed.length) := hholds.name
    have hlast : dir.find? wal.activeLogName = some (some (Record.encodeAll current)) := by
      rw [hname]
      exact hholds.files _ _ List.getElem?_concat_length
    dsimp only
    rw [find?_appendBytes, Directory.content_of_find hlast, ← encodeAll_append]
    rcases lt_trichotomy offset closed.length with hlt | rfl | hgt
    · rw [if_neg, hholds.files offset stored]
      · rw [List.getElem?_append_left hlt] at hstored ⊢
        exact hstored
      · rw [hname]
        intro hsame
        have := logName_inj hsame
        omega
    · rw [List.getElem?_concat_length] at hstored
      rw [if_pos hname.symm, Option.some.inj hstored]
    · rw [List.getElem?_eq_none] at hstored
      · cases hstored
      · rw [List.length_append]
        exact hgt
  made := List.forall_mem_append.mpr ⟨hholds.made, hmade⟩
  all := by
    have hall := hholds.all
    dsimp only at hall
    rw [← hall]
    simp only [List.flatten_append, List.flatten_singleton, List.append_assoc, List.append_nil]

/-- A new file becomes the active one. -/
theorem Holds.rotate (hholds : Holds first closed current accepted (wal, dir)) {name : Bytes}
    (hname : name = logName (wal.activeSeq + 1)) (hfree : dir.find? name = none)
    (hadds : Adds dir name dir') (hfind : dir'.find? name = some (some [])) :
    Holds first (closed ++ [current]) [] accepted ({ wal with activeLogName := name }, dir') where
  name := by
    rw [hname, activeSeq_of_name hholds.name, List.length_append]
    rfl
  files offset stored hstored := by
    have hseq : wal.activeSeq = first + closed.length := activeSeq_of_name hholds.name
    rcases lt_trichotomy offset (closed ++ [current]).length with hlt | rfl | hgt
    · rw [List.getElem?_append_left hlt] at hstored
      apply (hadds.grows name).other _ _ (hholds.files offset stored hstored)
      rintro hsame
      have hold := hholds.files offset stored hstored
      dsimp only at hold
      rw [hsame, hfree] at hold
      cases hold
    · rw [List.getElem?_concat_length] at hstored
      obtain rfl := Option.some.inj hstored
      rw [List.length_append, ← Nat.add_assoc, ← hseq, List.length_singleton, ← hname]
      exact hfind
    · rw [List.getElem?_eq_none] at hstored
      · cases hstored
      · rw [List.length_append]
        exact hgt
  made := hholds.made
  all := by
    rw [← hholds.all, List.flatten_append, List.flatten_singleton, List.append_nil]

/-- A call that does not throw accepts its records. -/
theorem Holds.log (hholds : Holds first closed current accepted (wal, dir))
    (hmade : ∀ record ∈ records, record.Made)
    (hok : (wal.log dir records forceFlush faults).2 = .ok ()) :
    ∃ closed current, Holds first closed current (accepted ++ records)
      (wal.log dir records forceFlush faults).1 := by
  rcases log_cases wal dir records forceFlush faults with
    ⟨-, hlog⟩ | ⟨-, -, hlog⟩ | ⟨-, name, rotated, hrotate, hlog⟩ |
      ⟨-, name, dir', bytes, err, hlog, -⟩
  · rw [hlog] at hok
    cases hok
  · rw [hlog]
    refine ⟨closed, current, hholds.name, hholds.files,
      List.forall_mem_append.mpr ⟨hholds.made, hmade⟩, ?_⟩
    rw [← hholds.all, List.append_assoc]
  · rw [hlog]
    rcases rotate_cases hrotate with ⟨hname, rfl⟩ | ⟨hname, -, hfree, rfl⟩ | ⟨⟨err, habsurd⟩, -⟩
    · obtain rfl := Except.ok.inj hname
      exact ⟨closed, _, hholds.append hmade⟩
    · obtain rfl := Except.ok.inj hname
      have hrotated := hholds.rotate rfl hfree (Or.inr ⟨hfree, rfl⟩)
        (OrdMap.find?_insert_self ..)
      exact ⟨closed ++ [current], _, hrotated.append hmade⟩
    · cases habsurd
  · rw [hlog] at hok
    cases hok

/-- The files decode to the records they hold. -/
theorem mapM_decode {files : List (List Record)}
    (hfiles : ∀ offset records, files[offset]? = some records →
      dir.content (logName (first + offset)) = Record.encodeAll records)
    (hmade : ∀ records ∈ files, ∀ record ∈ records, record.Made) :
    ((List.range' first files.length).mapM fun seq =>
      Record.decode (dir.content (logName seq))) = .ok files := by
  induction files generalizing first with
  | nil => rfl
  | cons records rest ih =>
      have hhead : Record.decode (dir.content (logName first)) = .ok records := by
        have hcontent : dir.content (logName first) = _ := hfiles 0 records rfl
        rw [hcontent]
        exact Record.decode_eq_ok.mpr ⟨hmade _ List.mem_cons_self, rfl⟩
      have htail := @ih (first + 1)
        (fun offset found hfound => by
          rw [Nat.add_assoc, Nat.add_comm 1]
          exact hfiles (offset + 1) found hfound)
        fun found hmem => hmade found (List.mem_cons_of_mem _ hmem)
      rw [List.length_cons, List.range'_succ, List.mapM_cons, hhead, htail]
      rfl

theorem Holds.readLogs (hholds : Holds first closed current accepted (wal, dir)) :
    ∃ written, readLogs dir (ownSeqs first wal) = .ok written ∧
      written ++ wal.logBuffer = accepted := by
  refine ⟨(closed ++ [current]).flatten, ?_, hholds.all⟩
  have hseqs : ownSeqs first wal = List.range' first (closed ++ [current]).length := by
    rw [ownSeqs, activeSeq_of_name hholds.name, List.length_append, List.length_singleton]
    congr 1
    omega
  have hfiles := @mapM_decode dir first (closed ++ [current])
    (fun offset found hfound => Directory.content_of_find (hholds.files offset found hfound))
    (by
      intro found hfound record hmem
      apply hholds.made
      rw [← hholds.all]
      exact List.mem_append_left _ (List.mem_flatten.mpr ⟨found, hfound, hmem⟩))
  rw [KopiDb.Wal.readLogs, hseqs, hfiles]
  rfl

theorem Holds.run (hholds : Holds first closed current accepted state) (calls : List LogCall)
    (hmade : ∀ call ∈ calls, ∀ record ∈ call.records, record.Made)
    (hnone : NoneThrew state calls) :
    ∃ closed current, Holds first closed current
      (accepted ++ calls.flatMap LogCall.records) (runLogs state calls) := by
  induction calls using List.reverseRecOn with
  | nil =>
      refine ⟨closed, current, ?_⟩
      rw [List.flatMap_nil, List.append_nil]
      exact hholds
  | append_singleton calls call ih =>
      obtain ⟨hbefore, hok⟩ := hnone.of_snoc
      obtain ⟨closed, current, hmid⟩ :=
        ih (fun earlier hmem => hmade earlier (List.mem_append_left _ hmem)) hbefore
      rw [runLogs_snoc, List.flatMap_append, ← List.append_assoc, List.flatMap_singleton]
      exact hmid.log (hmade call (List.mem_append_right _ List.mem_cons_self)) hok

end

/-! ## Files that were there before -/

private theorem seqAfter_lt {before next : ℕ} {entry : Bytes × Option Bytes}
    (hafter : seqAfter before entry = .ok next) :
    before ≤ next ∧ ∀ bytes, entry.2 = some bytes → ∀ seq, logSeq entry.1 = some seq →
      seq < next := by
  unfold seqAfter at hafter
  split at hafter
  next bytes seq hcontent hseq =>
    split_ifs at hafter
    obtain rfl := Except.ok.inj hafter
    refine ⟨le_max_left _ _, fun other _ found hfound => ?_⟩
    rw [hseq] at hfound
    obtain rfl := Option.some.inj hfound
    exact Nat.lt_of_succ_le (le_max_right before (seq + 1))
  next hother =>
    obtain rfl := Except.ok.inj hafter
    exact ⟨le_rfl, fun bytes hbytes seq hseq => absurd hseq (hother bytes seq hbytes)⟩

private theorem foldlM_seqAfter_lt {entries : List (Bytes × Option Bytes)} {before next : ℕ}
    (hnext : entries.foldlM seqAfter before = .ok next) :
    before ≤ next ∧ ∀ entry ∈ entries, ∀ bytes, entry.2 = some bytes →
      ∀ seq, logSeq entry.1 = some seq → seq < next := by
  induction entries generalizing before with
  | nil =>
      obtain rfl := Except.ok.inj hnext
      exact ⟨le_rfl, fun entry hmem => absurd hmem List.not_mem_nil⟩
  | cons entry rest ih =>
      rw [List.foldlM_cons] at hnext
      cases hafter : seqAfter before entry with
      | error err =>
          rw [hafter] at hnext
          cases hnext
      | ok mid =>
          rw [hafter] at hnext
          obtain ⟨hle, hentry⟩ := seqAfter_lt hafter
          obtain ⟨hmid, hrest⟩ := ih hnext
          refine ⟨hle.trans hmid, List.forall_mem_cons.mpr ⟨?_, hrest⟩⟩
          exact fun bytes hbytes seq hseq => (hentry bytes hbytes seq hseq).trans_le hmid

/-- What the constructor does when it succeeds: an empty file under a free name. -/
theorem create_ok {old : Directory} {logDir : String}
    {bufferSize checkpointTrancId fileSizeLimit : ℕ} {opens : Bool}
    (hcreate : create old logDir bufferSize checkpointTrancId fileSizeLimit opens =
      (dir, .ok wal)) :
    ∃ first, wal.activeLogName = logName first ∧ wal.logBuffer = [] ∧
      wal.writeFailed = false ∧ old.find? (logName first) = none ∧
      dir = old.insert (logName first) (some []) := by
  unfold create at hcreate
  dsimp only at hcreate
  split at hcreate
  next err hseq => cases (Prod.mk.inj hcreate).2
  next first hseq =>
    by_cases hopens : opens = true ∧ old.find? (logName first) ≠ some none
    · rw [if_pos hopens] at hcreate
      obtain ⟨rfl, hwal⟩ := Prod.mk.inj hcreate
      obtain rfl := Except.ok.inj hwal
      refine ⟨first, rfl, rfl, rfl, ?_, rfl⟩
      cases hfind : old.find? (logName first) with
      | none => rfl
      | some content =>
          cases content with
          | none => exact absurd hfind hopens.2
          | some bytes =>
              have hlt := (foldlM_seqAfter_lt hseq).2 _ (OrdMap.find?_eq_some_iff.mp hfind)
                bytes rfl first (logSeq_logName first)
              exact absurd hlt (lt_irrefl first)
    · rw [if_neg hopens] at hcreate
      cases (Prod.mk.inj hcreate).2

/-- The active file is one of the log's own; the others stay as they were. -/
structure Apart (old : Directory) (state : Wal × Directory) : Prop where
  own : old.find? state.1.activeLogName = none
  kept : ∀ name content, old.find? name = some content → state.2.find? name = some content

theorem Apart.log {old : Directory} (hapart : Apart old state) (call : LogCall) :
    Apart old (logCall state call).1 := by
  obtain ⟨hgrows, hnew⟩ :=
    log_grows state.1 state.2 call.records call.forceFlush call.faults
  have hkept : ∀ name content, old.find? name = some content →
      (logCall state call).1.2.find? name = some content := by
    intro name content hfind
    apply hgrows.other name content (hapart.kept name content hfind)
    rintro rfl
    rw [hapart.own] at hfind
    cases hfind
  refine ⟨?_, hkept⟩
  by_cases hsame : (logCall state call).1.1.activeLogName = state.1.activeLogName
  · rw [hsame]
    exact hapart.own
  · cases hfind : old.find? (logCall state call).1.1.activeLogName with
    | none => rfl
    | some content =>
        have habsent := hnew hsame
        change state.2.find? (logCall state call).1.1.activeLogName = none at habsent
        rw [hapart.kept _ content hfind] at habsent
        cases habsent

theorem Apart.run {old : Directory} (hapart : Apart old state) (calls : List LogCall) :
    Apart old (runLogs state calls) := by
  induction calls using List.reverseRecOn with
  | nil => exact hapart
  | append_singleton calls call ih =>
      rw [runLogs_snoc]
      exact ih.log call

theorem create_apart {old : Directory} {first : ℕ} (hname : wal.activeLogName = logName first)
    (hfree : old.find? (logName first) = none)
    (hdir : dir = old.insert (logName first) (some [])) : Apart old (wal, dir) where
  own := by
    rw [hname]
    exact hfree
  kept name content hfind := by
    rw [hdir, OrdMap.find?_insert, if_neg, hfind]
    rintro rfl
    rw [hfree] at hfind
    cases hfind

theorem create_holds {old : Directory} {first : ℕ} (hname : wal.activeLogName = logName first)
    (hbuffer : wal.logBuffer = []) (hdir : dir = old.insert (logName first) (some [])) :
    Holds first [] [] [] (wal, dir) where
  name := hname
  files offset records hrecords := by
    cases offset with
    | zero =>
        obtain rfl := Option.some.inj hrecords
        rw [hdir]
        exact OrdMap.find?_insert_self ..
    | succ offset => cases hrecords
  made := List.forall_mem_nil _
  all := hbuffer

end Wal

/-- As long as no call threw, the files of the log and then its buffer hold every record passed to
it, in order and each once.  A forced call that succeeds leaves nothing in the buffer; a call that
throws closes the log, so that later calls throw and change no file.  Files that were there before
the constructor stay as they are; a call changes no file but the active one, which only grows, and
a file that becomes the active one was not there before. -/
theorem Wal.logs_complete {old dir : Directory} {wal : Wal} {logDir : String}
    {bufferSize checkpointTrancId fileSizeLimit : ℕ} {opens : Bool}
    (hcreate : Wal.create old logDir bufferSize checkpointTrancId fileSizeLimit opens =
      (dir, .ok wal)) (calls : List Wal.LogCall)
    (hmade : ∀ call ∈ calls, ∀ record ∈ call.records, record.Made) (call : Wal.LogCall) :
    let state := Wal.runLogs (wal, dir) calls
    let next := Wal.logCall state call
    (Wal.NoneThrew (wal, dir) calls → ∃ written,
      Wal.readLogs state.2 (Wal.ownSeqs wal.activeSeq state.1) = .ok written ∧
        written ++ state.1.logBuffer = calls.flatMap Wal.LogCall.records) ∧
    (call.forceFlush = true → next.2 = .ok () → next.1.1.logBuffer = []) ∧
    (∀ err, next.2 = .error err → ∀ more later,
      (Wal.runLogs next.1 more).2 = next.1.2 ∧
        Wal.logCall (Wal.runLogs next.1 more) later =
          (next.1, .error (.runtimeError "WAL: previous file operation failed"))) ∧
    (old.find? wal.activeLogName = none ∧
      (∀ name content, old.find? name = some content → state.2.find? name = some content) ∧
      state.2.Grows state.1.activeLogName next.1.2 ∧
      (next.1.1.activeLogName ≠ state.1.activeLogName →
        state.2.find? next.1.1.activeLogName = none)) := by
  obtain ⟨first, hname, hbuffer, -, hfree, hdir⟩ := Wal.create_ok hcreate
  have hapart := Wal.create_apart hname hfree hdir
  have hholds := Wal.create_holds hname hbuffer hdir
  refine ⟨fun hnone => ?_, fun hforce hok => ?_, fun err herror more later => ?_,
    hapart.own, (hapart.run calls).kept, Wal.log_grows ..⟩
  · obtain ⟨closed, current, hend⟩ := hholds.run calls hmade hnone
    rw [Wal.activeSeq_of_name hname]
    exact hend.readLogs
  · unfold Wal.logCall at hok ⊢
    rw [hforce] at hok ⊢
    exact Wal.log_force hok
  · have hfailed := Wal.log_error herror
    have hstay := Wal.runLogs_failed hfailed more
    unfold Wal.logCall at hstay ⊢
    rw [hstay]
    exact ⟨rfl, Wal.logCall_failed hfailed later⟩

/-- Two calls, the first one kept in the buffer and the second one forced. -/
theorem Wal.logs_complete_sample :
    let wal : Wal := ⟨"logs", logName 0, 64, [], 4, 0, false⟩
    let dir : Directory := OrdMap.insert ∅ (logName 0) (some [])
    let calls : List Wal.LogCall :=
      [⟨[.createRecord 1], false, ⟨false, none, none, none⟩⟩,
        ⟨[.commitRecord 1], true, ⟨false, none, none, none⟩⟩]
    Wal.create ∅ "logs" 4 0 64 true = (dir, .ok wal) ∧
      Wal.NoneThrew (wal, dir) calls ∧
      ∃ written, Wal.readLogs (Wal.runLogs (wal, dir) calls).2
          (Wal.ownSeqs wal.activeSeq (Wal.runLogs (wal, dir) calls).1) = .ok written ∧
        written ++ (Wal.runLogs (wal, dir) calls).1.logBuffer =
          [.createRecord 1, .commitRecord 1] := by
  intro wal dir calls
  have hcreate : Wal.create ∅ "logs" 4 0 64 true = (dir, .ok wal) := rfl
  have hnone : Wal.NoneThrew (wal, dir) calls := ⟨rfl, rfl, trivial⟩
  have hmade : ∀ call ∈ calls, ∀ record ∈ call.records, record.Made := by
    simp only [calls, List.forall_mem_cons, List.not_mem_nil, false_implies, implies_true,
      and_true]
    exact ⟨Record.Made.create (by decide), Record.Made.commit (by decide)⟩
  have hcomplete := Wal.logs_complete hcreate calls hmade (.flush ⟨false, none, none, none⟩)
  exact ⟨hcreate, hnone, hcomplete.1 hnone⟩

/-! ## Cleaning -/

namespace Wal

variable {wal : Wal} {dir dir' : Directory} {state state' : Wal × Directory} {record : Record}

/-- A log file whose whole records include the given one; broken bytes may follow them. -/
def Stores (dir : Directory) (record : Record) : Prop :=
  ∃ name seq records rest, logSeq name = some seq ∧
    (∀ found ∈ records, found.Made) ∧ record ∈ records ∧
    dir.find? name = some (some (Record.encodeAll records ++ rest))

/-- What happens to a log: a call, a checkpoint that does not go back, a round of the
cleaner. -/
inductive Step (state : Wal × Directory) : Wal × Directory → Prop where
  | log (call : LogCall) : Step state (logCall state call).1
  | checkpoint {checkpointTrancId : ℕ} (hle : state.1.checkpointTrancId ≤ checkpointTrancId) :
      Step state (state.1.setCheckpointTrancId checkpointTrancId, state.2)
  | clean (works : Bytes → Bool) : Step state (state.1, state.1.cleanWALFile state.2 works)

abbrev Run : Wal × Directory → Wal × Directory → Prop := Relation.ReflTransGen Step

/-- The checkpoint covers a log file that is not the active one. -/
def Covered (wal : Wal) (name : Bytes) (content : Option Bytes) : Prop :=
  ∃ bytes seq records, content = some bytes ∧ logSeq name = some seq ∧ seq < wal.activeSeq ∧
    Record.decode bytes = .ok records ∧
    ∀ record ∈ records, record.trancId ≤ wal.checkpointTrancId

theorem covered_of_canDelete {name : Bytes} {content : Option Bytes}
    (hdelete : wal.canDelete name content = true) : wal.Covered name content := by
  unfold canDelete at hdelete
  split at hdelete
  next bytes seq hseq =>
    split_ifs at hdelete with hkeep
    split at hdelete
    next => cases hdelete
    next records hdecode =>
      refine ⟨bytes, seq, records, rfl, hseq, ?_, hdecode, fun record hmem => ?_⟩
      · exact not_le.mp (not_or.mp hkeep).2
      · exact of_decide_eq_true (List.all_eq_true.mp hdelete record hmem)
  next => cases hdelete

theorem find?_cleanWALFile {works : Bytes → Bool} {name : Bytes} {content : Option Bytes} :
    (wal.cleanWALFile dir works).find? name = some content ↔
      dir.find? name = some content ∧ (works name && wal.canDelete name content) = false := by
  rw [OrdMap.find?_eq_some_iff, OrdMap.find?_eq_some_iff, cleanWALFile, List.mem_filter,
    Bool.not_eq_true']

/-- The cleaner leaves a file as it is or removes a covered one. -/
theorem clean_cases {works : Bytes → Bool} {name : Bytes} {content : Option Bytes}
    (hfind : dir.find? name = some content) :
    (wal.cleanWALFile dir works).find? name = some content ∨
      ((wal.cleanWALFile dir works).find? name = none ∧ wal.Covered name content) := by
  by_cases hdelete : (works name && wal.canDelete name content) = true
  · refine Or.inr ⟨?_, covered_of_canDelete (Bool.and_eq_true_iff.mp hdelete).2⟩
    cases hclean : (wal.cleanWALFile dir works).find? name with
    | none => rfl
    | some found =>
        obtain ⟨hsame, hkept⟩ := find?_cleanWALFile.mp hclean
        obtain rfl : content = found := Option.some.inj (hfind.symm.trans hsame)
        rw [hdelete] at hkept
        cases hkept
  · exact Or.inl (find?_cleanWALFile.mpr ⟨hfind, Bool.eq_false_iff.mpr hdelete⟩)

theorem find?_cleanWALFile_active {works : Bytes → Bool} {seq : ℕ}
    (hname : wal.activeLogName = logName seq) :
    (wal.cleanWALFile dir works).find? wal.activeLogName = dir.find? wal.activeLogName := by
  cases hfind : dir.find? wal.activeLogName with
  | none =>
      cases hclean : (wal.cleanWALFile dir works).find? wal.activeLogName with
      | none => rfl
      | some content =>
          have hsame := (find?_cleanWALFile.mp hclean).1
          rw [hfind] at hsame
          cases hsame
  | some content =>
      rcases @clean_cases wal _ works _ _ hfind with hkept | ⟨-, hcovered⟩
      · exact hkept
      · obtain ⟨bytes, found, records, -, hseq, hlt, -⟩ := hcovered
        rw [hname, logSeq_logName] at hseq
        rw [activeSeq_of_name hname, ← Option.some.inj hseq] at hlt
        exact absurd hlt (lt_irrefl seq)

theorem log_name (state : Wal × Directory) (call : LogCall) {seq : ℕ}
    (hname : state.1.activeLogName = logName seq) :
    ∃ seq, (logCall state call).1.1.activeLogName = logName seq := by
  have hrotated {rotated : Directory} {name : Bytes}
      (hrotate : state.1.rotate state.2 call.faults = (rotated, .ok name)) :
      ∃ seq, name = logName seq := by
    rcases (rotate_name hrotate).2 with hsame | ⟨-, -, hnext⟩
    · exact ⟨seq, hsame.trans hname⟩
    · exact ⟨_, hnext⟩
  unfold logCall
  rcases log_cases state.1 state.2 call.records call.forceFlush call.faults with
    ⟨-, hlog⟩ | ⟨-, -, hlog⟩ | ⟨-, name, rotated, hrotate, hlog⟩ |
      ⟨-, name, dir', bytes, err, hlog, hfailed⟩
  · rw [hlog]
    exact ⟨seq, hname⟩
  · rw [hlog]
    exact ⟨seq, hname⟩
  · rw [hlog]
    exact hrotated hrotate
  · rw [hlog]
    rcases hfailed with ⟨hsame, -⟩ | ⟨rotated, hrotate, -⟩
    · exact ⟨seq, hsame.trans hname⟩
    · exact hrotated hrotate

theorem log_checkpoint (state : Wal × Directory) (call : LogCall) :
    (logCall state call).1.1.checkpointTrancId = state.1.checkpointTrancId := by
  unfold logCall
  rcases log_cases state.1 state.2 call.records call.forceFlush call.faults with
    ⟨-, hlog⟩ | ⟨-, -, hlog⟩ | ⟨-, name, rotated, -, hlog⟩ | ⟨-, name, dir', bytes, err, hlog, -⟩
  · rw [hlog]
  · rw [hlog]
  · rw [hlog]
  · rw [hlog]

theorem Run.name (hrun : Run state state') {seq : ℕ}
    (hname : state.1.activeLogName = logName seq) :
    ∃ seq, state'.1.activeLogName = logName seq := by
  induction hrun with
  | refl => exact ⟨seq, hname⟩
  | tail _ hstep ih =>
      obtain ⟨mid, hmid⟩ := ih
      cases hstep with
      | log call => exact log_name _ call hmid
      | checkpoint hle => exact ⟨mid, hmid⟩
      | clean works => exact ⟨mid, hmid⟩

theorem Step.checkpoint_le (hstep : Step state state') :
    state.1.checkpointTrancId ≤ state'.1.checkpointTrancId := by
  cases hstep with
  | log call => exact (log_checkpoint state call).ge
  | checkpoint hle => exact hle
  | clean works => exact le_rfl

/-- A growing file keeps its whole records. -/
theorem Stores.grows {active : Bytes} (hstores : Stores dir record)
    (hgrows : dir.Grows active dir') : Stores dir' record := by
  obtain ⟨name, seq, records, rest, hseq, hmade, hmem, hfind⟩ := hstores
  by_cases hactive : name = active
  · subst hactive
    obtain ⟨added, hadded⟩ := hgrows.own _ hfind
    rw [List.append_assoc] at hadded
    exact ⟨name, seq, records, rest ++ added, hseq, hmade, hmem, hadded⟩
  · exact ⟨name, seq, records, rest, hseq, hmade, hmem, hgrows.other _ _ hfind hactive⟩

/-- A covered file that decodes shows every record in it. -/
theorem Stores.clean {works : Bytes → Bool} (hstores : Stores dir record)
    (habove : wal.checkpointTrancId < record.trancId) :
    Stores (wal.cleanWALFile dir works) record := by
  obtain ⟨name, seq, records, rest, hseq, hmade, hmem, hfind⟩ := hstores
  rcases @clean_cases wal _ works _ _ hfind with hkept | ⟨-, hcovered⟩
  · exact ⟨name, seq, records, rest, hseq, hmade, hmem, hkept⟩
  · obtain ⟨bytes, -, found, hbytes, -, -, hdecode, hcheckpoint⟩ := hcovered
    obtain rfl := Option.some.inj hbytes
    obtain ⟨hfound, hsplit⟩ := Record.decode_eq_ok.mp hdecode
    have hprefix := Record.prefix_of_encodeAll hfound hmade hsplit.symm
    have hle := hcheckpoint record (List.IsPrefix.subset hprefix hmem)
    exact absurd hle (not_le.mpr habove)

theorem Step.stores (hstep : Step state state') (hstores : Stores state.2 record)
    (habove : state.1.checkpointTrancId < record.trancId) : Stores state'.2 record := by
  cases hstep with
  | log call => exact hstores.grows (log_grows ..).1
  | checkpoint hle => exact hstores
  | clean works => exact hstores.clean habove

theorem Run.stores (hrun : Run state state') (hstores : Stores state.2 record)
    (habove : state'.1.checkpointTrancId < record.trancId) : Stores state'.2 record := by
  induction hrun with
  | refl => exact hstores
  | tail _ hstep ih =>
      have hbefore := hstep.checkpoint_le.trans_lt habove
      exact hstep.stores (ih hbefore) hbefore

end Wal

/-- The cleaner removes only log files below the active one that decode as a whole with no record
above the checkpoint; every other file stays as it is.  So a record above the checkpoint that was
ever in a log file is in one still. -/
theorem Wal.cleaning_safe {old dir : Directory} {wal : Wal} {logDir : String}
    {bufferSize checkpointTrancId fileSizeLimit : ℕ} {opens : Bool}
    (hcreate : Wal.create old logDir bufferSize checkpointTrancId fileSizeLimit opens =
      (dir, .ok wal)) {state : Wal × Directory} (hrun : Wal.Run (wal, dir) state)
    (works : Bytes → Bool) :
    (∀ name content, (state.1.cleanWALFile state.2 works).find? name = some content →
      state.2.find? name = some content) ∧
    (∀ name content, state.2.find? name = some content →
      (state.1.cleanWALFile state.2 works).find? name = none →
      state.1.Covered name content) ∧
    (state.1.cleanWALFile state.2 works).find? state.1.activeLogName =
      state.2.find? state.1.activeLogName ∧
    ∀ earlier, Wal.Run (wal, dir) earlier → Wal.Run earlier state →
      ∀ record, Wal.Stores earlier.2 record →
        state.1.checkpointTrancId < record.trancId → Wal.Stores state.2 record := by
  obtain ⟨first, hname, -⟩ := Wal.create_ok hcreate
  obtain ⟨seq, hactive⟩ := hrun.name hname
  refine ⟨fun name content hfind => (Wal.find?_cleanWALFile.mp hfind).1,
    fun name content hfind hgone => ?_, Wal.find?_cleanWALFile_active hactive,
    fun earlier _ hlater record hstores habove => hlater.stores hstores habove⟩
  rcases Wal.clean_cases hfind with hkept | ⟨-, hcovered⟩
  · rw [hgone] at hkept
    cases hkept
  · exact hcovered

/-- Three records in files of their own: behind the checkpoint the cleaner removes the first file
and keeps the others. -/
theorem Wal.cleaning_safe_sample :
    let wal : Wal := ⟨"logs", logName 0, 8, [], 1, 0, false⟩
    let dir : Directory := OrdMap.insert ∅ (logName 0) (some [])
    let call (trancId : ℕ) : Wal.LogCall :=
      ⟨[.createRecord trancId], false, ⟨false, none, none, none⟩⟩
    let logged := Wal.runLogs (wal, dir) [call 5, call 7, call 9]
    let state := (logged.1.setCheckpointTrancId 5, logged.2)
    let cleaned := state.1.cleanWALFile state.2 fun _ => true
    Wal.Run (wal, dir) (state.1, cleaned) ∧
      state.1.activeLogName = logName 2 ∧
      state.1.Covered (logName 0) (some (Record.encode (.createRecord 5))) ∧
      cleaned.find? (logName 0) = none ∧
      cleaned.find? (logName 2) = some (some (Record.encode (.createRecord 9))) ∧
      Wal.Stores cleaned (.createRecord 7) := by
  intro wal dir call logged state cleaned
  have hcreate : Wal.create ∅ "logs" 1 0 8 true = (dir, .ok wal) := rfl
  have hlogged : Wal.Run (wal, dir) logged :=
    .tail (.tail (.single (.log (call 5))) (.log (call 7))) (.log (call 9))
  have hcheckpoint : Wal.Run logged state := .single (.checkpoint (by decide))
  have hclean : Wal.Run state (state.1, cleaned) := .single (.clean fun _ => true)
  have hgone : cleaned.find? (logName 0) = none := by decide
  have hlast : state.2.find? (logName 2) = some (some (Record.encode (.createRecord 9))) := by
    decide
  have hactive : state.1.activeLogName = logName 2 := by decide
  have hsafe := Wal.cleaning_safe hcreate (hlogged.trans hcheckpoint) fun _ => true
  have hlater := Wal.cleaning_safe hcreate ((hlogged.trans hcheckpoint).trans hclean) fun _ => true
  refine ⟨(hlogged.trans hcheckpoint).trans hclean, hactive,
    hsafe.2.1 _ _ (by decide) hgone, hgone, ?_, ?_⟩
  · have hkept := hsafe.2.2.1
    rw [hactive, hlast] at hkept
    exact hkept
  · apply hlater.2.2.2 logged hlogged (hcheckpoint.trans hclean)
    · refine ⟨logName 1, 1, [.createRecord 7], [], logSeq_logName 1, ?_, List.mem_cons_self,
        by decide⟩
      intro found hmem
      rw [List.mem_singleton.mp hmem]
      exact Record.Made.create (by decide)
    · decide

end KopiDb
