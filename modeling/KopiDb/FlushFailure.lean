import KopiDb.Scan
import KopiDb.MemAccounting

/-!
# Flushes that throw

A flush may throw while it builds its file or anywhere in the compactions it starts.  Compactions
that finished before stay; they move records between files and change no answer.  The memory
keeps all tables, at most with the current one frozen, and no number is reported as flushed.
-/

namespace KopiDb

/-! ## What is left in memory -/

theorem MemTable.records_flushStart (mem : MemTable) :
    mem.flushStart.records = mem.records := by
  rw [flushStart]
  split_ifs
  · exact mem.records_frozenCurTable_
  · rfl

/-- When `flush_last` throws, the oldest frozen table is still there. -/
theorem MemTable.flushLast_error {mem : MemTable} {builder : SSTBuilder} {sstId : ℕ}
    {flushedTrancIds : List ℕ} {err : Err}
    (herror : (mem.flushLast builder sstId flushedTrancIds).2.2 = .error err) :
    (mem.flushLast builder sstId flushedTrancIds).1 = mem.flushStart ∧
      ∃ table, mem.flushStart.frozenTables.getLast? = some table := by
  unfold flushLast at herror ⊢
  dsimp only at herror ⊢
  split at herror
  next => cases herror
  next table hback =>
      split at herror
      next => exact ⟨rfl, table, hback⟩
      next =>
          split at herror
          next => exact ⟨rfl, table, hback⟩
          next => cases herror

namespace Engine

variable {config : Config} {engine engine' : Engine}

/-- What a flush that throws leaves behind. -/
structure FlushFailed (engine engine' : Engine) : Prop where
  invariant : LevelInvariant engine'
  memtable : engine'.memtable = engine.memtable ∨ engine'.memtable = engine.memtable.flushStart
  sameVersions : Versions.SameVersions engine'.fileRecords engine.fileRecords

theorem flushTable_error (hinv : LevelInvariant engine) {err : Err}
    (herror : (engine.flushTable config).2 = .error err) :
    FlushFailed engine (engine.flushTable config).1 := by
  obtain ⟨hinv', hcases⟩ := flushTable_cases config hinv
  have hfiles : (engine.flushTable config).1.fileRecords = engine.fileRecords := by
    rcases hcases with ⟨-, hfiles, -⟩ | ⟨moved, -, -, flushed, hok, -⟩
    · exact hfiles
    · rw [herror] at hok
      cases hok
  refine ⟨hinv', Or.inr ?_, by rw [hfiles]; exact Versions.SameVersions.refl _⟩
  simp only [flushTable] at herror ⊢
  split at herror
  next failure hfailure => exact (MemTable.flushLast_error hfailure).1
  next => cases herror
  next => cases herror

theorem flush_error (hinv : LevelInvariant engine) {err : Err}
    (herror : (engine.flush config).2 = .error err) :
    FlushFailed engine (engine.flush config).1 := by
  rw [flush_eq] at herror ⊢
  split_ifs at herror ⊢
  have hkept := compactFullL0_kept config hinv
  rcases andThen_cases (engine.compactFullL0 config) fun engine _ =>
      engine.flushTable config with ⟨failure, -, hrun⟩ | ⟨done, -, hrun⟩
  · rw [hrun]
    exact ⟨hkept.invariant, Or.inl hkept.memtable, hkept.sameVersions⟩
  · rw [hrun] at herror ⊢
    obtain ⟨hinv', hmemory, hfiles⟩ := flushTable_error hkept.invariant herror
    rw [hkept.memtable] at hmemory
    exact ⟨hinv', hmemory, hfiles.trans hkept.sameVersions⟩

theorem FlushFailed.records (hfailed : FlushFailed engine engine') :
    engine'.memtable.records = engine.memtable.records := by
  rcases hfailed.memtable with hsame | hstarted
  · rw [hsame]
  · rw [hstarted, MemTable.records_flushStart]

/-! ## What readers see -/

/-- Every point read, batch and scan of two engines has the same result.  The empty key is
reserved for commit markers, and reading it is no promise when anything else is stored there. -/
structure ReadsAgree (engine engine' : Engine) : Prop where
  get : ∀ man key trancId requireCommitted, (key = [] → MarkersOnly engine.fileRecords) →
    engine'.tryGet man key trancId requireCommitted =
      engine.tryGet man key trancId requireCommitted
  getBatch : ∀ man keys trancId, ([] ∈ keys → MarkersOnly engine.fileRecords) →
    engine'.tryGetBatch man keys trancId = engine.tryGetBatch man keys trancId
  begin : ∀ man trancId,
    (engine'.begin man trancId).map Cursor.toList = (engine.begin man trancId).map Cursor.toList
  range : ∀ man trancId userPredicate sameBlock sameBlock', MonotoneOnKeys userPredicate →
    (engine'.lsmItersMonotonyPredicate man trancId userPredicate sameBlock').map
        (Option.map Cursor.toList) =
      (engine.lsmItersMonotonyPredicate man trancId userPredicate sameBlock).map
        (Option.map Cursor.toList)

section Agree

variable (hinv : LevelInvariant engine) (hinv' : LevelInvariant engine')
  (hmemory : engine'.memtable.records = engine.memtable.records)
  (hfiles : Versions.SameVersions engine'.fileRecords engine.fileRecords)

include hmemory hfiles in
private theorem read_eq (key : Bytes) (trancId : ℕ) (skip : ℕ → Bool) :
    Versions.read engine'.records key trancId skip =
      Versions.read engine.records key trancId skip := by
  have hsame : Versions.SameVersions engine'.records engine.records := by
    rw [records, records, hmemory]
    exact (Versions.SameVersions.refl _).append hfiles
  exact Versions.read_congr (hsame.latestAgree key) trancId skip

include hfiles in
private theorem markersOnly (hmarkers : MarkersOnly engine.fileRecords) :
    MarkersOnly engine'.fileRecords :=
  fun entry hmem => hmarkers entry ((hfiles.mem_iff entry).mp hmem)

include hinv hinv' hmemory hfiles

private theorem get_agrees (man : ReadPolicy) (key : Bytes) (trancId : ℕ)
    (requireCommitted : Bool) (hmarkers : key = [] → MarkersOnly engine.fileRecords) :
    engine'.get (some man) key trancId requireCommitted =
      engine.get (some man) key trancId requireCommitted := by
  by_cases hkey : key = []
  · subst hkey
    rw [get_empty_key trancId hinv (hmarkers rfl),
      get_empty_key trancId hinv' (markersOnly hfiles (hmarkers rfl))]
  · rw [get_eq trancId hinv hkey, get_eq trancId hinv' hkey, read_eq hmemory hfiles]

private theorem getBatch_agrees (man : ReadPolicy) (keys : List Bytes) (trancId : ℕ)
    (hmarkers : [] ∈ keys → MarkersOnly engine.fileRecords) :
    engine'.getBatch (some man) keys trancId = engine.getBatch (some man) keys trancId := by
  rw [getBatch_eq trancId hinv hmarkers,
    getBatch_eq trancId hinv' fun hmem => markersOnly hfiles (hmarkers hmem)]
  congr 1
  apply List.map_congr_left
  intro key _
  rw [read_eq hmemory hfiles]

private theorem begin_agrees (man : ReadPolicy) (trancId : ℕ) :
    (engine'.begin (some man) trancId).map Cursor.toList =
      (engine.begin (some man) trancId).map Cursor.toList := by
  obtain ⟨it, hit, hstrict, hkeys, hfind⟩ := levelIterator_spec trancId man.isAborted hinv
  obtain ⟨it', hit', hstrict', hkeys', hfind'⟩ := levelIterator_spec trancId man.isAborted hinv'
  have hlist : Cursor.toList it' = Cursor.toList it := by
    apply hstrict'.ext hstrict
    intro version hmem
    have hkey : version.key ≠ [] := by
      rcases List.mem_append.mp hmem with hmem | hmem
      · exact (hkeys' version hmem).1
      · exact (hkeys version hmem).1
    rw [hfind version.key hkey, hfind' version.key hkey, read_eq hmemory hfiles]
  change (engine'.levelIterator trancId man.isAborted).map _ =
    (engine.levelIterator trancId man.isAborted).map _
  rw [hit, hit', Except.map, Except.map, hlist]

private theorem range_agrees (man : ReadPolicy) (trancId : ℕ) (userPredicate : Bytes → ℤ)
    (sameBlock sameBlock' : SstIterator → Bool) (hmono : MonotoneOnKeys userPredicate) :
    (engine'.lsmItersMonotonyPredicate (some man) trancId userPredicate sameBlock').map
        (Option.map Cursor.toList) =
      (engine.lsmItersMonotonyPredicate (some man) trancId userPredicate sameBlock).map
        (Option.map Cursor.toList) := by
  obtain ⟨result, entries, hresult, hnone, hsome, hstrict, hkeys, hfind⟩ :=
    lsmItersMonotonyPredicate_spec trancId sameBlock hinv hmono man
  obtain ⟨result', entries', hresult', hnone', hsome', hstrict', hkeys', hfind'⟩ :=
    lsmItersMonotonyPredicate_spec trancId sameBlock' hinv' hmono man
  have hentries : entries' = entries := by
    apply hstrict'.ext hstrict
    intro version hmem
    have hkey : version.key ≠ [] ∧ userPredicate version.key = 0 := by
      rcases List.mem_append.mp hmem with hmem | hmem
      · exact ⟨(hkeys' version hmem).1, (hkeys' version hmem).2.2⟩
      · exact ⟨(hkeys version hmem).1, (hkeys version hmem).2.2⟩
    rw [hfind version.key hkey.1 hkey.2, hfind' version.key hkey.1 hkey.2,
      read_eq hmemory hfiles]
  have hshown : ∀ {found : Option (TwoMergeIterator HeapIterator HeapIterator)}
      {shown : List Entry}, (found = none ↔ shown = []) →
      (∀ it, found = some it → Cursor.toList it = shown) →
      found.map Cursor.toList = if shown = [] then none else some shown := by
    intro found shown hempty hlist
    cases found with
    | none => rw [if_pos (hempty.mp rfl), Option.map_none]
    | some it =>
        rw [if_neg fun hnil => Option.some_ne_none it (hempty.mpr hnil), Option.map_some,
          hlist it rfl]
  rw [hresult, hresult', Except.map, Except.map, hshown hnone hsome, hshown hnone' hsome',
    hentries]

theorem readsAgree (hsmall : engine.Addressable) (hsmall' : engine'.Addressable) :
    ReadsAgree engine engine' where
  get man key trancId requireCommitted hmarkers := by
    rw [tryGet_eq hsmall, tryGet_eq hsmall']
    cases man with
    | none => rfl
    | some man =>
        exact get_agrees hinv hinv' hmemory hfiles man key trancId requireCommitted hmarkers
  getBatch man keys trancId hmarkers := by
    rw [tryGetBatch_eq hsmall, tryGetBatch_eq hsmall']
    cases man with
    | none => rfl
    | some man => exact getBatch_agrees hinv hinv' hmemory hfiles man keys trancId hmarkers
  begin man trancId := by
    cases man with
    | none => rfl
    | some man => exact begin_agrees hinv hinv' hmemory hfiles man trancId
  range man trancId userPredicate sameBlock sameBlock' hmono := by
    cases man with
    | none => rfl
    | some man =>
        exact range_agrees hinv hinv' hmemory hfiles man trancId userPredicate sameBlock
          sameBlock' hmono

end Agree

end Engine

/-- A file system on which the file of number 4 cannot be created. -/
def failingConfig : Config := { smallConfig with createFails := fun sstId => decide (sstId = 4) }

end KopiDb
