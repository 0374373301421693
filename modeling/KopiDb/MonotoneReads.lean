import KopiDb.Isolation

/-!
# Reads that do not go back

A version that a strict read may see stays visible, and nobody writes under its number
again.  So a later strict read of the key finds the same version or one with a larger number.
-/

namespace KopiDb

/-- What a version read finds is the first one under its key and number. -/
theorem Versions.find?_of_read {κ ν : Type*} [DecidableEq κ] {versions : List (Version κ ν)}
    {key : κ} {bound : ℕ} {skip : ℕ → Bool} {best : Version κ ν}
    (hread : Versions.read versions key bound skip = some best) :
    versions.find? (fun version => decide (version.key = key ∧ version.txid = best.txid)) =
      some best := by
  have hvisible := (Versions.read_eq_some hread).2.2
  have hfirst := (Versions.newest_eq_some_iff.mp hread).2
  rw [Versions.candidates, List.find?_filter] at hfirst
  rw [← hfirst]
  congr 1
  funext version
  by_cases htxid : version.txid = best.txid
  · simp [htxid, hvisible]
  · simp [htxid]

namespace View

/-- A writer that is over: nothing hides what it wrote from a strict read. -/
structure Over (view : View) (id : ℕ) : Prop where
  taken : id < view.nextTrancId
  shown : view.skip true id = false

theorem skip_true_eq_false {view : View} {id : ℕ} :
    view.skip true id = false ↔ id ∉ view.aborted ∧ id ∉ view.active := by
  simp [skip]

/-- A call writes under none of the numbers that are over, and they stay over. -/
theorem Over.step {view view' : View} {call : Call} {outcome : Except Err Reply} {id : ℕ}
    (hover : view.Over id) (hcoherent : view.Coherent) (hstep : Step view call outcome view') :
    view'.Over id ∧ ∃ written, view'.history = written ++ view.history ∧
      ∀ entry ∈ written, entry.txid ≠ id := by
  have hnone : view.Over id ∧ ∃ written, view.history = written ++ view.history ∧
      ∀ entry ∈ written, entry.txid ≠ id := ⟨hover, [], rfl, fun _ hmem => by cases hmem⟩
  obtain ⟨haborted, hactive⟩ := skip_true_eq_false.mp hover.shown
  have hother : ∀ {handle : ℕ} {context : TranContext}, view.contexts[handle]? = some context →
      context.finished = false → id ≠ context.trancId := by
    rintro handle context hcontext hopen rfl
    exact hactive ((hcoherent.active_iff context (List.mem_of_getElem? hcontext)).mpr hopen)
  cases hstep with
  | maintained | refused | gotStaged | gotFresh | gotCached | alreadyOver => exact hnone
  | staged | unlogged | gotFirst | commitUnlogged =>
      exact ⟨⟨hover.taken, hover.shown⟩, [], rfl, fun _ hmem => by cases hmem⟩
  | plain =>
      refine ⟨⟨Nat.lt_succ_of_lt hover.taken, hover.shown⟩, _, rfl, fun entry hmem => ?_⟩
      rw [Call.txid_of_mem_plainEntries hmem]
      exact hover.taken.ne'
  | begun =>
      refine ⟨⟨Nat.lt_succ_of_lt hover.taken, skip_true_eq_false.mpr ⟨haborted, ?_⟩⟩, [], rfl,
        fun _ hmem => by cases hmem⟩
      exact Finset.mem_insert.not.mpr (not_or.mpr ⟨hover.taken.ne, hactive⟩)
  | @applied _ op _ context _ _ hcontext hopen =>
      refine ⟨⟨hover.taken, hover.shown⟩, [⟨op.key, op.value, context.trancId⟩], rfl,
        fun entry hmem => ?_⟩
      rw [List.mem_singleton.mp hmem]
      exact (hother hcontext hopen).symm
  | conflict hcontext hopen | rolledBack hcontext hopen =>
      refine ⟨⟨hover.taken, skip_true_eq_false.mpr ⟨?_, ?_⟩⟩, [], rfl, fun _ hmem => by cases hmem⟩
      · exact Finset.mem_insert.not.mpr (not_or.mpr ⟨hother hcontext hopen, haborted⟩)
      · exact fun hmem => hactive (Finset.mem_of_mem_erase hmem)
  | committed hcontext hopen =>
      refine ⟨⟨hover.taken, skip_true_eq_false.mpr ⟨haborted, ?_⟩⟩, _, rfl,
        fun entry hmem => ?_⟩
      · exact fun hmem => hactive (Finset.mem_of_mem_erase hmem)
      · rw [TranContext.txid_of_mem_committedEntries hmem]
        exact (hother hcontext hopen).symm

theorem Over.run {view view' : View} {events : List Event} {id : ℕ} (hover : view.Over id)
    (hcoherent : view.Coherent) (hrun : Run view events view') :
    view'.Over id ∧ ∃ written, view'.history = written ++ view.history ∧
      ∀ entry ∈ written, entry.txid ≠ id := by
  induction hrun with
  | nil => exact ⟨hover, [], rfl, fun _ hmem => by cases hmem⟩
  | cons hstep _ ih =>
      obtain ⟨hnext, written, hhistory, hwritten⟩ := hover.step hcoherent hstep
      obtain ⟨hlast, later, hlater, hlaterWritten⟩ := ih hnext (hcoherent.step hstep)
      refine ⟨hlast, later ++ written, by rw [hlater, hhistory, List.append_assoc], ?_⟩
      intro entry hmem
      rcases List.mem_append.mp hmem with hmem | hmem
      · exact hlaterWritten entry hmem
      · exact hwritten entry hmem

/-- The newest version that a strict read sees is replaced by newer ones only. -/
theorem Run.read_later {view view' : View} {events : List Event} (hrun : Run view events view')
    (hcoherent : view.Coherent) {key : Bytes} {entry : Entry}
    (hread : Versions.read view.history key 0 (view.skip true) = some entry) :
    ∃ later, Versions.read view'.history key 0 (view'.skip true) = some later ∧
      (entry.txid < later.txid ∨ later = entry) := by
  obtain ⟨hmem, hkey, hvisible⟩ := Versions.read_eq_some hread
  have hover : view.Over entry.txid := by
    refine ⟨hcoherent.written_lt entry hmem, ?_⟩
    simpa [Versions.visible] using hvisible
  obtain ⟨hlast, written, hhistory, hwritten⟩ := hover.run hcoherent hrun
  have hkept : entry ∈ view'.history := by
    rw [hhistory]
    exact List.mem_append_right _ hmem
  have hshown : Versions.visible 0 (view'.skip true) entry.txid = true := by
    rw [Versions.visible, hlast.shown]
    rfl
  cases hlater : Versions.read view'.history key 0 (view'.skip true) with
  | none =>
      have hhidden := Versions.read_eq_none_iff.mp hlater entry hkept hkey
      rw [hshown] at hhidden
      cases hhidden
  | some later =>
      refine ⟨later, rfl, ?_⟩
      rcases (Versions.le_of_read_eq_some hlater hkept hkey hshown).lt_or_eq with hlt | heq
      · exact Or.inl hlt
      · refine Or.inr ?_
        have hfirst := Versions.find?_of_read hlater
        rw [← heq, hhistory, List.find?_append, List.find?_eq_none.mpr, Option.none_or,
          Versions.find?_of_read hread] at hfirst
        · exact (Option.some.inj hfirst).symm
        · intro other hother
          simpa using fun _ => hwritten other hother

end View

/-! ## Runs -/

/-- The newest version of a key, deletions included, of a writer that is over. -/
def LSM.latestCommitted (lsm : LSM) (key : Bytes) : Option Entry :=
  Versions.read lsm.engine.records key 0 fun id => lsm.tranManager.shouldSkipRead id true

end KopiDb
