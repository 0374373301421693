import KopiDb.Refine

/-!
# Who is active, who committed, who rolled back

In every reachable state the sets of the manager agree with the contexts, numbers are
never handed out twice, and a transaction that stages its writes has written nothing
before it commits.
-/

namespace KopiDb

theorem Call.txid_of_mem_plainEntries {call : Call} {trancId : ℕ} {entry : Entry}
    (hmem : entry ∈ call.plainEntries trancId) : entry.txid = trancId := by
  cases call with
  | plainPut key value => rw [List.mem_singleton.mp hmem]
  | plainRemove key => rw [List.mem_singleton.mp hmem]
  | plainPutBatch kvs =>
      obtain ⟨kv, -, rfl⟩ := List.mem_map.mp (List.mem_reverse.mp hmem)
      rfl
  | plainRemoveBatch keys =>
      obtain ⟨key, -, rfl⟩ := List.mem_map.mp (List.mem_reverse.mp hmem)
      rfl
  | _ => cases hmem

namespace TranContext

variable {context : TranContext}

/-- A commit writes the marker and, above the lowest level, what was staged. -/
theorem mem_committedEntries {entry : Entry} :
    entry ∈ context.committedEntries ↔ entry = ⟨[], [], context.trancId⟩ ∨
      (context.isolationLevel ≠ .readUnopCommitted ∧
        ∃ staged ∈ context.tempMap.entries,
          (⟨staged.1, staged.2, context.trancId⟩ : Entry) = entry) := by
  unfold committedEntries stagedEntries
  rw [List.mem_cons, List.mem_reverse]
  apply or_congr_right
  split_ifs with hlevel
  · exact iff_of_false List.not_mem_nil fun hboth => hboth.1 hlevel
  · rw [List.mem_map]
    exact (and_iff_right hlevel).symm

theorem txid_of_mem_committedEntries {entry : Entry}
    (hmem : entry ∈ context.committedEntries) : entry.txid = context.trancId := by
  rcases mem_committedEntries.mp hmem with rfl | ⟨-, staged, -, rfl⟩ <;> rfl

/-- A read of what a commit writes finds the staged value. -/
theorem read_committedEntries (hlevel : context.isolationLevel ≠ .readUnopCommitted)
    {key : Bytes} (hkey : key ≠ []) {bound : ℕ} {skip : ℕ → Bool}
    (hvisible : Versions.visible bound skip context.trancId = true) :
    Versions.read context.committedEntries key bound skip =
      (context.tempMap.find? key).map fun value => ⟨key, value, context.trancId⟩ := by
  have hmem : ∀ value, (⟨key, value, context.trancId⟩ : Entry) ∈ context.committedEntries ↔
      context.tempMap.find? key = some value := by
    intro value
    rw [OrdMap.find?_eq_some_iff, mem_committedEntries]
    constructor
    · rintro (hmarker | ⟨-, staged, hstaged, hentry⟩)
      · exact absurd (congrArg Version.key hmarker) hkey
      · obtain ⟨rfl, rfl, -⟩ := Version.mk.inj hentry
        exact hstaged
    · exact fun hstaged => Or.inr ⟨hlevel, (key, value), hstaged, rfl⟩
  cases hread : Versions.read context.committedEntries key bound skip with
  | some best =>
      obtain ⟨hbest, rfl, -⟩ := Versions.read_eq_some hread
      have hfind : context.tempMap.find? best.key = some best.value := by
        apply (hmem best.value).mp
        rw [← txid_of_mem_committedEntries hbest]
        exact hbest
      rw [hfind, Option.map_some, ← txid_of_mem_committedEntries hbest]
  | none =>
      cases hfind : context.tempMap.find? key with
      | none => rfl
      | some value =>
          have hhidden := Versions.read_eq_none_iff.mp hread _ ((hmem value).mpr hfind) rfl
          exact absurd (hhidden.symm.trans hvisible) Bool.false_ne_true

end TranContext

namespace View

/-- What a strict read may see, every read may see. -/
theorem visible_of_strict {view : View} {bound id : ℕ}
    (hvisible : Versions.visible bound (view.skip true) id = true) :
    Versions.visible bound (view.skip false) id = true := by
  simp only [Versions.visible, skip, Bool.and_eq_true, Bool.not_eq_true', Bool.or_eq_false_iff]
    at hvisible ⊢
  exact ⟨hvisible.1, hvisible.2.1, rfl⟩

/-- Behind the check, a staged write is newer than all that a read may see. -/
theorem Passed.shadow {view : View} {context : TranContext} (hpassed : Passed view context)
    (hlevel : context.isolationLevel ≠ .readUnopCommitted) {key value : Bytes}
    (hkey : key ≠ []) (hfind : context.tempMap.find? key = some value)
    (requireCommitted : Bool) :
    Versions.prefer (some (⟨key, value, context.trancId⟩ : Entry))
        (Versions.read view.history key 0 (view.skip requireCommitted)) =
      some ⟨key, value, context.trancId⟩ := by
  cases hread : Versions.read view.history key 0 (view.skip requireCommitted) with
  | none => rfl
  | some entry =>
      obtain ⟨hmem, hentry, hvisible⟩ := Versions.read_eq_some hread
      have hshown : Versions.visible 0 (view.skip false) entry.txid = true := by
        cases requireCommitted with
        | false => exact hvisible
        | true => exact visible_of_strict hvisible
      rw [Versions.prefer_some_some, if_neg]
      cases hlatest : Versions.read view.history key 0 (view.skip false) with
      | none =>
          have hhidden := Versions.read_eq_none_iff.mp hlatest entry hmem hentry
          exact absurd (hhidden.symm.trans hshown) Bool.false_ne_true
      | some latest =>
          have hle := hpassed.writes hlevel (key, value)
            (OrdMap.find?_eq_some_iff.mp hfind) hkey latest hlatest
          have hentryLe := Versions.le_of_read_eq_some hlatest hmem hentry hshown
          exact not_lt.mpr (hentryLe.trans hle)

/-- What holds of the view between calls. -/
structure Coherent (view : View) : Prop where
  next_pos : 0 < view.nextTrancId
  id_pos : ∀ context ∈ view.contexts, 0 < context.trancId
  id_lt : ∀ context ∈ view.contexts, context.trancId < view.nextTrancId
  distinct : (view.contexts.map TranContext.trancId).Nodup
  written_lt : ∀ entry ∈ view.history, entry.txid < view.nextTrancId
  active_known : ∀ id ∈ view.active, ∃ context ∈ view.contexts, context.trancId = id
  aborted_known : ∀ id ∈ view.aborted, ∃ context ∈ view.contexts, context.trancId = id
  active_iff : ∀ context ∈ view.contexts,
    (context.trancId ∈ view.active ↔ context.finished = false)
  aborted_iff : ∀ context ∈ view.contexts,
    (context.trancId ∈ view.aborted ↔ context.isAborted = true)
  exclusive : ∀ context ∈ view.contexts,
    ¬(context.isCommited = true ∧ context.isAborted = true)
  /-- Staged writes stay out of the engine. -/
  unwritten : ∀ context ∈ view.contexts, context.isolationLevel ≠ .readUnopCommitted →
    context.isCommited = false → ∀ entry ∈ view.history, entry.txid ≠ context.trancId
  /-- A commit writes every staged key. -/
  published : ∀ context ∈ view.contexts, context.isolationLevel ≠ .readUnopCommitted →
    context.isCommited = true → ∀ staged ∈ context.tempMap.entries,
      ∃ entry ∈ view.history, entry.key = staged.1 ∧ entry.txid = context.trancId

theorem coherent_empty : Coherent empty where
  next_pos := Nat.one_pos
  id_pos _ hmem := by cases hmem
  id_lt _ hmem := by cases hmem
  distinct := List.nodup_nil
  written_lt _ hmem := by cases hmem
  active_known _ hmem := absurd hmem (Finset.notMem_empty _)
  aborted_known _ hmem := absurd hmem (Finset.notMem_empty _)
  active_iff _ hmem := by cases hmem
  aborted_iff _ hmem := by cases hmem
  exclusive _ hmem := by cases hmem
  unwritten _ hmem := by cases hmem
  published _ hmem := by cases hmem

namespace Coherent

variable {view : View} {handle : ℕ} {context : TranContext}

/-- A context is found by its number. -/
theorem eq_of_trancId (hcoherent : Coherent view) {first second : TranContext}
    (hfirst : first ∈ view.contexts) (hsecond : second ∈ view.contexts)
    (hid : first.trancId = second.trancId) : first = second :=
  List.inj_on_of_nodup_map hcoherent.distinct hfirst hsecond hid

/-- Two handles have two numbers. -/
theorem trancId_ne (hcoherent : Coherent view) {first second : TranContext} {other : ℕ}
    (hfirst : view.contexts[handle]? = some first)
    (hsecond : view.contexts[other]? = some second) (hne : other ≠ handle) :
    second.trancId ≠ first.trancId := by
  intro hid
  apply hne
  have hlt : other < (view.contexts.map TranContext.trancId).length := by
    rw [List.length_map]
    exact (List.getElem?_eq_some_iff.mp hsecond).1
  apply (List.getElem?_inj hlt hcoherent.distinct).mp
  rw [List.getElem?_map, List.getElem?_map, hfirst, hsecond, Option.map_some, Option.map_some,
    hid]

/-- What is left of the history gives a coherent view as well. -/
theorem reflects (hcoherent : Coherent view) {history : List Entry}
    (hreflects : Versions.Reflects history view.history) :
    Coherent { view with history := history } :=
  { hcoherent with
    written_lt := fun entry hmem => hcoherent.written_lt entry (hreflects.subset entry hmem)
    unwritten := fun context hcontext hlevel hopen entry hmem =>
      hcoherent.unwritten context hcontext hlevel hopen entry (hreflects.subset entry hmem)
    published := fun context hcontext hlevel hcommitted staged hstaged => by
      obtain ⟨entry, hmem, hkey, htxid⟩ :=
        hcoherent.published context hcontext hlevel hcommitted staged hstaged
      obtain ⟨other, hother, hsameKey, hsameTxid⟩ := hreflects.writer hmem
      exact ⟨other, hother, hsameKey.trans hkey, hsameTxid.trans htxid⟩ }

/-- A context other than the one at the handle keeps its place when that one is
replaced. -/
theorem mem_set_cases (hcontext : view.contexts[handle]? = some context)
    (hcoherent : Coherent view) {context' other : TranContext}
    (hmem : other ∈ view.contexts.set handle context') :
    other = context' ∨ (other ∈ view.contexts ∧ other.trancId ≠ context.trancId) := by
  obtain ⟨idx, hidx, hget⟩ := List.mem_iff_getElem.mp hmem
  rw [List.length_set] at hidx
  rw [List.getElem_set] at hget
  split_ifs at hget with hhandle
  · exact Or.inl hget.symm
  · refine Or.inr ⟨hget ▸ List.getElem_mem hidx, fun hid => hhandle ?_⟩
    obtain ⟨hlt, hcontext⟩ := List.getElem?_eq_some_iff.mp hcontext
    have hmap := List.nodup_iff_injective_getElem.mp hcoherent.distinct
    have hsame : (⟨handle, by rwa [List.length_map]⟩ :
        Fin (view.contexts.map TranContext.trancId).length) = ⟨idx, by rwa [List.length_map]⟩ := by
      apply hmap
      simp only [List.getElem_map, hcontext, hget, hid]
    exact congrArg Fin.val hsame

private theorem map_set (hcontext : view.contexts[handle]? = some context)
    {context' : TranContext} (hid : context'.trancId = context.trancId) :
    (view.contexts.set handle context').map TranContext.trancId =
      view.contexts.map TranContext.trancId := by
  obtain ⟨hlt, hcontext⟩ := List.getElem?_eq_some_iff.mp hcontext
  rw [List.map_set, hid, ← hcontext]
  apply List.ext_getElem
  · rw [List.length_set]
  · intro idx hidx _
    rw [List.getElem_set, List.getElem_map]
    split_ifs with hhandle
    · subst hhandle
      rfl
    · rfl

theorem known_set (hcontext : view.contexts[handle]? = some context)
    {context' : TranContext} (hid : context'.trancId = context.trancId) {id : ℕ} :
    (∃ other ∈ view.contexts.set handle context', other.trancId = id) ↔
      ∃ other ∈ view.contexts, other.trancId = id := by
  have hmap := map_set hcontext hid
  have hmem : ∀ contexts : List TranContext,
      (∃ other ∈ contexts, other.trancId = id) ↔ id ∈ contexts.map TranContext.trancId := by
    intro contexts
    rw [List.mem_map]
  rw [hmem, hmem, hmap]

/-- One transaction moves on: its context is replaced, its registration follows, and it
writes only when it does not stage or when it has committed. -/
theorem update (hcoherent : Coherent view) (hcontext : view.contexts[handle]? = some context)
    {context' : TranContext} (active aborted : Finset ℕ) (written : List Entry)
    (wal : List Record) (hid : context'.trancId = context.trancId)
    (hlevel : context'.isolationLevel = context.isolationLevel)
    (hactive : ∀ id, id ≠ context.trancId → (id ∈ active ↔ id ∈ view.active))
    (haborted : ∀ id, id ≠ context.trancId → (id ∈ aborted ↔ id ∈ view.aborted))
    (hactiveSelf : context.trancId ∈ active ↔ context'.finished = false)
    (habortedSelf : context.trancId ∈ aborted ↔ context'.isAborted = true)
    (hexclusive : ¬(context'.isCommited = true ∧ context'.isAborted = true))
    (hwritten : ∀ entry ∈ written, entry.txid = context.trancId)
    (hmonotone : context.isCommited = true → context'.isCommited = true)
    (hunwritten : context'.isolationLevel ≠ .readUnopCommitted →
      context'.isCommited = false → written = [])
    (hpublished : context'.isolationLevel ≠ .readUnopCommitted → context'.isCommited = true →
      ∀ staged ∈ context'.tempMap.entries, ∃ entry ∈ written ++ view.history,
        entry.key = staged.1 ∧ entry.txid = context.trancId) :
    Coherent { view with
      contexts := view.contexts.set handle context'
      active := active
      aborted := aborted
      history := written ++ view.history
      wal := wal } := by
  have hself := List.mem_of_getElem? hcontext
  have hcases : ∀ other ∈ view.contexts.set handle context',
      other = context' ∨ (other ∈ view.contexts ∧ other.trancId ≠ context.trancId) :=
    fun other hmem => mem_set_cases hcontext hcoherent hmem
  refine
    { next_pos := hcoherent.next_pos
      id_pos := ?_
      id_lt := ?_
      distinct := ?_
      written_lt := ?_
      active_known := ?_
      aborted_known := ?_
      active_iff := ?_
      aborted_iff := ?_
      exclusive := ?_
      unwritten := ?_
      published := ?_ }
  · intro other hmem
    rcases hcases other hmem with rfl | ⟨hmem, -⟩
    · rw [hid]
      exact hcoherent.id_pos context hself
    · exact hcoherent.id_pos other hmem
  · intro other hmem
    rcases hcases other hmem with rfl | ⟨hmem, -⟩
    · rw [hid]
      exact hcoherent.id_lt context hself
    · exact hcoherent.id_lt other hmem
  · change ((view.contexts.set handle context').map TranContext.trancId).Nodup
    rw [map_set hcontext hid]
    exact hcoherent.distinct
  · intro entry hmem
    rcases List.mem_append.mp hmem with hmem | hmem
    · rw [hwritten entry hmem]
      exact hcoherent.id_lt context hself
    · exact hcoherent.written_lt entry hmem
  · intro id hmem
    apply (known_set hcontext hid).mpr
    by_cases hsame : id = context.trancId
    · exact ⟨context, hself, hsame.symm⟩
    · exact hcoherent.active_known id ((hactive id hsame).mp hmem)
  · intro id hmem
    apply (known_set hcontext hid).mpr
    by_cases hsame : id = context.trancId
    · exact ⟨context, hself, hsame.symm⟩
    · exact hcoherent.aborted_known id ((haborted id hsame).mp hmem)
  · intro other hmem
    rcases hcases other hmem with rfl | ⟨hmem, hne⟩
    · rw [hid]
      exact hactiveSelf
    · exact (hactive other.trancId hne).trans (hcoherent.active_iff other hmem)
  · intro other hmem
    rcases hcases other hmem with rfl | ⟨hmem, hne⟩
    · rw [hid]
      exact habortedSelf
    · exact (haborted other.trancId hne).trans (hcoherent.aborted_iff other hmem)
  · intro other hmem
    rcases hcases other hmem with rfl | ⟨hmem, -⟩
    · exact hexclusive
    · exact hcoherent.exclusive other hmem
  · intro other hmem hother hopen entry hentry
    rcases hcases other hmem with rfl | ⟨hmem, hne⟩
    · have hold : context.isCommited = false := by
        rw [← Bool.not_eq_true] at hopen ⊢
        exact fun hcommitted => hopen (hmonotone hcommitted)
      rw [hunwritten hother hopen, List.nil_append] at hentry
      rw [hid]
      exact hcoherent.unwritten context hself (hlevel ▸ hother) hold entry hentry
    · rcases List.mem_append.mp hentry with hentry | hentry
      · rw [hwritten entry hentry]
        exact hne.symm
      · exact hcoherent.unwritten other hmem hother hopen entry hentry
  · intro other hmem hother hcommitted staged hstaged
    rcases hcases other hmem with rfl | ⟨hmem, -⟩
    · rw [hid]
      exact hpublished hother hcommitted staged hstaged
    · obtain ⟨entry, hentry, hboth⟩ := hcoherent.published other hmem hother hcommitted staged hstaged
      exact ⟨entry, List.mem_append_right _ hentry, hboth⟩

/-- One transaction works on its own state, and at the lowest level also writes. -/
theorem touch (hcoherent : Coherent view) (hcontext : view.contexts[handle]? = some context)
    (hopen : context.finished = false) {context' : TranContext} (written : List Entry) (wal : List Record)
    (hid : context'.trancId = context.trancId)
    (hlevel : context'.isolationLevel = context.isolationLevel)
    (hcommited : context'.isCommited = context.isCommited)
    (haborted : context'.isAborted = context.isAborted)
    (hwritten : ∀ entry ∈ written, entry.txid = context.trancId)
    (hunwritten : context.isolationLevel ≠ .readUnopCommitted → written = []) :
    Coherent { view with
      contexts := view.contexts.set handle context'
      history := written ++ view.history
      wal := wal } := by
  have hself := List.mem_of_getElem? hcontext
  have hfinished : context'.finished = context.finished := by
    rw [TranContext.finished, TranContext.finished, hcommited, haborted]
  refine hcoherent.update hcontext view.active view.aborted written wal hid hlevel
    (fun _ _ => Iff.rfl) (fun _ _ => Iff.rfl) ?_ ?_ ?_ hwritten ?_ ?_ ?_
  · rw [hfinished]
    exact hcoherent.active_iff context hself
  · rw [haborted]
    exact hcoherent.aborted_iff context hself
  · rw [hcommited, haborted]
    exact hcoherent.exclusive context hself
  · rw [hcommited]
    exact id
  · intro hstaged _
    exact hunwritten (hlevel ▸ hstaged)
  · intro _ hcommitted
    rw [hcommited, (Bool.or_eq_false_iff.mp hopen).1] at hcommitted
    cases hcommitted

/-- A plain operation takes a number of its own. -/
private theorem plain (hcoherent : Coherent view) {written : List Entry}
    (hwritten : ∀ entry ∈ written, entry.txid = view.nextTrancId) :
    Coherent { view with
      nextTrancId := view.nextTrancId + 1
      history := written ++ view.history } where
  next_pos := Nat.succ_pos _
  id_pos := hcoherent.id_pos
  id_lt other hmem := Nat.lt_succ_of_lt (hcoherent.id_lt other hmem)
  distinct := hcoherent.distinct
  written_lt entry hmem := by
    rcases List.mem_append.mp hmem with hmem | hmem
    · rw [hwritten entry hmem]
      exact Nat.lt_succ_self _
    · exact Nat.lt_succ_of_lt (hcoherent.written_lt entry hmem)
  active_known := hcoherent.active_known
  aborted_known := hcoherent.aborted_known
  active_iff := hcoherent.active_iff
  aborted_iff := hcoherent.aborted_iff
  exclusive := hcoherent.exclusive
  unwritten other hmem hlevel hopen entry hentry := by
    rcases List.mem_append.mp hentry with hentry | hentry
    · rw [hwritten entry hentry]
      exact (hcoherent.id_lt other hmem).ne'
    · exact hcoherent.unwritten other hmem hlevel hopen entry hentry
  published other hmem hlevel hcommitted staged hstaged := by
    obtain ⟨entry, hentry, hboth⟩ :=
      hcoherent.published other hmem hlevel hcommitted staged hstaged
    exact ⟨entry, List.mem_append_right _ hentry, hboth⟩

private theorem begin (hcoherent : Coherent view) (isolationLevel : IsolationLevel) :
    Coherent { view with
      nextTrancId := view.nextTrancId + 1
      active := insert view.nextTrancId view.active
      contexts := view.contexts ++ [TranContext.start view.nextTrancId isolationLevel] } := by
  have hnew : ∀ other ∈ view.contexts, other.trancId ≠ view.nextTrancId :=
    fun other hmem => (hcoherent.id_lt other hmem).ne
  have hcases : ∀ other ∈ view.contexts ++ [TranContext.start view.nextTrancId isolationLevel],
      other ∈ view.contexts ∨ other = TranContext.start view.nextTrancId isolationLevel := by
    intro other hmem
    rw [List.mem_append, List.mem_singleton] at hmem
    exact hmem
  refine
    { next_pos := Nat.succ_pos _
      id_pos := ?_
      id_lt := ?_
      distinct := ?_
      written_lt := fun entry hmem => Nat.lt_succ_of_lt (hcoherent.written_lt entry hmem)
      active_known := ?_
      aborted_known := ?_
      active_iff := ?_
      aborted_iff := ?_
      exclusive := ?_
      unwritten := ?_
      published := ?_ }
  · intro other hmem
    rcases hcases other hmem with hmem | rfl
    · exact hcoherent.id_pos other hmem
    · exact hcoherent.next_pos
  · intro other hmem
    rcases hcases other hmem with hmem | rfl
    · exact Nat.lt_succ_of_lt (hcoherent.id_lt other hmem)
    · exact Nat.lt_succ_self _
  · change ((view.contexts ++ [TranContext.start view.nextTrancId isolationLevel]).map
      TranContext.trancId).Nodup
    rw [List.map_append, List.map_singleton, List.nodup_append]
    refine ⟨hcoherent.distinct, List.nodup_singleton _, ?_⟩
    intro id hmem new hnewMem
    obtain ⟨other, hother, rfl⟩ := List.mem_map.mp hmem
    rw [List.mem_singleton.mp hnewMem]
    exact hnew other hother
  · intro id hmem
    rcases Finset.mem_insert.mp hmem with rfl | hmem
    · exact ⟨_, List.mem_append_right _ (List.mem_singleton_self _), rfl⟩
    · obtain ⟨other, hother, hid⟩ := hcoherent.active_known id hmem
      exact ⟨other, List.mem_append_left _ hother, hid⟩
  · intro id hmem
    obtain ⟨other, hother, hid⟩ := hcoherent.aborted_known id hmem
    exact ⟨other, List.mem_append_left _ hother, hid⟩
  · intro other hmem
    rcases hcases other hmem with hmem | rfl
    · rw [Finset.mem_insert, ← hcoherent.active_iff other hmem]
      exact or_iff_right (hnew other hmem)
    · exact iff_of_true (Finset.mem_insert_self _ _) rfl
  · intro other hmem
    rcases hcases other hmem with hmem | rfl
    · exact hcoherent.aborted_iff other hmem
    · refine iff_of_false (fun haborted => ?_) Bool.false_ne_true
      obtain ⟨other, hother, hid⟩ := hcoherent.aborted_known _ haborted
      exact hnew other hother hid
  · intro other hmem
    rcases hcases other hmem with hmem | rfl
    · exact hcoherent.exclusive other hmem
    · exact fun hboth => Bool.false_ne_true hboth.1
  · intro other hmem hlevel hopen entry hentry
    rcases hcases other hmem with hmem | rfl
    · exact hcoherent.unwritten other hmem hlevel hopen entry hentry
    · exact (hcoherent.written_lt entry hentry).ne
  · intro other hmem hlevel hcommitted
    rcases hcases other hmem with hmem | rfl
    · exact hcoherent.published other hmem hlevel hcommitted
    · cases hcommitted

/-- A transaction that rolls back leaves the active set for the other one. -/
private theorem rollBack (hcoherent : Coherent view)
    (hcontext : view.contexts[handle]? = some context) (hopen : context.finished = false)
    {context' : TranContext} (hid : context'.trancId = context.trancId)
    (hlevel : context'.isolationLevel = context.isolationLevel)
    (hcommited : context'.isCommited = context.isCommited)
    (haborted : context'.isAborted = true) :
    Coherent { view.setContext handle context' with
      aborted := insert context.trancId view.aborted
      active := view.active.erase context.trancId } := by
  have hold : context.isCommited = false := (Bool.or_eq_false_iff.mp hopen).1
  have hfinished : context'.finished = true := by
    rw [TranContext.finished, haborted, Bool.or_true]
  refine hcoherent.update hcontext (view.active.erase context.trancId)
    (insert context.trancId view.aborted) [] view.wal hid hlevel ?_ ?_ ?_ ?_ ?_ ?_ ?_ ?_ ?_
  · intro id hne
    rw [Finset.mem_erase]
    exact and_iff_right hne
  · intro id hne
    rw [Finset.mem_insert]
    exact or_iff_right hne
  · rw [hfinished]
    exact iff_of_false (Finset.notMem_erase _ _) (Bool.false_ne_true ∘ Eq.symm)
  · exact iff_of_true (Finset.mem_insert_self _ _) haborted
  · rw [hcommited, hold]
    exact fun hboth => Bool.false_ne_true hboth.1
  · exact fun _ hmem => by cases hmem
  · rw [hcommited]
    exact id
  · exact fun _ _ => rfl
  · intro _ hcommitted
    rw [hcommited, hold] at hcommitted
    cases hcommitted

private theorem commit (hcoherent : Coherent view)
    (hcontext : view.contexts[handle]? = some context) (hopen : context.finished = false)
    {context' : TranContext} (wal : List Record) (hid : context'.trancId = context.trancId)
    (hlevel : context'.isolationLevel = context.isolationLevel)
    (hstaged : context'.tempMap = context.tempMap)
    (haborted : context'.isAborted = context.isAborted) :
    Coherent { view.setContext handle { context' with isCommited := true } with
      wal := wal
      history := context.committedEntries ++ view.history
      active := view.active.erase context.trancId } := by
  have hself := List.mem_of_getElem? hcontext
  have hold : context.isAborted = false := (Bool.or_eq_false_iff.mp hopen).2
  refine hcoherent.update hcontext (view.active.erase context.trancId) view.aborted
    context.committedEntries wal hid hlevel ?_ (fun _ _ => Iff.rfl) ?_ ?_ ?_
    (fun entry hmem => TranContext.txid_of_mem_committedEntries hmem) (fun _ => rfl) ?_ ?_
  · intro id hne
    rw [Finset.mem_erase]
    exact and_iff_right hne
  · exact iff_of_false (Finset.notMem_erase _ _) (Bool.false_ne_true ∘ Eq.symm)
  · rw [hcoherent.aborted_iff context hself]
    change context.isAborted = true ↔ context'.isAborted = true
    rw [haborted]
  · change ¬(true = true ∧ context'.isAborted = true)
    rw [haborted, hold]
    exact fun hboth => Bool.false_ne_true hboth.2
  · exact fun _ hfalse => absurd hfalse (Bool.false_ne_true ∘ Eq.symm)
  · intro hstaging _ staged hmem
    change staged ∈ context'.tempMap.entries at hmem
    rw [hstaged] at hmem
    refine ⟨⟨staged.1, staged.2, context.trancId⟩, List.mem_append_left _ ?_, rfl, rfl⟩
    exact TranContext.mem_committedEntries.mpr (Or.inr ⟨hlevel ▸ hstaging, staged, hmem, rfl⟩)

theorem step {view' : View} {call : Call} {outcome : Except Err Reply}
    (hcoherent : Coherent view) (hstep : Step view call outcome view') : Coherent view' := by
  cases hstep with
  | maintained hcall => exact hcoherent
  | refused => exact hcoherent
  | plain hcall =>
      exact hcoherent.plain fun entry hmem => Call.txid_of_mem_plainEntries hmem
  | begun isolationLevel => exact hcoherent.begin isolationLevel
  | staged hcontext hopen hlevel hrecord =>
      exact hcoherent.touch hcontext hopen [] view.wal rfl rfl rfl rfl
        (fun _ hmem => by cases hmem) fun _ => rfl
  | unlogged hcontext hopen hlevel hrecord hwal =>
      exact hcoherent.touch hcontext hopen [] view.wal rfl rfl rfl rfl
        (fun _ hmem => by cases hmem) fun _ => rfl
  | @applied _ op _ context _ _ hcontext hopen hlevel hrecord hwal hcount houtcome =>
      exact hcoherent.touch hcontext hopen [⟨op.key, op.value, context.trancId⟩] _ rfl rfl rfl rfl
        (fun entry hmem => by rw [List.mem_singleton.mp hmem])
        fun hne => absurd hlevel hne
  | gotStaged hcontext hopen hpending => exact hcoherent
  | gotFresh hcontext hopen hpending hlevel hfound => exact hcoherent
  | gotCached hcontext hopen hpending hlevel hcached => exact hcoherent
  | gotFirst hcontext hopen hpending hlevel hcached hfound =>
      exact hcoherent.touch hcontext hopen [] view.wal rfl rfl rfl rfl
        (fun _ hmem => by cases hmem) fun _ => rfl
  | alreadyOver hcall hcontext hfinished => exact hcoherent
  | conflict hcontext hopen hfirst =>
      exact hcoherent.rollBack hcontext hopen rfl rfl rfl rfl
  | commitUnlogged hcontext hopen hfirst hwal =>
      exact hcoherent.touch hcontext hopen [] view.wal rfl rfl rfl rfl
        (fun _ hmem => by cases hmem) fun _ => rfl
  | committed hcontext hopen hfirst hpassed hwal hcount houtcome =>
      exact hcoherent.commit hcontext hopen _ rfl rfl rfl rfl
  | rolledBack hcontext hopen hfirst hcount =>
      exact hcoherent.rollBack hcontext hopen rfl rfl rfl rfl

theorem run {view' : View} {events : List Event} (hcoherent : Coherent view)
    (hrun : Run view events view') : Coherent view' := by
  induction hrun with
  | nil => exact hcoherent
  | cons hstep hrest ih => exact ih (hcoherent.step hstep)

end Coherent

end View

end KopiDb
