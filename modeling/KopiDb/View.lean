import KopiDb.TranContext

/-!
# The store seen from outside

What a run of transactions comes down to: the history of all writes, who is active and
who rolled back, and the contexts.  Tables, files, flushes and compactions are gone.  Every
call on the store is a step of this view, and a read answers from the history.
-/

namespace KopiDb

/-- The store without its engine.  `history` lists all writes, the latest first. -/
structure View where
  history : List Entry
  nextTrancId : ℕ
  aborted : Finset ℕ
  active : Finset ℕ
  contexts : List TranContext
  wal : List Record

/-- The view of a store whose writes were `history`. -/
def LSM.view (lsm : LSM) (history : List Entry) : View where
  history := history
  nextTrancId := lsm.tranManager.nextTransactionId
  aborted := lsm.tranManager.abortedTrancIds
  active := lsm.tranManager.activeTrans
  contexts := lsm.contexts
  wal := lsm.wal

namespace TranContext

/-- All records of a context have reached the log. -/
def persisted (context : TranContext) : TranContext :=
  { context with walWrittenCount := context.operations.length }

/-- The writes that a commit applies, without its marker. -/
def stagedEntries (context : TranContext) : List Entry :=
  if context.isolationLevel = .readUnopCommitted then []
  else context.tempMap.entries.map fun staged => ⟨staged.1, staged.2, context.trancId⟩

/-- What a commit adds to the history, the latest first. -/
def committedEntries (context : TranContext) : List Entry :=
  ⟨[], [], context.trancId⟩ :: context.stagedEntries.reverse

end TranContext

namespace View

def empty : View := LSM.new.view []

/-- The writers that a read does not see. -/
def skip (view : View) (requireCommitted : Bool) (id : ℕ) : Bool :=
  decide (id ∈ view.aborted) || (requireCommitted && decide (id ∈ view.active))

/-- An answer of the engine.  Under the empty key, which is reserved, all that is known is
that a value comes from a write that the reader may see. -/
structure Found (history : List Entry) (key : Bytes) (bound : ℕ) (skip : ℕ → Bool)
    (found : Option (Bytes × ℕ)) : Prop where
  user : key ≠ [] → found = reference history key bound skip
  reserved : key = [] → ∀ pair ∈ found, ∃ entry ∈ history, entry.key = [] ∧
    (entry.value, entry.txid) = pair ∧ Versions.visible bound skip entry.txid

def setContext (view : View) (handle : ℕ) (context : TranContext) : View :=
  { view with contexts := view.contexts.set handle context }

/-- What the checks of `commit` have found out about a transaction that passes them. -/
structure Passed (view : View) (context : TranContext) : Prop where
  writes : context.isolationLevel ≠ .readUnopCommitted → ∀ staged ∈ context.tempMap.entries,
    staged.1 ≠ [] → ∀ entry, Versions.read view.history staged.1 0 (view.skip false) =
      some entry → entry.txid ≤ context.trancId
  reads : context.isolationLevel = .serializable → ∀ pair ∈ context.readMap.entries,
    pair.1 ≠ [] → reference view.history pair.1 0 (view.skip false) = pair.2

end View

/-- The writes of a plain operation that was given `trancId`, the latest first. -/
def Call.plainEntries (trancId : ℕ) : Call → List Entry
  | .plainPut key value => [⟨key, value, trancId⟩]
  | .plainPutBatch kvs => (kvs.map fun kv => (⟨kv.1, kv.2, trancId⟩ : Entry)).reverse
  | .plainRemove key => [⟨key, [], trancId⟩]
  | .plainRemoveBatch keys => (keys.map fun key => (⟨key, [], trancId⟩ : Entry)).reverse
  | _ => []

/-- Plain operations. -/
def Call.isPlain : Call → Bool
  | .plainPut _ _ | .plainPutBatch _ | .plainRemove _ | .plainRemoveBatch _ => true
  | .plainGet _ | .plainGetBatch _ => true
  | _ => false

/-- Maintenance that moves records and changes nothing else. -/
def Call.isMaintenance : Call → Bool
  | .flush | .freeze | .compact _ => true
  | _ => false

namespace View

/-- A write that gets past the checks in front of the log. -/
def accepts (view : View) : Call → Bool
  | .write handle op _ => view.contexts[handle]?.any fun context =>
      !context.finished && (op.record context.trancId).isOk
  | _ => false

/-- What a call does to the view. -/
inductive Step : View → Call → Except Err Reply → View → Prop where
  | maintained {view : View} {call : Call} {outcome : Except Err Reply}
      (hcall : call.isMaintenance = true) : Step view call outcome view
  | refused {view : View} {call : Call} {err : Err} (hcall : view.accepts call = false) :
      Step view call (.error err) view
  | plain {view : View} {call : Call} {outcome : Except Err Reply}
      (hcall : call.isPlain = true) :
      Step view call outcome { view with
        nextTrancId := view.nextTrancId + 1
        history := call.plainEntries view.nextTrancId ++ view.history }
  | begun {view : View} (isolationLevel : IsolationLevel) :
      Step view (.beginTran isolationLevel) (.ok (.handle view.contexts.length)) { view with
        nextTrancId := view.nextTrancId + 1
        active := insert view.nextTrancId view.active
        contexts := view.contexts ++ [TranContext.start view.nextTrancId isolationLevel] }
  | staged {view : View} {handle : ℕ} {op : WriteOp} {walOk : Bool} {context : TranContext}
      {record : Record} (hcontext : view.contexts[handle]? = some context)
      (hopen : context.finished = false)
      (hlevel : context.isolationLevel ≠ .readUnopCommitted)
      (hrecord : op.record context.trancId = .ok record) :
      Step view (.write handle op walOk) (.ok .done)
        (view.setContext handle { context.logged record with
          tempMap := context.tempMap.insert op.key op.value })
  | unlogged {view : View} {handle : ℕ} {op : WriteOp} {walOk : Bool}
      {context : TranContext} {record : Record} {err : Err}
      (hcontext : view.contexts[handle]? = some context) (hopen : context.finished = false)
      (hlevel : context.isolationLevel = .readUnopCommitted)
      (hrecord : op.record context.trancId = .ok record)
      (hwal : walOk = false ∨ context.operations.length + 1 < context.walWrittenCount) :
      Step view (.write handle op walOk) (.error err)
        (view.setContext handle (context.logged record))
  | applied {view : View} {handle : ℕ} {op : WriteOp} {walOk : Bool} {context : TranContext}
      {record : Record} {outcome : Except Err Reply}
      (hcontext : view.contexts[handle]? = some context) (hopen : context.finished = false)
      (hlevel : context.isolationLevel = .readUnopCommitted)
      (hrecord : op.record context.trancId = .ok record)
      (hwal : walOk = true ∨ context.walWrittenCount = context.operations.length + 1)
      (hcount : context.walWrittenCount ≤ context.operations.length + 1)
      (houtcome : ∀ reply, outcome = .ok reply → reply = .done) :
      Step view (.write handle op walOk) outcome
        { view.setContext handle (context.logged record).persisted with
          wal := view.wal ++ (context.logged record).pending
          history := ⟨op.key, op.value, context.trancId⟩ :: view.history }
  | gotStaged {view : View} {handle : ℕ} {key pending : Bytes} {context : TranContext}
      (hcontext : view.contexts[handle]? = some context) (hopen : context.finished = false)
      (hpending : context.tempMap.find? key = some pending) :
      Step view (.get handle key) (.ok (.value (if pending = [] then none else some pending)))
        view
  | gotFresh {view : View} {handle : ℕ} {key : Bytes} {context : TranContext}
      {found : Option (Bytes × ℕ)} (hcontext : view.contexts[handle]? = some context)
      (hopen : context.finished = false) (hpending : context.tempMap.find? key = none)
      (hlevel : context.isolationLevel = .readUnopCommitted ∨
        context.isolationLevel = .readOpCommitted)
      (hfound : Found view.history key 0
        (view.skip (decide (context.isolationLevel ≠ .readUnopCommitted))) found) :
      Step view (.get handle key) (.ok (.value (found.map Prod.fst))) view
  | gotCached {view : View} {handle : ℕ} {key : Bytes} {context : TranContext}
      {found : Option (Bytes × ℕ)} (hcontext : view.contexts[handle]? = some context)
      (hopen : context.finished = false) (hpending : context.tempMap.find? key = none)
      (hlevel : context.isolationLevel ≠ .readUnopCommitted ∧
        context.isolationLevel ≠ .readOpCommitted)
      (hcached : context.readMap.find? key = some found) :
      Step view (.get handle key) (.ok (.value (found.map Prod.fst))) view
  | gotFirst {view : View} {handle : ℕ} {key : Bytes} {context : TranContext}
      {found : Option (Bytes × ℕ)} (hcontext : view.contexts[handle]? = some context)
      (hopen : context.finished = false) (hpending : context.tempMap.find? key = none)
      (hlevel : context.isolationLevel ≠ .readUnopCommitted ∧
        context.isolationLevel ≠ .readOpCommitted)
      (hcached : context.readMap.find? key = none)
      (hfound : Found view.history key context.trancId (view.skip true) found) :
      Step view (.get handle key) (.ok (.value (found.map Prod.fst)))
        (view.setContext handle { context with readMap := context.readMap.insert key found })
  | alreadyOver {view : View} {call : Call} {handle : ℕ} {context : TranContext}
      (hcall : call = .abort handle ∨ ∃ walOk, call = .commit handle walOk)
      (hcontext : view.contexts[handle]? = some context) (hfinished : context.finished = true) :
      Step view call (.ok (.ended false)) view
  | conflict {view : View} {handle : ℕ} {walOk : Bool} {context : TranContext}
      (hcontext : view.contexts[handle]? = some context) (hopen : context.finished = false)
      (hfirst : context.endAttempted = false) :
      Step view (.commit handle walOk) (.ok (.ended false))
        { view.setContext handle { context with isAborted := true } with
          aborted := insert context.trancId view.aborted
          active := view.active.erase context.trancId }
  | commitUnlogged {view : View} {handle : ℕ} {walOk : Bool} {context : TranContext} {err : Err}
      (hcontext : view.contexts[handle]? = some context) (hopen : context.finished = false)
      (hfirst : context.endAttempted = false)
      (hwal : walOk = false ∨ context.operations.length + 1 < context.walWrittenCount) :
      Step view (.commit handle walOk) (.error err)
        (view.setContext handle (context.logged (Record.commitRecord context.trancId)))
  | committed {view : View} {handle : ℕ} {walOk : Bool} {context : TranContext}
      {outcome : Except Err Reply}
      (hcontext : view.contexts[handle]? = some context) (hopen : context.finished = false)
      (hfirst : context.endAttempted = false) (hpassed : Passed view context)
      (hwal : walOk = true ∨ context.walWrittenCount = context.operations.length + 1)
      (hcount : context.walWrittenCount ≤ context.operations.length + 1)
      (houtcome : ∀ reply, outcome = .ok reply → reply = .ended true) :
      Step view (.commit handle walOk) outcome
        { view.setContext handle
            { (context.logged (Record.commitRecord context.trancId)).persisted with
              isCommited := true } with
          wal := view.wal ++ (context.logged (Record.commitRecord context.trancId)).pending
          history := context.committedEntries ++ view.history
          active := view.active.erase context.trancId }
  | rolledBack {view : View} {handle : ℕ} {context : TranContext}
      (hcontext : view.contexts[handle]? = some context) (hopen : context.finished = false)
      (hfirst : context.endAttempted = false)
      (hcount : context.walWrittenCount ≤ context.operations.length) :
      Step view (.abort handle) (.ok (.ended true))
        { view.setContext handle { context with
            isAborted := true
            tempMap := ∅
            readMap := ∅
            operations := [] } with
          aborted := insert context.trancId view.aborted
          active := view.active.erase context.trancId }

/-- A run of calls, each with its outcome. -/
inductive Run : View → List Event → View → Prop where
  | nil {view : View} : Run view [] view
  | cons {view next last : View} {call : Call} {outcome : Except Err Reply}
      {rest : List Event} (hstep : Step view call outcome next) (hrest : Run next rest last) :
      Run view (⟨call, outcome⟩ :: rest) last

/-! ## What every step keeps -/

/-- A context that goes on: its number and level stay, its rollback is final, and until
then it forgets no staged key. -/
structure Goes (context next : TranContext) : Prop where
  trancId : next.trancId = context.trancId
  isolationLevel : next.isolationLevel = context.isolationLevel
  isAborted : context.isAborted = true → next.isAborted = true
  isCommited : context.isCommited = true → next.isCommited = true
  tempMap : next.isAborted = false → ∀ key, (context.tempMap.find? key).isSome →
    (next.tempMap.find? key).isSome

theorem Goes.refl (context : TranContext) : Goes context context :=
  ⟨rfl, rfl, id, id, fun _ _ => id⟩

theorem Goes.trans {first second third : TranContext} (hleft : Goes first second)
    (hright : Goes second third) : Goes first third where
  trancId := hright.trancId.trans hleft.trancId
  isolationLevel := hright.isolationLevel.trans hleft.isolationLevel
  isAborted haborted := hright.isAborted (hleft.isAborted haborted)
  isCommited hcommited := hright.isCommited (hleft.isCommited hcommited)
  tempMap hkept key hstaged := by
    apply hright.tempMap hkept
    apply hleft.tempMap
    · rw [← Bool.not_eq_true]
      intro haborted
      exact Bool.false_ne_true (hkept.symm.trans (hright.isAborted haborted))
    · exact hstaged

/-- Writes and rollbacks are never forgotten, and every context goes on. -/
structure Grows (view view' : View) : Prop where
  history : ∀ entry ∈ view.history, entry ∈ view'.history
  aborted : ∀ id ∈ view.aborted, id ∈ view'.aborted
  contexts : ∀ (handle : ℕ) (context : TranContext), view.contexts[handle]? = some context →
    ∃ next, view'.contexts[handle]? = some next ∧ Goes context next

theorem Grows.refl (view : View) : Grows view view :=
  ⟨fun _ => id, fun _ => id, fun _ context hcontext => ⟨context, hcontext, Goes.refl context⟩⟩

theorem Grows.trans {first second third : View} (hleft : Grows first second)
    (hright : Grows second third) : Grows first third where
  history entry hmem := hright.history entry (hleft.history entry hmem)
  aborted id hmem := hright.aborted id (hleft.aborted id hmem)
  contexts handle context hcontext := by
    obtain ⟨next, hnext, hgoes⟩ := hleft.contexts handle context hcontext
    obtain ⟨last, hlast, hfurther⟩ := hright.contexts handle next hnext
    exact ⟨last, hlast, hgoes.trans hfurther⟩

private theorem Grows.set {view : View} {handle : ℕ} {context : TranContext}
    (hcontext : view.contexts[handle]? = some context) (context' : TranContext)
    (written : List Entry) (active aborted : Finset ℕ) (wal : List Record)
    (hgoes : Goes context context') (haborted : view.aborted ⊆ aborted) :
    Grows view { view with
      contexts := view.contexts.set handle context'
      history := written ++ view.history
      active := active
      aborted := aborted
      wal := wal } where
  history entry hmem := List.mem_append_right _ hmem
  aborted id hmem := haborted hmem
  contexts other found hfound := by
    by_cases hsame : other = handle
    · subst hsame
      obtain rfl := Option.some.inj (hcontext.symm.trans hfound)
      exact ⟨context', List.getElem?_set_self (List.getElem?_eq_some_iff.mp hcontext).1, hgoes⟩
    · exact ⟨found, (List.getElem?_set_ne (Ne.symm hsame)).trans hfound, Goes.refl found⟩

theorem Step.grows {view view' : View} {call : Call} {outcome : Except Err Reply}
    (hstep : Step view call outcome view') : Grows view view' := by
  have hkept : view.aborted ⊆ view.aborted := Finset.Subset.refl _
  cases hstep with
  | maintained | refused | gotStaged | gotFresh | gotCached | alreadyOver =>
      exact Grows.refl view
  | plain hcall =>
      exact ⟨fun _ hmem => List.mem_append_right _ hmem, fun _ => id,
        fun _ context hcontext => ⟨context, hcontext, Goes.refl context⟩⟩
  | begun isolationLevel =>
      refine ⟨fun _ => id, fun _ => id, fun handle context hcontext => ?_⟩
      have hlt := (List.getElem?_eq_some_iff.mp hcontext).1
      exact ⟨context, (List.getElem?_append_left hlt).trans hcontext, Goes.refl context⟩
  | @staged handle op walOk context record hcontext hopen hlevel hrecord =>
      refine Grows.set hcontext _ [] _ _ _ ⟨rfl, rfl, id, id, fun _ key hstaged => ?_⟩ hkept
      dsimp only
      rw [OrdMap.find?_insert]
      split_ifs
      · rfl
      · exact hstaged
  | unlogged hcontext =>
      exact Grows.set hcontext _ [] _ _ _ ⟨rfl, rfl, id, id, fun _ _ => id⟩ hkept
  | @applied handle op walOk context record _ hcontext =>
      exact Grows.set hcontext _ [⟨op.key, op.value, context.trancId⟩] _ _ _
        ⟨rfl, rfl, id, id, fun _ _ => id⟩ hkept
  | gotFirst hcontext =>
      exact Grows.set hcontext _ [] _ _ _ ⟨rfl, rfl, id, id, fun _ _ => id⟩ hkept
  | conflict hcontext =>
      exact Grows.set hcontext _ [] _ _ _ ⟨rfl, rfl, fun _ => rfl, id, fun _ _ => id⟩
        (Finset.subset_insert _ _)
  | commitUnlogged hcontext =>
      exact Grows.set hcontext _ [] _ _ _ ⟨rfl, rfl, id, id, fun _ _ => id⟩ hkept
  | @committed handle walOk context _ hcontext =>
      exact Grows.set hcontext _ context.committedEntries _ _ _
        ⟨rfl, rfl, id, fun _ => rfl, fun _ _ => id⟩ hkept
  | rolledBack hcontext =>
      refine Grows.set hcontext _ [] _ _ _ ⟨rfl, rfl, fun _ => rfl, id, fun hkept => ?_⟩
        (Finset.subset_insert _ _)
      cases hkept

theorem Run.grows {view view' : View} {events : List Event} (hrun : Run view events view') :
    Grows view view' := by
  induction hrun with
  | nil => exact Grows.refl _
  | cons hstep _ ih => exact hstep.grows.trans ih

/-- A run can be cut anywhere. -/
theorem Run.split {view view' : View} {front back : List Event}
    (hrun : Run view (front ++ back) view') :
    ∃ middle, Run view front middle ∧ Run middle back view' := by
  induction front generalizing view with
  | nil => exact ⟨view, Run.nil, hrun⟩
  | cons event rest ih =>
      cases hrun with
      | cons hstep hrest =>
          obtain ⟨middle, hfront, hback⟩ := ih hrest
          exact ⟨middle, Run.cons hstep hfront, hback⟩

end View

end KopiDb
