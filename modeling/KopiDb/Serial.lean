import KopiDb.Lib.Replay
import KopiDb.Isolation

/-!
# Serializable transactions

Transactions of the highest level run as if one after the other, in the order in which
they committed.  The check of `commit` makes every first read valid at the commit, and
lets the writers of a key commit in the order of their numbers.
-/

namespace KopiDb

/-- What a read of the key finds behind this write. -/
def WriteOp.found (op : WriteOp) : Option Bytes := if op.value = [] then none else some op.value

/-- What a transaction did and read, as an operation on a store. -/
def Event.storeOp (handle : ℕ) (event : Event) : Option (StoreOp Bytes Bytes) :=
  match event.call, event.outcome with
  | .write other op _, .ok .done => if other = handle then some (.set op.key op.found) else none
  | .get other key, .ok (.value found) => if other = handle then some (.get key found) else none
  | _, _ => none

def traceOf (handle : ℕ) (events : List Event) : List (StoreOp Bytes Bytes) :=
  events.filterMap (Event.storeOp handle)

/-- The handle of a transaction that has committed. -/
def Event.committedHandle (event : Event) : Option ℕ :=
  match event.call, event.outcome with
  | .commit handle _, .ok (.ended true) => some handle
  | _, _ => none

def commitOrder (events : List Event) : List ℕ := events.filterMap Event.committedHandle

/-- Calls of transactions of the highest level on user keys, and maintenance. -/
def Call.serializablePoint : Call → Bool
  | .beginTran isolationLevel => decide (isolationLevel = .serializable)
  | .write _ op _ => decide (op.key ≠ [])
  | .get _ key => decide (key ≠ [])
  | .commit _ _ | .abort _ => true
  | .flush | .freeze | .compact _ => true
  | _ => false

theorem Call.serializablePoint_of_isPlain {call : Call} (hplain : call.isPlain = true) :
    call.serializablePoint = false := by
  cases call <;> first | rfl | cases hplain

/-- The committed transactions on an empty store, one after the other. -/
def serialStore (events : List Event) : Option (Bytes → Option Bytes) :=
  StoreOp.serialRun (fun _ => none)
    ((commitOrder events).map fun handle => traceOf handle events)

namespace View

/-- The trace of an open transaction replays on every store that gives its first reads. -/
structure Replays (past : List Event) (handle : ℕ) : Prop where
  faithful : StoreOp.Faithful
    (fun key => ((sessionOf handle past).staged key).map WriteOp.found)
    (sessionOf handle past).firstRead (traceOf handle past)
  writes : ∀ key, (sessionOf handle past).staged key ≠ none → key ≠ []
  reads : ∀ key, (sessionOf handle past).firstRead key ≠ none → key ≠ []

/-- The store is what the serial run leaves. -/
structure Serial (view : View) (past : List Event) : Prop where
  levels : ∀ context ∈ view.contexts, context.isolationLevel = .serializable
  ended : ∀ handle ∈ commitOrder past, ∃ context,
    view.contexts[handle]? = some context ∧ context.finished = true
  opened : ∀ handle context, view.contexts[handle]? = some context →
    context.finished = false → Replays past handle
  unused : ∀ handle, view.contexts.length ≤ handle → Replays past handle
  store : ∃ store, serialStore past = some store ∧ store [] = none ∧
    ∀ key, key ≠ [] →
      (reference view.history key 0 fun _ => false).map Prod.fst = store key
  markers : Engine.MarkersOnly view.history

/-- Where every transaction stages, only committed ones have written. -/
theorem Coherent.read_unskipped {view : View} (hcoherent : Coherent view)
    (hlevels : ∀ context ∈ view.contexts, context.isolationLevel = .serializable)
    (key : Bytes) (bound : ℕ) (requireCommitted : Bool) :
    Versions.read view.history key bound (view.skip requireCommitted) =
      Versions.read view.history key bound fun _ => false := by
  apply Versions.read_skip_congr
  intro entry hmem _
  have hopen : ∀ context ∈ view.contexts, context.trancId = entry.txid →
      context.isCommited = true := by
    intro context hcontext hid
    by_contra hcommitted
    rw [Bool.not_eq_true] at hcommitted
    refine hcoherent.unwritten context hcontext ?_ hcommitted entry hmem hid.symm
    rw [hlevels context hcontext]
    exact IsolationLevel.noConfusion
  have haborted : entry.txid ∉ view.aborted := by
    intro haborted
    obtain ⟨context, hcontext, hid⟩ := hcoherent.aborted_known _ haborted
    rw [← hid] at haborted
    exact hcoherent.exclusive context hcontext
      ⟨hopen context hcontext hid, (hcoherent.aborted_iff context hcontext).mp haborted⟩
  have hactive : entry.txid ∉ view.active := by
    intro hactive
    obtain ⟨context, hcontext, hid⟩ := hcoherent.active_known _ hactive
    rw [← hid] at hactive
    have hfinished := (hcoherent.active_iff context hcontext).mp hactive
    rw [TranContext.finished, hopen context hcontext hid] at hfinished
    cases hfinished
  simp [skip, haborted, hactive]

section

variable {past : List Event} {event : Event} {handle : ℕ}

private theorem sessionOf_snoc (past : List Event) (event : Event) (handle : ℕ) :
    sessionOf handle (past ++ [event]) = (sessionOf handle past).observe handle event := by
  rw [sessionOf, List.foldl_append]
  rfl

private theorem traceOf_snoc (past : List Event) (event : Event) (handle : ℕ) :
    traceOf handle (past ++ [event]) =
      traceOf handle past ++ (event.storeOp handle).toList := by
  rw [traceOf, List.filterMap_append]
  congr 1

private theorem commitOrder_snoc (past : List Event) (event : Event) :
    commitOrder (past ++ [event]) = commitOrder past ++ event.committedHandle.toList := by
  rw [commitOrder, List.filterMap_append]
  congr 1

/-- An event that says nothing about a handle. -/
structure Unseen (handle : ℕ) (event : Event) : Prop where
  storeOp : event.storeOp handle = none
  observe : ∀ session : Session, session.observe handle event = session

private theorem Replays.unseen (hreplays : Replays past handle) (hunseen : Unseen handle event) :
    Replays (past ++ [event]) handle := by
  have hsession : sessionOf handle (past ++ [event]) = sessionOf handle past := by
    rw [sessionOf_snoc, hunseen.observe]
  have htrace : traceOf handle (past ++ [event]) = traceOf handle past := by
    rw [traceOf_snoc, hunseen.storeOp, Option.toList_none, List.append_nil]
  constructor
  · rw [hsession, htrace]
    exact hreplays.faithful
  · rw [hsession]
    exact hreplays.writes
  · rw [hsession]
    exact hreplays.reads

/-- The traces of the committed transactions stay as they are. -/
private theorem serialStore_snoc
    (hunseen : ∀ handle ∈ commitOrder past, Unseen handle event)
    (hcommit : event.committedHandle = none) :
    serialStore (past ++ [event]) = serialStore past := by
  unfold serialStore
  rw [commitOrder_snoc, hcommit, Option.toList_none, List.append_nil]
  congr 1
  apply List.map_congr_left
  intro handle hmem
  rw [traceOf_snoc, (hunseen handle hmem).storeOp, Option.toList_none, List.append_nil]

private theorem Serial.idle {view view' : View} (hserial : Serial view past)
    (hunseen : ∀ handle, Unseen handle event) (hcommit : event.committedHandle = none)
    (hhistory : view'.history = view.history)
    (hlevels : ∀ context ∈ view'.contexts, context.isolationLevel = .serializable)
    (hopened : ∀ (handle : ℕ) (context : TranContext), view'.contexts[handle]? = some context →
      context.finished = false → (∃ old : TranContext, view.contexts[handle]? = some old ∧
        old.finished = false) ∨ view.contexts.length ≤ handle)
    (hended : ∀ (handle : ℕ) (context : TranContext), view.contexts[handle]? = some context →
      context.finished = true → ∃ next : TranContext, view'.contexts[handle]? = some next ∧
        next.finished = true)
    (hlength : view.contexts.length ≤ view'.contexts.length) :
    Serial view' (past ++ [event]) where
  levels := hlevels
  ended handle hmem := by
    rw [commitOrder_snoc, hcommit, Option.toList_none, List.append_nil] at hmem
    obtain ⟨context, hcontext, hfinished⟩ := hserial.ended handle hmem
    exact hended handle context hcontext hfinished
  opened handle context hcontext hopen := by
    apply Replays.unseen _ (hunseen handle)
    rcases hopened handle context hcontext hopen with ⟨old, hold, holdOpen⟩ | hle
    · exact hserial.opened handle old hold holdOpen
    · exact hserial.unused handle hle
  unused handle hle := (hserial.unused handle (hlength.trans hle)).unseen (hunseen handle)
  store := by
    rw [serialStore_snoc (fun handle _ => hunseen handle) hcommit, hhistory]
    exact hserial.store
  markers := by
    rw [hhistory]
    exact hserial.markers

private theorem mem_commitOrder_ne {view : View} (hserial : Serial view past)
    {context : TranContext} (hcontext : view.contexts[handle]? = some context)
    (hopen : context.finished = false) {other : ℕ} (hmem : other ∈ commitOrder past) :
    other ≠ handle := by
  rintro rfl
  obtain ⟨same, hsame, hfinished⟩ := hserial.ended other hmem
  obtain rfl := Option.some.inj (hcontext.symm.trans hsame)
  exact Bool.false_ne_true (hopen.symm.trans hfinished)

/-- An open transaction writes or reads. -/
private theorem Serial.touch {view : View} (hserial : Serial view past)
    {context : TranContext} (hcontext : view.contexts[handle]? = some context)
    (hopen : context.finished = false) (hother : ∀ other, other ≠ handle → Unseen other event)
    (hcommit : event.committedHandle = none) (hself : Replays (past ++ [event]) handle)
    (context' : TranContext) (hlevel : context'.isolationLevel = context.isolationLevel)
    (hstill : context'.finished = false) :
    Serial (view.setContext handle context') (past ++ [event]) where
  levels other hmem := by
    rcases List.mem_or_eq_of_mem_set hmem with hmem | rfl
    · exact hserial.levels other hmem
    · rw [hlevel]
      exact hserial.levels context (List.mem_of_getElem? hcontext)
  ended other hmem := by
    rw [commitOrder_snoc, hcommit, Option.toList_none, List.append_nil] at hmem
    have hne := mem_commitOrder_ne hserial hcontext hopen hmem
    obtain ⟨found, hfound, hfinished⟩ := hserial.ended other hmem
    refine ⟨found, ?_, hfinished⟩
    change (view.contexts.set handle context')[other]? = some found
    rw [List.getElem?_set_ne hne.symm, hfound]
  opened other found hfound hfoundOpen := by
    by_cases hne : other = handle
    · rw [hne]
      exact hself
    · change (view.contexts.set handle context')[other]? = some found at hfound
      rw [List.getElem?_set_ne (Ne.symm hne)] at hfound
      exact (hserial.opened other found hfound hfoundOpen).unseen (hother other hne)
  unused other hle := by
    change (view.contexts.set handle context').length ≤ other at hle
    rw [List.length_set] at hle
    have hlt := (List.getElem?_eq_some_iff.mp hcontext).1
    exact (hserial.unused other hle).unseen (hother other (hlt.trans_le hle).ne')
  store := by
    rw [serialStore_snoc (fun other hmem =>
      hother other (mem_commitOrder_ne hserial hcontext hopen hmem)) hcommit]
    exact hserial.store
  markers := hserial.markers

/-- The transaction that commits is the last one of the serial run. -/
private theorem Serial.commit {view : View} (hserial : Serial view past)
    (hcoherent : Coherent view) {context : TranContext}
    (hcontext : view.contexts[handle]? = some context) (hopen : context.finished = false)
    (hagrees : Session.Agrees context (sessionOf handle past))
    (hpassed : Passed view context) (hunseen : ∀ other, Unseen other event)
    (hcommit : event.committedHandle = some handle) (context' : TranContext)
    (hlevel : context'.isolationLevel = context.isolationLevel)
    (hfinished : context'.finished = true) (wal : List Record) (active : Finset ℕ) :
    Serial { view.setContext handle context' with
      wal := wal
      history := context.committedEntries ++ view.history
      active := active } (past ++ [event]) := by
  have hserializable := hserial.levels context (List.mem_of_getElem? hcontext)
  have hstaging : context.isolationLevel ≠ .readUnopCommitted := by
    rw [hserializable]
    exact IsolationLevel.noConfusion
  have hcaching : context.caching = true := by
    rw [TranContext.caching, hserializable]
    rfl
  have hreplays := hserial.opened handle context hcontext hopen
  obtain ⟨store, hstore, hreserved, hread⟩ := hserial.store
  have hvalid : ∀ key found, (sessionOf handle past).firstRead key = some found →
      store key = found := by
    intro key found hfound
    have hkey := hreplays.reads key (by rw [hfound]; exact Option.some_ne_none found)
    have hcached := hagrees.reads hcaching key
    rw [hfound] at hcached
    obtain ⟨query, hquery, rfl⟩ := Option.map_eq_some_iff.mp hcached
    have hsame := hpassed.reads hserializable (key, query)
      (OrdMap.find?_eq_some_iff.mp hquery) hkey
    rw [reference, hcoherent.read_unskipped hserial.levels] at hsame
    rw [← hread key hkey, reference, hsame]
  have hreplay := hreplays.faithful store hvalid
  have hstaged : ∀ key, context.tempMap.find? key =
      ((sessionOf handle past).staged key).map WriteOp.value := hagrees.staged hstaging
  constructor
  · intro other hmem
    rcases List.mem_or_eq_of_mem_set hmem with hmem | rfl
    · exact hserial.levels other hmem
    · rw [hlevel]
      exact hserializable
  · intro other hmem
    change ∃ found, (view.contexts.set handle context')[other]? = some found ∧ _
    have hlt := (List.getElem?_eq_some_iff.mp hcontext).1
    by_cases hne : other = handle
    · subst hne
      exact ⟨context', List.getElem?_set_self hlt, hfinished⟩
    · rw [commitOrder_snoc, hcommit, Option.toList_some, List.mem_append,
        List.mem_singleton] at hmem
      obtain ⟨found, hfound, hover⟩ := hserial.ended other (hmem.resolve_right hne)
      exact ⟨found, by rw [List.getElem?_set_ne (Ne.symm hne), hfound], hover⟩
  · intro other found hfound hfoundOpen
    change (view.contexts.set handle context')[other]? = some found at hfound
    by_cases hne : other = handle
    · subst hne
      rw [List.getElem?_set_self (List.getElem?_eq_some_iff.mp hcontext).1] at hfound
      obtain rfl := Option.some.inj hfound
      exact absurd (hfoundOpen.symm.trans hfinished) Bool.false_ne_true
    · rw [List.getElem?_set_ne (Ne.symm hne)] at hfound
      exact (hserial.opened other found hfound hfoundOpen).unseen (hunseen other)
  · intro other hle
    change (view.contexts.set handle context').length ≤ other at hle
    rw [List.length_set] at hle
    exact (hserial.unused other hle).unseen (hunseen other)
  · refine ⟨StoreOp.overlay
      (fun key => ((sessionOf handle past).staged key).map WriteOp.found) store, ?_, ?_, ?_⟩
    · unfold serialStore at hstore ⊢
      rw [commitOrder_snoc, hcommit, Option.toList_some, List.map_append, List.map_singleton]
      have htraces : ∀ other, traceOf other (past ++ [event]) = traceOf other past := by
        intro other
        rw [traceOf_snoc, (hunseen other).storeOp, Option.toList_none, List.append_nil]
      simp only [htraces]
      rw [StoreOp.serialRun_append, hstore, Option.bind_some, StoreOp.serialRun_singleton]
      exact hreplay
    · have hnone : (sessionOf handle past).staged [] = none := by
        by_contra hsome
        exact hreplays.writes [] hsome rfl
      rw [StoreOp.overlay, hnone, Option.map_none, Option.getD_none, hreserved]
    · intro key hkey
      change (reference (context.committedEntries ++ view.history) key 0 _).map _ = _
      rw [reference, Versions.read_append,
        TranContext.read_committedEntries hstaging hkey rfl, hstaged, StoreOp.overlay]
      cases hop : (sessionOf handle past).staged key with
      | none => exact hread key hkey
      | some op =>
          rw [Option.map_some, Option.map_some, Option.map_some, Option.getD_some]
          have hfind := hstaged key
          rw [hop, Option.map_some] at hfind
          have hshadow := hpassed.shadow hstaging hkey hfind false
          rw [hcoherent.read_unskipped hserial.levels] at hshadow
          rw [hshadow, WriteOp.found]
          by_cases hempty : op.value = [] <;> simp [answer, live, hempty]
  · intro entry hmem hempty
    rcases List.mem_append.mp hmem with hmem | hmem
    · rcases TranContext.mem_committedEntries.mp hmem with rfl | ⟨-, staged, hpair, rfl⟩
      · rfl
      · have hfind := hstaged staged.1
        rw [OrdMap.find?_eq_some_iff.mpr hpair] at hfind
        refine absurd hempty (hreplays.writes staged.1 fun hnone => ?_)
        rw [hnone] at hfind
        cases hfind
    · exact hserial.markers entry hmem hempty

/-- A transaction that ends without a commit. -/
private theorem Serial.endWith {view : View} (hserial : Serial view past)
    {context : TranContext} (hcontext : view.contexts[handle]? = some context)
    (hopen : context.finished = false) (hunseen : ∀ other, Unseen other event)
    (hcommit : event.committedHandle = none) (context' : TranContext)
    (hlevel : context'.isolationLevel = context.isolationLevel)
    (hfinished : context'.finished = true) (aborted active : Finset ℕ) :
    Serial { view.setContext handle context' with
      aborted := aborted
      active := active } (past ++ [event]) := by
  have hlt := (List.getElem?_eq_some_iff.mp hcontext).1
  refine hserial.idle hunseen hcommit rfl ?_ ?_ ?_ ?_
  · intro other hmem
    rcases List.mem_or_eq_of_mem_set hmem with hmem | rfl
    · exact hserial.levels other hmem
    · rw [hlevel]
      exact hserial.levels context (List.mem_of_getElem? hcontext)
  · intro other found hfound hfoundOpen
    change (view.contexts.set handle context')[other]? = some found at hfound
    by_cases hne : other = handle
    · exact Or.inl ⟨context, hne ▸ hcontext, hopen⟩
    · rw [List.getElem?_set_ne (Ne.symm hne)] at hfound
      exact Or.inl ⟨found, hfound, hfoundOpen⟩
  · intro other found hfound hover
    change ∃ next, (view.contexts.set handle context')[other]? = some next ∧ _
    by_cases hne : other = handle
    · subst hne
      exact ⟨context', List.getElem?_set_self hlt, hfinished⟩
    · exact ⟨found, by rw [List.getElem?_set_ne (Ne.symm hne), hfound], hover⟩
  · exact (List.length_set).ge

private theorem unseen_write {other : ℕ} (hne : other ≠ handle) (op : WriteOp) (walOk : Bool) :
    Unseen other ⟨.write handle op walOk, .ok .done⟩ :=
  ⟨if_neg hne.symm, fun session => Session.observe_write_of_ne hne.symm session op walOk _⟩

private theorem unseen_get {other : ℕ} (hne : other ≠ handle) (key : Bytes)
    (found : Option Bytes) : Unseen other ⟨.get handle key, .ok (.value found)⟩ :=
  ⟨if_neg hne.symm, fun session => Session.observe_get_of_ne hne.symm session key _⟩

private theorem Replays.write (hreplays : Replays past handle) {op : WriteOp}
    (hkey : op.key ≠ []) (walOk : Bool) :
    Replays (past ++ [⟨.write handle op walOk, .ok .done⟩]) handle := by
  have htrace : traceOf handle (past ++ [⟨.write handle op walOk, .ok .done⟩]) =
      traceOf handle past ++ [.set op.key op.found] := by
    rw [traceOf_snoc]
    congr 1
    exact congrArg Option.toList (if_pos rfl)
  have hfound : (fun key => (Function.update (sessionOf handle past).staged op.key (some op)
      key).map WriteOp.found) = Function.update
        (fun key => ((sessionOf handle past).staged key).map WriteOp.found) op.key
          (some op.found) := by
    funext key
    rw [Function.update_apply, Function.update_apply]
    split_ifs <;> rfl
  constructor
  · rw [sessionOf_snoc, Session.observe_write, htrace, hfound]
    exact hreplays.faithful.set op.key op.found
  · intro key hstaged
    rw [sessionOf_snoc, Session.observe_write] at hstaged
    by_cases hsame : key = op.key
    · rw [hsame]
      exact hkey
    · dsimp only at hstaged
      rw [Function.update_of_ne hsame] at hstaged
      exact hreplays.writes key hstaged
  · rw [sessionOf_snoc, Session.observe_write]
    exact hreplays.reads

private theorem traceOf_get (key : Bytes) (found : Option Bytes) :
    traceOf handle (past ++ [⟨.get handle key, .ok (.value found)⟩]) =
      traceOf handle past ++ [.get key found] := by
  rw [traceOf_snoc]
  congr 1
  exact congrArg Option.toList (if_pos rfl)

/-- A read of something that is known. -/
private theorem Replays.getKnown (hreplays : Replays past handle) {key : Bytes}
    {found : Option Bytes}
    (hknown : ((sessionOf handle past).staged key).map WriteOp.found = some found ∨
      (sessionOf handle past).staged key = none ∧
        (sessionOf handle past).firstRead key = some found) :
    Replays (past ++ [⟨.get handle key, .ok (.value found)⟩]) handle := by
  have hsession : sessionOf handle (past ++ [⟨.get handle key, .ok (.value found)⟩]) =
      sessionOf handle past := by
    rw [sessionOf_snoc, Session.observe_get_known]
    rintro ⟨hstaged, hfirst⟩
    rcases hknown with hown | ⟨-, hread⟩
    · rw [hstaged] at hown
      cases hown
    · rw [hfirst] at hread
      cases hread
  constructor
  · rw [hsession, traceOf_get]
    rcases hknown with hown | ⟨hstaged, hread⟩
    · exact hreplays.faithful.getStaged hown
    · exact hreplays.faithful.getCached (by rw [hstaged]; rfl) hread
  · rw [hsession]
    exact hreplays.writes
  · rw [hsession]
    exact hreplays.reads

private theorem Replays.getFirst (hreplays : Replays past handle) {key : Bytes}
    (hkey : key ≠ []) (found : Option Bytes)
    (hnew : (sessionOf handle past).staged key = none ∧
      (sessionOf handle past).firstRead key = none) :
    Replays (past ++ [⟨.get handle key, .ok (.value found)⟩]) handle := by
  constructor
  · rw [sessionOf_snoc, Session.observe_get_new hnew, traceOf_get]
    exact hreplays.faithful.getFirst found (by rw [hnew.1]; rfl) hnew.2
  · rw [sessionOf_snoc, Session.observe_get_new hnew]
    exact hreplays.writes
  · intro other hread
    rw [sessionOf_snoc, Session.observe_get_new hnew] at hread
    by_cases hsame : other = key
    · rw [hsame]
      exact hkey
    · dsimp only at hread
      rw [Function.update_of_ne hsame] at hread
      exact hreplays.reads other hread

end

theorem serial_empty : Serial empty [] where
  levels _ hmem := by cases hmem
  ended _ hmem := by cases hmem
  opened _ _ hcontext _ := by cases hcontext
  unused _ _ := ⟨StoreOp.Faithful.start, fun _ hstaged => absurd rfl hstaged,
    fun _ hread => absurd rfl hread⟩
  store := ⟨fun _ => none, rfl, rfl, fun _ _ => rfl⟩
  markers _ hmem := by cases hmem

/-- Every call of such a run keeps the store at what the serial run leaves. -/
theorem Serial.step {view view' : View} {past : List Event} {call : Call}
    {outcome : Except Err Reply} (hserial : Serial view past) (hcoherent : Coherent view)
    (htracks : Session.Tracks view.contexts fun handle => sessionOf handle past)
    (hstep : Step view call outcome view') (hcall : call.serializablePoint = true)
    (hok : ∃ reply, outcome = .ok reply) : Serial view' (past ++ [⟨call, outcome⟩]) := by
  obtain ⟨answer, rfl⟩ := hok
  have hsame : ∀ event : Event, (∀ other, Unseen other event) → event.committedHandle = none →
      Serial view (past ++ [event]) := by
    intro event hunseen hcommit
    exact hserial.idle hunseen hcommit rfl hserial.levels
      (fun _ context hcontext hopen => Or.inl ⟨context, hcontext, hopen⟩)
      (fun _ context hcontext hover => ⟨context, hcontext, hover⟩) le_rfl
  have hserializable : ∀ {handle : ℕ} {context : TranContext},
      view.contexts[handle]? = some context → context.isolationLevel = .serializable :=
    fun hcontext => hserial.levels _ (List.mem_of_getElem? hcontext)
  cases hstep with
  | maintained hmaintenance =>
      apply hsame
      · intro other
        cases call with
        | flush => exact ⟨rfl, fun _ => rfl⟩
        | freeze => exact ⟨rfl, fun _ => rfl⟩
        | compact srcLevel => exact ⟨rfl, fun _ => rfl⟩
        | _ => cases hmaintenance
      · cases call <;> first | rfl | cases hmaintenance
  | plain hplain =>
      rw [Call.serializablePoint_of_isPlain hplain] at hcall
      cases hcall
  | begun isolationLevel =>
      refine hserial.idle (fun _ => ⟨rfl, fun _ => rfl⟩) rfl rfl ?_ ?_ ?_ ?_
      · intro context hmem
        rcases List.mem_append.mp hmem with hmem | hmem
        · exact hserial.levels context hmem
        · rw [List.mem_singleton.mp hmem]
          exact of_decide_eq_true hcall
      · intro handle context hcontext hopen
        by_cases hlt : handle < view.contexts.length
        · exact Or.inl ⟨context, by rw [← hcontext, List.getElem?_append_left hlt], hopen⟩
        · exact Or.inr (not_lt.mp hlt)
      · intro handle context hcontext hover
        have hlt := (List.getElem?_eq_some_iff.mp hcontext).1
        exact ⟨context, by rw [List.getElem?_append_left hlt, hcontext], hover⟩
      · rw [List.length_append]
        exact Nat.le_add_right _ _
  | staged hcontext hopen hlevel hrecord =>
      apply hserial.touch hcontext hopen (fun other hne => unseen_write hne _ _) rfl
      · exact (hserial.opened _ _ hcontext hopen).write (of_decide_eq_true hcall) _
      · rfl
      · exact hopen
  | applied hcontext hopen hlevel hrecord hwal hcount houtcome =>
      exact absurd (hlevel.symm.trans (hserializable hcontext)) IsolationLevel.noConfusion
  | @gotStaged handle key pending context hcontext hopen hpending =>
      have hagrees := htracks.opened hcontext hopen
      have hstaged := hagrees.staged (by rw [hserializable hcontext]; decide) key
      rw [hpending] at hstaged
      obtain ⟨op, hop, rfl⟩ := Option.map_eq_some_iff.mp hstaged.symm
      have htouch := hserial.touch hcontext hopen
        (fun other hne => unseen_get hne key (if op.value = [] then none else some op.value))
        rfl ((hserial.opened _ _ hcontext hopen).getKnown (Or.inl (by rw [hop]; rfl)))
        context rfl hopen
      obtain ⟨hlt, rfl⟩ := List.getElem?_eq_some_iff.mp hcontext
      rwa [setContext, List.set_getElem_self hlt] at htouch
  | gotFresh hcontext hopen hpending hlevel hfound =>
      rw [hserializable hcontext] at hlevel
      exact hlevel.elim IsolationLevel.noConfusion IsolationLevel.noConfusion
  | @gotCached handle key context found hcontext hopen hpending hlevel hcached =>
      have hagrees := htracks.opened hcontext hopen
      have hstaged := hagrees.staged hlevel.1 key
      rw [hpending] at hstaged
      have hread := hagrees.reads (decide_eq_true hlevel) key
      rw [hcached] at hread
      have htouch := hserial.touch hcontext hopen
        (fun other hne => unseen_get hne key (found.map Prod.fst)) rfl
        ((hserial.opened _ _ hcontext hopen).getKnown
          (Or.inr ⟨Option.map_eq_none_iff.mp hstaged.symm, hread.symm⟩)) context rfl hopen
      obtain ⟨hlt, rfl⟩ := List.getElem?_eq_some_iff.mp hcontext
      rwa [setContext, List.set_getElem_self hlt] at htouch
  | @gotFirst handle key context found hcontext hopen hpending hlevel hcached hfound =>
      have hagrees := htracks.opened hcontext hopen
      have hstaged := hagrees.staged hlevel.1 key
      rw [hpending] at hstaged
      have hread := hagrees.reads (decide_eq_true hlevel) key
      rw [hcached] at hread
      apply hserial.touch hcontext hopen (fun other hne => unseen_get hne key _) rfl
      · exact (hserial.opened _ _ hcontext hopen).getFirst (of_decide_eq_true hcall) _
          ⟨Option.map_eq_none_iff.mp hstaged.symm, hread.symm⟩
      · rfl
      · exact hopen
  | alreadyOver hending hcontext hfinished =>
      rcases hending with rfl | ⟨walOk, rfl⟩
      · exact hsame _ (fun _ => ⟨rfl, fun _ => rfl⟩) rfl
      · exact hsame _ (fun _ => ⟨rfl, fun _ => rfl⟩) rfl
  | @conflict handle walOk context hcontext hopen hfirst =>
      exact hserial.endWith hcontext hopen
        (fun _ => ⟨rfl, fun _ => rfl⟩) rfl { context with isAborted := true } rfl
        (Bool.or_true _) _ _
  | @committed handle walOk context _ hcontext hopen hfirst hpassed hwal hcount houtcome =>
      obtain rfl := houtcome answer rfl
      exact hserial.commit hcoherent hcontext hopen (htracks.opened hcontext hopen) hpassed
        (fun _ => ⟨rfl, fun _ => rfl⟩) rfl
        { (context.logged (Record.commitRecord context.trancId)).persisted with
          isCommited := true } rfl rfl _ _
  | @rolledBack handle context hcontext hopen hfirst hcount =>
      exact hserial.endWith hcontext hopen
        (fun _ => ⟨rfl, fun _ => rfl⟩) rfl { context with
          isAborted := true
          tempMap := ∅
          readMap := ∅
          operations := [] } rfl (Bool.or_true _) _ _

theorem Serial.run {view view' : View} {past events : List Event} (hserial : Serial view past)
    (hcoherent : Coherent view)
    (htracks : Session.Tracks view.contexts fun handle => sessionOf handle past)
    (hrun : Run view events view')
    (hcalls : ∀ event ∈ events, event.call.serializablePoint = true)
    (hok : ∀ event ∈ events, ∃ reply, event.outcome = .ok reply) :
    Serial view' (past ++ events) := by
  induction hrun generalizing past with
  | nil => rwa [List.append_nil]
  | @cons view next last call outcome rest hstep hrest ih =>
      have hhead := hserial.step hcoherent htracks hstep
        (hcalls ⟨call, outcome⟩ List.mem_cons_self) (hok ⟨call, outcome⟩ List.mem_cons_self)
      have hnext : Session.Tracks next.contexts fun handle =>
          sessionOf handle (past ++ [⟨call, outcome⟩]) := by
        simp only [sessionOf_snoc]
        exact htracks.step hstep
      rw [List.append_cons]
      exact ih hhead (hcoherent.step hstep) hnext
        (fun event hmem => hcalls event (List.mem_cons_of_mem _ hmem))
        (fun event hmem => hok event (List.mem_cons_of_mem _ hmem))

end View

/-- Serializability: the committed transactions, run one after the other in the order of
their commits, read what they have read, and leave what a strict read finds in the end. -/
theorem serializable (config : Config) {calls : List Call}
    (hcalls : ∀ call ∈ calls, call.serializablePoint = true)
    (hok : ∀ event ∈ (runCalls config LSM.new calls).2, ∃ reply, event.outcome = .ok reply) :
    ∃ store, serialStore (runCalls config LSM.new calls).2 = some store ∧
      ∀ key, ∃ found, (runCalls config LSM.new calls).1.strictGet key = .ok found ∧
        found.map Prod.fst = store key := by
  obtain ⟨history, hrun, hfollows⟩ := runCalls_refines config LSM.follows_new calls
  have hevents : ∀ event ∈ (runCalls config LSM.new calls).2,
      event.call.serializablePoint = true := by
    intro event hmem
    apply hcalls
    rw [← runCalls_call config LSM.new calls]
    exact List.mem_map_of_mem hmem
  have hstart : Session.Tracks View.empty.contexts fun handle => sessionOf handle [] :=
    ⟨fun _ _ hcontext _ => (by cases hcontext), fun _ _ => rfl⟩
  have hserial := View.serial_empty.run View.coherent_empty hstart hrun hevents hok
  have hcoherent := View.coherent_empty.run hrun
  rw [List.nil_append] at hserial
  obtain ⟨store, hstore, hreserved, hread⟩ := hserial.store
  refine ⟨store, hstore, fun key => ?_⟩
  by_cases hkey : key = []
  · subst hkey
    refine ⟨none, ?_, hreserved.symm⟩
    apply Engine.get_empty_key 0 hfollows.invariant
    exact fun entry hmem => hserial.markers entry
      (hfollows.reflects.subset entry (List.mem_append_right _ hmem))
  · refine ⟨_, hfollows.get 0 hkey _ true, ?_⟩
    rw [← hread key hkey, reference, reference]
    congr 3
    exact hcoherent.read_unskipped hserial.levels key 0 true

/-- The first transaction reads what the second one then writes, and finds the conflict;
the third one removes the key again. -/
def overlapping : List Call :=
  [.beginTran .serializable, .beginTran .serializable, .get 0 [1], .write 1 (.put [1] [7]) true,
    .commit 1 true, .flush, .write 0 (.put [2] [8]) true, .commit 0 true,
    .beginTran .serializable, .get 2 [1], .write 2 (.remove [1]) true, .commit 2 true]

theorem serializable_overlapping :
    commitOrder (runCalls smallConfig LSM.new overlapping).2 = [1, 2] ∧
      ∃ store, serialStore (runCalls smallConfig LSM.new overlapping).2 = some store ∧
        ∀ key, ∃ found, (runCalls smallConfig LSM.new overlapping).1.strictGet key =
          .ok found ∧ found.map Prod.fst = store key := by
  have hreturned : ∀ event ∈ (runCalls smallConfig LSM.new overlapping).2,
      event.outcome.isOk = true := by decide
  refine ⟨by decide, serializable smallConfig (by decide) fun event hmem => ?_⟩
  have hevent := hreturned event hmem
  cases houtcome : event.outcome with
  | ok reply => exact ⟨reply, rfl⟩
  | error err =>
      rw [houtcome] at hevent
      cases hevent

end KopiDb
