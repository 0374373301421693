import KopiDb.Coherent

/-!
# Sessions

What a transaction has written and read so far can be told from the calls on its handle
alone.  The staged writes and the read cache of an open context agree with it.
-/

namespace KopiDb

/-- The latest write of every key, and what the first read of a key returned that found no
write of the transaction itself. -/
structure Session where
  staged : Bytes → Option WriteOp
  firstRead : Bytes → Option (Option Bytes)

namespace Session

def start : Session := ⟨fun _ => none, fun _ => none⟩

def observe (handle : ℕ) (session : Session) (event : Event) : Session :=
  match event.call, event.outcome with
  | .write other op _, .ok .done =>
      if other = handle then
        { session with staged := Function.update session.staged op.key (some op) }
      else session
  | .get other key, .ok (.value found) =>
      if other = handle ∧ session.staged key = none ∧ session.firstRead key = none then
        { session with firstRead := Function.update session.firstRead key (some found) }
      else session
  | _, _ => session

end Session

def sessionOf (handle : ℕ) (events : List Event) : Session :=
  events.foldl (Session.observe handle) Session.start

/-- The levels that keep the first read of a key. -/
def TranContext.caching (context : TranContext) : Bool :=
  decide (context.isolationLevel ≠ .readUnopCommitted ∧
    context.isolationLevel ≠ .readOpCommitted)

namespace Session

/-- The maps of a context hold what the session says. -/
structure Agrees (context : TranContext) (session : Session) : Prop where
  staged : context.isolationLevel ≠ .readUnopCommitted → ∀ key,
    context.tempMap.find? key = (session.staged key).map WriteOp.value
  reads : context.caching = true → ∀ key,
    (context.readMap.find? key).map (Option.map Prod.fst) = session.firstRead key

/-- The contexts that did not roll back agree with their sessions. -/
structure Tracks (contexts : List TranContext) (sessions : ℕ → Session) : Prop where
  kept : ∀ handle context, contexts[handle]? = some context → context.isAborted = false →
    Agrees context (sessions handle)
  unused : ∀ handle, contexts.length ≤ handle → sessions handle = start

variable {contexts : List TranContext} {sessions : ℕ → Session} {handle : ℕ}

theorem Tracks.opened (htracks : Tracks contexts sessions) {context : TranContext}
    (hcontext : contexts[handle]? = some context) (hopen : context.finished = false) :
    Agrees context (sessions handle) :=
  htracks.kept handle context hcontext (Bool.or_eq_false_iff.mp hopen).2

@[simp]
theorem observe_error (session : Session) (call : Call) (err : Err) :
    observe handle session ⟨call, .error err⟩ = session := by
  cases call <;> rfl

theorem observe_write (session : Session) (op : WriteOp) (walOk : Bool) :
    observe handle session ⟨.write handle op walOk, .ok .done⟩ =
      { session with staged := Function.update session.staged op.key (some op) } :=
  if_pos rfl

theorem observe_write_of_ne {other : ℕ} (hne : other ≠ handle) (session : Session)
    (op : WriteOp) (walOk : Bool) (outcome : Except Err Reply) :
    observe handle session ⟨.write other op walOk, outcome⟩ = session := by
  unfold observe
  split
  next hcall _ =>
      obtain ⟨rfl, -, -⟩ := Call.write.inj hcall
      exact if_neg hne
  next hcall _ => cases hcall
  next => rfl

theorem observe_get_of_ne {other : ℕ} (hne : other ≠ handle) (session : Session)
    (key : Bytes) (outcome : Except Err Reply) :
    observe handle session ⟨.get other key, outcome⟩ = session := by
  unfold observe
  split
  next hcall _ => cases hcall
  next hcall _ =>
      obtain ⟨rfl, -⟩ := Call.get.inj hcall
      exact if_neg fun hall => hne hall.1
  next => rfl

/-- Calls that neither write nor read in a transaction. -/
private def Silent : Call → Prop
  | .write _ _ _ | .get _ _ => False
  | _ => True

private theorem observe_silent {call : Call} (hsilent : Silent call) (session : Session)
    (outcome : Except Err Reply) : observe handle session ⟨call, outcome⟩ = session := by
  cases call with
  | write other op walOk => exact hsilent.elim
  | get other key => exact hsilent.elim
  | _ => rfl

/-- Only the context of one handle and its session have changed. -/
private theorem Tracks.set (htracks : Tracks contexts sessions) {context : TranContext}
    (hcontext : contexts[handle]? = some context) (context' : TranContext)
    {sessions' : ℕ → Session} (hother : ∀ other, other ≠ handle → sessions' other = sessions other)
    (hself : context'.isAborted = false → Agrees context' (sessions' handle)) :
    Tracks (contexts.set handle context') sessions' where
  kept other found hfound hopen := by
    by_cases hne : other = handle
    · subst hne
      have hlt := (List.getElem?_eq_some_iff.mp hcontext).1
      rw [List.getElem?_set_self hlt] at hfound
      obtain rfl := Option.some.inj hfound
      exact hself hopen
    · rw [List.getElem?_set_ne (Ne.symm hne)] at hfound
      rw [hother other hne]
      exact htracks.kept other found hfound hopen
  unused other hle := by
    rw [List.length_set] at hle
    have hlt := (List.getElem?_eq_some_iff.mp hcontext).1
    rw [hother other (hlt.trans_le hle).ne']
    exact htracks.unused other hle

/-- Only the session of one handle has changed. -/
private theorem Tracks.stay (htracks : Tracks contexts sessions) {context : TranContext}
    (hcontext : contexts[handle]? = some context) {sessions' : ℕ → Session}
    (hother : ∀ other, other ≠ handle → sessions' other = sessions other)
    (hself : Agrees context (sessions' handle)) : Tracks contexts sessions' := by
  have hset := htracks.set hcontext context hother fun _ => hself
  obtain ⟨hlt, rfl⟩ := List.getElem?_eq_some_iff.mp hcontext
  rwa [List.set_getElem_self hlt] at hset

/-- A read that finds nothing new leaves the session as it is. -/
theorem observe_get_known {session : Session} {key : Bytes} {found : Option Bytes}
    (hknown : ¬(session.staged key = none ∧ session.firstRead key = none)) :
    observe handle session ⟨.get handle key, .ok (.value found)⟩ = session :=
  if_neg fun hall => hknown hall.2

theorem observe_get_new {session : Session} {key : Bytes} {found : Option Bytes}
    (hnew : session.staged key = none ∧ session.firstRead key = none) :
    observe handle session ⟨.get handle key, .ok (.value found)⟩ =
      { session with firstRead := Function.update session.firstRead key (some found) } :=
  if_pos ⟨rfl, hnew⟩

private theorem staged_observe_get (session : Session) (key : Bytes) (found : Option Bytes) :
    (observe handle session ⟨.get handle key, .ok (.value found)⟩).staged = session.staged := by
  unfold observe
  dsimp only
  split <;> rfl

/-- Every step keeps the contexts and the sessions together. -/
theorem Tracks.step {view view' : View} {call : Call} {outcome : Except Err Reply}
    (htracks : Tracks view.contexts sessions) (hstep : View.Step view call outcome view') :
    Tracks view'.contexts fun handle => (sessions handle).observe handle ⟨call, outcome⟩ := by
  have hsilent : ∀ (call : Call) (outcome : Except Err Reply), Silent call →
      (fun handle => (sessions handle).observe handle ⟨call, outcome⟩) = sessions := by
    intro call outcome hcall
    funext handle
    exact observe_silent hcall _ _
  have herror : ∀ (call : Call) (err : Err),
      (fun handle => (sessions handle).observe handle ⟨call, .error err⟩) = sessions := by
    intro call err
    funext handle
    exact observe_error _ _ _
  cases hstep with
  | maintained hcall =>
      rw [hsilent call outcome (by cases call <;> trivial)]
      exact htracks
  | refused =>
      rw [herror]
      exact htracks
  | plain hcall =>
      rw [hsilent call outcome (by cases call <;> trivial)]
      exact htracks
  | begun isolationLevel =>
      rw [hsilent (.beginTran isolationLevel) _ trivial]
      refine ⟨fun handle context hcontext hopen => ?_, fun handle hle => ?_⟩
      · rw [List.getElem?_append] at hcontext
        split_ifs at hcontext with hlt
        · exact htracks.kept handle context hcontext hopen
        · rw [htracks.unused handle (not_lt.mp hlt)]
          rw [List.getElem?_singleton] at hcontext
          split_ifs at hcontext
          obtain rfl := Option.some.inj hcontext
          exact ⟨fun _ _ => rfl, fun _ _ => rfl⟩
      · apply htracks.unused
        rw [List.length_append] at hle
        exact (Nat.le_add_right _ _).trans hle
  | staged hcontext hopen hlevel hrecord =>
      have hagrees := htracks.opened hcontext hopen
      apply htracks.set hcontext
      · exact fun other hne => observe_write_of_ne hne.symm _ _ _ _
      · intro _
        rw [observe_write]
        constructor
        · intro hlevel key
          dsimp only
          rw [OrdMap.find?_insert, Function.update_apply]
          split_ifs
          · rfl
          · exact hagrees.staged hlevel key
        · exact hagrees.reads
  | unlogged hcontext hopen hlevel hrecord hwal =>
      rw [herror]
      have hagrees := htracks.opened hcontext hopen
      exact htracks.set hcontext _ (fun _ _ => rfl) fun _ => ⟨hagrees.staged, hagrees.reads⟩
  | applied hcontext hopen hlevel hrecord hwal hcount houtcome =>
      apply htracks.set hcontext
      · exact fun other hne => observe_write_of_ne hne.symm _ _ _ _
      · intro _
        refine ⟨fun hne => absurd hlevel hne, fun hcaching => ?_⟩
        exact absurd hlevel (of_decide_eq_true hcaching).1
  | @gotStaged handle key pending context hcontext hopen hpending =>
      have hagrees := htracks.opened hcontext hopen
      apply htracks.stay hcontext
      · exact fun other hne => observe_get_of_ne hne.symm _ _ _
      · refine ⟨by rw [staged_observe_get]; exact hagrees.staged, fun hcaching => ?_⟩
        rw [observe_get_known]
        · exact hagrees.reads hcaching
        · rintro ⟨hnone, -⟩
          have hstaged := hagrees.staged (of_decide_eq_true hcaching).1 key
          rw [hpending, hnone] at hstaged
          cases hstaged
  | @gotFresh handle key context found hcontext hopen hpending hlevel hfound =>
      have hagrees := htracks.opened hcontext hopen
      apply htracks.stay hcontext
      · exact fun other hne => observe_get_of_ne hne.symm _ _ _
      · refine ⟨by rw [staged_observe_get]; exact hagrees.staged, fun hcaching => ?_⟩
        have hcaching := of_decide_eq_true hcaching
        rcases hlevel with hlevel | hlevel
        · exact absurd hlevel hcaching.1
        · exact absurd hlevel hcaching.2
  | @gotCached handle key context found hcontext hopen hpending hlevel hcached =>
      have hagrees := htracks.opened hcontext hopen
      apply htracks.stay hcontext
      · exact fun other hne => observe_get_of_ne hne.symm _ _ _
      · have hread := hagrees.reads (decide_eq_true hlevel) key
        rw [hcached] at hread
        rw [observe_get_known]
        · exact hagrees
        · rintro ⟨-, hnone⟩
          rw [hnone] at hread
          cases hread
  | @gotFirst handle key context found hcontext hopen hpending hlevel hcached hfound =>
      have hagrees := htracks.opened hcontext hopen
      apply htracks.set hcontext
      · exact fun other hne => observe_get_of_ne hne.symm _ _ _
      · intro _
        refine ⟨by rw [staged_observe_get]; exact hagrees.staged, fun hcaching other => ?_⟩
        have hread := hagrees.reads hcaching
        have hnone : (sessions handle).staged key = none ∧
            (sessions handle).firstRead key = none := by
          refine ⟨?_, ?_⟩
          · have hstaged := hagrees.staged hlevel.1 key
            rw [hpending] at hstaged
            exact Option.map_eq_none_iff.mp hstaged.symm
          · rw [← hread key, hcached]
            rfl
        rw [observe_get_new hnone]
        dsimp only
        rw [OrdMap.find?_insert, Function.update_apply]
        split_ifs
        · rfl
        · exact hread other
  | alreadyOver hcall hcontext hfinished =>
      rw [hsilent call _ (by rcases hcall with rfl | ⟨walOk, rfl⟩ <;> trivial)]
      exact htracks
  | @conflict handle walOk _ hcontext hopen hfirst =>
      rw [hsilent (.commit handle walOk) _ trivial]
      exact htracks.set hcontext _ (fun _ _ => rfl) fun hkept => by cases hkept
  | commitUnlogged hcontext hopen hfirst hwal =>
      rw [herror]
      have hagrees := htracks.opened hcontext hopen
      exact htracks.set hcontext _ (fun _ _ => rfl) fun _ => ⟨hagrees.staged, hagrees.reads⟩
  | @committed handle walOk _ _ hcontext hopen hfirst hpassed hwal hcount houtcome =>
      rw [hsilent (.commit handle walOk) _ trivial]
      have hagrees := htracks.opened hcontext hopen
      exact htracks.set hcontext _ (fun _ _ => rfl) fun _ => ⟨hagrees.staged, hagrees.reads⟩
  | @rolledBack handle _ hcontext hopen hfirst hcount =>
      rw [hsilent (.abort handle) _ trivial]
      exact htracks.set hcontext _ (fun _ _ => rfl) fun hkept => by cases hkept

theorem Tracks.run {view view' : View} {events : List Event}
    (htracks : Tracks view.contexts sessions) (hrun : View.Run view events view') :
    Tracks view'.contexts fun handle => events.foldl (observe handle) (sessions handle) := by
  induction hrun generalizing sessions with
  | nil => exact htracks
  | cons hstep hrest ih => exact ih (htracks.step hstep)

end Session

end KopiDb
