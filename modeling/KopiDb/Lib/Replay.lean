import Mathlib.Data.List.Basic
import Mathlib.Logic.Function.Basic

/-!
# Replaying transactions one after the other

A trace lists what a transaction did and what its reads returned.  Replaying it on a store
checks the reads.  A trace that only depends on the first reads replays on every store
that answers these in the same way.
-/

namespace KopiDb

/-- A read with its answer, or a write; `none` stands for an absent key. -/
inductive StoreOp (κ ν : Type*) where
  | get (key : κ) (found : Option ν)
  | set (key : κ) (value : Option ν)
  deriving DecidableEq

namespace StoreOp

variable {κ ν : Type*} [DecidableEq κ] [DecidableEq ν]

/-- A read goes wrong when the store holds something else than was read. -/
def run (store : κ → Option ν) : StoreOp κ ν → Option (κ → Option ν)
  | get key found => if store key = found then some store else none
  | set key value => some (Function.update store key value)

def replay (store : κ → Option ν) (ops : List (StoreOp κ ν)) : Option (κ → Option ν) :=
  ops.foldlM run store

/-- Transactions without overlap. -/
def serialRun (store : κ → Option ν) (traces : List (List (StoreOp κ ν))) :
    Option (κ → Option ν) :=
  traces.foldlM replay store

theorem serialRun_append (store : κ → Option ν) (left right : List (List (StoreOp κ ν))) :
    serialRun store (left ++ right) =
      (serialRun store left).bind fun store => serialRun store right :=
  List.foldlM_append

theorem serialRun_singleton (store : κ → Option ν) (trace : List (StoreOp κ ν)) :
    serialRun store [trace] = replay store trace := by
  change (replay store trace).bind some = replay store trace
  exact Option.bind_fun_some _

theorem replay_append_singleton (store : κ → Option ν) (ops : List (StoreOp κ ν))
    (op : StoreOp κ ν) :
    replay store (ops ++ [op]) = (replay store ops).bind fun store => op.run store := by
  rw [replay, List.foldlM_append]
  congr 1
  funext store
  change (op.run store).bind some = op.run store
  exact Option.bind_fun_some _

/-- A store behind writes that are still held back. -/
def overlay (staged : κ → Option (Option ν)) (store : κ → Option ν) (key : κ) : Option ν :=
  (staged key).getD (store key)

omit [DecidableEq ν] in
theorem overlay_update (staged : κ → Option (Option ν)) (store : κ → Option ν) (key : κ)
    (value : Option ν) :
    overlay (Function.update staged key (some value)) store =
      Function.update (overlay staged store) key value := by
  funext other
  by_cases hkey : other = key
  · subst hkey
    rw [Function.update_self, overlay, Function.update_self, Option.getD_some]
  · rw [Function.update_of_ne hkey, overlay, Function.update_of_ne hkey, overlay]

/-- The trace replays on every store that gives the first reads, and leaves its last
writes there. -/
def Faithful (staged : κ → Option (Option ν)) (firstRead : κ → Option (Option ν))
    (ops : List (StoreOp κ ν)) : Prop :=
  ∀ store : κ → Option ν, (∀ key found, firstRead key = some found → store key = found) →
    replay store ops = some (overlay staged store)

namespace Faithful

variable {staged firstRead : κ → Option (Option ν)} {ops : List (StoreOp κ ν)} {key : κ}

theorem start : Faithful (fun _ : κ => none) (fun _ => none) ([] : List (StoreOp κ ν)) :=
  fun _ _ => rfl

theorem set (hfaithful : Faithful staged firstRead ops) (key : κ) (value : Option ν) :
    Faithful (Function.update staged key (some value)) firstRead (ops ++ [.set key value]) := by
  intro store hfirst
  rw [replay_append_singleton, hfaithful store hfirst, overlay_update]
  rfl

/-- A read of what the overlay holds changes nothing. -/
private theorem get (hfaithful : Faithful staged firstRead ops) {firstRead' : κ → Option (Option ν)}
    {found : Option ν}
    (hmore : ∀ other answer, firstRead other = some answer → firstRead' other = some answer)
    (hfound : ∀ store : κ → Option ν,
      (∀ key found, firstRead' key = some found → store key = found) →
        overlay staged store key = found) :
    Faithful staged firstRead' (ops ++ [.get key found]) := by
  intro store hfirst
  rw [replay_append_singleton, hfaithful store fun other answer hanswer =>
    hfirst other answer (hmore other answer hanswer)]
  exact if_pos (hfound store hfirst)

theorem getStaged (hfaithful : Faithful staged firstRead ops) {value : Option ν}
    (hstaged : staged key = some value) :
    Faithful staged firstRead (ops ++ [.get key value]) := by
  apply hfaithful.get fun _ _ hanswer => hanswer
  intro store _
  rw [overlay, hstaged, Option.getD_some]

theorem getCached (hfaithful : Faithful staged firstRead ops) {found : Option ν}
    (hstaged : staged key = none) (hread : firstRead key = some found) :
    Faithful staged firstRead (ops ++ [.get key found]) := by
  apply hfaithful.get fun _ _ hanswer => hanswer
  intro store hfirst
  rw [overlay, hstaged, Option.getD_none]
  exact hfirst key found hread

theorem getFirst (hfaithful : Faithful staged firstRead ops) (found : Option ν)
    (hstaged : staged key = none) (hread : firstRead key = none) :
    Faithful staged (Function.update firstRead key (some found)) (ops ++ [.get key found]) := by
  apply hfaithful.get
  · intro other answer hanswer
    rw [Function.update_of_ne]
    · exact hanswer
    · rintro rfl
      exact absurd (hread.symm.trans hanswer) (Option.some_ne_none answer).symm
  · intro store hfirst
    rw [overlay, hstaged, Option.getD_none]
    exact hfirst key found (Function.update_self key (some found) firstRead)

end Faithful

end StoreOp

end KopiDb
