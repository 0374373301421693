import Mathlib.Data.Nat.Notation
import Mathlib.Data.Set.Defs

/-!
# Trees of calls

A computation ends with a value, throws, or makes a call and goes on with the reply.  A machine
gives the calls their meaning.  On a machine that may fail, a computation does what it does on
the machine that this one refines, unless a call fails.
-/

universe u v w

/-- A computation that makes calls. -/
inductive CallTree (Call : Type u) (Reply : Call → Type v) (ε : Type w) (α : Type v) where
  | pure (value : α)
  | throw (err : ε)
  | call (request : Call) (next : Reply request → CallTree Call Reply ε α)

namespace CallTree

variable {Call : Type u} {Reply : Call → Type v} {ε : Type w} {α β : Type v} {φ S T : Type*}

protected def bind :
    CallTree Call Reply ε α → (α → CallTree Call Reply ε β) → CallTree Call Reply ε β
  | pure value, f => f value
  | throw err, _ => throw err
  | call request next, f => call request fun reply => (next reply).bind f

instance : Monad (CallTree Call Reply ε) where
  pure := pure
  bind := CallTree.bind

/-- The computation that is one call. -/
def make (request : Call) : CallTree Call Reply ε (Reply request) := call request pure

def ofExcept : Except ε α → CallTree Call Reply ε α
  | .error err => throw err
  | .ok value => pure value

/-- Run on a machine that answers every call. -/
def run (machine : S → (request : Call) → S × Reply request) :
    CallTree Call Reply ε α → S → S × Except ε α
  | pure value, state => (state, .ok value)
  | throw err, state => (state, .error err)
  | call request next, state =>
      run machine (next (machine state request).2) (machine state request).1

/-- Run on a machine whose calls may fail, up to the first that does. -/
def attempt (machine : S → (request : Call) → Except φ (S × Reply request)) :
    CallTree Call Reply ε α → S → Except φ (S × Except ε α)
  | pure value, state => .ok (state, .ok value)
  | throw err, state => .ok (state, .error err)
  | call request next, state =>
      match machine state request with
      | .error err => .error err
      | .ok (state, reply) => attempt machine (next reply) state

/-- A machine whose calls fail as they are told to, the first one at `faults 0`. -/
def faulty (machine : S → (request : Call) → S × Reply request) (faults : ℕ → Option φ)
    (state : S × ℕ) (request : Call) : Except φ ((S × ℕ) × Reply request) :=
  match faults state.2 with
  | some err => .error err
  | none =>
      let (after, reply) := machine state.1 request
      .ok ((after, state.2 + 1), reply)

/-- How many calls a run makes. -/
def calls (machine : S → (request : Call) → S × Reply request) : CallTree Call Reply ε α → S → ℕ
  | pure _, _ => 0
  | throw _, _ => 0
  | call request next, state =>
      calls machine (next (machine state request).2) (machine state request).1 + 1

/-! ## Sequencing -/

section Run

variable (machine : S → (request : Call) → S × Reply request) (state : S)

@[simp]
theorem run_pure_bind (value : α) (f : α → CallTree Call Reply ε β) :
    (Pure.pure value >>= f).run machine state = (f value).run machine state := rfl

@[simp]
theorem run_throw_bind (err : ε) (f : α → CallTree Call Reply ε β) :
    (throw err >>= f).run machine state = (state, .error err) := rfl

@[simp]
theorem run_make_bind (request : Call) (f : Reply request → CallTree Call Reply ε β) :
    (make request >>= f).run machine state =
      (f (machine state request).2).run machine (machine state request).1 := rfl

theorem run_bind (tree : CallTree Call Reply ε α) (f : α → CallTree Call Reply ε β) :
    (tree >>= f).run machine state =
      match tree.run machine state with
      | (state, .error err) => (state, .error err)
      | (state, .ok value) => (f value).run machine state := by
  induction tree generalizing state with
  | pure value => rfl
  | throw err => rfl
  | call request next ih => exact ih _ _

end Run

/-! ## Faults -/

section Faults

variable {machine : S → (request : Call) → S × Reply request} {faults : ℕ → Option φ}

/-- A run gets through exactly when none of the calls that it makes fails, and does then what it
does without faults. -/
theorem attempt_faulty_eq_ok_iff {tree : CallTree Call Reply ε α} {state final : S}
    {made total : ℕ} {outcome : Except ε α} :
    tree.attempt (faulty machine faults) (state, made) = .ok ((final, total), outcome) ↔
      (∀ number < tree.calls machine state, faults (made + number) = none) ∧
        tree.run machine state = (final, outcome) ∧ made + tree.calls machine state = total := by
  induction tree generalizing state made with
  | pure value => simp [attempt, run, calls, and_right_comm, and_assoc]
  | throw err => simp [attempt, run, calls, and_right_comm, and_assoc]
  | call request next ih =>
      rw [attempt, faulty, run, calls]
      cases hfault : faults made with
      | some err =>
          refine iff_of_false (fun h => by cases h) fun ⟨hnone, _⟩ => ?_
          have hfirst := hnone 0 (Nat.succ_pos _)
          rw [Nat.add_zero, hfault] at hfirst
          cases hfirst
      | none =>
          refine (ih _).trans (and_congr ⟨fun hrest number hnumber => ?_,
            fun hall number hnumber => ?_⟩ (and_congr_right' ?_))
          · cases number with
            | zero => exact hfault
            | succ number =>
                rw [← Nat.add_assoc, Nat.add_right_comm]
                exact hrest number (Nat.lt_of_succ_lt_succ hnumber)
          · have hlater := hall (number + 1) (Nat.succ_lt_succ hnumber)
            rwa [← Nat.add_assoc, Nat.add_right_comm] at hlater
          · rw [Nat.add_right_comm, Nat.add_assoc]

end Faults

/-! ## Contracts -/

/-- What a machine may be asked for, and what it then promises of its reply. -/
structure Contract (Call : Type u) (Reply : Call → Type v) where
  asks : Call → Prop
  promises : (request : Call) → Reply request → Prop

/-- Every call is one that may be made, as long as the replies are as promised. -/
def Keeps (contract : Contract Call Reply) : CallTree Call Reply ε α → Prop
  | pure _ => True
  | throw _ => True
  | call request next => contract.asks request ∧
      ∀ reply, contract.promises request reply → (next reply).Keeps contract

namespace Keeps

variable {contract : Contract Call Reply}

@[simp]
theorem pure (value : α) : (Pure.pure value : CallTree Call Reply ε α).Keeps contract := trivial

@[simp]
theorem throw (err : ε) : (CallTree.throw err : CallTree Call Reply ε α).Keeps contract := trivial

@[simp]
theorem ofExcept (result : Except ε α) :
    (CallTree.ofExcept result : CallTree Call Reply ε α).Keeps contract := by
  cases result with
  | error err => trivial
  | ok value => trivial

theorem make_bind {request : Call} {f : Reply request → CallTree Call Reply ε β}
    (hasks : contract.asks request)
    (hnext : ∀ reply, contract.promises request reply → (f reply).Keeps contract) :
    (make request >>= f).Keeps contract :=
  ⟨hasks, hnext⟩

theorem make {request : Call} (hasks : contract.asks request) :
    (CallTree.make request : CallTree Call Reply ε (Reply request)).Keeps contract :=
  ⟨hasks, fun _ _ => trivial⟩

theorem bind {tree : CallTree Call Reply ε α} {f : α → CallTree Call Reply ε β}
    (htree : tree.Keeps contract) (hnext : ∀ value, (f value).Keeps contract) :
    (tree >>= f).Keeps contract := by
  induction tree with
  | pure value => exact hnext value
  | throw err => trivial
  | call request next ih =>
      exact ⟨htree.1, fun reply hreply => ih reply (htree.2 reply hreply)⟩

end Keeps

/-! ## Refinement -/

/-- Whenever a call that may be made does not fail, its reply is that of the specification, and
the states stay related. -/
structure Refines (contract : Contract Call Reply) (rel : S → T → Prop)
    (machine : S → (request : Call) → Except φ (S × Reply request))
    (spec : T → (request : Call) → T × Reply request) : Prop where
  promised : ∀ abstract request, contract.promises request (spec abstract request).2
  step : ∀ {concrete abstract request next}, rel concrete abstract → contract.asks request →
    machine concrete request = .ok next →
      next.2 = (spec abstract request).2 ∧ rel next.1 (spec abstract request).1

/-- From one call to all calls of a computation. -/
theorem Refines.attempt {contract : Contract Call Reply} {rel : S → T → Prop}
    {machine : S → (request : Call) → Except φ (S × Reply request)}
    {spec : T → (request : Call) → T × Reply request}
    (hrefines : Refines contract rel machine spec) {tree : CallTree Call Reply ε α}
    (hkeeps : tree.Keeps contract) {concrete final : S} {abstract : T} {outcome : Except ε α}
    (hrel : rel concrete abstract) (hrun : tree.attempt machine concrete = .ok (final, outcome)) :
    outcome = (tree.run spec abstract).2 ∧ rel final (tree.run spec abstract).1 := by
  induction tree generalizing concrete abstract with
  | pure value =>
      obtain ⟨rfl, rfl⟩ := Prod.mk.inj (Except.ok.inj hrun)
      exact ⟨rfl, hrel⟩
  | throw err =>
      obtain ⟨rfl, rfl⟩ := Prod.mk.inj (Except.ok.inj hrun)
      exact ⟨rfl, hrel⟩
  | call request next ih =>
      rw [CallTree.attempt] at hrun
      cases hstep : machine concrete request with
      | error err =>
          rw [hstep] at hrun
          cases hrun
      | ok after =>
          rw [hstep] at hrun
          obtain ⟨state, reply⟩ := after
          obtain ⟨rfl, hnext⟩ := hrefines.step hrel hkeeps.1 hstep
          exact ih _ (hkeeps.2 _ (hrefines.promised abstract request)) hnext hrun

end CallTree
