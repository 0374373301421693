import Mathlib

/-!
# Cursors

A cursor is an iterator object: it stands on a record or at its end, and one
step moves it forward.  Every cursor carries a count that a step from a record
decreases, so loops over a cursor end, and a cursor is described by the list of
records it still yields.
-/

namespace KopiDb

/-- Iterators over records of type `α`. -/
class Cursor (ι : Type*) (α : outParam Type*) where
  /-- The record under the cursor, `none` at the end. -/
  current? : ι → Option α
  next : ι → ι
  /-- An upper bound on the number of records still to come. -/
  remaining : ι → ℕ
  remaining_next : ∀ {it : ι} {record : α}, current? it = some record →
    remaining (next it) < remaining it

namespace Cursor

variable {ι α : Type*} [Cursor ι α]

/-- At most `fuel` rounds of the loop that takes a record and steps. -/
def take : ℕ → ι → List α
  | 0, _ => []
  | fuel + 1, it =>
      match current? it with
      | none => []
      | some record => record :: take fuel (next it)

/-- All records the cursor still yields. -/
def toList (it : ι) : List α := take (remaining it) it

private theorem take_eq_of_le {fuel fuel' : ℕ} {it : ι}
    (hfuel : remaining it ≤ fuel) (hfuel' : remaining it ≤ fuel') :
    take fuel it = take fuel' it := by
  induction fuel generalizing fuel' it with
  | zero =>
      cases hcurrent : current? it with
      | none => cases fuel' <;> simp [take, hcurrent]
      | some record =>
          have := remaining_next hcurrent
          omega
  | succ fuel ih =>
      cases hcurrent : current? it with
      | none => cases fuel' <;> simp [take, hcurrent]
      | some record =>
          have hnext := remaining_next hcurrent
          cases fuel' with
          | zero => omega
          | succ fuel' =>
              have htail : take fuel (next it) = take fuel' (next it) :=
                ih (by omega) (by omega)
              simp [take, hcurrent, htail]

theorem toList_of_none {it : ι} (hcurrent : current? it = none) :
    toList it = [] := by
  unfold toList
  cases remaining it <;> simp [take, hcurrent]

theorem toList_of_some {it : ι} {record : α} (hcurrent : current? it = some record) :
    toList it = record :: toList (next it) := by
  have hnext := remaining_next hcurrent
  obtain ⟨fuel, hfuel⟩ : ∃ fuel, remaining it = fuel + 1 :=
    ⟨remaining it - 1, by omega⟩
  have htail : take fuel (next it) = take (remaining (next it)) (next it) :=
    take_eq_of_le (by omega) le_rfl
  simp [toList, hfuel, take, hcurrent, htail]

/-- The record under the cursor is the first one it yields. -/
theorem current?_eq_head? (it : ι) : current? it = (toList it).head? := by
  cases hcurrent : current? it with
  | none => rw [toList_of_none hcurrent, List.head?_nil]
  | some record => rw [toList_of_some hcurrent, List.head?_cons]

theorem toList_eq_nil_iff {it : ι} : toList it = [] ↔ current? it = none := by
  rw [current?_eq_head?, List.head?_eq_none_iff]

theorem toList_eq_cons {it : ι} {record : α} {rest : List α}
    (hlist : toList it = record :: rest) :
    current? it = some record ∧ toList (next it) = rest := by
  have hcurrent : current? it = some record := by
    rw [current?_eq_head?, hlist, List.head?_cons]
  rw [toList_of_some hcurrent, List.cons.injEq] at hlist
  exact ⟨hcurrent, hlist.2⟩

/-- The records that a loop over the cursor takes, one after the other; after the last
one it is at its end. -/
theorem current?_iterate {it : ι} {steps : ℕ} (hsteps : steps ≤ (toList it).length) :
    current? (next^[steps] it) = (toList it)[steps]? := by
  induction steps generalizing it with
  | zero => rw [Function.iterate_zero_apply, current?_eq_head?, List.head?_eq_getElem?]
  | succ steps ih =>
      cases hcurrent : current? it with
      | none =>
          rw [toList_of_none hcurrent] at hsteps
          simp at hsteps
      | some record =>
          rw [toList_of_some hcurrent, List.length_cons] at hsteps
          rw [Function.iterate_succ_apply, ih (Nat.le_of_succ_le_succ hsteps),
            toList_of_some hcurrent, List.getElem?_cons_succ]

/-- A map that commutes with the operations keeps the records. -/
theorem toList_map {ι' : Type*} [Cursor ι' α] (f : ι → ι')
    (hcurrent : ∀ it, current? (f it) = current? it)
    (hnext : ∀ it, f (next it) = next (f it)) (it : ι) : toList (f it) = toList it := by
  induction hlist : toList it generalizing it with
  | nil =>
      rw [toList_eq_nil_iff] at hlist ⊢
      rw [hcurrent, hlist]
  | cons record rest ih =>
      obtain ⟨hrecord, hrest⟩ := toList_eq_cons hlist
      rw [toList_of_some ((hcurrent it).trans hrecord), ← hnext, ih (next it) hrest]

/-! ## Skipping records -/

/-- At most `fuel` rounds of the loop that steps while the record satisfies
`skip`. -/
def advanceWhile (skip : α → Bool) : ℕ → ι → ι
  | 0, it => it
  | fuel + 1, it =>
      match current? it with
      | none => it
      | some record => if skip record then advanceWhile skip fuel (next it) else it

/-- Step while the record under the cursor satisfies `skip`. -/
def skipWhile (skip : α → Bool) (it : ι) : ι := advanceWhile skip (remaining it) it

private theorem toList_advanceWhile (skip : α → Bool) {fuel : ℕ} {it : ι}
    (hfuel : remaining it ≤ fuel) :
    toList (advanceWhile skip fuel it) = (toList it).dropWhile skip := by
  induction fuel generalizing it with
  | zero =>
      cases hcurrent : current? it with
      | none => simp [advanceWhile, toList_of_none hcurrent]
      | some record =>
          have := remaining_next hcurrent
          omega
  | succ fuel ih =>
      cases hcurrent : current? it with
      | none => simp [advanceWhile, hcurrent, toList_of_none hcurrent]
      | some record =>
          have hnext := remaining_next hcurrent
          rw [toList_of_some hcurrent]
          by_cases hskip : skip record
          · simp [advanceWhile, hcurrent, hskip, ih (by omega : remaining (next it) ≤ fuel)]
          · simp [advanceWhile, hcurrent, hskip, toList_of_some hcurrent]

/-- The loop ends with the guard false: what is left starts at the first record
that does not satisfy `skip`. -/
@[simp]
theorem toList_skipWhile (skip : α → Bool) (it : ι) :
    toList (skipWhile skip it) = (toList it).dropWhile skip :=
  toList_advanceWhile skip le_rfl

private theorem remaining_advanceWhile_le (skip : α → Bool) (fuel : ℕ) (it : ι) :
    remaining (advanceWhile skip fuel it) ≤ remaining it := by
  induction fuel generalizing it with
  | zero => exact le_rfl
  | succ fuel ih =>
      cases hcurrent : current? it with
      | none => simp [advanceWhile, hcurrent]
      | some record =>
          have hnext := remaining_next hcurrent
          by_cases hskip : skip record
          · simp only [advanceWhile, hcurrent, hskip, if_true]
            exact (ih _).trans hnext.le
          · simp [advanceWhile, hcurrent, hskip]

theorem remaining_skipWhile_le (skip : α → Bool) (it : ι) :
    remaining (skipWhile skip it) ≤ remaining it :=
  remaining_advanceWhile_le skip _ it

/-- Skipping the record under the cursor makes progress. -/
theorem remaining_skipWhile_lt (skip : α → Bool) {it : ι} {record : α}
    (hcurrent : current? it = some record) (hskip : skip record) :
    remaining (skipWhile skip it) < remaining it := by
  have hnext := remaining_next hcurrent
  obtain ⟨fuel, hfuel⟩ : ∃ fuel, remaining it = fuel + 1 :=
    ⟨remaining it - 1, by omega⟩
  have hstep : skipWhile skip it = advanceWhile skip fuel (next it) := by
    simp [skipWhile, hfuel, advanceWhile, hcurrent, hskip]
  rw [hstep]
  exact (remaining_advanceWhile_le skip fuel _).trans_lt hnext

/-! ## Loops with a look at the following record -/

/-- The list form of a loop whose body sees a record and the one after it. -/
def foldLookahead {σ ε : Type*} (body : σ → α → Option α → Except ε σ) :
    List α → σ → Except ε σ
  | [], state => .ok state
  | record :: rest, state =>
      match body state record rest.head? with
      | .ok state' => foldLookahead body rest state'
      | .error err => .error err

/-- At most `fuel` rounds of the loop that takes a record, steps, and runs the
body on the record and the one the cursor has reached. -/
def loop {σ ε : Type*} (body : σ → α → Option α → Except ε σ) :
    ℕ → ι → σ → Except ε σ
  | 0, _, state => .ok state
  | fuel + 1, it, state =>
      match current? it with
      | none => .ok state
      | some record =>
          match body state record (current? (next it)) with
          | .ok state' => loop body fuel (next it) state'
          | .error err => .error err

def forEach {σ ε : Type*} (body : σ → α → Option α → Except ε σ) (it : ι)
    (state : σ) : Except ε σ :=
  loop body (remaining it) it state

private theorem loop_eq_foldLookahead {σ ε : Type*}
    (body : σ → α → Option α → Except ε σ) {fuel : ℕ} {it : ι}
    (hfuel : remaining it ≤ fuel) (state : σ) :
    loop body fuel it state = foldLookahead body (toList it) state := by
  induction fuel generalizing it state with
  | zero =>
      cases hcurrent : current? it with
      | none => simp [loop, foldLookahead, toList_of_none hcurrent]
      | some record =>
          have := remaining_next hcurrent
          omega
  | succ fuel ih =>
      cases hcurrent : current? it with
      | none => simp [loop, hcurrent, toList_of_none hcurrent, foldLookahead]
      | some record =>
          have hnext := remaining_next hcurrent
          have htail := fun state' =>
            ih (by omega : remaining (next it) ≤ fuel) state'
          simp only [loop, hcurrent, toList_of_some hcurrent, foldLookahead,
            current?_eq_head? (next it), htail]

/-- A loop over a cursor runs its body over the records the cursor yields. -/
theorem forEach_eq_foldLookahead {σ ε : Type*}
    (body : σ → α → Option α → Except ε σ) (it : ι) (state : σ) :
    forEach body it state = foldLookahead body (toList it) state :=
  loop_eq_foldLookahead body le_rfl state

end Cursor

end KopiDb
