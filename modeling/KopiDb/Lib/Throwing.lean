import KopiDb.Lib.Chain

/-!
# Cursors whose steps may throw

A step of a cursor may read from somewhere and throw.  What a step reads is given beside
the cursor; a step that does not throw is the step of the cursor.  A loop over a chain of
sources throws exactly if opening one of the sources or a loop over one of them does.
-/

namespace KopiDb

namespace Cursor

variable {ι α ε : Type} [Cursor ι α] (reads : ι → Except ε Unit)

/-- A step that first reads what it needs. -/
def tryNext (it : ι) : Except ε ι := do
  reads it
  return next it

/-- A loop from a position takes the records, one step after each of them, and ends. -/
inductive Loop : ι → List α → Prop where
  | done {it : ι} : current? it = none → Loop it []
  | step {it following : ι} {record : α} {rest : List α} : current? it = some record →
      tryNext reads it = .ok following → Loop following rest → Loop it (record :: rest)

/-- At most `fuel` rounds of that loop. -/
def tryTake : ℕ → ι → Except ε (List α)
  | 0, _ => .ok []
  | fuel + 1, it =>
      match current? it with
      | none => .ok []
      | some record => do
          let following ← tryNext reads it
          let rest ← tryTake fuel following
          return record :: rest

/-- The records of the whole loop, or what one of its steps throws. -/
def tryToList (it : ι) : Except ε (List α) := tryTake reads (remaining it) it

theorem tryTake_eq_of_le {fuel fuel' : ℕ} {it : ι} (hfuel : remaining it ≤ fuel)
    (hfuel' : remaining it ≤ fuel') : tryTake reads fuel it = tryTake reads fuel' it := by
  induction fuel generalizing fuel' it with
  | zero =>
      cases hcurrent : current? it with
      | none => cases fuel' <;> simp [tryTake, hcurrent]
      | some record =>
          have := remaining_next hcurrent
          omega
  | succ fuel ih =>
      cases hcurrent : current? it with
      | none => cases fuel' <;> simp [tryTake, hcurrent]
      | some record =>
          have hnext := remaining_next hcurrent
          cases fuel' with
          | zero => omega
          | succ fuel' =>
              have htail : tryTake reads fuel (next it) = tryTake reads fuel' (next it) :=
                ih (by omega) (by omega)
              cases hreads : reads it with
              | error err => simp only [tryTake, hcurrent, tryNext, hreads, bind, Except.bind]
              | ok done =>
                  simp only [tryTake, hcurrent, tryNext, hreads, bind, Except.bind, pure,
                    Except.pure, htail]

variable {reads}

theorem tryToList_of_none {it : ι} (hcurrent : current? it = none) :
    tryToList reads it = .ok [] := by
  unfold tryToList
  cases remaining it <;> simp [tryTake, hcurrent]

theorem tryToList_of_some {it : ι} {record : α} (hcurrent : current? it = some record) :
    tryToList reads it = do
      reads it
      let rest ← tryToList reads (next it)
      return record :: rest := by
  have hnext := remaining_next hcurrent
  obtain ⟨fuel, hfuel⟩ : ∃ fuel, remaining it = fuel + 1 := ⟨remaining it - 1, by omega⟩
  have htail : tryTake reads fuel (next it) = tryToList reads (next it) :=
    tryTake_eq_of_le reads (by omega) le_rfl
  rw [tryToList, hfuel]
  cases hreads : reads it with
  | error err => simp only [tryTake, hcurrent, tryNext, hreads, bind, Except.bind]
  | ok done =>
      simp only [tryTake, hcurrent, tryNext, hreads, bind, Except.bind, pure, Except.pure, htail]

/-- The loop as a relation and as a function. -/
theorem loop_iff {it : ι} {records : List α} :
    Loop reads it records ↔ tryToList reads it = .ok records := by
  constructor
  · intro hloop
    induction hloop with
    | done hcurrent => exact tryToList_of_none hcurrent
    | @step it following record rest hcurrent hnext _ ih =>
        rw [tryToList_of_some hcurrent]
        cases hreads : reads it with
        | error err =>
            rw [tryNext, hreads] at hnext
            cases hnext
        | ok done =>
            rw [tryNext, hreads] at hnext
            obtain rfl := Except.ok.inj hnext
            simp only [bind, Except.bind, pure, Except.pure, ih]
  · intro hlist
    induction hremaining : remaining it using Nat.strong_induction_on generalizing it records with
    | _ bound ih =>
        cases hcurrent : current? it with
        | none =>
            rw [tryToList_of_none hcurrent] at hlist
            obtain rfl := Except.ok.inj hlist
            exact Loop.done hcurrent
        | some record =>
            have hless := remaining_next hcurrent
            rw [tryToList_of_some hcurrent] at hlist
            cases hreads : reads it with
            | error err =>
                rw [hreads] at hlist
                cases hlist
            | ok done =>
                cases hrest : tryToList reads (next it) with
                | error err =>
                    rw [hreads, hrest] at hlist
                    cases hlist
                | ok rest =>
                    rw [hreads, hrest] at hlist
                    obtain rfl := Except.ok.inj hlist
                    refine Loop.step hcurrent ?_ (ih _ (hremaining ▸ hless) hrest rfl)
                    rw [tryNext, hreads]
                    rfl

/-- A loop that does not throw takes the records of the cursor. -/
theorem Loop.eq_toList {it : ι} {records : List α} (hloop : Loop reads it records) :
    records = toList it := by
  induction hloop with
  | done hcurrent => rw [toList_of_none hcurrent]
  | @step it following record rest hcurrent hnext _ ih =>
      cases hreads : reads it with
      | error err =>
          rw [tryNext, hreads] at hnext
          cases hnext
      | ok done =>
          rw [tryNext, hreads] at hnext
          obtain rfl := Except.ok.inj hnext
          rw [toList_of_some hcurrent, ih]

/-- Steps that never throw. -/
theorem tryToList_of_reads (hreads : ∀ it, reads it = .ok ()) (it : ι) :
    tryToList reads it = .ok (toList it) := by
  induction hlist : toList it generalizing it with
  | nil => rw [tryToList_of_none (toList_eq_nil_iff.mp hlist)]
  | cons record rest ih =>
      obtain ⟨hcurrent, hrest⟩ := toList_eq_cons hlist
      rw [tryToList_of_some hcurrent, hreads, ih (next it) hrest]
      rfl

/-- A map that commutes with the operations keeps the loop. -/
theorem tryToList_map {ι' : Type} [Cursor ι' α] {reads' : ι' → Except ε Unit} (f : ι → ι')
    (hcurrent : ∀ it, current? (f it) = current? it)
    (hnext : ∀ it, f (next it) = next (f it)) (hreads : ∀ it, reads' (f it) = reads it) (it : ι) :
    tryToList reads' (f it) = tryToList reads it := by
  induction hlist : toList it generalizing it with
  | nil =>
      have hnone := toList_eq_nil_iff.mp hlist
      rw [tryToList_of_none hnone, tryToList_of_none ((hcurrent it).trans hnone)]
  | cons record rest ih =>
      obtain ⟨hrecord, hrest⟩ := toList_eq_cons hlist
      rw [tryToList_of_some hrecord, tryToList_of_some ((hcurrent it).trans hrecord), hreads,
        ← hnext, ih (next it) hrest]

end Cursor

namespace Chain

open Cursor (tryToList tryToList_of_none tryToList_of_some)

variable {σ ι α ε : Type} [Cursor ι α] (begin : σ → ι) (opens : σ → ℕ → Except ε Unit)
  (reads : ι → Except ε Unit)

/-- What opening sources reads until one of them yields a record. -/
def findReads : List σ → ℕ → Except ε Unit
  | [], _ => .ok ()
  | source :: rest, idx => do
      opens source idx
      match Cursor.current? (begin source) with
      | none => findReads rest (idx + 1)
      | some _ => return ()

/-- What a step reads: in the open source, and where it is exhausted in those behind it. -/
def nextReads (chain : Chain σ ι) : Except ε Unit :=
  match chain.cursor with
  | none => .ok ()
  | some cursor => do
      reads cursor
      match Cursor.current? (Cursor.next cursor) with
      | none => findReads chain.begin opens (chain.sources.drop (chain.index + 1)) (chain.index + 1)
      | some _ => return ()

/-- The chain at its first record. -/
def tryStart (sources : List σ) : Except ε (Chain σ ι) := do
  findReads begin opens sources 0
  return start begin sources

/-- Every source is opened and walked to its end. -/
def visit : List σ → ℕ → Except ε (List α)
  | [], _ => .ok []
  | source :: rest, idx => do
      opens source idx
      let records ← tryToList reads (begin source)
      let others ← visit rest (idx + 1)
      return records ++ others

variable {begin opens reads}

/-- A loop that stands in a source walks that source and then visits the others. -/
private theorem tryToList_of_cursor {chain : Chain σ ι} {cursor : ι}
    (hcursor : chain.cursor = some cursor) (hcurrent : Cursor.current? cursor ≠ none)
    {others : Except ε (List α)}
    (hothers : (do
      findReads chain.begin opens (chain.sources.drop (chain.index + 1)) (chain.index + 1)
      tryToList (nextReads opens reads) (chain.enter (chain.index + 1))) = others) :
    tryToList (nextReads opens reads) chain = do
      let records ← tryToList reads cursor
      let others ← others
      return records ++ others := by
  induction hlist : Cursor.toList cursor generalizing chain cursor with
  | nil => exact absurd (Cursor.toList_eq_nil_iff.mp hlist) hcurrent
  | cons record rest ih =>
      obtain ⟨hrecord, hrest⟩ := Cursor.toList_eq_cons hlist
      have hchain : Cursor.current? chain = some record := by
        rw [cursor_current?, current?, hcursor, Option.bind_some, hrecord]
      rw [tryToList_of_some hchain, tryToList_of_some hrecord, nextReads, hcursor, cursor_next]
      dsimp only
      cases hreads : reads cursor with
      | error err => rfl
      | ok done =>
          cases hnext : Cursor.current? (Cursor.next cursor) with
          | none =>
              rw [tryToList_of_none hnext, next_of_none hcursor hnext, ← hothers]
              dsimp only [bind, Except.bind, pure, Except.pure]
              cases findReads chain.begin opens (chain.sources.drop (chain.index + 1))
                  (chain.index + 1) with
              | error err => rfl
              | ok done => rfl
          | some following =>
              have hmore : Cursor.current? (Cursor.next cursor) ≠ none := by
                rw [hnext]
                exact Option.some_ne_none _
              have hput := chain.index_lt (by rw [hcursor]; rfl)
              rw [next_of_some hcursor hnext,
                @ih (chain.put (Cursor.next cursor) hput) (Cursor.next cursor) rfl hmore hothers
                  hrest]
              dsimp only [bind, Except.bind, pure, Except.pure]
              cases tryToList reads (Cursor.next cursor) with
              | error err => rfl
              | ok records => cases others <;> rfl

/-- A loop from a source on visits it and all sources behind it. -/
private theorem tryToList_enter (chain : Chain σ ι) (idx : ℕ) :
    (do
      findReads chain.begin opens (chain.sources.drop idx) idx
      tryToList (nextReads opens reads) (chain.enter idx)) =
    visit chain.begin opens reads (chain.sources.drop idx) idx := by
  induction hsources : chain.sources.drop idx generalizing idx with
  | nil =>
      have hnone : Cursor.current? (chain.enter idx) = none := by
        rw [cursor_current?, current?, enter_of_nil hsources, Option.bind_none]
      rw [tryToList_of_none hnone]
      rfl
  | cons source rest ih =>
      have htail : chain.sources.drop (idx + 1) = rest := by
        rw [← List.tail_drop, hsources, List.tail_cons]
      have hrest := ih (idx + 1) htail
      rw [findReads, visit]
      cases hopens : opens source idx with
      | error err => rfl
      | ok done =>
          cases hcurrent : Cursor.current? (chain.begin source) with
          | none =>
              rw [enter_of_none hsources hcurrent, tryToList_of_none hcurrent]
              dsimp only [bind, Except.bind, pure, Except.pure] at hrest ⊢
              rw [hrest]
              cases visit chain.begin opens reads rest (idx + 1) <;> rfl
          | some record =>
              obtain ⟨hindex, hcursor⟩ := enter_of_some hsources hcurrent
              have hmore : Cursor.current? (chain.begin source) ≠ none := by
                rw [hcurrent]
                exact Option.some_ne_none _
              have hothers : (do
                  findReads (chain.enter idx).begin opens
                    ((chain.enter idx).sources.drop ((chain.enter idx).index + 1))
                    ((chain.enter idx).index + 1)
                  tryToList (nextReads opens reads)
                    ((chain.enter idx).enter ((chain.enter idx).index + 1))) =
                  visit chain.begin opens reads rest (idx + 1) := by
                rw [hindex, enter_begin, enter_sources, enter_enter, htail]
                exact hrest
              dsimp only [bind, Except.bind, pure, Except.pure]
              rw [tryToList_of_cursor hcursor hmore hothers]
              rfl

/-- A loop over a chain visits its sources. -/
theorem tryToList_tryStart (sources : List σ) :
    (tryStart begin opens sources >>= tryToList (nextReads opens reads)) =
      visit begin opens reads sources 0 := by
  have henter := @tryToList_enter σ ι α ε _ opens reads (start begin sources) 0
  rw [show (start begin sources).sources.drop 0 = sources from List.drop_zero,
    show (start begin sources).begin = begin from rfl] at henter
  rw [← henter, tryStart]
  cases findReads begin opens sources 0 <;> rfl

/-- The visit throws unless every source can be opened and walked. -/
theorem visit_ok_iff {sources : List σ} {idx : ℕ} :
    (∃ records, visit begin opens reads sources idx = .ok records) ↔
      ∀ i (hi : i < sources.length), opens sources[i] (idx + i) = .ok () ∧
        ∃ records, tryToList reads (begin sources[i]) = .ok records := by
  induction sources generalizing idx with
  | nil => exact iff_of_true ⟨[], rfl⟩ fun i hi => absurd hi (Nat.not_lt_zero i)
  | cons source rest ih =>
      have hsplit : (∀ i (hi : i < (source :: rest).length),
          opens (source :: rest)[i] (idx + i) = .ok () ∧
            ∃ records, tryToList reads (begin (source :: rest)[i]) = .ok records) ↔
          (opens source idx = .ok () ∧ ∃ records, tryToList reads (begin source) = .ok records) ∧
            ∃ records, visit begin opens reads rest (idx + 1) = .ok records := by
        rw [ih]
        constructor
        · intro hall
          refine ⟨hall 0 (Nat.zero_lt_succ _), fun i hi => ?_⟩
          rw [Nat.add_assoc, Nat.add_comm 1]
          exact hall (i + 1) (Nat.succ_lt_succ hi)
        · rintro ⟨hfirst, hrest⟩ i hi
          cases i with
          | zero => exact hfirst
          | succ i =>
              have hlater := hrest i (Nat.lt_of_succ_lt_succ hi)
              rw [Nat.add_assoc, Nat.add_comm 1] at hlater
              exact hlater
      rw [hsplit, visit]
      cases hopens : opens source idx with
      | error err => simp [bind, Except.bind]
      | ok done =>
          cases tryToList reads (begin source) with
          | error err => simp [bind, Except.bind]
          | ok records =>
              cases visit begin opens reads rest (idx + 1) <;>
                simp [bind, Except.bind, pure, Except.pure]

/-- A visit that does not throw takes the records of all sources. -/
theorem visit_eq_ok {sources : List σ} {idx : ℕ} {records : List α}
    (hvisit : visit begin opens reads sources idx = .ok records) :
    records = sources.flatMap fun source => Cursor.toList (begin source) := by
  induction sources generalizing idx records with
  | nil => exact (Except.ok.inj hvisit).symm
  | cons source rest ih =>
      rw [visit] at hvisit
      cases hopens : opens source idx with
      | error err =>
          rw [hopens] at hvisit
          cases hvisit
      | ok done =>
          cases hfirst : tryToList reads (begin source) with
          | error err =>
              rw [hopens, hfirst] at hvisit
              cases hvisit
          | ok first =>
              cases hothers : visit begin opens reads rest (idx + 1) with
              | error err =>
                  rw [hopens, hfirst, hothers] at hvisit
                  cases hvisit
              | ok others =>
                  rw [hopens, hfirst, hothers] at hvisit
                  rw [← Except.ok.inj hvisit, List.flatMap_cons, ← ih hothers,
                    (Cursor.loop_iff.mpr hfirst).eq_toList]

end Chain

end KopiDb
