import KopiDb.Lib.Cursor

/-!
# Chains of cursors

A chain walks through a list of sources and opens a cursor on each of them in
turn.  Sources whose cursor yields nothing are passed over, so a chain stands on
a record or holds no cursor at all.
-/

namespace KopiDb

/-- A cursor over the sources from `index` on; `cursor` is open on the source at
`index`, and `none` behind the last source. -/
structure Chain (σ ι : Type*) where
  begin : σ → ι
  sources : List σ
  index : ℕ
  cursor : Option ι
  index_lt : cursor.isSome → index < sources.length

namespace Chain

variable {σ ι α : Type*} [Cursor ι α]

/-- Open the first source that yields a record. -/
def find (begin : σ → ι) : List σ → ℕ → ℕ × Option ι
  | [], idx => (idx, none)
  | source :: rest, idx =>
      match Cursor.current? (begin source) with
      | none => find begin rest (idx + 1)
      | some _ => (idx, some (begin source))

private theorem find_lt {begin : σ → ι} {sources : List σ} {idx : ℕ}
    (hfound : (find begin sources idx).2.isSome) :
    (find begin sources idx).1 < idx + sources.length := by
  induction sources generalizing idx with
  | nil => simp [find] at hfound
  | cons source rest ih =>
      rw [find] at hfound ⊢
      rw [List.length_cons]
      split at hfound
      · have := ih hfound
        omega
      · omega

/-- Move to the source at `idx`, or to the first one behind it that yields a
record. -/
def enter (chain : Chain σ ι) (idx : ℕ) : Chain σ ι where
  begin := chain.begin
  sources := chain.sources
  index := (find chain.begin (chain.sources.drop idx) idx).1
  cursor := (find chain.begin (chain.sources.drop idx) idx).2
  index_lt := by
    intro hfound
    have hlt := find_lt hfound
    rw [List.length_drop] at hlt
    have hne : chain.sources.drop idx ≠ [] := by
      intro hnil
      rw [hnil] at hfound
      cases hfound
    have := List.drop_eq_nil_iff.not.mp hne
    omega

/-- The chain at its first record. -/
def start (begin : σ → ι) (sources : List σ) : Chain σ ι :=
  enter ⟨begin, sources, 0, none, by simp⟩ 0

/-- The chain behind its last source. -/
def finish (begin : σ → ι) (sources : List σ) : Chain σ ι :=
  ⟨begin, sources, sources.length, none, by simp⟩

/-- Put the chain on a cursor of the source at its index. -/
def put (chain : Chain σ ι) (cursor : ι) (hindex : chain.index < chain.sources.length) :
    Chain σ ι :=
  { chain with cursor := some cursor, index_lt := fun _ => hindex }

def current? (chain : Chain σ ι) : Option α := chain.cursor.bind Cursor.current?

/-- Step in the open source, and leave it when it is exhausted. -/
def next (chain : Chain σ ι) : Chain σ ι :=
  match hcursor : chain.cursor with
  | none => chain
  | some cursor =>
      match Cursor.current? (Cursor.next cursor) with
      | none => chain.enter (chain.index + 1)
      | some _ =>
          chain.put (Cursor.next cursor) (chain.index_lt (by rw [hcursor]; rfl))

theorem next_of_none {chain : Chain σ ι} {cursor : ι}
    (hcursor : chain.cursor = some cursor)
    (hnext : Cursor.current? (Cursor.next cursor) = none) :
    chain.next = chain.enter (chain.index + 1) := by
  unfold next
  split
  next hnone =>
      rw [hcursor] at hnone
      cases hnone
  next other hother =>
      obtain rfl := Option.some.inj (hcursor.symm.trans hother)
      rw [hnext]

theorem next_of_some {chain : Chain σ ι} {cursor : ι} {record : α}
    (hcursor : chain.cursor = some cursor)
    (hnext : Cursor.current? (Cursor.next cursor) = some record) :
    chain.next = chain.put (Cursor.next cursor) (chain.index_lt (by rw [hcursor]; rfl)) := by
  unfold next
  split
  next hnone =>
      rw [hcursor] at hnone
      cases hnone
  next other hother =>
      obtain rfl := Option.some.inj (hcursor.symm.trans hother)
      rw [hnext]

private theorem drop_succ {sources rest : List σ} {idx : ℕ} {source : σ}
    (hdrop : sources.drop idx = source :: rest) : sources.drop (idx + 1) = rest := by
  rw [← List.tail_drop, hdrop, List.tail_cons]

theorem enter_of_nil {chain : Chain σ ι} {idx : ℕ}
    (hdrop : chain.sources.drop idx = []) : (chain.enter idx).cursor = none := by
  simp [enter, hdrop, find]

theorem enter_of_none {chain : Chain σ ι} {idx : ℕ} {source : σ} {rest : List σ}
    (hdrop : chain.sources.drop idx = source :: rest)
    (hcurrent : Cursor.current? (chain.begin source) = none) :
    chain.enter idx = chain.enter (idx + 1) := by
  simp [enter, hdrop, drop_succ hdrop, find, hcurrent]

theorem enter_of_some {chain : Chain σ ι} {idx : ℕ} {source : σ} {rest : List σ}
    {record : α} (hdrop : chain.sources.drop idx = source :: rest)
    (hcurrent : Cursor.current? (chain.begin source) = some record) :
    (chain.enter idx).index = idx ∧
      (chain.enter idx).cursor = some (chain.begin source) := by
  simp [enter, hdrop, find, hcurrent]

@[simp]
theorem enter_sources (chain : Chain σ ι) (idx : ℕ) :
    (chain.enter idx).sources = chain.sources := rfl

@[simp]
theorem enter_begin (chain : Chain σ ι) (idx : ℕ) :
    (chain.enter idx).begin = chain.begin := rfl

@[simp]
theorem enter_enter (chain : Chain σ ι) (idx idx' : ℕ) :
    (chain.enter idx).enter idx' = chain.enter idx' := rfl

/-- The records that the sources from `idx` on can yield. -/
def weight (chain : Chain σ ι) (idx : ℕ) : ℕ :=
  ((chain.sources.drop idx).map fun source => Cursor.remaining (chain.begin source)).sum

def remaining (chain : Chain σ ι) : ℕ :=
  chain.cursor.elim 0 Cursor.remaining + chain.weight (chain.index + 1)

private theorem remaining_enter_le (chain : Chain σ ι) (idx : ℕ) :
    (chain.enter idx).remaining ≤ chain.weight idx := by
  induction hsources : chain.sources.drop idx generalizing idx with
  | nil =>
      have hbehind : chain.sources.drop ((chain.enter idx).index + 1) = [] := by
        simp only [enter, hsources, find]
        rw [← List.tail_drop, hsources, List.tail_nil]
      simp [remaining, enter_of_nil hsources, weight, hbehind]
  | cons source rest ih =>
      have hweight : chain.weight idx =
          Cursor.remaining (chain.begin source) + chain.weight (idx + 1) := by
        simp [weight, hsources, drop_succ hsources]
      cases hcurrent : Cursor.current? (chain.begin source) with
      | none =>
          rw [enter_of_none hsources hcurrent]
          have := ih (idx + 1) (drop_succ hsources)
          omega
      | some record =>
          obtain ⟨hindex, hcursor⟩ := enter_of_some hsources hcurrent
          rw [remaining, hcursor, hindex, hweight]
          exact le_rfl

private theorem current?_eq_some {chain : Chain σ ι} {record : α}
    (hcurrent : chain.current? = some record) :
    ∃ cursor, chain.cursor = some cursor ∧ Cursor.current? cursor = some record :=
  Option.bind_eq_some_iff.mp hcurrent

instance : Cursor (Chain σ ι) α where
  current? := current?
  next := next
  remaining := remaining
  remaining_next := by
    intro chain record hcurrent
    obtain ⟨cursor, hcursor, hrecord⟩ := current?_eq_some hcurrent
    have hless := Cursor.remaining_next hrecord
    have hchain : chain.remaining =
        Cursor.remaining cursor + chain.weight (chain.index + 1) := by
      rw [remaining, hcursor, Option.elim_some]
    cases hnext : Cursor.current? (Cursor.next cursor) with
    | none =>
        rw [next_of_none hcursor hnext]
        have := chain.remaining_enter_le (chain.index + 1)
        omega
    | some following =>
        rw [next_of_some hcursor hnext]
        have hput : ∀ hindex, (chain.put (Cursor.next cursor) hindex).remaining =
            Cursor.remaining (Cursor.next cursor) + chain.weight (chain.index + 1) :=
          fun _ => rfl
        rw [hput]
        omega

theorem cursor_current? (chain : Chain σ ι) : Cursor.current? chain = chain.current? :=
  rfl

theorem cursor_next (chain : Chain σ ι) : Cursor.next chain = chain.next := rfl

/-- A chain yields what its open cursor yields and then the sources behind it. -/
theorem toList_eq_append {chain : Chain σ ι} {cursor : ι}
    (hcursor : chain.cursor = some cursor) (hcurrent : Cursor.current? cursor ≠ none) :
    Cursor.toList chain =
      Cursor.toList cursor ++ Cursor.toList (chain.enter (chain.index + 1)) := by
  induction hlist : Cursor.toList cursor generalizing chain cursor with
  | nil => exact absurd (Cursor.toList_eq_nil_iff.mp hlist) hcurrent
  | cons record rest ih =>
      obtain ⟨hrecord, hrest⟩ := Cursor.toList_eq_cons hlist
      have hchain : Cursor.current? chain = some record := by
        rw [cursor_current?, current?, hcursor, Option.bind_some, hrecord]
      rw [Cursor.toList_of_some hchain, List.cons_append, cursor_next]
      congr 1
      cases hnext : Cursor.current? (Cursor.next cursor) with
      | none =>
          have hnil : rest = [] := hrest ▸ Cursor.toList_of_none hnext
          rw [next_of_none hcursor hnext, hnil, List.nil_append]
      | some following =>
          rw [next_of_some hcursor hnext]
          have hmore : Cursor.current? (Cursor.next cursor) ≠ none := by
            rw [hnext]
            exact Option.some_ne_none _
          exact @ih (chain.put _ _) (Cursor.next cursor) rfl hmore hrest

/-- From a source on, a chain yields the records of all sources in turn. -/
theorem toList_enter (chain : Chain σ ι) (idx : ℕ) :
    Cursor.toList (chain.enter idx) =
      (chain.sources.drop idx).flatMap fun source => Cursor.toList (chain.begin source) := by
  induction hsources : chain.sources.drop idx generalizing idx with
  | nil =>
      apply Cursor.toList_of_none
      rw [cursor_current?, current?, enter_of_nil hsources, Option.bind_none]
  | cons source rest ih =>
      have htail := ih (idx + 1) (drop_succ hsources)
      rw [List.flatMap_cons, ← htail]
      cases hcurrent : Cursor.current? (chain.begin source) with
      | none =>
          rw [enter_of_none hsources hcurrent, Cursor.toList_of_none hcurrent,
            List.nil_append]
      | some record =>
          obtain ⟨hindex, hcursor⟩ := enter_of_some hsources hcurrent
          have hmore : Cursor.current? (chain.begin source) ≠ none := by
            rw [hcurrent]
            exact Option.some_ne_none _
          rw [toList_eq_append hcursor hmore, hindex, enter_enter]

theorem toList_start (begin : σ → ι) (sources : List σ) :
    Cursor.toList (start begin sources) =
      sources.flatMap fun source => Cursor.toList (begin source) := by
  rw [start, toList_enter, List.drop_zero]

/-- A chain that was moved to a source stands on a record or holds no cursor. -/
theorem enter_cursor {chain : Chain σ ι} {idx : ℕ}
    (hcurrent : (chain.enter idx).current? = none) : (chain.enter idx).cursor = none := by
  induction hsources : chain.sources.drop idx generalizing idx with
  | nil => exact enter_of_nil hsources
  | cons source rest ih =>
      cases hrecord : Cursor.current? (chain.begin source) with
      | none =>
          rw [enter_of_none hsources hrecord] at hcurrent ⊢
          exact ih hcurrent (drop_succ hsources)
      | some record =>
          obtain ⟨-, hcursor⟩ := enter_of_some hsources hrecord
          rw [current?, hcursor, Option.bind_some, hrecord] at hcurrent
          cases hcurrent

theorem next_cursor {chain : Chain σ ι} {record : α}
    (hcurrent : chain.current? = some record) (hnext : chain.next.current? = none) :
    chain.next.cursor = none := by
  obtain ⟨cursor, hcursor, -⟩ := current?_eq_some hcurrent
  cases hmore : Cursor.current? (Cursor.next cursor) with
  | none =>
      rw [next_of_none hcursor hmore] at hnext ⊢
      exact enter_cursor hnext
  | some following =>
      rw [next_of_some hcursor hmore] at hnext
      have hput : Cursor.current? (Cursor.next cursor) = none := hnext
      rw [hmore] at hput
      cases hput

end Chain

end KopiDb
