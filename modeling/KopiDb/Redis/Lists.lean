import KopiDb.Redis.Runs

/-!
# Lists as deques

A list is stored as its elements with a separator between them.  The commands answer as a
deque does, as long as no element contains the separator and no command leaves an empty
element at the right end.
-/

namespace KopiDb.Redis

inductive ListOp where
  | lpush (value : Bytes)
  | rpush (value : Bytes)
  | lpop
  | rpop
  | llen
  deriving DecidableEq, Repr

namespace ListOp

def command (key : Bytes) : ListOp → Command
  | .lpush value => redisLpush key value
  | .rpush value => redisRpush key value
  | .lpop => redisLpop key
  | .rpop => redisRpop key
  | .llen => redisLlen key

/-- The deque: its elements after the operation, and the answer. -/
def deque : ListOp → List Bytes → List Bytes × Bytes
  | .lpush value, elements => (value :: elements, intReply (elements.length + 1 : ℕ))
  | .rpush value, elements => (elements ++ [value], intReply (elements.length + 1 : ℕ))
  | .lpop, elements => (elements.tail, elements.head?.elim nilReply bulkReply)
  | .rpop, elements => (elements.dropLast, elements.getLast?.elim nilReply bulkReply)
  | .llen, elements => (elements, intReply elements.length)

/-- The element that an operation brings. -/
def pushed : ListOp → Option Bytes
  | .lpush value => some value
  | .rpush value => some value
  | _ => none

/-- The pushed element has no separator, and no empty element is left at the right end. -/
def Storable (op : ListOp) (elements : List Bytes) : Prop :=
  (∀ value, op.pushed = some value → redisListSeparator ∉ value) ∧
    (op.deque elements).1.getLast? ≠ some []

instance (op : ListOp) (elements : List Bytes) : Decidable (op.Storable elements) :=
  decidable_of_iff ((op.pushed.all fun value => decide (redisListSeparator ∉ value)) = true ∧
    (op.deque elements).1.getLast? ≠ some []) (by
      unfold Storable
      cases op.pushed <;> simp)

end ListOp

/-- The record of a list under a key without an expiry time. -/
structure HoldsList (key : Bytes) (store : Store) (elements : List Bytes) : Prop where
  expire : store.get (getExplireKey key) = none
  record : store.get key =
    if elements = [] then none else some (join elements redisListSeparator)
  free : ∀ element ∈ elements, redisListSeparator ∉ element
  last : elements.getLast? ≠ some []

namespace HoldsList

variable {key : Bytes} {store : Store} {elements : List Bytes}

theorem split_record (hlist : HoldsList key store elements) :
    split (join elements redisListSeparator) redisListSeparator = elements := by
  rw [split_join hlist.free, if_neg hlist.last]

/-- Writing the record of another list, or no record for the empty one. -/
theorem put (hlist : HoldsList key store elements) {elements' : List Bytes}
    (hfree : ∀ element ∈ elements', redisListSeparator ∉ element)
    (hlast : elements'.getLast? ≠ some []) :
    HoldsList key (store.put key (join elements' redisListSeparator)) elements' where
  expire := by
    rw [Store.get_put_of_ne _ _ (getExplireKey_ne key)]
    exact hlist.expire
  record := by
    rw [Store.get_put, if_pos rfl]
    have hjoin : join elements' redisListSeparator = [] ↔ elements' = [] := by
      rw [join_eq_nil_iff, or_iff_left]
      rintro rfl
      exact hlast rfl
    by_cases hempty : elements' = []
    · rw [if_pos hempty, if_pos (hjoin.mpr hempty)]
    · rw [if_neg hempty, if_neg (hjoin.not.mpr hempty)]
  free := hfree
  last := hlast

/-- Removing the record is writing the empty list. -/
theorem remove (hlist : HoldsList key store elements) : HoldsList key (store.remove key) [] :=
  hlist.put (List.forall_mem_nil _) (Option.some_ne_none _).symm

/-- The record after a push, and the number in its answer. -/
private theorem push (hlist : HoldsList key store elements)
    {added : Bytes → Bytes → Bytes} {value : Bytes} {elements' : List Bytes}
    (hadded : elements ≠ [] → added value (join elements redisListSeparator) =
      join elements' redisListSeparator)
    (hfirst : elements = [] → elements' = [value])
    (hfree : ∀ element ∈ elements', redisListSeparator ∉ element)
    (hlast : elements'.getLast? ≠ some []) (now : ℤ) :
    HoldsList key ((redisPush added key value).run now store).1 elements' ∧
      ((redisPush added key value).run now store).2 = .ok (intReply elements'.length) := by
  have hvalue : (if (store.get key).getD [] ≠ [] then added value ((store.get key).getD [])
      else value) = join elements' redisListSeparator := by
    rw [hlist.record]
    by_cases hempty : elements = []
    · rw [if_pos hempty, hfirst hempty, if_neg (by simp)]
      simp [join]
    · rw [if_neg hempty, Option.getD_some, ← hadded hempty, if_pos]
      rw [ne_eq, join_eq_nil_iff, not_or]
      refine ⟨hempty, ?_⟩
      rintro rfl
      exact hlist.last rfl
  rw [redisPush, run_writeCommand hlist.expire]
  dsimp only
  rw [hvalue, split_join hfree, if_neg hlast]
  exact ⟨hlist.put hfree hlast, rfl⟩

/-- The record after a pop, and the element in its answer. -/
private theorem pop (hlist : HoldsList key store elements)
    {taken : List Bytes → Option (Bytes × List Bytes)} {elements' : List Bytes}
    (htaken : ∀ value rest, taken elements = some (value, rest) → rest = elements')
    (hnone : taken elements = none ↔ elements = [])
    (hsubset : elements' ⊆ elements) (hlast : elements'.getLast? ≠ some []) (now : ℤ) :
    HoldsList key ((redisPop taken key).run now store).1 elements' ∧
      ((redisPop taken key).run now store).2 =
        .ok ((taken elements).elim nilReply fun result => bulkReply result.1) := by
  rw [redisPop, run_takeCommand hlist.expire, hlist.record]
  by_cases hempty : elements = []
  · rw [if_pos hempty, hnone.mpr hempty]
    refine ⟨?_, rfl⟩
    subst hempty
    rw [List.subset_nil.mp hsubset]
    exact hlist
  · rw [if_neg hempty]
    dsimp only
    rw [hlist.split_record]
    cases hcase : taken elements with
    | none => exact absurd (hnone.mp hcase) hempty
    | some result =>
        obtain ⟨value, rest⟩ := result
        obtain rfl := htaken value rest hcase
        refine ⟨?_, rfl⟩
        dsimp only
        split_ifs with hrest
        · rw [hrest]
          exact hlist.remove
        · exact hlist.put (fun element hmem => hlist.free element (hsubset hmem)) hlast

/-- One operation. -/
theorem step (hlist : HoldsList key store elements) {op : ListOp}
    (hstorable : op.Storable elements) (now : ℤ) :
    HoldsList key ((op.command key).run now store).1 (op.deque elements).1 ∧
      ((op.command key).run now store).2 = .ok (op.deque elements).2 := by
  obtain ⟨hvalue, hlast⟩ := hstorable
  cases op with
  | lpush value =>
      have hfree := hvalue value rfl
      change HoldsList key ((redisLpush key value).run now store).1 (value :: elements) ∧
        ((redisLpush key value).run now store).2 =
          .ok (intReply (value :: elements).length)
      apply hlist.push
      · exact fun hne => (join_cons _ hne).symm
      · rintro rfl
        rfl
      · intro element hmem
        rcases List.mem_cons.mp hmem with rfl | hmem
        · exact hfree
        · exact hlist.free element hmem
      · exact hlast
  | rpush value =>
      have hfree := hvalue value rfl
      have hlength : elements.length + 1 = (elements ++ [value]).length := by simp
      rw [ListOp.deque, hlength]
      change HoldsList key ((redisRpush key value).run now store).1 (elements ++ [value]) ∧
        ((redisRpush key value).run now store).2 =
          .ok (intReply (elements ++ [value]).length)
      apply hlist.push
      · exact fun hne => (join_concat _ hne).symm
      · rintro rfl
        rfl
      · intro element hmem
        rcases List.mem_append.mp hmem with hmem | hmem
        · exact hlist.free element hmem
        · rw [List.mem_singleton.mp hmem]
          exact hfree
      · exact hlast
  | lpop =>
      have hpop : HoldsList key ((redisPop popFront key).run now store).1 elements.tail ∧
          ((redisPop popFront key).run now store).2 =
            .ok ((popFront elements).elim nilReply fun result => bulkReply result.1) := by
        apply hlist.pop
        · intro value rest htaken
          cases elements with
          | nil => cases htaken
          | cons head tail => rw [← (Prod.mk.inj (Option.some.inj htaken)).2, List.tail_cons]
        · cases elements <;> simp [popFront]
        · exact List.tail_subset _
        · exact hlast
      refine ⟨hpop.1, hpop.2.trans ?_⟩
      cases elements <;> rfl
  | rpop =>
      have hpop : HoldsList key ((redisPop popBack key).run now store).1 elements.dropLast ∧
          ((redisPop popBack key).run now store).2 =
            .ok ((popBack elements).elim nilReply fun result => bulkReply result.1) := by
        apply hlist.pop
        · intro value rest htaken
          obtain ⟨last, -, hresult⟩ := Option.map_eq_some_iff.mp htaken
          exact (Prod.mk.inj hresult).2.symm
        · rw [popBack, Option.map_eq_none_iff, List.getLast?_eq_none_iff]
        · exact List.dropLast_subset _
        · exact hlast
      refine ⟨hpop.1, hpop.2.trans ?_⟩
      rw [popBack, ListOp.deque]
      cases elements.getLast? <;> rfl
  | llen =>
      change HoldsList key ((redisLlen key).run now store).1 elements ∧
        ((redisLlen key).run now store).2 = .ok (intReply elements.length)
      rw [redisLlen, run_readCommand hlist.expire, hlist.record]
      refine ⟨hlist, ?_⟩
      split_ifs with hempty
      · rw [hempty]
        rfl
      · dsimp only
        rw [hlist.split_record]

end HoldsList

/-- A sequence of list commands on a key that is not there answers as a deque does, as
long as every command keeps the list storable. -/
theorem lists_refine_deque {key : Bytes} {store : Store} {ops : List (ℤ × ListOp)}
    (habsent : store.get key = none) (hexpire : store.get (getExplireKey key) = none)
    (hstorable : AllowedRun ListOp.deque ListOp.Storable ops []) :
    (runCommands (ops.map fun op => (op.1, op.2.command key)) store).2 =
      (runSpec ListOp.deque ops []).2.map .ok := by
  have hstart : HoldsList key store [] :=
    { expire := hexpire
      record := habsent
      free := List.forall_mem_nil _
      last := (Option.some_ne_none _).symm }
  have hstep : ∀ op store elements now, HoldsList key store elements →
      ListOp.Storable op elements →
        HoldsList key ((op.command key).run now store).1 (op.deque elements).1 ∧
          ((op.command key).run now store).2 = .ok (op.deque elements).2 :=
    fun op store elements now hlist hallowed => hlist.step hallowed now
  exact (runCommands_refines _ _ _ hstep hstart hstorable).2

/-- An empty element is kept as long as it is not at the right end. -/
theorem lists_refine_deque_sample :
    (runCommands ([(0, ListOp.rpush (ascii "a")), (0, .lpush []), (1, .lpop), (2, .rpop),
        (3, .llen)].map fun op => (op.1, op.2.command (ascii "k"))) ∅).2 =
      [.ok (ascii ":1\r\n"), .ok (ascii ":2\r\n"), .ok (ascii "$0\r\n\r\n"),
        .ok (ascii "$1\r\na\r\n"), .ok (ascii ":0\r\n")] := by
  have hreplies := @lists_refine_deque (ascii "k") ∅
    [(0, .rpush (ascii "a")), (0, .lpush []), (1, .lpop), (2, .rpop), (3, .llen)] rfl rfl
    ⟨by decide, by decide, by decide, by decide, by decide, trivial⟩
  rw [hreplies]
  decide

/-- An element with the separator becomes two. -/
theorem lists_split_element :
    (runCommands ([(0, ListOp.lpush (ascii "a#b")), (0, .lpop)].map fun op =>
        (op.1, op.2.command (ascii "k"))) ∅).2 =
      [.ok (ascii ":2\r\n"), .ok (ascii "$1\r\na\r\n")] ∧
    (runSpec ListOp.deque [(0, .lpush (ascii "a#b")), (0, .lpop)] []).2 =
      [ascii ":1\r\n", ascii "$3\r\na#b\r\n"] := by
  decide +kernel

end KopiDb.Redis
