import KopiDb.Redis.Hashes
import KopiDb.Redis.Lists
import KopiDb.Redis.Sets

/-!
# Collections with a deadline

A deadline is a record beside the records of a collection.  Only the checks of the commands look
at it: until it has passed the collection is what it was, and the first command afterwards finds
an empty one.
-/

namespace KopiDb.Redis

/-! ## Deadlines as text -/

theorem strtol_toDecimal (number : ℤ) : strtol (toDecimal number) = some number := by
  rw [toDecimal]
  split_ifs with hnegative
  · have hdigits : (decimal number.natAbs).takeWhile isDigit = decimal number.natAbs :=
      List.takeWhile_eq_self_iff.mpr (List.all_eq_true.mp (isDigit_decimal _).2)
    have hempty : (decimal number.natAbs).isEmpty = false := by
      rw [List.isEmpty_eq_false_iff]
      exact (isDigit_decimal _).1
    have hdrop : (45 :: decimal number.natAbs).dropWhile isSpace = 45 :: decimal number.natAbs :=
      List.dropWhile_cons_of_neg (by decide)
    unfold strtol
    dsimp only
    rw [hdrop, List.head?_cons, if_pos (Or.inr rfl), List.drop_succ_cons, List.drop_zero, hdigits,
      hempty, parseDecimal_decimal]
    simp only [decide_true, if_true, Bool.false_eq_true, if_false]
    congr 1
    omega
  · have hnumber := @strtol_decimal number.natAbs [] rfl
    rw [List.append_nil] at hnumber
    rw [hnumber]
    congr 1
    omega

/-- What fits into a `long long`. -/
def LongLong (number : ℤ) : Prop := -2 ^ 63 ≤ number ∧ number < 2 ^ 63

instance (number : ℤ) : Decidable (LongLong number) := inferInstanceAs (Decidable (_ ∧ _))

theorem stoll_toDecimal {number : ℤ} (hrange : LongLong number) :
    stoll (toDecimal number) = .ok number := by
  rw [stoll, stringTo, strtol_toDecimal]
  exact if_pos hrange

theorem longLong_wrapInt (number : ℤ) : LongLong (wrapInt 64 number) := by
  constructor
  · exact Int.le_bmod (by decide)
  · exact Int.bmod_lt (by decide)

theorem toDecimal_ne_nil (number : ℤ) : toDecimal number ≠ [] := by
  rw [toDecimal]
  split_ifs
  · exact List.cons_ne_nil _ _
  · exact (isDigit_decimal _).1

/-! ## The record of a deadline -/

namespace Store

/-- The store with this record for the deadline of a key. -/
def withDeadline (store : Store) (key : Bytes) (deadline : Option Bytes) : Store :=
  match deadline with
  | none => store.remove (getExplireKey key)
  | some expireStr => store.put (getExplireKey key) expireStr

variable {store : Store} {key other : Bytes} {deadline : Option Bytes}

theorem get_withDeadline (store : Store) (key other : Bytes) (deadline : Option Bytes) :
    (store.withDeadline key deadline).get other =
      if other = getExplireKey key then (if deadline = some [] then none else deadline)
      else store.get other := by
  cases deadline with
  | none => exact get_remove store _ other
  | some expireStr =>
      rw [withDeadline, get_put]
      simp only [Option.some.injEq]

theorem get_withDeadline_of_ne (hother : other ≠ getExplireKey key) :
    (store.withDeadline key deadline).get other = store.get other := by
  rw [get_withDeadline, if_neg hother]

theorem put_withDeadline (hother : other ≠ getExplireKey key) (value : Bytes) :
    (store.withDeadline key deadline).put other value =
      (store.put other value).withDeadline key deadline := by
  apply ext_get
  intro name
  simp only [get_put, get_withDeadline]
  by_cases hname : name = other
  · rw [hname, if_pos rfl, if_neg hother, if_pos rfl]
  · rw [if_neg hname, if_neg hname]

theorem remove_withDeadline (hother : other ≠ getExplireKey key) :
    (store.withDeadline key deadline).remove other =
      (store.remove other).withDeadline key deadline := by
  apply ext_get
  intro name
  simp only [get_remove, get_withDeadline]
  by_cases hname : name = other
  · rw [hname, if_pos rfl, if_neg hother, if_pos rfl]
  · rw [if_neg hname, if_neg hname]

theorem withDeadline_remove (store : Store) (key : Bytes) (deadline : Option Bytes) :
    (store.withDeadline key deadline).remove (getExplireKey key) =
      store.remove (getExplireKey key) := by
  apply ext_get
  intro name
  simp only [get_remove, get_withDeadline]
  by_cases hname : name = getExplireKey key
  · rw [if_pos hname, if_pos hname]
  · rw [if_neg hname, if_neg hname, if_neg hname]

/-- A store is what it holds without the deadline, and the deadline. -/
theorem remove_withDeadline_get (store : Store) (key : Bytes) :
    (store.remove (getExplireKey key)).withDeadline key (store.get (getExplireKey key)) =
      store := by
  apply ext_get
  intro name
  simp only [get_remove, get_withDeadline]
  by_cases hname : name = getExplireKey key
  · rw [if_pos hname, if_neg (store.get_ne_nil _), hname]
  · rw [if_neg hname, if_neg hname]

theorem remove_of_get_none (hnone : store.get key = none) : store.remove key = store := by
  apply ext_get
  intro name
  rw [get_remove]
  split_ifs with hname
  · rw [hname, hnone]
  · rfl

end Store

/-! ## Collections -/

/-- A command that writes the same, and answers the same, whatever the deadline is. -/
def Ignores (key : Bytes) (body : Store → Store × Except Err Bytes) : Prop :=
  ∀ store deadline, body (store.withDeadline key deadline) =
    ((body store).1.withDeadline key deadline, (body store).2)

/-- The forms of commands on a collection.  What they answer for an expired key is what they
answer for an empty collection, which those without a write leave empty. -/
inductive Form {State : Type*} (key : Bytes) (clean : Store → Store × Except Err Unit)
    (empty : State) (result : State × Bytes) : Command → Prop where
  | read {read : Store → Except Err Bytes}
      (hignores : ∀ store deadline, read (store.withDeadline key deadline) = read store)
      (hempty : result.1 = empty) :
      Form key clean empty result (readCommand key clean result.2 read)
  | take {body : Store → Store × Except Err Bytes} (hignores : Ignores key body)
      (hempty : result.1 = empty) :
      Form key clean empty result (takeCommand key clean result.2 body)
  | write {body : Store → Store × Except Err Bytes} (hignores : Ignores key body) :
      Form key clean empty result (writeCommand key clean body)

/-- An abstract data type with the commands that refine it under a key without a deadline. -/
structure Collection (key : Bytes) (Op State : Type*) where
  command : Op → Command
  step : Op → State → State × Bytes
  allowed : Op → State → Prop
  holds : Store → State → Prop
  empty : State
  clean : Store → Store × Except Err Unit
  form : ∀ op, Form key clean empty (step op empty) (command op)
  holds_expire : ∀ {store state}, holds store state → store.get (getExplireKey key) = none
  holds_step : ∀ {store state op}, holds store state → allowed op state → ∀ now,
    holds ((command op).run now store).1 (step op state).1 ∧
      ((command op).run now store).2 = .ok (step op state).2
  holds_clean : ∀ {store state}, holds (store.remove (getExplireKey key)) state →
    ∃ store', clean store = (store', .ok ()) ∧ holds store' empty

/-- An operation, or a new deadline so many seconds from now. -/
inductive Timed (Op : Type*) where
  | op (op : Op)
  | expire (seconds : ℤ)

namespace Collection

variable {key : Bytes} {Op State : Type*} (collection : Collection key Op State)

def timedCommand : Timed Op → Command
  | .op op => collection.command op
  | .expire seconds => redisExpire key (toDecimal seconds)

/-- The collection that is left at a time. -/
def current (now : ℤ) (state : State × Option ℤ) : State × Option ℤ :=
  match state.2 with
  | none => state
  | some deadline => if deadline < now then (collection.empty, none) else state

/-- An operation on what is left of the collection.  A new deadline takes the place of one that
has passed unnoticed. -/
def timedStep (now : ℤ) : Timed Op → State × Option ℤ → (State × Option ℤ) × Bytes
  | .op op, state =>
      (((collection.step op (collection.current now state).1).1,
        (collection.current now state).2),
        (collection.step op (collection.current now state).1).2)
  | .expire seconds, state => ((state.1, some (wrapInt 64 (now + seconds))), intReply 1)

def timedAllowed (now : ℤ) : Timed Op → State × Option ℤ → Prop
  | .op op, state => collection.allowed op (collection.current now state).1
  | .expire seconds, _ => LongLong seconds

/-- The answers to operations at their times. -/
def timedReplies : List (ℤ × Timed Op) → State × Option ℤ → List Bytes
  | [], _ => []
  | (now, op) :: rest, state =>
      (collection.timedStep now op state).2 ::
        timedReplies rest (collection.timedStep now op state).1

def TimedRun : List (ℤ × Timed Op) → State × Option ℤ → Prop
  | [], _ => True
  | (now, op) :: rest, state => collection.timedAllowed now op state ∧
      TimedRun rest (collection.timedStep now op state).1

/-- The records of the collection, and that of its deadline. -/
structure HoldsTimed (store : Store) (state : State × Option ℤ) : Prop where
  holds : collection.holds (store.remove (getExplireKey key)) state.1
  deadline : store.get (getExplireKey key) = state.2.map toDecimal
  range : ∀ deadline ∈ state.2, LongLong deadline

variable {collection} {store : Store} {state : State × Option ℤ}

theorem HoldsTimed.verdict (hholds : collection.HoldsTimed store state) (now : ℤ) :
    isExpired (store.get (getExplireKey key)) now =
      .ok (state.2.any fun deadline => decide (deadline < now)) := by
  rw [hholds.deadline]
  cases hdeadline : state.2 with
  | none => rfl
  | some deadline =>
      rw [Option.map_some, isExpired, stoll_toDecimal (hholds.range deadline hdeadline)]
      rfl

theorem HoldsTimed.of_holds (hholds : collection.holds store state.1) (hnone : state.2 = none) :
    collection.HoldsTimed store state where
  holds := by
    rwa [Store.remove_of_get_none (collection.holds_expire hholds)]
  deadline := by
    rw [collection.holds_expire hholds, hnone]
    rfl
  range := by
    rw [hnone]
    rintro _ ⟨⟩

/-- A write beside the deadline. -/
theorem HoldsTimed.body (hholds : collection.HoldsTimed store state)
    {body : Store → Store × Except Err Bytes} (hignores : Ignores key body) {next : State}
    (hnext : collection.holds (body (store.remove (getExplireKey key))).1 next) :
    collection.HoldsTimed (body store).1 (next, state.2) ∧
      (body store).2 = (body (store.remove (getExplireKey key))).2 := by
  have hbody := hignores (store.remove (getExplireKey key)) (store.get (getExplireKey key))
  rw [Store.remove_withDeadline_get] at hbody
  rw [hbody]
  refine ⟨⟨?_, ?_, hholds.range⟩, rfl⟩
  · rwa [Store.withDeadline_remove, Store.remove_of_get_none (collection.holds_expire hnext)]
  · rw [Store.get_withDeadline, if_pos rfl, if_neg (store.get_ne_nil _)]
    exact hholds.deadline

/-- The deadline has not passed: the command does what it does without one. -/
theorem HoldsTimed.live (hholds : collection.HoldsTimed store state) {op : Op} {now : ℤ}
    (hallowed : collection.allowed op state.1)
    (hverdict : isExpired (store.get (getExplireKey key)) now = .ok false) :
    collection.HoldsTimed ((collection.command op).run now store).1
        ((collection.step op state.1).1, state.2) ∧
      ((collection.command op).run now store).2 = .ok (collection.step op state.1).2 := by
  have hplain : (store.remove (getExplireKey key)).get (getExplireKey key) = none := by
    rw [Store.get_remove, if_pos rfl]
  have hchecked : ∀ (clean : Store → Store × Except Err Unit) (expired : Command)
      (live : ℤ → Store → Command),
      (checkExpiry key clean expired live).run now store = (live now store).run now store := by
    intro clean expired live
    rw [checkExpiry, Command.run, hverdict]
  obtain ⟨hnext, hreply⟩ := collection.holds_step hholds.holds hallowed now
  have hform := collection.form op
  generalize collection.command op = command at hform hnext hreply ⊢
  cases hform with
  | @read read hignores hempty =>
      have hread := hignores (store.remove (getExplireKey key)) (store.get (getExplireKey key))
      rw [Store.remove_withDeadline_get] at hread
      rw [run_readCommand hplain] at hnext hreply
      rw [readCommand, hchecked]
      exact ⟨⟨hnext, hholds.deadline, hholds.range⟩, hread.trans hreply⟩
  | @take body hignores hempty =>
      rw [run_takeCommand hplain] at hnext hreply
      rw [takeCommand, hchecked]
      obtain ⟨hholds, hsame⟩ := hholds.body hignores hnext
      exact ⟨hholds, hsame.trans hreply⟩
  | @write body hignores =>
      rw [run_writeCommand hplain] at hnext hreply
      rw [writeCommand, hchecked]
      obtain ⟨hholds, hsame⟩ := hholds.body hignores hnext
      exact ⟨hholds, hsame.trans hreply⟩

/-- The deadline has passed: the command finds an empty collection. -/
theorem HoldsTimed.dead (hholds : collection.HoldsTimed store state) {op : Op} {now : ℤ}
    (hallowed : collection.allowed op collection.empty)
    (hverdict : isExpired (store.get (getExplireKey key)) now = .ok true) :
    collection.HoldsTimed ((collection.command op).run now store).1
        ((collection.step op collection.empty).1, none) ∧
      ((collection.command op).run now store).2 = .ok (collection.step op collection.empty).2 := by
  obtain ⟨store', hclean, hcleaned⟩ := collection.holds_clean hholds.holds
  have hchecked : ∀ (expired : Command) (live : ℤ → Store → Command),
      (checkExpiry key collection.clean expired live).run now store =
        expired.run now store' := by
    intro expired live
    rw [checkExpiry, Command.run, hverdict]
    dsimp only
    rw [Command.run, hclean]
  obtain ⟨hnext, hreply⟩ := collection.holds_step hcleaned hallowed now
  have hform := collection.form op
  generalize collection.command op = command at hform hnext hreply ⊢
  cases hform with
  | read hignores hempty =>
      rw [readCommand, hchecked, hempty]
      exact ⟨.of_holds hcleaned rfl, rfl⟩
  | take hignores hempty =>
      rw [takeCommand, hchecked, hempty]
      exact ⟨.of_holds hcleaned rfl, rfl⟩
  | @write body hignores =>
      rw [run_writeCommand (collection.holds_expire hcleaned)] at hnext hreply
      rw [writeCommand, hchecked]
      exact ⟨.of_holds hnext rfl, hreply⟩

/-- One operation at its time. -/
theorem HoldsTimed.step (hholds : collection.HoldsTimed store state) {op : Timed Op} {now : ℤ}
    (hallowed : collection.timedAllowed now op state) :
    collection.HoldsTimed ((collection.timedCommand op).run now store).1
        (collection.timedStep now op state).1 ∧
      ((collection.timedCommand op).run now store).2 =
        .ok (collection.timedStep now op state).2 := by
  cases op with
  | expire seconds =>
      have htime : getExpireTime (toDecimal seconds) now =
          .ok (toDecimal (wrapInt 64 (now + seconds))) := by
        rw [getExpireTime, stoll_toDecimal hallowed]
        rfl
      rw [timedCommand, redisExpire, Command.run, htime]
      refine ⟨⟨?_, ?_, ?_⟩, rfl⟩
      · have hput := Store.withDeadline_remove store key
          (some (toDecimal (wrapInt 64 (now + seconds))))
        rw [Store.withDeadline] at hput
        rw [hput]
        exact hholds.holds
      · exact Store.get_put_self _ _ _ (toDecimal_ne_nil _)
      · rintro _ ⟨⟩
        exact longLong_wrapInt _
  | op op =>
      have hverdict := hholds.verdict now
      rw [timedAllowed] at hallowed
      rw [timedCommand, timedStep]
      cases hdeadline : state.2 with
      | none =>
          have hcurrent : collection.current now state = state := by
            rw [current, hdeadline]
          rw [hcurrent] at hallowed ⊢
          rw [hdeadline] at hverdict
          exact hholds.live hallowed hverdict
      | some deadline =>
          rw [hdeadline, Option.any_some] at hverdict
          by_cases hpassed : deadline < now
          · have hcurrent : collection.current now state = (collection.empty, none) := by
              rw [current, hdeadline]
              exact if_pos hpassed
            rw [hcurrent] at hallowed ⊢
            rw [decide_eq_true hpassed] at hverdict
            exact hholds.dead hallowed hverdict
          · have hcurrent : collection.current now state = state := by
              rw [current, hdeadline]
              exact if_neg hpassed
            rw [hcurrent] at hallowed ⊢
            rw [decide_eq_false hpassed] at hverdict
            exact hholds.live hallowed hverdict

theorem HoldsTimed.run (hholds : collection.HoldsTimed store state) {ops : List (ℤ × Timed Op)}
    (hallowed : collection.TimedRun ops state) :
    (runCommands (ops.map fun op => (op.1, collection.timedCommand op.2)) store).2 =
      (collection.timedReplies ops state).map .ok := by
  induction ops generalizing store state with
  | nil => rfl
  | cons op ops ih =>
      obtain ⟨now, op⟩ := op
      obtain ⟨hnext, hreply⟩ := hholds.step hallowed.1
      change ((collection.timedCommand op).run now store).2 :: _ = _ :: _
      rw [hreply]
      exact congrArg _ (ih hnext hallowed.2)

end Collection

/-! ## Lists -/

section Forms

variable {State : Type*} {key : Bytes} {empty : State} {result : State × Bytes}

theorem form_push (added : Bytes → Bytes → Bytes) (value : Bytes) :
    Form key (expireListClean key) empty result (redisPush added key value) := by
  refine .write fun store deadline => ?_
  have hkey := (getExplireKey_ne key).symm
  rw [Store.get_withDeadline_of_ne hkey]
  dsimp only
  rw [Store.put_withDeadline hkey]

theorem form_pop (taken : List Bytes → Option (Bytes × List Bytes)) (hempty : result.1 = empty)
    (hreply : result.2 = nilReply) :
    Form key (expireListClean key) empty result (redisPop taken key) := by
  rw [redisPop, ← hreply]
  refine .take (fun store deadline => ?_) hempty
  have hkey := (getExplireKey_ne key).symm
  rw [Store.get_withDeadline_of_ne hkey]
  cases store.get key with
  | none => rfl
  | some list =>
      dsimp only
      cases taken (split list redisListSeparator) with
      | none => rfl
      | some found =>
          dsimp only
          split_ifs
          · rw [Store.remove_withDeadline hkey]
          · rw [Store.put_withDeadline hkey]

theorem form_llen (hempty : result.1 = empty) (hreply : result.2 = intReply 0) :
    Form key (expireListClean key) empty result (redisLlen key) := by
  rw [redisLlen, ← hreply]
  refine .read (fun store deadline => ?_) hempty
  rw [Store.get_withDeadline_of_ne (getExplireKey_ne key).symm]

end Forms

/-- Lists under a key. -/
def listCollection (key : Bytes) : Collection key ListOp (List Bytes) where
  command := ListOp.command key
  step := ListOp.deque
  allowed := ListOp.Storable
  holds := HoldsList key
  empty := []
  clean := expireListClean key
  form op := by
    cases op with
    | lpush value =>
        rw [ListOp.command, redisLpush]
        exact form_push _ value
    | rpush value =>
        rw [ListOp.command, redisRpush]
        exact form_push _ value
    | lpop => exact form_pop _ rfl rfl
    | rpop => exact form_pop _ rfl rfl
    | llen => exact form_llen rfl rfl
  holds_expire hlist := hlist.expire
  holds_step hlist hstorable now := hlist.step hstorable now
  holds_clean hlist := by
    refine ⟨_, rfl, ?_, ?_, List.forall_mem_nil _, (Option.some_ne_none _).symm⟩
    · rw [Store.get_remove, if_pos rfl]
    · rw [Store.get_remove_of_ne _ (getExplireKey_ne _).symm, Store.get_remove, if_pos rfl,
        if_pos rfl]

/-! ## Hashes -/

section Forms

variable {State : Type*} {key : Bytes} {empty : State} {result : State × Bytes}

theorem hsetFields_withDeadline (pairs : List (Bytes × Bytes)) (store : Store)
    (deadline : Option Bytes) (fieldList : List Bytes) (addedCount : ℕ) :
    hsetFields key pairs (store.withDeadline key deadline) fieldList addedCount =
      ((hsetFields key pairs store fieldList addedCount).1.withDeadline key deadline,
        (hsetFields key pairs store fieldList addedCount).2) := by
  induction pairs generalizing store fieldList addedCount with
  | nil => rfl
  | cons pair rest ih =>
      obtain ⟨field, value⟩ := pair
      rw [hsetFields, hsetFields]
      rw [Store.put_withDeadline (getHashFiledKey_ne_expire key field)]
      split_ifs
      · exact ih _ _ _
      · exact ih _ _ _

theorem form_hset (field value : Bytes) :
    Form key (expireHashClean key) empty result (redisHset key field value) := by
  refine .write fun store deadline => ?_
  have hkey := (getExplireKey_ne key).symm
  dsimp only
  rw [Store.put_withDeadline (getHashFiledKey_ne_expire key field),
    Store.get_withDeadline_of_ne hkey]
  cases getFiledsFromHashValue ((store.put (getHashFiledKey key field) value).get key) with
  | error err => rfl
  | ok fieldList =>
      dsimp only
      split_ifs
      · rfl
      · rw [Store.put_withDeadline hkey]

theorem form_hsetBatch (pairs : List (Bytes × Bytes)) :
    Form key (expireHashClean key) empty result (redisHsetBatch key pairs) := by
  refine .write fun store deadline => ?_
  have hkey := (getExplireKey_ne key).symm
  rw [Store.get_withDeadline_of_ne hkey]
  cases getFiledsFromHashValue (store.get key) with
  | error err => rfl
  | ok fieldList =>
      dsimp only
      rw [hsetFields_withDeadline, Store.put_withDeadline hkey]

theorem form_hget (field : Bytes) (hempty : result.1 = empty) (hreply : result.2 = nilReply) :
    Form key (expireHashClean key) empty result (redisHget key field) := by
  rw [redisHget, ← hreply]
  refine .read (fun store deadline => ?_) hempty
  rw [Store.get_withDeadline_of_ne (getHashFiledKey_ne_expire key field)]

theorem form_hdel (field : Bytes) (hempty : result.1 = empty) (hreply : result.2 = intReply 0) :
    Form key (expireHashClean key) empty result (redisHdel key field) := by
  rw [redisHdel, ← hreply]
  refine .take (fun store deadline => ?_) hempty
  have hkey := (getExplireKey_ne key).symm
  have hfield := getHashFiledKey_ne_expire key field
  have hremoved : (if (store.get (getHashFiledKey key field)).isSome
      then (store.withDeadline key deadline).remove (getHashFiledKey key field)
      else store.withDeadline key deadline) =
      (if (store.get (getHashFiledKey key field)).isSome
        then store.remove (getHashFiledKey key field) else store).withDeadline key deadline := by
    split_ifs
    · exact Store.remove_withDeadline hfield
    · rfl
  dsimp only
  rw [Store.get_withDeadline_of_ne hfield, hremoved, Store.get_withDeadline_of_ne hkey]
  generalize (if (store.get (getHashFiledKey key field)).isSome
    then store.remove (getHashFiledKey key field) else store) = removed
  cases getFiledsFromHashValue (removed.get key) with
  | error err => rfl
  | ok fieldList =>
      dsimp only
      by_cases hmem : field ∈ fieldList
      · rw [if_pos hmem, if_pos hmem]
        by_cases hlast : fieldList.erase field = []
        · rw [if_pos hlast, if_pos hlast, Store.remove_withDeadline hkey]
        · rw [if_neg hlast, if_neg hlast, Store.put_withDeadline hkey]
      · rw [if_neg hmem, if_neg hmem]

theorem form_hkeys (hempty : result.1 = empty) (hreply : result.2 = arrayReply []) :
    Form key (expireHashClean key) empty result (redisHkeys key) := by
  rw [redisHkeys, ← hreply]
  refine .read (fun store deadline => ?_) hempty
  rw [Store.get_withDeadline_of_ne (getExplireKey_ne key).symm]

end Forms

/-- The clean-up removes the record of every field that the hash lists. -/
theorem holdsHash_clean {key : Bytes} {store : Store} {map : FieldMap}
    (hhash : HoldsHash key (store.remove (getExplireKey key)) map) :
    ∃ store', expireHashClean key store = (store', .ok ()) ∧ HoldsHash key store' .empty := by
  have hkey := (getExplireKey_ne key).symm
  have hfields := hhash.fields
  rw [Store.get_remove_of_ne _ hkey] at hfields
  rw [expireHashClean, hfields]
  refine ⟨_, rfl, ?_, ?_, fun field => ?_, List.forall_mem_nil _⟩
  · rw [Store.get_remove, if_pos rfl]
  · rw [Store.get_remove_of_ne _ hkey, Store.get_remove, if_pos rfl]
    rfl
  · rw [Store.get_remove_of_ne _ (getHashFiledKey_ne_expire key field),
      Store.get_remove_of_ne _ (getHashFiledKey_ne_key key field), Store.get_removeBatch]
    split_ifs with hmem
    · rfl
    · have hvalue := hhash.values field
      rw [Store.get_remove_of_ne _ (getHashFiledKey_ne_expire key field)] at hvalue
      rw [hvalue]
      by_contra hsome
      have hlisted := (map.present field).mpr (Option.isSome_iff_ne_none.mpr hsome)
      exact hmem (List.mem_map_of_mem hlisted)

/-- Hashes under a key. -/
def hashCollection (key : Bytes) : Collection key HashOp FieldMap where
  command := HashOp.command key
  step := HashOp.apply
  allowed := HashOp.Storable
  holds := HoldsHash key
  empty := .empty
  clean := expireHashClean key
  form op := by
    have herase : ∀ field, FieldMap.empty.erase field = .empty := by
      intro field
      simp [FieldMap.erase, FieldMap.empty]
    cases op with
    | hset field value => exact form_hset field value
    | hsetBatch pairs => exact form_hsetBatch pairs
    | hget field => exact form_hget field rfl rfl
    | hdel field => exact form_hdel field (herase field) rfl
    | hkeys => exact form_hkeys rfl rfl
  holds_expire hhash := hhash.expire
  holds_step hhash hstorable now := hhash.step hstorable now
  holds_clean := holdsHash_clean

/-! ## Sets -/

section Forms

variable {State : Type*} {key : Bytes} {empty : State} {result : State × Bytes}

theorem putBatch_withDeadline {kvs : List (Bytes × Bytes)} (store : Store)
    (deadline : Option Bytes) (hkvs : ∀ kv ∈ kvs, kv.1 ≠ getExplireKey key) :
    (store.withDeadline key deadline).putBatch kvs =
      (store.putBatch kvs).withDeadline key deadline := by
  induction kvs generalizing store with
  | nil => rfl
  | cons kv rest ih =>
      obtain ⟨hkv, hrest⟩ := List.forall_mem_cons.mp hkvs
      rw [Store.putBatch, List.foldl_cons, Store.put_withDeadline hkv]
      exact ih (store.put kv.1 kv.2) hrest

theorem removeBatch_withDeadline {keys : List Bytes} (store : Store)
    (deadline : Option Bytes) (hkeys : ∀ other ∈ keys, other ≠ getExplireKey key) :
    (store.withDeadline key deadline).removeBatch keys =
      (store.removeBatch keys).withDeadline key deadline := by
  induction keys generalizing store with
  | nil => rfl
  | cons other rest ih =>
      obtain ⟨hother, hrest⟩ := List.forall_mem_cons.mp hkeys
      rw [Store.removeBatch, List.foldl_cons, Store.remove_withDeadline hother]
      exact ih (store.remove other) hrest

theorem form_sadd (op : Bytes) (members : List Bytes) :
    Form key (expireSetClean key) empty result (redisSadd (op :: key :: members)) := by
  refine .write fun store deadline => ?_
  have hkey := (getExplireKey_ne key).symm
  have hnew : newMembers key members (store.withDeadline key deadline) =
      newMembers key members store := by
    rw [newMembers, newMembers]
    congr 1
    apply List.filter_congr
    intro member _
    rw [Store.get_withDeadline_of_ne (getSetMemberKey_ne_expire key member)]
  dsimp only
  rw [hnew, Store.get_withDeadline_of_ne hkey]
  cases (store.get key).elim (.ok 0) stoi with
  | error err => rfl
  | ok prevSize =>
      dsimp only
      rw [putBatch_withDeadline]
      intro kv hmem
      rcases List.mem_append.mp hmem with hmem | hmem
      · obtain ⟨member, -, rfl⟩ := List.mem_map.mp hmem
        exact getSetMemberKey_ne_expire key member
      · rw [List.mem_singleton.mp hmem]
        exact hkey

theorem form_srem (op : Bytes) (members : List Bytes) (hempty : result.1 = empty)
    (hreply : result.2 = intReply 0) :
    Form key (expireSetClean key) empty result (redisSrem (op :: key :: members)) := by
  rw [redisSrem, ← hreply]
  refine .take (fun store deadline => ?_) hempty
  have hkey := (getExplireKey_ne key).symm
  have hfound : ((members.map (getSetMemberKey key)).filter fun memberKey =>
        ((store.withDeadline key deadline).get memberKey).isSome) =
      (members.map (getSetMemberKey key)).filter fun memberKey =>
        (store.get memberKey).isSome := by
    apply List.filter_congr
    intro memberKey hmem
    obtain ⟨member, -, rfl⟩ := List.mem_map.mp hmem
    rw [Store.get_withDeadline_of_ne (getSetMemberKey_ne_expire key member)]
  dsimp only
  rw [hfound, Store.get_withDeadline_of_ne hkey]
  cases (store.get key).elim (.ok 0) stoi with
  | error err => rfl
  | ok prevSize =>
      dsimp only
      rw [Store.put_withDeadline hkey, removeBatch_withDeadline]
      intro memberKey hmem
      obtain ⟨member, -, rfl⟩ := List.mem_map.mp (List.mem_filter.mp hmem).1
      exact getSetMemberKey_ne_expire key member

end Forms

/-- The clean-up removes everything with the prefix of the members. -/
theorem holdsSet_clean (key : Bytes) (store : Store) :
    ∃ store', expireSetClean key store = (store', .ok ()) ∧ HoldsSet key store' ∅ := by
  have hgone : ∀ name, ((store.remove key).remove (getExplireKey key)).get name = none →
      ((expireSetClean key store).1).get name = none := by
    intro name hnone
    rw [expireSetClean, expirePrefixClean]
    dsimp only
    rw [Store.get_removeBatch, hnone, ite_self]
  refine ⟨_, rfl, hgone _ ?_, Or.inr ⟨hgone _ ?_, rfl⟩, by decide, fun member => ?_⟩
  · rw [Store.get_remove, if_pos rfl]
  · rw [Store.get_remove_of_ne _ (getExplireKey_ne key).symm, Store.get_remove, if_pos rfl]
  · rw [if_neg (Finset.notMem_empty member), Store.get_removeBatch]
    split_ifs with hmem
    · rfl
    · by_contra hsome
      obtain ⟨value, hvalue⟩ := Option.ne_none_iff_exists'.mp hsome
      exact hmem (List.mem_map_of_mem (Store.mem_scan.mpr ⟨List.prefix_append _ _, hvalue⟩))

/-- Sets under a key. -/
def setCollection (key : Bytes) : Collection key SetOp (Finset Bytes) where
  command := SetOp.command key
  step := SetOp.apply
  allowed := SetOp.Counts
  holds := HoldsSet key
  empty := ∅
  clean := expireSetClean key
  form op := by
    cases op with
    | sadd added => exact form_sadd (ascii "SADD") added
    | srem removed =>
        exact form_srem (ascii "SREM") removed (Finset.empty_sdiff _) (by simp [SetOp.apply])
  holds_expire hset := hset.expire
  holds_step hset hcounts now := hset.step hcounts now
  holds_clean _ := holdsSet_clean key _

/-! ## Runs with deadlines -/

/-- Lists, hashes and sets answer as what they refine, where a deadline that has passed leaves an
empty collection to the next command, and any number of deadlines may be set. -/
theorem collections_keep_deadlines {key : Bytes} {store : Store} (habsent : store.get key = none)
    (hexpire : store.get (getExplireKey key) = none)
    (hfields : ∀ field, store.get (getHashFiledKey key field) = none)
    (hmembers : ∀ member, store.get (getSetMemberKey key member) = none) :
    (∀ ops, (listCollection key).TimedRun ops ([], none) →
      (runCommands (ops.map fun op => (op.1, (listCollection key).timedCommand op.2)) store).2 =
        ((listCollection key).timedReplies ops ([], none)).map .ok) ∧
    (∀ ops, (hashCollection key).TimedRun ops (.empty, none) →
      (runCommands (ops.map fun op => (op.1, (hashCollection key).timedCommand op.2)) store).2 =
        ((hashCollection key).timedReplies ops (.empty, none)).map .ok) ∧
    ∀ ops, (setCollection key).TimedRun ops (∅, none) →
      (runCommands (ops.map fun op => (op.1, (setCollection key).timedCommand op.2)) store).2 =
        ((setCollection key).timedReplies ops (∅, none)).map .ok := by
  have hlist : HoldsList key store [] :=
    ⟨hexpire, habsent, List.forall_mem_nil _, (Option.some_ne_none _).symm⟩
  have hhash : HoldsHash key store .empty :=
    ⟨hexpire, by rw [habsent]; rfl, hfields, List.forall_mem_nil _⟩
  have hset : HoldsSet key store ∅ :=
    ⟨hexpire, Or.inr ⟨habsent, rfl⟩, by decide, hmembers⟩
  refine ⟨fun ops hallowed => ?_, fun ops hallowed => ?_, fun ops hallowed => ?_⟩
  · exact (Collection.HoldsTimed.of_holds hlist rfl).run hallowed
  · exact (Collection.HoldsTimed.of_holds hhash rfl).run hallowed
  · exact (Collection.HoldsTimed.of_holds hset rfl).run hallowed

/-- The list is there at its deadline and gone behind it, and the next one has none. -/
theorem collections_keep_deadlines_sample :
    (runCommands ([(0, Timed.op (ListOp.rpush (ascii "a"))), (1, .expire 10), (11, .op .llen),
        (12, .op (.rpush (ascii "b"))), (90, .op .lpop)].map fun op =>
          (op.1, (listCollection (ascii "k")).timedCommand op.2)) ∅).2 =
      [.ok (intReply 1), .ok (intReply 1), .ok (intReply 1), .ok (intReply 1),
        .ok (bulkReply (ascii "b"))] := by
  have hreplies := (@collections_keep_deadlines (ascii "k") ∅ rfl rfl (fun _ => rfl)
    fun _ => rfl).1 [(0, .op (.rpush (ascii "a"))), (1, .expire 10), (11, .op .llen),
      (12, .op (.rpush (ascii "b"))), (90, .op .lpop)]
    ⟨(by decide : ListOp.Storable (.rpush (ascii "a")) []), (by decide : LongLong 10),
      (by decide : ListOp.Storable .llen [ascii "a"]),
      (by decide : ListOp.Storable (.rpush (ascii "b")) []),
      (by decide : ListOp.Storable .lpop [ascii "b"]), trivial⟩
  rw [hreplies]
  decide

end KopiDb.Redis
