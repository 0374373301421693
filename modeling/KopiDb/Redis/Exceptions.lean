import KopiDb.Redis.Hashes
import KopiDb.Redis.Footprint

/-!
# Requests that end in an exception

Numbers are read out of arguments and out of stored values, which any other command may
have written, and nothing between the commands and the session catches what the conversions
throw.  A request is answered exactly when all conversions that it comes to succeed.
-/

namespace KopiDb.Redis

def Converts (conv : Bytes → Except Err ℤ) (text : Bytes) : Prop :=
  ∃ number, conv text = .ok number

/-- The text of the record, if there is one, can be converted. -/
def Reads (conv : Bytes → Except Err ℤ) (record : Option Bytes) : Prop :=
  ∀ text, record = some text → Converts conv text

/-- The time to live of the key is over. -/
def Past (key : Bytes) (now : ℤ) (store : Store) : Prop :=
  isExpired (store.get (getExplireKey key)) now = .ok true

/-- The record, if there is one, is as long as the prefix of a hash value. -/
def HashRecord (record : Option Bytes) : Prop :=
  ∀ value, record = some value → redisHashValuePreffix.length ≤ value.length

/-- The conversions that the request comes to succeed.  A wrong number of arguments is
answered without any. -/
def Convertible (arith : DoubleArith) (now : ℤ) (store : Store) : List Bytes → Prop
  | [] => False
  | opStr :: rest =>
      let key := rest.getD 0 []
      let expire := Reads stoll (store.get (getExplireKey key))
      match string2Ops opStr with
      | .ping | .flushall | .save | .unknown | .set | .del => True
      | .get | .ttl => rest.length = 1 → (store.get key).isSome → expire
      | .incr | .decr => rest.length = 1 → Reads stoll (store.get key)
      | .expire => rest.length = 2 → Converts stoll (rest.getD 1 [])
      | .hset =>
          3 ≤ rest.length ∧ rest.length % 2 = 1 → expire ∧ HashRecord (store.get key)
      | .hget =>
          rest.length = 2 → expire ∧ (Past key now store → HashRecord (store.get key))
      | .hdel => rest.length = 2 → expire ∧ HashRecord (store.get key)
      | .hkeys => rest.length = 1 → expire ∧ HashRecord (store.get key)
      | .lpush | .rpush | .llen => rest.length = 2 → expire
      | .lpop | .rpop => rest.length = 1 → expire
      | .lrange =>
          rest.length = 3 →
            Converts stoi (rest.getD 1 []) ∧ Converts stoi (rest.getD 2 []) ∧ expire
      | .zrange =>
          3 ≤ rest.length →
            Converts stoi (rest.getD 1 []) ∧ Converts stoi (rest.getD 2 []) ∧ expire
      | .zadd => 3 ≤ rest.length ∧ rest.length % 2 = 1 → expire
      | .zrem => 2 ≤ rest.length → expire
      | .zcard | .scard | .smembers => rest.length = 1 → expire
      | .zscore | .zrank | .sismember => rest.length = 2 → expire
      | .zincrby =>
          rest.length = 3 → expire ∧ (∃ increment, arith.stod (rest.getD 1 []) = .ok increment) ∧
            (¬Past key now store → Reads stol (store.get (getZsetKeyElem key (rest.getD 2 []))))
      | .sadd | .srem =>
          2 ≤ rest.length → expire ∧ (¬Past key now store → Reads stoi (store.get key))

/-- The command ends with an answer. -/
def Command.Returns (now : ℤ) (store : Store) (command : Command) : Prop :=
  ∃ reply, (command.run now store).2 = .ok reply

/-! ## Sections -/

section Sections

variable {key : Bytes} {clean : Store → Store × Except Err Unit} {now : ℤ} {store : Store}

theorem returns_done (reply : Bytes) : (Command.done (.ok reply)).Returns now store :=
  ⟨reply, rfl⟩

theorem not_returns_error (err : Err) : ¬(Command.done (.error err)).Returns now store := by
  rintro ⟨reply, heq⟩
  cases heq

theorem returns_cleanUp {next : Command} :
    (Command.cleanUp clean next).Returns now store ↔
      (clean store).2 = .ok () ∧ next.Returns now (clean store).1 := by
  rw [Command.Returns, Command.Returns, Command.run]
  cases clean store with
  | mk cleaned result =>
      cases result with
      | error err => simp
      | ok _ => simp

theorem returns_checkExpiry {expired : Command} {live : ℤ → Store → Command} :
    (checkExpiry key clean expired live).Returns now store ↔
      Reads stoll (store.get (getExplireKey key)) ∧
        (Past key now store → (Command.cleanUp clean expired).Returns now store) ∧
        (¬Past key now store → (live now store).Returns now store) := by
  rw [Past, Command.Returns, checkExpiry, Command.run, ← Command.Returns]
  cases store.get (getExplireKey key) with
  | none =>
      rw [isExpired]
      simp [Reads]
  | some expireStr =>
      rw [isExpired]
      cases hnumber : stoll expireStr with
      | error err =>
          rw [Except.map]
          simp [Reads, Converts, hnumber, not_returns_error]
      | ok expireTime =>
          rw [Except.map]
          cases decide (expireTime < now) <;> simp [Reads, Converts, hnumber]

theorem returns_readCommand {expired : Bytes} {read : Store → Except Err Bytes} {p : Prop}
    (hread : (∃ reply, read store = .ok reply) ↔ p) :
    (readCommand key clean expired read).Returns now store ↔
      Reads stoll (store.get (getExplireKey key)) ∧
        (Past key now store → (clean store).2 = .ok ()) ∧ (¬Past key now store → p) := by
  rw [readCommand, returns_checkExpiry, returns_cleanUp, and_iff_left (returns_done expired),
    ← hread]
  rfl

theorem returns_takeCommand {expired : Bytes} {body : Store → Store × Except Err Bytes}
    {p : Prop} (hbody : (∃ reply, (body store).2 = .ok reply) ↔ p) :
    (takeCommand key clean expired body).Returns now store ↔
      Reads stoll (store.get (getExplireKey key)) ∧
        (Past key now store → (clean store).2 = .ok ()) ∧ (¬Past key now store → p) := by
  rw [takeCommand, returns_checkExpiry, returns_cleanUp, and_iff_left (returns_done expired),
    ← hbody]
  rfl

theorem returns_writeCommand {body : Store → Store × Except Err Bytes} {p : Store → Prop}
    (hbody : ∀ store, (∃ reply, (body store).2 = .ok reply) ↔ p store) :
    (writeCommand key clean body).Returns now store ↔
      Reads stoll (store.get (getExplireKey key)) ∧
        (Past key now store → (clean store).2 = .ok () ∧ p (clean store).1) ∧
        (¬Past key now store → p store) := by
  rw [writeCommand, returns_checkExpiry, returns_cleanUp, ← hbody, ← hbody]
  rfl

end Sections

/-! ## Commands -/

section Commands

variable {key : Bytes} {now : ℤ} {store : Store}

theorem hashRecord_iff (store : Store) (key : Bytes) :
    (∃ fields, getFiledsFromHashValue (store.get key) = .ok fields) ↔
      HashRecord (store.get key) := by
  have hne := store.get_ne_nil key
  cases hrecord : store.get key with
  | none => simp [getFiledsFromHashValue, HashRecord]
  | some value =>
      have hvalue : value ≠ [] := fun heq => hne (heq ▸ hrecord)
      simp only [getFiledsFromHashValue, HashRecord, Option.getD_some, if_neg hvalue]
      by_cases hlength : value.length < redisHashValuePreffix.length
      · rw [if_pos hlength]
        simp [hlength]
      · rw [if_neg hlength]
        simp [not_lt.mp hlength]

theorem expireHashClean_ok :
    (expireHashClean key store).2 = .ok () ↔ HashRecord (store.get key) := by
  rw [← hashRecord_iff, expireHashClean]
  cases getFiledsFromHashValue (store.get key) with
  | error err => simp
  | ok fields => simp

theorem returns_redisGet :
    (redisGet key).Returns now store ↔
      ((store.get key).isSome → Reads stoll (store.get (getExplireKey key))) := by
  rw [Command.Returns, redisGet, Command.run]
  dsimp only
  cases store.get key with
  | none => cases store.get (getExplireKey key) <;> simp [Command.run]
  | some value =>
      cases store.get (getExplireKey key) with
      | none => simp [Command.run, Reads]
      | some expireStr =>
          dsimp only
          rw [isExpired]
          cases hnumber : stoll expireStr with
          | error err => simp [Except.map, Command.run, Reads, Converts, hnumber]
          | ok expireTime =>
              rw [Except.map]
              cases decide (expireTime < now) <;>
                simp [Command.run, Reads, Converts, hnumber, expireListClean]

theorem returns_redisTtl :
    (redisTtl key).Returns now store ↔
      ((store.get key).isSome → Reads stoll (store.get (getExplireKey key))) := by
  rw [Command.Returns, redisTtl, Command.run]
  cases store.get key with
  | none => simp [Command.run]
  | some value =>
      cases store.get (getExplireKey key) with
      | none => simp [Command.run, Reads]
      | some expireStr =>
          dsimp only
          rw [isExpired]
          cases hnumber : stoll expireStr with
          | error err => simp [Except.map, Command.run, Reads, Converts, hnumber]
          | ok expireTime =>
              rw [Except.map]
              cases decide (expireTime < now) <;>
                simp [Command.run, Reads, Converts, hnumber, Except.map]

theorem returns_redisAdd (step : ℤ) :
    ((redisAdd step key).mapReply numberForm).Returns now store ↔
      Reads stoll (store.get key) := by
  rw [Command.Returns, redisAdd, Command.mapReply, Command.run]
  dsimp only
  cases store.get key with
  | none => simp [Reads, Except.map]
  | some originalValue =>
      dsimp only
      cases hnumber : stoll originalValue with
      | error err => simp [Reads, Converts, Except.map, hnumber]
      | ok number => simp [Reads, Converts, Except.map, hnumber]

/-- `redis_del` converts nothing: the record of a hash has the prefix. -/
theorem delKey_ok (store : Store) (curKey : Bytes) :
    ∃ deleted, (delKey store curKey).2 = .ok deleted := by
  rw [delKey]
  cases hvalue : store.get curKey with
  | none => exact ⟨_, rfl⟩
  | some curValue =>
      dsimp only
      by_cases hhash : isValueHash curValue = true
      · rw [if_pos hhash]
        have hrecord : HashRecord (store.get curKey) := by
          intro value hsome
          obtain rfl := Option.some.inj (hvalue.symm.trans hsome)
          exact (List.isPrefixOf_iff_prefix.mp hhash).length_le
        obtain ⟨fields, hfields⟩ := (hashRecord_iff store curKey).mpr hrecord
        rw [hvalue] at hfields
        rw [hfields]
        exact ⟨_, rfl⟩
      · rw [if_neg hhash]
        exact ⟨_, rfl⟩

theorem delKeys_ok (keys : List Bytes) (store : Store) (delCount : ℕ) :
    ∃ number, (delKeys keys store delCount).2 = .ok (intReply number) := by
  induction keys generalizing store delCount with
  | nil => exact ⟨_, rfl⟩
  | cons curKey rest ih =>
      have hdeleted := delKey_ok store curKey
      rw [delKeys]
      revert hdeleted
      cases delKey store curKey with
      | mk next result =>
          rintro ⟨deleted, rfl⟩
          exact ih next _

theorem returns_redisExpire (secondsCount : Bytes) :
    (redisExpire key secondsCount).Returns now store ↔ Converts stoll secondsCount := by
  rw [Command.Returns, redisExpire, Command.run, Converts, getExpireTime]
  cases stoll secondsCount with
  | error err => simp [Except.map]
  | ok timeAdd => simp [Except.map]

theorem returns_redisHsetBatch (fieldValuePairs : List (Bytes × Bytes)) :
    (redisHsetBatch key fieldValuePairs).Returns now store ↔
      Reads stoll (store.get (getExplireKey key)) ∧ HashRecord (store.get key) := by
  -- The clean-up of a hash that can be read leaves no record.
  have hcleaned : HashRecord (store.get key) →
      HashRecord ((expireHashClean key store).1.get key) := by
    intro hrecord
    obtain ⟨fields, hfields⟩ := (hashRecord_iff store key).mpr hrecord
    rw [expireHashClean, hfields]
    dsimp only
    rw [Store.get_remove_of_ne _ (getExplireKey_ne key).symm, Store.get_remove, if_pos rfl]
    intro value hvalue
    cases hvalue
  refine (returns_writeCommand (p := fun store => HashRecord (store.get key)) ?_).trans ?_
  · intro store
    rw [← hashRecord_iff]
    cases getFiledsFromHashValue (store.get key) <;> simp
  · rw [expireHashClean_ok]
    tauto

theorem returns_redisHget (field : Bytes) :
    (redisHget key field).Returns now store ↔
      Reads stoll (store.get (getExplireKey key)) ∧
        (Past key now store → HashRecord (store.get key)) := by
  refine (returns_readCommand (p := True) ?_).trans ?_
  · cases store.get (getHashFiledKey key field) <;> simp
  · rw [expireHashClean_ok]
    tauto

theorem returns_redisHdel (field : Bytes) :
    (redisHdel key field).Returns now store ↔
      Reads stoll (store.get (getExplireKey key)) ∧ HashRecord (store.get key) := by
  refine (returns_takeCommand (p := HashRecord (store.get key)) ?_).trans ?_
  · have hrecord : (if (store.get (getHashFiledKey key field)).isSome
        then store.remove (getHashFiledKey key field) else store).get key = store.get key := by
      split_ifs
      · exact Store.get_remove_of_ne _ (getHashFiledKey_ne_key key field).symm
      · rfl
    dsimp only
    rw [hrecord, ← hashRecord_iff]
    cases getFiledsFromHashValue (store.get key) <;> simp
  · rw [expireHashClean_ok]
    tauto

theorem returns_redisHkeys :
    (redisHkeys key).Returns now store ↔
      Reads stoll (store.get (getExplireKey key)) ∧ HashRecord (store.get key) := by
  refine (returns_readCommand (p := HashRecord (store.get key)) ?_).trans ?_
  · rw [← hashRecord_iff]
    cases getFiledsFromHashValue (store.get key) <;> simp [Except.map]
  · rw [expireHashClean_ok]
    tauto

theorem returns_redisPush (added : Bytes → Bytes → Bytes) (value : Bytes) :
    (redisPush added key value).Returns now store ↔
      Reads stoll (store.get (getExplireKey key)) := by
  refine (returns_writeCommand (p := fun _ => True) fun store => by simp).trans ?_
  simp [expireListClean]

theorem returns_redisPop (taken : List Bytes → Option (Bytes × List Bytes)) :
    (redisPop taken key).Returns now store ↔
      Reads stoll (store.get (getExplireKey key)) := by
  refine (returns_takeCommand (p := True) ?_).trans (by simp [expireListClean])
  cases store.get key with
  | none => simp
  | some list =>
      dsimp only
      cases taken (split list redisListSeparator) <;> simp

theorem returns_redisLlen :
    (redisLlen key).Returns now store ↔ Reads stoll (store.get (getExplireKey key)) := by
  refine (returns_readCommand (p := True) ?_).trans (by simp [expireListClean])
  cases store.get key <;> simp

theorem returns_redisLrange (start stop : ℤ) :
    (redisLrange key start stop).Returns now store ↔
      Reads stoll (store.get (getExplireKey key)) := by
  refine (returns_readCommand (p := True) ?_).trans (by simp [expireListClean])
  cases store.get key with
  | none => simp
  | some list =>
      dsimp only
      split_ifs <;> simp

theorem scorePairs_ok : ∀ {args : List Bytes}, args.length % 2 = 0 →
    ∃ pairs, scorePairs args = .ok pairs
  | [], _ => ⟨[], rfl⟩
  | [_], hlength => absurd hlength Nat.one_ne_zero
  | score :: elem :: rest, hlength => by
      rw [List.length_cons, List.length_cons, Nat.add_assoc, Nat.add_mod_right] at hlength
      obtain ⟨pairs, hpairs⟩ := scorePairs_ok hlength
      rw [scorePairs, hpairs]
      exact ⟨_, rfl⟩

theorem returns_redisZadd (op : Bytes) {args : List Bytes} (hpairs : args.length % 2 = 0) :
    (redisZadd (op :: key :: args)).Returns now store ↔
      Reads stoll (store.get (getExplireKey key)) := by
  obtain ⟨pairs, hscore⟩ := scorePairs_ok hpairs
  rw [redisZadd]
  dsimp only
  rw [hscore]
  refine (returns_writeCommand (p := fun _ => True) fun store => by simp).trans ?_
  simp [expireZsetClean, expirePrefixClean]

theorem returns_redisZrem (op elem : Bytes) (rest : List Bytes) :
    (redisZrem (op :: key :: elem :: rest)).Returns now store ↔
      Reads stoll (store.get (getExplireKey key)) := by
  refine (returns_takeCommand (p := True) (by simp)).trans ?_
  simp [expireZsetClean, expirePrefixClean]

theorem returns_withNumber {number : Except Err ℤ} {next : ℤ → Command} {p : Prop}
    (hnext : ∀ number, (next number).Returns now store ↔ p) :
    (withNumber number next).Returns now store ↔ (∃ result, number = .ok result) ∧ p := by
  cases number with
  | error err => simp [withNumber, not_returns_error]
  | ok number => simp [withNumber, hnext]

theorem returns_redisZrange (op startStr stopStr : Bytes) (rest : List Bytes) :
    (redisZrange (op :: key :: startStr :: stopStr :: rest)).Returns now store ↔
      Converts stoi startStr ∧ Converts stoi stopStr ∧
        Reads stoll (store.get (getExplireKey key)) := by
  refine returns_withNumber fun start => returns_withNumber fun stop => ?_
  refine (returns_readCommand (p := True) ?_).trans ?_
  · dsimp only
    split_ifs <;> simp
  · simp [expireZsetClean, expirePrefixClean]

theorem returns_redisZcard :
    (redisZcard key).Returns now store ↔ Reads stoll (store.get (getExplireKey key)) := by
  refine (returns_readCommand (p := True) (by simp)).trans ?_
  simp [expireZsetClean, expirePrefixClean]

theorem returns_redisZscore (elem : Bytes) :
    (redisZscore key elem).Returns now store ↔
      Reads stoll (store.get (getExplireKey key)) := by
  refine (returns_readCommand (p := True) ?_).trans ?_
  · cases store.get (getZsetKeyElem key elem) <;> simp
  · simp [expireZsetClean, expirePrefixClean]

theorem returns_redisZrank (elem : Bytes) :
    (redisZrank key elem).Returns now store ↔
      Reads stoll (store.get (getExplireKey key)) := by
  refine (returns_readCommand (p := True) ?_).trans ?_
  · cases store.get (getZsetKeyElem key elem) with
    | none => simp
    | some score =>
        dsimp only
        generalize (store.scan (getZsetKeyPreffix key)).findIdx? _ = rank
        cases rank <;> simp
  · simp [expireZsetClean, expirePrefixClean]

/-- The clean-up of a sorted set leaves no member. -/
theorem get_expireZsetClean (elem : Bytes) :
    (expireZsetClean key store).1.get (getZsetKeyElem key elem) = none := by
  rw [getZsetKeyElem_preffix]
  exact get_expirePrefixClean_append _ _ _ _

theorem returns_redisZincrby (arith : DoubleArith) (increment elem : Bytes) :
    (redisZincrby arith key increment elem).Returns now store ↔
      Reads stoll (store.get (getExplireKey key)) ∧
        (∃ number, arith.stod increment = .ok number) ∧
        (¬Past key now store → Reads stol (store.get (getZsetKeyElem key elem))) := by
  refine (returns_writeCommand (p := fun store =>
    (∃ number, arith.stod increment = .ok number) ∧
      Reads stol (store.get (getZsetKeyElem key elem))) ?_).trans ?_
  · intro store
    dsimp only
    cases store.get (getZsetKeyElem key elem) with
    | none => cases arith.stod increment <;> simp [Reads, Except.map]
    | some originalScore =>
        dsimp only
        cases hscore : stol originalScore with
        | error err => cases arith.stod increment <;> simp [Reads, Converts, hscore]
        | ok original => cases arith.stod increment <;> simp [Reads, Converts, hscore]
  · rw [get_expireZsetClean]
    have hclean : (expireZsetClean key store).2 = .ok () := rfl
    have hnone : Reads stol none := fun text htext => by cases htext
    tauto

theorem returns_redisSadd (op : Bytes) (members : List Bytes) :
    (redisSadd (op :: key :: members)).Returns now store ↔
      Reads stoll (store.get (getExplireKey key)) ∧
        (¬Past key now store → Reads stoi (store.get key)) := by
  refine (returns_writeCommand (p := fun store => Reads stoi (store.get key)) ?_).trans ?_
  · intro store
    cases store.get key with
    | none => simp [Reads]
    | some size =>
        dsimp only [Option.elim]
        cases hsize : stoi size <;> simp [Reads, Converts, hsize]
  · have hclean : (expireSetClean key store).2 = .ok () := rfl
    have hnone : Reads stoi ((expireSetClean key store).1.get key) := by
      rw [expireSetClean, get_expirePrefixClean]
      intro text htext
      cases htext
    tauto

theorem returns_redisSrem (op : Bytes) (members : List Bytes) :
    (redisSrem (op :: key :: members)).Returns now store ↔
      Reads stoll (store.get (getExplireKey key)) ∧
        (¬Past key now store → Reads stoi (store.get key)) := by
  refine (returns_takeCommand (p := Reads stoi (store.get key)) ?_).trans ?_
  · cases store.get key with
    | none => simp [Reads]
    | some size =>
        dsimp only [Option.elim]
        cases hsize : stoi size <;> simp [Reads, Converts, hsize]
  · simp [expireSetClean, expirePrefixClean]

theorem returns_redisSismember (member : Bytes) :
    (redisSismember key member).Returns now store ↔
      Reads stoll (store.get (getExplireKey key)) := by
  refine (returns_readCommand (p := True) (by simp)).trans ?_
  simp [expireSetClean, expirePrefixClean]

theorem returns_redisScard :
    (redisScard key).Returns now store ↔ Reads stoll (store.get (getExplireKey key)) := by
  refine (returns_readCommand (p := True) ?_).trans ?_
  · cases store.get key <;> simp
  · simp [expireSetClean, expirePrefixClean]

theorem returns_redisSmembers :
    (redisSmembers key).Returns now store ↔ Reads stoll (store.get (getExplireKey key)) := by
  refine (returns_readCommand (p := True) (by simp)).trans ?_
  simp [expireSetClean, expirePrefixClean]

end Commands

/-! ## Requests -/

section Requests

variable {now : ℤ} {store : Store} {opStr : Bytes} {rest : List Bytes}

theorem returns_exactly {size : ℕ} {name : String} {next : Command} {p : Prop}
    (hnext : rest.length = size → (next.Returns now store ↔ p)) :
    (exactly (size + 1) name (opStr :: rest) next).Returns now store ↔
      (rest.length = size → p) := by
  rw [exactly, List.length_cons]
  by_cases hlength : rest.length = size
  · rw [if_neg (by omega), hnext hlength]
    exact (imp_iff_right hlength).symm
  · rw [if_pos (by omega)]
    exact iff_of_true (returns_done _) fun h => absurd h hlength

theorem returns_withArg {idx : ℕ} {next : Bytes → Command} {p : Prop}
    (hidx : idx < rest.length) (hnext : (next (rest.getD idx [])).Returns now store ↔ p) :
    (withArg (opStr :: rest) (idx + 1) next).Returns now store ↔ p := by
  rw [withArg, List.getElem?_cons_succ, List.getElem?_eq_getElem hidx]
  rwa [List.getD_eq_getElem _ _ hidx] at hnext

/-- Handlers for a list of arguments. -/
theorem returns_atLeast {next : Command} {wrong : Prop} [Decidable wrong] {name : String}
    {enough p : Prop} (hwrong : wrong ↔ ¬enough)
    (hnext : enough → (next.Returns now store ↔ p)) :
    (if wrong then wrongNumber name else next).Returns now store ↔ (enough → p) := by
  by_cases henough : enough
  · rw [if_neg (fun h => hwrong.mp h henough), hnext henough]
    exact (imp_iff_right henough).symm
  · rw [if_pos (hwrong.mpr henough)]
    exact iff_of_true (returns_done _) fun h => absurd h henough

/-- The request is answered exactly when the conversions that it comes to succeed. -/
theorem returns_dispatch (arith : DoubleArith) (opStr : Bytes) (rest : List Bytes) (now : ℤ)
    (store : Store) :
    (dispatch arith (opStr :: rest)).Returns now store ↔
      Convertible arith now store (opStr :: rest) := by
  rw [dispatch, withArg, List.getElem?_cons_zero]
  rw [Convertible]
  dsimp only
  generalize string2Ops opStr = op
  cases op with
  | ping => exact iff_true_intro (returns_done _)
  | flushall => exact iff_true_intro ⟨_, rfl⟩
  | save => exact iff_true_intro ⟨_, rfl⟩
  | unknown => exact iff_true_intro (returns_done _)
  | set =>
      refine (returns_exactly fun hlength => returns_withArg (by omega)
        (returns_withArg (p := True) (by omega) ?_)).trans (by simp)
      exact iff_true_intro ⟨_, rfl⟩
  | del =>
      dsimp only
      rw [delHandler]
      split_ifs
      · exact iff_true_intro (returns_done _)
      · obtain ⟨number, hnumber⟩ := delKeys_ok rest store 0
        exact iff_true_intro ⟨_, hnumber⟩
  | get =>
      exact returns_exactly fun hlength => returns_withArg (by omega) returns_redisGet
  | ttl =>
      exact returns_exactly fun hlength => returns_withArg (by omega) returns_redisTtl
  | incr =>
      exact returns_exactly fun hlength => returns_withArg (by omega) (returns_redisAdd 1)
  | decr =>
      exact returns_exactly fun hlength => returns_withArg (by omega) (returns_redisAdd (-1))
  | expire =>
      exact returns_exactly fun hlength => returns_withArg (by omega)
        (returns_withArg (by omega) (returns_redisExpire _))
  | hset =>
      dsimp only
      rw [hsetHandler, wrapperHset]
      by_cases henough : 3 ≤ rest.length ∧ rest.length % 2 = 1
      · rw [if_neg (by rw [List.length_cons]; omega), if_neg (by rw [List.length_cons]; omega),
          imp_iff_right henough]
        exact returns_withArg (by omega) (returns_redisHsetBatch _)
      · refine iff_of_true ?_ fun h => absurd h henough
        split_ifs with hshort hodd
        · exact returns_done _
        · exact returns_done _
        · rw [List.length_cons] at hshort hodd
          exact absurd ⟨by omega, by omega⟩ henough
  | hget =>
      exact returns_exactly fun hlength => returns_withArg (by omega)
        (returns_withArg (by omega) (returns_redisHget _))
  | hdel =>
      exact returns_exactly fun hlength => returns_withArg (by omega)
        (returns_withArg (by omega) (returns_redisHdel _))
  | hkeys =>
      exact returns_exactly fun hlength => returns_withArg (by omega) returns_redisHkeys
  | lpush =>
      exact returns_exactly fun hlength => returns_withArg (by omega)
        (returns_withArg (by omega) (returns_redisPush _ _))
  | rpush =>
      exact returns_exactly fun hlength => returns_withArg (by omega)
        (returns_withArg (by omega) (returns_redisPush _ _))
  | lpop =>
      exact returns_exactly fun hlength => returns_withArg (by omega) (returns_redisPop _)
  | rpop =>
      exact returns_exactly fun hlength => returns_withArg (by omega) (returns_redisPop _)
  | llen =>
      exact returns_exactly fun hlength => returns_withArg (by omega) returns_redisLlen
  | lrange =>
      exact returns_exactly fun hlength => returns_withArg (by omega) <|
        returns_withArg (by omega) <| returns_withNumber fun start =>
          returns_withNumber fun stop => returns_withArg (by omega)
            (returns_redisLrange start stop)
  | zadd =>
      apply returns_atLeast (by rw [List.length_cons]; omega)
      rintro ⟨hlength, hodd⟩
      rcases rest with _ | ⟨key, rest⟩
      · cases hodd
      · rw [List.length_cons] at hodd
        exact returns_redisZadd opStr (by omega)
  | zrem =>
      apply returns_atLeast (by rw [List.length_cons]; omega)
      intro hlength
      rcases rest with _ | ⟨key, _ | ⟨elem, rest⟩⟩
      · cases hlength
      · rw [List.length_singleton] at hlength
        omega
      · exact returns_redisZrem opStr elem rest
  | zrange =>
      apply returns_atLeast (by rw [List.length_cons]; omega)
      intro hlength
      rcases rest with _ | ⟨key, _ | ⟨startStr, _ | ⟨stopStr, rest⟩⟩⟩
      · cases hlength
      · rw [List.length_singleton] at hlength
        omega
      · rw [List.length_cons, List.length_singleton] at hlength
        omega
      · exact returns_redisZrange opStr startStr stopStr rest
  | zcard =>
      exact returns_exactly fun hlength => returns_withArg (by omega) returns_redisZcard
  | zscore =>
      exact returns_exactly fun hlength => returns_withArg (by omega)
        (returns_withArg (by omega) (returns_redisZscore _))
  | zincrby =>
      exact returns_exactly fun hlength => returns_withArg (by omega) <|
        returns_withArg (by omega) <| returns_withArg (by omega)
          (returns_redisZincrby arith _ _)
  | zrank =>
      exact returns_exactly fun hlength => returns_withArg (by omega)
        (returns_withArg (by omega) (returns_redisZrank _))
  | sadd =>
      apply returns_atLeast (by rw [List.length_cons]; omega)
      intro hlength
      rcases rest with _ | ⟨key, members⟩
      · cases hlength
      · exact returns_redisSadd opStr members
  | srem =>
      apply returns_atLeast (by rw [List.length_cons]; omega)
      intro hlength
      rcases rest with _ | ⟨key, members⟩
      · cases hlength
      · exact returns_redisSrem opStr members
  | sismember =>
      exact returns_exactly fun hlength => returns_withArg (by omega)
        (returns_withArg (by omega) (returns_redisSismember _))
  | scard =>
      exact returns_exactly fun hlength => returns_withArg (by omega) returns_redisScard
  | smembers =>
      exact returns_exactly fun hlength => returns_withArg (by omega) returns_redisSmembers

end Requests

/-! ## Answers with an error -/

/-- `-ERR ...` -/
def IsErrorReply (reply : Bytes) : Prop := reply.head? = some 45

namespace Command

/-- No answer of the command is an error. -/
def NoError : Command → Prop
  | .done reply => ∀ text, reply = .ok text → ¬IsErrorReply text
  | .shared next => ∀ now store, (next now store).NoError
  | .cleanUp _ next => next.NoError
  | .exclusive body => ∀ now store text, (body now store).2 = .ok text → ¬IsErrorReply text

/-- The command answers with an error only before it writes. -/
def ErrorsFirst : Command → Prop
  | .done _ => True
  | .shared next => ∀ now store, (next now store).ErrorsFirst
  | .cleanUp _ next => next.NoError
  | .exclusive body => NoError (.exclusive body)

theorem NoError.run {command : Command} (hnone : command.NoError) {now : ℤ} {store : Store}
    {text : Bytes} (hreply : (command.run now store).2 = .ok text) : ¬IsErrorReply text := by
  induction command generalizing store with
  | done reply => exact hnone text hreply
  | shared next ih => exact ih now store (hnone now store) hreply
  | cleanUp clean next ih =>
      rw [Command.run] at hreply
      revert hreply
      cases clean store with
      | mk cleaned result =>
          cases result with
          | error err => exact fun hreply => by cases hreply
          | ok _ => exact ih hnone
  | exclusive body => exact hnone now store text hreply

theorem ErrorsFirst.run {command : Command} (hfirst : command.ErrorsFirst) {now : ℤ}
    {store : Store} {text : Bytes} (hreply : (command.run now store).2 = .ok text)
    (herror : IsErrorReply text) : (command.run now store).1 = store := by
  induction command generalizing store with
  | done reply => rfl
  | shared next ih => exact ih now store (hfirst now store) hreply
  | cleanUp clean next =>
      have hnone : (Command.cleanUp clean next).NoError := hfirst
      exact absurd herror (hnone.run hreply)
  | exclusive body => exact absurd herror (hfirst now store text hreply)

end Command

theorem not_isErrorReply {reply : Bytes} (char : Fin 256) (hhead : reply.head? = some char)
    (hchar : char ≠ 45) : ¬IsErrorReply reply := by
  rw [IsErrorReply, hhead, Option.some.injEq]
  exact hchar

theorem intReply_not_error (number : ℤ) : ¬IsErrorReply (intReply number) :=
  not_isErrorReply 58 rfl (by decide)

theorem bulkReply_not_error (value : Bytes) : ¬IsErrorReply (bulkReply value) :=
  not_isErrorReply 36 rfl (by decide)

theorem nilReply_not_error : ¬IsErrorReply nilReply :=
  not_isErrorReply 36 rfl (by decide)

theorem okReply_not_error : ¬IsErrorReply okReply :=
  not_isErrorReply 43 rfl (by decide)

theorem arrayReply_not_error (values : List Bytes) : ¬IsErrorReply (arrayReply values) :=
  not_isErrorReply 42 rfl (by decide)

section ErrorsFirst

variable {key : Bytes} {clean : Store → Store × Except Err Unit}

theorem errorsFirst_readCommand {expired : Bytes} {read : Store → Except Err Bytes}
    (hexpired : ¬IsErrorReply expired) : (readCommand key clean expired read).ErrorsFirst := by
  intro now store
  dsimp only
  cases isExpired (store.get (getExplireKey key)) now with
  | error err => trivial
  | ok verdict =>
      cases verdict with
      | true =>
          intro text htext
          rwa [← Except.ok.inj htext]
      | false => trivial

theorem errorsFirst_takeCommand {expired : Bytes} {body : Store → Store × Except Err Bytes}
    (hexpired : ¬IsErrorReply expired)
    (hbody : ∀ store text, (body store).2 = .ok text → ¬IsErrorReply text) :
    (takeCommand key clean expired body).ErrorsFirst := by
  intro now store
  dsimp only
  cases isExpired (store.get (getExplireKey key)) now with
  | error err => trivial
  | ok verdict =>
      cases verdict with
      | true =>
          intro text htext
          rwa [← Except.ok.inj htext]
      | false => exact fun _ => hbody

theorem errorsFirst_writeCommand {body : Store → Store × Except Err Bytes}
    (hbody : ∀ store text, (body store).2 = .ok text → ¬IsErrorReply text) :
    (writeCommand key clean body).ErrorsFirst := by
  intro now store
  dsimp only
  cases isExpired (store.get (getExplireKey key)) now with
  | error err => trivial
  | ok verdict =>
      cases verdict with
      | true => exact fun _ => hbody
      | false => exact fun _ => hbody

theorem errorsFirst_withNumber {number : Except Err ℤ} {next : ℤ → Command}
    (hnext : ∀ number, (next number).ErrorsFirst) :
    (withNumber number next).ErrorsFirst := by
  cases number with
  | error err => trivial
  | ok number => exact hnext number

theorem errorsFirst_redisAdd (step : ℤ) :
    ((redisAdd step key).mapReply numberForm).ErrorsFirst := by
  intro now store text htext
  obtain ⟨res, -, rfl⟩ : ∃ res, ((redisAdd step key).run now store).2 = .ok res ∧
      numberForm res = text := by
    change ((redisAdd step key).run now store).2.map numberForm = .ok text at htext
    revert htext
    cases ((redisAdd step key).run now store).2 with
    | error err => exact fun htext => by cases htext
    | ok res => exact fun htext => ⟨res, rfl, Except.ok.inj htext⟩
  exact not_isErrorReply 58 rfl (by decide)

theorem errorsFirst_redisDel (args : List Bytes) : (redisDel args).ErrorsFirst := by
  intro now store text htext
  obtain ⟨number, hnumber⟩ := delKeys_ok (args.drop 1) store 0
  rw [← Except.ok.inj (hnumber.symm.trans htext)]
  exact intReply_not_error number

theorem errorsFirst_redisExpire (secondsCount : Bytes) :
    (redisExpire key secondsCount).ErrorsFirst := by
  intro now store text
  dsimp only
  cases getExpireTime secondsCount now with
  | error err => exact fun htext => by cases htext
  | ok expireTimeStr => exact fun htext => Except.ok.inj htext ▸ intReply_not_error 1

theorem errorsFirst_redisGet : (redisGet key).ErrorsFirst := by
  intro now store
  dsimp only
  have hnil : ∀ text, Except.ok nilReply = (Except.ok text : Except Err Bytes) →
      ¬IsErrorReply text := fun text htext => Except.ok.inj htext ▸ nilReply_not_error
  cases store.get key with
  | none =>
      cases store.get (getExplireKey key) with
      | none => trivial
      | some expireStr => exact hnil
  | some value =>
      cases store.get (getExplireKey key) with
      | none => trivial
      | some expireStr =>
          dsimp only
          cases isExpired (some expireStr) now with
          | error err => trivial
          | ok verdict =>
              cases verdict with
              | true => exact hnil
              | false => trivial

theorem errorsFirst_redisTtl : (redisTtl key).ErrorsFirst := by
  intro now store
  dsimp only
  cases store.get key with
  | none => trivial
  | some value =>
      cases store.get (getExplireKey key) with
      | none => trivial
      | some expireStr =>
          dsimp only
          cases isExpired (some expireStr) now with
          | error err => trivial
          | ok verdict => cases verdict <;> trivial

theorem errorsFirst_redisHsetBatch (fieldValuePairs : List (Bytes × Bytes)) :
    (redisHsetBatch key fieldValuePairs).ErrorsFirst := by
  apply errorsFirst_writeCommand
  intro store text
  cases getFiledsFromHashValue (store.get key) with
  | error err => exact fun htext => by cases htext
  | ok fieldList => exact fun htext => Except.ok.inj htext ▸ intReply_not_error _

theorem errorsFirst_redisHdel (field : Bytes) : (redisHdel key field).ErrorsFirst := by
  apply errorsFirst_takeCommand (intReply_not_error 0)
  intro store text
  dsimp only
  generalize (if (store.get (getHashFiledKey key field)).isSome
    then store.remove (getHashFiledKey key field) else store) = removed
  cases getFiledsFromHashValue (removed.get key) with
  | error err => exact fun htext => by cases htext
  | ok fieldList => exact fun htext => Except.ok.inj htext ▸ intReply_not_error _

theorem errorsFirst_redisPop (taken : List Bytes → Option (Bytes × List Bytes)) :
    (redisPop taken key).ErrorsFirst := by
  apply errorsFirst_takeCommand nilReply_not_error
  intro store text
  cases store.get key with
  | none => exact fun htext => Except.ok.inj htext ▸ nilReply_not_error
  | some list =>
      dsimp only
      cases taken (split list redisListSeparator) with
      | none => exact fun htext => Except.ok.inj htext ▸ nilReply_not_error
      | some result => exact fun htext => Except.ok.inj htext ▸ bulkReply_not_error _

theorem errorsFirst_redisZincrby (arith : DoubleArith) (increment elem : Bytes) :
    (redisZincrby arith key increment elem).ErrorsFirst := by
  apply errorsFirst_writeCommand
  intro store text
  dsimp only
  have hnumber : ∀ score : ℕ,
      ¬IsErrorReply (ascii ":" ++ decimal score ++ ascii "\r\n") :=
    fun score => not_isErrorReply 58 rfl (by decide)
  cases store.get (getZsetKeyElem key elem) with
  | none =>
      cases arith.stod increment with
      | error err => exact fun htext => by cases htext
      | ok number => exact fun htext => Except.ok.inj htext ▸ hnumber _
  | some originalScore =>
      dsimp only
      cases stol originalScore with
      | error err => exact fun htext => by cases htext
      | ok original =>
          cases arith.stod increment with
          | error err => exact fun htext => by cases htext
          | ok number => exact fun htext => Except.ok.inj htext ▸ hnumber _

theorem errorsFirst_redisSadd (op : Bytes) (members : List Bytes) :
    (redisSadd (op :: key :: members)).ErrorsFirst := by
  apply errorsFirst_writeCommand
  intro store text
  dsimp only
  cases (store.get key).elim (.ok 0) stoi with
  | error err => exact fun htext => by cases htext
  | ok prevSize => exact fun htext => Except.ok.inj htext ▸ intReply_not_error _

theorem errorsFirst_redisSrem (op : Bytes) (members : List Bytes) :
    (redisSrem (op :: key :: members)).ErrorsFirst := by
  apply errorsFirst_takeCommand (intReply_not_error 0)
  intro store text
  dsimp only
  cases (store.get key).elim (.ok 0) stoi with
  | error err => exact fun htext => by cases htext
  | ok prevSize => exact fun htext => Except.ok.inj htext ▸ intReply_not_error _

theorem KeyCommand.errorsFirst {arith : DoubleArith} {command : Command}
    (hcommand : KeyCommand arith key command) : command.ErrorsFirst := by
  cases hcommand with
  | done reply => trivial
  | save => exact fun _ _ _ htext => Except.ok.inj htext ▸ okReply_not_error
  | set value => exact fun _ _ _ htext => Except.ok.inj htext ▸ okReply_not_error
  | get => exact errorsFirst_redisGet
  | del op keys hkeys => exact errorsFirst_redisDel _
  | add step => exact errorsFirst_redisAdd step
  | expire secondsCount => exact errorsFirst_redisExpire secondsCount
  | ttl => exact errorsFirst_redisTtl
  | hset pairs => exact errorsFirst_redisHsetBatch pairs
  | hget field => exact errorsFirst_readCommand nilReply_not_error
  | hdel field => exact errorsFirst_redisHdel field
  | hkeys => exact errorsFirst_readCommand (arrayReply_not_error _)
  | push added value =>
      exact errorsFirst_writeCommand fun _ _ htext =>
        Except.ok.inj htext ▸ intReply_not_error _
  | pop taken => exact errorsFirst_redisPop taken
  | llen => exact errorsFirst_readCommand (intReply_not_error _)
  | lrange start stop => exact errorsFirst_readCommand (arrayReply_not_error _)
  | zadd op args =>
      rw [redisZadd]
      dsimp only
      cases scorePairs args with
      | error err => trivial
      | ok pairs =>
          exact errorsFirst_writeCommand fun _ _ htext =>
            Except.ok.inj htext ▸ intReply_not_error _
  | zrem op args =>
      cases args with
      | nil => trivial
      | cons elem rest =>
          exact errorsFirst_takeCommand (intReply_not_error _) fun _ _ htext =>
            Except.ok.inj htext ▸ intReply_not_error _
  | zrange op args =>
      rcases args with _ | ⟨startStr, _ | ⟨stopStr, rest⟩⟩
      · trivial
      · trivial
      · exact errorsFirst_withNumber fun start => errorsFirst_withNumber fun stop =>
          errorsFirst_readCommand (arrayReply_not_error _)
  | zcard => exact errorsFirst_readCommand (intReply_not_error _)
  | zscore elem => exact errorsFirst_readCommand nilReply_not_error
  | zincrby increment elem => exact errorsFirst_redisZincrby arith increment elem
  | zrank elem => exact errorsFirst_readCommand nilReply_not_error
  | sadd op members => exact errorsFirst_redisSadd op members
  | srem op members => exact errorsFirst_redisSrem op members
  | sismember member => exact errorsFirst_readCommand (intReply_not_error _)
  | scard => exact errorsFirst_readCommand (intReply_not_error _)
  | smembers => exact errorsFirst_readCommand (arrayReply_not_error _)

end ErrorsFirst

theorem errorsFirst_dispatch (arith : DoubleArith) (args : List Bytes) :
    (dispatch arith args).ErrorsFirst := by
  rcases args with _ | ⟨opStr, rest⟩
  · trivial
  by_cases hkey : OnKey (rest.headD []) (opStr :: rest)
  · exact (dispatch_keyCommand arith hkey).errorsFirst
  · -- Only `del` and `flushall` are about more than one key.
    rw [dispatch, withArg, List.getElem?_cons_zero]
    rw [OnKey] at hkey
    dsimp only
    generalize string2Ops opStr = op at hkey ⊢
    have hhead : ∀ other ∈ rest.head?, other = rest.headD [] := by
      intro other hother
      cases rest with
      | nil => cases hother
      | cons head rest => exact (Option.some.inj hother).symm
    cases op with
    | del =>
        dsimp only
        rw [delHandler]
        split_ifs
        · trivial
        · exact errorsFirst_redisDel _
    | flushall => exact fun _ _ _ htext => Except.ok.inj htext ▸ okReply_not_error
    | ping => exact absurd trivial hkey
    | save => exact absurd trivial hkey
    | unknown => exact absurd trivial hkey
    | _ => exact absurd hhead hkey

end KopiDb.Redis
