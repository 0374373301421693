import KopiDb.Lib.CallTree
import KopiDb.Redis.Server

/-!
# The methods of the wrapper

The methods of the wrapper reach their records through calls on an `LSM`, one after another.
On one map that answers the calls, every method does what its command does.
-/

namespace KopiDb.Redis

/-- What the wrapper calls its `LSM` for.  A scan walks the range of a prefix to its end. -/
inductive LsmCall where
  | get (key : Bytes)
  | put (key value : Bytes)
  | putBatch (kvs : List (Bytes × Bytes))
  | remove (key : Bytes)
  | removeBatch (keys : List Bytes)
  | scan (preffix : Bytes)
  | clear
  | flush

namespace LsmCall

@[reducible]
def Reply : LsmCall → Type
  | get _ => Option Bytes
  | scan _ => List (Bytes × Bytes)
  | _ => Unit

/-- The call on the one map. -/
def onStore (store : Store) : (call : LsmCall) → Store × call.Reply
  | get key => (store, store.get key)
  | put key value => (store.put key value, ())
  | putBatch kvs => (store.putBatch kvs, ())
  | remove key => (store.remove key, ())
  | removeBatch keys => (store.removeBatch keys, ())
  | scan preffix => (store, store.scan preffix)
  | clear => (∅, ())
  | flush => (store, ())

end LsmCall

/-- What a method of the wrapper does, call by call. -/
abbrev Method := CallTree LsmCall LsmCall.Reply Err

namespace RedisWrapper

/-- A method on the one map. -/
def exec {α : Type} (method : Method α) (store : Store) : Store × Except Err α :=
  method.run LsmCall.onStore store

def lsmGet (key : Bytes) : Method (Option Bytes) := .make (LsmCall.get key)

def lsmPut (key value : Bytes) : Method Unit := .make (LsmCall.put key value)

def lsmPutBatch (kvs : List (Bytes × Bytes)) : Method Unit := .make (LsmCall.putBatch kvs)

def lsmRemove (key : Bytes) : Method Unit := .make (LsmCall.remove key)

def lsmRemoveBatch (keys : List Bytes) : Method Unit := .make (LsmCall.removeBatch keys)

def lsmScan (preffix : Bytes) : Method (List (Bytes × Bytes)) := .make (LsmCall.scan preffix)

section Exec

variable {α : Type} (store : Store)

theorem exec_bind {β : Type} (method : Method β) (next : β → Method α) :
    exec (method >>= next) store =
      match exec method store with
      | (store, .error err) => (store, .error err)
      | (store, .ok value) => exec (next value) store := by
  rw [exec, exec, CallTree.run_bind]
  rcases method.run LsmCall.onStore store with ⟨after, err | value⟩
  · rfl
  · rfl

@[simp]
theorem exec_lsmGet (key : Bytes) (next : Option Bytes → Method α) :
    exec (lsmGet key >>= next) store = exec (next (store.get key)) store :=
  CallTree.run_make_bind LsmCall.onStore store (LsmCall.get key) next

@[simp]
theorem exec_lsmPut (key value : Bytes) (next : Unit → Method α) :
    exec (lsmPut key value >>= next) store = exec (next ()) (store.put key value) :=
  CallTree.run_make_bind LsmCall.onStore store (LsmCall.put key value) next

@[simp]
theorem exec_lsmPutBatch (kvs : List (Bytes × Bytes)) (next : Unit → Method α) :
    exec (lsmPutBatch kvs >>= next) store = exec (next ()) (store.putBatch kvs) :=
  CallTree.run_make_bind LsmCall.onStore store (LsmCall.putBatch kvs) next

@[simp]
theorem exec_lsmRemove (key : Bytes) (next : Unit → Method α) :
    exec (lsmRemove key >>= next) store = exec (next ()) (store.remove key) :=
  CallTree.run_make_bind LsmCall.onStore store (LsmCall.remove key) next

@[simp]
theorem exec_lsmRemoveBatch (keys : List Bytes) (next : Unit → Method α) :
    exec (lsmRemoveBatch keys >>= next) store = exec (next ()) (store.removeBatch keys) :=
  CallTree.run_make_bind LsmCall.onStore store (LsmCall.removeBatch keys) next

@[simp]
theorem exec_lsmScan (preffix : Bytes) (next : List (Bytes × Bytes) → Method α) :
    exec (lsmScan preffix >>= next) store = exec (next (store.scan preffix)) store :=
  CallTree.run_make_bind LsmCall.onStore store (LsmCall.scan preffix) next

@[simp]
theorem exec_ofExcept {β : Type} (result : Except Err β) (next : β → Method α) :
    exec (CallTree.ofExcept result >>= next) store =
      match result with
      | .error err => (store, .error err)
      | .ok value => exec (next value) store := by
  cases result with
  | error err => exact CallTree.run_throw_bind LsmCall.onStore store err next
  | ok value => exact CallTree.run_pure_bind LsmCall.onStore store value next

/-- Deletions one by one. -/
@[simp]
theorem exec_forM_lsmRemove (keys : List Bytes) (next : Unit → Method α) :
    exec (keys.forM lsmRemove >>= next) store = exec (next ()) (store.removeBatch keys) := by
  induction keys generalizing store with
  | nil => rfl
  | cons key rest ih => exact ih (store.remove key)

end Exec

/-! ## Expiry -/

/-- The check that every clean-up starts with; the answer is whether the key had expired. -/
def expireClean (clean : Method Unit) (now : ℤ) (key : Bytes) : Method Bool := do
  let expireQuery ← lsmGet (getExplireKey key)
  let expired ← .ofExcept (isExpired expireQuery now)
  if expired then
    clean
    return true
  else
    return false

def hashClean (key : Bytes) : Method Unit := do
  let fileds ← .ofExcept (getFiledsFromHashValue (← lsmGet key))
  (fileds.map (getHashFiledKey key)).forM lsmRemove
  lsmRemove key
  lsmRemove (getExplireKey key)

def expireHashClean (now : ℤ) (key : Bytes) : Method Bool := expireClean (hashClean key) now key

def listClean (key : Bytes) : Method Unit := do
  lsmRemove key
  lsmRemove (getExplireKey key)

def expireListClean (now : ℤ) (key : Bytes) : Method Bool := expireClean (listClean key) now key

/-- Without a record in the range there is no iterator, and no batch. -/
def prefixClean (preffix key : Bytes) : Method Unit := do
  lsmRemove key
  lsmRemove (getExplireKey key)
  let records ← lsmScan preffix
  if records = [] then return ()
  else lsmRemoveBatch (records.map Prod.fst)

def expireZsetClean (now : ℤ) (key : Bytes) : Method Bool :=
  expireClean (prefixClean (getZsetKeyPreffix key) key) now key

def expireSetClean (now : ℤ) (key : Bytes) : Method Bool :=
  expireClean (prefixClean (getSetKeyPreffix key) key) now key

theorem exec_hashClean (key : Bytes) (store : Store) :
    exec (hashClean key) store = Redis.expireHashClean key store := by
  rw [hashClean, exec_lsmGet, exec_ofExcept, Redis.expireHashClean]
  cases getFiledsFromHashValue (store.get key) with
  | error err => rfl
  | ok fileds => exact exec_forM_lsmRemove _ _ _

theorem exec_listClean (key : Bytes) (store : Store) :
    exec (listClean key) store = Redis.expireListClean key store := rfl

theorem exec_prefixClean (preffix key : Bytes) (store : Store) :
    exec (prefixClean preffix key) store = expirePrefixClean preffix key store := by
  rw [prefixClean, exec_lsmRemove, exec_lsmRemove, exec_lsmScan, expirePrefixClean]
  split_ifs with hnone
  · rw [hnone]
    rfl
  · rfl

/-- The check by itself.  An expiry time that cannot be read throws before any clean-up. -/
theorem exec_expireCheck (clean : Method Unit) (now : ℤ) (key : Bytes) (store : Store) :
    exec (expireClean clean now key) store =
      match isExpired (store.get (getExplireKey key)) now with
      | .error err => (store, .error err)
      | .ok true => exec (clean >>= fun _ => (return true : Method Bool)) store
      | .ok false => (store, .ok false) := by
  rw [expireClean, exec_lsmGet, exec_ofExcept]
  cases isExpired (store.get (getExplireKey key)) now with
  | error err => rfl
  | ok expired =>
      cases expired with
      | false => rfl
      | true => rfl

section Expiry

variable {clean : Method Unit} {cleaned : Store → Store × Except Err Unit}
  (hclean : ∀ store, exec clean store = cleaned store) {key : Bytes} {now : ℤ}
  {next : Bool → Method Bytes} (store : Store)
include hclean

/-- The check and the clean-up, in front of what follows in either case. -/
theorem exec_expireClean {expired : Command} {live : ℤ → Store → Command}
    (hexpired : ∀ store, exec (next true) store = expired.run now store)
    (hlive : exec (next false) store = (live now store).run now store) :
    exec (expireClean clean now key >>= next) store =
      (checkExpiry key cleaned expired live).run now store := by
  rw [exec_bind, exec_expireCheck, checkExpiry, Command.run]
  cases isExpired (store.get (getExplireKey key)) now with
  | error err => rfl
  | ok hasExpired =>
      cases hasExpired with
      | false => exact hlive
      | true =>
          dsimp only
          rw [exec_bind, hclean store, Command.run]
          rcases cleaned store with ⟨after, err | done⟩
          · rfl
          · exact hexpired after

theorem exec_readCommand {expired : Bytes} {read : Store → Except Err Bytes}
    (hexpired : next true = pure expired)
    (hread : exec (next false) store = (store, read store)) :
    exec (expireClean clean now key >>= next) store =
      (readCommand key cleaned expired read).run now store :=
  exec_expireClean hclean store (fun store => by rw [hexpired]; rfl) hread

theorem exec_takeCommand {expired : Bytes} {body : Store → Store × Except Err Bytes}
    (hexpired : next true = pure expired) (hbody : exec (next false) store = body store) :
    exec (expireClean clean now key >>= next) store =
      (takeCommand key cleaned expired body).run now store :=
  exec_expireClean hclean store (fun store => by rw [hexpired]; rfl) hbody

theorem exec_writeCommand {method : Method Bytes} {body : Store → Store × Except Err Bytes}
    (hbody : ∀ store, exec method store = body store) :
    exec (expireClean clean now key >>= fun _ => method) store =
      (writeCommand key cleaned body).run now store :=
  exec_expireClean hclean store hbody (hbody store)

end Expiry

/-! ## Strings -/

/-- `redis_incr` and `redis_decr`. -/
def redisAdd (step : ℤ) (key : Bytes) : Method Bytes := do
  match ← lsmGet key with
  | none =>
      lsmPut key (toDecimal step)
      return toDecimal step
  | some originalValue =>
      let number ← .ofExcept (stoll originalValue)
      let newValue := toDecimal (wrapInt 64 (number + step))
      lsmPut key newValue
      return newValue

def redisIncr (key : Bytes) : Method Bytes := redisAdd 1 key

def redisDecr (key : Bytes) : Method Bytes := redisAdd (-1) key

/-- Removes the record of an expiry time that is there. -/
def dropExpire (key : Bytes) : Method Unit := do
  let expireQuery ← lsmGet (getExplireKey key)
  if expireQuery.isSome then lsmRemove (getExplireKey key)
  else return ()

/-- Removes a record, and before it the fields of a hash. -/
def delRecord (curKey : Bytes) : Method ℕ := do
  match ← lsmGet curKey with
  | none => return 0
  | some curValue =>
      if isValueHash curValue then
        let fieldList ← .ofExcept (getFiledsFromHashValue (some curValue))
        (fieldList.map (getHashFiledKey curKey)).forM lsmRemove
        lsmRemove curKey
        return 1
      else
        lsmRemove curKey
        return 1

/-- The body of the loop of `redis_del`. -/
def delKey (curKey : Bytes) : Method ℕ := do
  let deleted ← delRecord curKey
  dropExpire curKey
  return deleted

def delKeys : List Bytes → ℕ → Method Bytes
  | [], delCount => return intReply delCount
  | curKey :: rest, delCount => do
      let deleted ← delKey curKey
      delKeys rest (delCount + deleted)

def redisDel (args : List Bytes) : Method Bytes := delKeys (args.drop 1) 0

def redisExpire (now : ℤ) (key secondsCount : Bytes) : Method Bytes := do
  let expireTimeStr ← .ofExcept (getExpireTime secondsCount now)
  lsmPut (getExplireKey key) expireTimeStr
  return intReply 1

def redisSet (key value : Bytes) : Method Bytes := do
  lsmPut key value
  dropExpire key
  return okReply

def redisGet (now : ℤ) (key : Bytes) : Method Bytes := do
  let keyQuery ← lsmGet key
  let expireQuery ← lsmGet (getExplireKey key)
  match keyQuery, expireQuery with
  | some value, some expireStr =>
      let expired ← .ofExcept (isExpired (some expireStr) now)
      if expired then
        lsmRemove key
        lsmRemove (getExplireKey key)
        return nilReply
      else
        return bulkReply value
  | some value, none => return bulkReply value
  | none, some _ =>
      lsmRemove (getExplireKey key)
      return nilReply
  | none, none => return nilReply

def redisTtl (now : ℤ) (key : Bytes) : Method Bytes := do
  let keyQuery ← lsmGet key
  let expireQuery ← lsmGet (getExplireKey key)
  match keyQuery, expireQuery with
  | some _, some expireStr =>
      let expired ← .ofExcept (isExpired (some expireStr) now)
      if expired then
        return intReply (-2)
      else
        let expireTime ← .ofExcept (stoll expireStr)
        return intReply (wrapInt 64 (expireTime - now))
  | _, _ => return intReply (-1)

section Strings

variable (now : ℤ) (key : Bytes) (store : Store)

theorem exec_redisAdd (step : ℤ) :
    exec (redisAdd step key) store = (Redis.redisAdd step key).run now store := by
  rw [redisAdd, exec_lsmGet, Redis.redisAdd, Command.run]
  cases store.get key with
  | none => rfl
  | some originalValue =>
      dsimp only
      rw [exec_ofExcept]
      cases stoll originalValue with
      | error err => rfl
      | ok number => rfl

theorem exec_dropExpire {α : Type} (next : Unit → Method α) :
    exec (dropExpire key >>= next) store = exec (next ())
      (if (store.get (getExplireKey key)).isSome then store.remove (getExplireKey key)
        else store) := by
  rw [exec_bind, dropExpire, exec_lsmGet]
  split_ifs
  · rfl
  · rfl

theorem exec_delKey (curKey : Bytes) :
    exec (delKey curKey) store = Redis.delKey store curKey := by
  rw [delKey, exec_bind, delRecord, exec_lsmGet, Redis.delKey]
  cases store.get curKey with
  | none => exact exec_dropExpire curKey store _
  | some curValue =>
      dsimp only
      by_cases hhash : isValueHash curValue
      · rw [if_pos hhash, if_pos hhash, exec_ofExcept]
        cases getFiledsFromHashValue (some curValue) with
        | error err => rfl
        | ok fieldList =>
            dsimp only
            rw [exec_forM_lsmRemove]
            exact exec_dropExpire curKey _ _
      · rw [if_neg hhash, if_neg hhash]
        exact exec_dropExpire curKey _ _

theorem exec_delKeys (keys : List Bytes) (delCount : ℕ) :
    exec (delKeys keys delCount) store = Redis.delKeys keys store delCount := by
  induction keys generalizing store delCount with
  | nil => rfl
  | cons curKey rest ih =>
      rw [delKeys, exec_bind, exec_delKey, Redis.delKeys]
      rcases Redis.delKey store curKey with ⟨after, err | deleted⟩
      · rfl
      · exact ih after _

theorem exec_redisDel (args : List Bytes) :
    exec (redisDel args) store = (Redis.redisDel args).run now store :=
  exec_delKeys store _ 0

theorem exec_redisExpire (secondsCount : Bytes) :
    exec (redisExpire now key secondsCount) store =
      (Redis.redisExpire key secondsCount).run now store := by
  rw [redisExpire, exec_ofExcept, Redis.redisExpire, Command.run]
  cases getExpireTime secondsCount now with
  | error err => rfl
  | ok expireTimeStr => rfl

theorem exec_redisSet (value : Bytes) :
    exec (redisSet key value) store = (Redis.redisSet key value).run now store :=
  exec_dropExpire key (store.put key value) _

theorem exec_redisGet :
    exec (redisGet now key) store = (Redis.redisGet key).run now store := by
  rw [redisGet, exec_lsmGet, exec_lsmGet, Redis.redisGet, Command.run]
  dsimp only
  cases store.get key with
  | none =>
      cases store.get (getExplireKey key) with
      | none => rfl
      | some expireStr => rfl
  | some value =>
      cases store.get (getExplireKey key) with
      | none => rfl
      | some expireStr =>
          dsimp only
          rw [exec_ofExcept]
          cases isExpired (some expireStr) now with
          | error err => rfl
          | ok expired =>
              cases expired with
              | false => rfl
              | true => rfl

theorem exec_redisTtl :
    exec (redisTtl now key) store = (Redis.redisTtl key).run now store := by
  rw [redisTtl, exec_lsmGet, exec_lsmGet, Redis.redisTtl, Command.run]
  cases store.get key with
  | none => rfl
  | some value =>
      cases store.get (getExplireKey key) with
      | none => rfl
      | some expireStr =>
          dsimp only
          rw [exec_ofExcept]
          cases isExpired (some expireStr) now with
          | error err => rfl
          | ok expired =>
              cases expired with
              | true => rfl
              | false =>
                  dsimp only
                  rw [if_neg Bool.false_ne_true, exec_ofExcept]
                  cases stoll expireStr with
                  | error err => rfl
                  | ok expireTime => rfl

end Strings

/-! ## Hashes -/

/-- The loop of `redis_hset_batch`. -/
def hsetFields (key : Bytes) :
    List (Bytes × Bytes) → List Bytes → ℕ → Method (List Bytes × ℕ)
  | [], fieldList, addedCount => return (fieldList, addedCount)
  | (field, value) :: rest, fieldList, addedCount => do
      lsmPut (getHashFiledKey key field) value
      if field ∈ fieldList then hsetFields key rest fieldList addedCount
      else hsetFields key rest (fieldList ++ [field]) (addedCount + 1)

def redisHsetBatch (now : ℤ) (key : Bytes) (fieldValuePairs : List (Bytes × Bytes)) :
    Method Bytes := do
  let _ ← expireHashClean now key
  let fieldList ← .ofExcept (getFiledsFromHashValue (← lsmGet key))
  let (fieldList, addedCount) ← hsetFields key fieldValuePairs fieldList 0
  lsmPut key (getHashValueFromFields fieldList)
  return intReply addedCount

def redisHget (now : ℤ) (key field : Bytes) : Method Bytes := do
  if ← expireHashClean now key then
    return nilReply
  else
    match ← lsmGet (getHashFiledKey key field) with
    | some value => return bulkReply value
    | none => return nilReply

/-- Takes a field out of the record of the hash, which goes with the last field. -/
def dropField (key field : Bytes) : Method Unit := do
  let fieldList ← .ofExcept (getFiledsFromHashValue (← lsmGet key))
  let remaining := fieldList.erase field
  if field ∈ fieldList then
    if remaining = [] then lsmRemove key
    else lsmPut key (getHashValueFromFields remaining)
  else return ()

def redisHdel (now : ℤ) (key field : Bytes) : Method Bytes := do
  if ← expireHashClean now key then
    return intReply 0
  else
    let fieldKey := getHashFiledKey key field
    if (← lsmGet fieldKey).isSome then
      lsmRemove fieldKey
      dropField key field
      return intReply 1
    else
      dropField key field
      return intReply 0

def redisHkeys (now : ℤ) (key : Bytes) : Method Bytes := do
  if ← expireHashClean now key then
    return arrayReply []
  else
    let fields ← .ofExcept (getFiledsFromHashValue (← lsmGet key))
    return arrayReply fields

section Hashes

variable (now : ℤ) (key : Bytes) (store : Store)

theorem exec_hsetFields (pairs : List (Bytes × Bytes)) (fieldList : List Bytes)
    (addedCount : ℕ) : exec (hsetFields key pairs fieldList addedCount) store =
      ((Redis.hsetFields key pairs store fieldList addedCount).1,
        .ok (Redis.hsetFields key pairs store fieldList addedCount).2) := by
  induction pairs generalizing store fieldList addedCount with
  | nil => rfl
  | cons pair rest ih =>
      rw [hsetFields, exec_lsmPut, Redis.hsetFields]
      split_ifs
      · exact ih _ _ _
      · exact ih _ _ _

theorem exec_redisHsetBatch (fieldValuePairs : List (Bytes × Bytes)) :
    exec (redisHsetBatch now key fieldValuePairs) store =
      (Redis.redisHsetBatch key fieldValuePairs).run now store := by
  refine exec_writeCommand (exec_hashClean key) store fun store => ?_
  rw [exec_lsmGet, exec_ofExcept]
  cases getFiledsFromHashValue (store.get key) with
  | error err => rfl
  | ok fieldList =>
      dsimp only
      rw [exec_bind, exec_hsetFields]
      rfl

theorem exec_redisHget (field : Bytes) :
    exec (redisHget now key field) store = (Redis.redisHget key field).run now store := by
  refine exec_readCommand (exec_hashClean key) store rfl ?_
  rw [if_neg Bool.false_ne_true, exec_lsmGet]
  cases store.get (getHashFiledKey key field) with
  | none => rfl
  | some value => rfl

theorem exec_dropField (field : Bytes) (next : Unit → Method Bytes) :
    exec (dropField key field >>= next) store =
      match getFiledsFromHashValue (store.get key) with
      | .error err => (store, .error err)
      | .ok fieldList => exec (next ()) (
          if field ∈ fieldList then
            if fieldList.erase field = [] then store.remove key
            else store.put key (getHashValueFromFields (fieldList.erase field))
          else store) := by
  rw [exec_bind, dropField, exec_lsmGet, exec_ofExcept]
  cases getFiledsFromHashValue (store.get key) with
  | error err => rfl
  | ok fieldList =>
      dsimp only
      split_ifs
      · rfl
      · rfl
      · rfl

theorem exec_redisHdel (field : Bytes) :
    exec (redisHdel now key field) store = (Redis.redisHdel key field).run now store := by
  refine exec_takeCommand (exec_hashClean key) store rfl ?_
  rw [if_neg Bool.false_ne_true]
  dsimp only
  rw [exec_lsmGet]
  split_ifs
  · rw [exec_lsmRemove, exec_dropField]
    rfl
  · rw [exec_dropField]
    rfl

theorem exec_redisHkeys :
    exec (redisHkeys now key) store = (Redis.redisHkeys key).run now store := by
  refine exec_readCommand (exec_hashClean key) store rfl ?_
  rw [if_neg Bool.false_ne_true, exec_lsmGet, exec_ofExcept]
  cases getFiledsFromHashValue (store.get key) with
  | error err => rfl
  | ok fields => rfl

end Hashes

/-! ## Lists -/

/-- `redis_lpush` and `redis_rpush`. -/
def redisPush (added : Bytes → Bytes → Bytes) (now : ℤ) (key value : Bytes) : Method Bytes := do
  let _ ← expireListClean now key
  let listValue := (← lsmGet key).getD []
  let listValue := if listValue ≠ [] then added value listValue else value
  lsmPut key listValue
  return intReply (split listValue redisListSeparator).length

def redisLpush : ℤ → Bytes → Bytes → Method Bytes :=
  redisPush fun value listValue => value ++ redisListSeparator :: listValue

def redisRpush : ℤ → Bytes → Bytes → Method Bytes :=
  redisPush fun value listValue => listValue ++ redisListSeparator :: value

/-- `redis_lpop` and `redis_rpop`. -/
def redisPop (taken : List Bytes → Option (Bytes × List Bytes)) (now : ℤ) (key : Bytes) :
    Method Bytes := do
  if ← expireListClean now key then
    return nilReply
  else
    match ← lsmGet key with
    | none => return nilReply
    | some list =>
        match taken (split list redisListSeparator) with
        | none => return nilReply
        | some (value, elements) =>
            if elements = [] then
              lsmRemove key
              return bulkReply value
            else
              lsmPut key (join elements redisListSeparator)
              return bulkReply value

def redisLpop : ℤ → Bytes → Method Bytes := redisPop popFront

def redisRpop : ℤ → Bytes → Method Bytes := redisPop popBack

def redisLlen (now : ℤ) (key : Bytes) : Method Bytes := do
  if ← expireListClean now key then
    return intReply 0
  else
    match ← lsmGet key with
    | none => return intReply 0
    | some list => return intReply (split list redisListSeparator).length

def redisLrange (now : ℤ) (key : Bytes) (start stop : ℤ) : Method Bytes := do
  if ← expireListClean now key then
    return arrayReply []
  else
    match ← lsmGet key with
    | none => return arrayReply []
    | some list =>
        let elements := split list redisListSeparator
        if elements = [] then return arrayReply []
        else return rangeSlice elements start stop

section Lists

variable (now : ℤ) (key : Bytes) (store : Store)

theorem exec_redisPush (added : Bytes → Bytes → Bytes) (value : Bytes) :
    exec (redisPush added now key value) store =
      (Redis.redisPush added key value).run now store :=
  exec_writeCommand (exec_listClean key) store fun _ => rfl

theorem exec_redisPop (taken : List Bytes → Option (Bytes × List Bytes)) :
    exec (redisPop taken now key) store = (Redis.redisPop taken key).run now store := by
  refine exec_takeCommand (exec_listClean key) store rfl ?_
  rw [if_neg Bool.false_ne_true, exec_lsmGet]
  cases store.get key with
  | none => rfl
  | some list =>
      dsimp only
      cases taken (split list redisListSeparator) with
      | none => rfl
      | some found =>
          dsimp only
          split_ifs
          · rfl
          · rfl

theorem exec_redisLlen :
    exec (redisLlen now key) store = (Redis.redisLlen key).run now store := by
  refine exec_readCommand (exec_listClean key) store rfl ?_
  rw [if_neg Bool.false_ne_true, exec_lsmGet]
  cases store.get key with
  | none => rfl
  | some list => rfl

theorem exec_redisLrange (start stop : ℤ) :
    exec (redisLrange now key start stop) store =
      (Redis.redisLrange key start stop).run now store := by
  refine exec_readCommand (exec_listClean key) store rfl ?_
  rw [if_neg Bool.false_ne_true, exec_lsmGet]
  cases store.get key with
  | none => rfl
  | some list =>
      dsimp only
      split_ifs
      · rfl
      · rfl

end Lists

/-! ## Sorted sets -/

/-- The loop of `redis_zadd`. -/
def zaddPairs (key : Bytes) :
    List (Bytes × Bytes) → List (Bytes × Bytes) → List Bytes → ℕ →
      Method (List (Bytes × Bytes) × List Bytes × ℕ)
  | [], putKvs, removeKeys, addedCount => return (putKvs, removeKeys, addedCount)
  | (score, elem) :: rest, putKvs, removeKeys, addedCount => do
      let added := [(getZsetKeySocre key score, elem), (getZsetKeyElem key elem, score)]
      match ← lsmGet (getZsetKeyElem key elem) with
      | none => zaddPairs key rest (putKvs ++ added) removeKeys (addedCount + 1)
      | some originalScore =>
          if originalScore = score then zaddPairs key rest putKvs removeKeys addedCount
          else
            zaddPairs key rest (putKvs ++ added)
              (removeKeys ++ [getZsetKeySocre key originalScore]) (addedCount + 1)

/-- The deletions are `del_keys`, which nothing is added to. -/
def redisZadd (now : ℤ) (args : List Bytes) : Method Bytes :=
  match args with
  | _ :: key :: args => do
      let pairs ← .ofExcept (scorePairs args)
      let _ ← expireZsetClean now key
      let value := getZsetKeyPreffix key
      let putKvs := if (← lsmGet value).isSome then [] else [(key, value)]
      let delKeys : List Bytes := []
      let (putKvs, _, addedCount) ← zaddPairs key pairs putKvs [] 0
      lsmRemoveBatch delKeys
      lsmPutBatch putKvs
      return intReply addedCount
  | _ => .throw .outOfBounds

/-- The loop of `redis_zrem`. -/
def zremElems (key : Bytes) : List Bytes → ℕ → Method ℕ
  | [], removedCount => return removedCount
  | elem :: rest, removedCount => do
      let keyElem := getZsetKeyElem key elem
      match ← lsmGet keyElem with
      | none => zremElems key rest removedCount
      | some score =>
          lsmRemove keyElem
          lsmRemove (getZsetKeySocre key score)
          zremElems key rest (removedCount + 1)

def redisZrem (now : ℤ) (args : List Bytes) : Method Bytes :=
  match args with
  | _ :: key :: elem :: rest => do
      if ← expireZsetClean now key then
        return intReply 0
      else
        let removedCount ← zremElems key (elem :: rest) 0
        return intReply removedCount
  | _ => return ascii "-ERR wrong number of arguments for 'zrem' command\r\n"

def redisZrange (now : ℤ) (args : List Bytes) : Method Bytes :=
  match args with
  | _ :: key :: startStr :: stopStr :: _ => do
      let start ← .ofExcept (stoi startStr)
      let stop ← .ofExcept (stoi stopStr)
      if ← expireZsetClean now key then
        return arrayReply []
      else
        let elements := (← lsmScan (getZsetScorePreffix key)).map Prod.snd
        if elements = [] then return arrayReply []
        else return rangeSlice elements start stop
  | _ => .throw .outOfBounds

def redisZcard (now : ℤ) (key : Bytes) : Method Bytes := do
  if ← expireZsetClean now key then
    return intReply 0
  else
    return intReply (← lsmScan (getZsetScorePreffix key)).length

def redisZscore (now : ℤ) (key elem : Bytes) : Method Bytes := do
  if ← expireZsetClean now key then
    return nilReply
  else
    match ← lsmGet (getZsetKeyElem key elem) with
    | some score => return bulkReply score
    | none => return nilReply

/-- The score that `redis_zincrby` writes.  The record of the old score goes. -/
def incrScore (arith : DoubleArith) (key increment elem : Bytes) : Method ℕ := do
  match ← lsmGet (getZsetKeyElem key elem) with
  | some originalScore =>
      let original ← .ofExcept (stol originalScore)
      let increment ← .ofExcept (arith.stod increment)
      lsmRemove (getZsetKeySocre key originalScore)
      return arith.addToUint64 original increment
  | none =>
      let increment ← .ofExcept (arith.stod increment)
      return arith.toUint64 increment

def redisZincrby (arith : DoubleArith) (now : ℤ) (key increment elem : Bytes) :
    Method Bytes := do
  let _ ← expireZsetClean now key
  let newScore ← incrScore arith key increment elem
  let newScoreStr := decimal newScore
  lsmPut (getZsetKeyElem key elem) newScoreStr
  lsmPut (getZsetKeySocre key newScoreStr) elem
  return ascii ":" ++ newScoreStr ++ ascii "\r\n"

def redisZrank (now : ℤ) (key elem : Bytes) : Method Bytes := do
  if ← expireZsetClean now key then
    return nilReply
  else
    match ← lsmGet (getZsetKeyElem key elem) with
    | none => return nilReply
    | some score =>
        let records ← lsmScan (getZsetKeyPreffix key)
        match records.findIdx? fun record => decide (record.1 = getZsetKeySocre key score) with
        | none => return nilReply
        | some rank => return intReply rank

section SortedSets

variable (now : ℤ) (key : Bytes) (store : Store)

theorem exec_zaddPairs (pairs putKvs : List (Bytes × Bytes)) (removeKeys : List Bytes)
    (addedCount : ℕ) : exec (zaddPairs key pairs putKvs removeKeys addedCount) store =
      (store, .ok (Redis.zaddPairs key store pairs putKvs removeKeys addedCount)) := by
  induction pairs generalizing putKvs removeKeys addedCount with
  | nil => rfl
  | cons pair rest ih =>
      rw [zaddPairs, exec_lsmGet, Redis.zaddPairs]
      cases store.get (getZsetKeyElem key pair.2) with
      | none => exact ih _ _ _
      | some originalScore =>
          dsimp only
          split_ifs
          · exact ih _ _ _
          · exact ih _ _ _

theorem exec_redisZadd (args : List Bytes) :
    exec (redisZadd now args) store = (Redis.redisZadd args).run now store := by
  match args with
  | [] => rfl
  | [_] => rfl
  | _ :: key :: args =>
      rw [redisZadd, exec_ofExcept, Redis.redisZadd]
      cases scorePairs args with
      | error err => rfl
      | ok pairs =>
          refine exec_writeCommand (exec_prefixClean _ key) store fun store => ?_
          dsimp only
          rw [exec_lsmGet, exec_bind, exec_zaddPairs]
          dsimp only
          rw [exec_lsmRemoveBatch, exec_lsmPutBatch]
          rfl

theorem exec_zremElems (elems : List Bytes) (removedCount : ℕ) :
    exec (zremElems key elems removedCount) store =
      ((Redis.zremElems key elems store removedCount).1,
        .ok (Redis.zremElems key elems store removedCount).2) := by
  induction elems generalizing store removedCount with
  | nil => rfl
  | cons elem rest ih =>
      rw [zremElems, Redis.zremElems]
      rw [exec_lsmGet]
      cases store.get (getZsetKeyElem key elem) with
      | none => exact ih _ _
      | some score => exact ih _ _

theorem exec_redisZrem (args : List Bytes) :
    exec (redisZrem now args) store = (Redis.redisZrem args).run now store := by
  match args with
  | [] => rfl
  | [_] => rfl
  | [_, _] => rfl
  | _ :: key :: elem :: rest =>
      refine exec_takeCommand (exec_prefixClean _ key) store rfl ?_
      rw [if_neg Bool.false_ne_true, exec_bind, exec_zremElems]
      rfl

theorem exec_redisZrange (args : List Bytes) :
    exec (redisZrange now args) store = (Redis.redisZrange args).run now store := by
  match args with
  | [] => rfl
  | [_] => rfl
  | [_, _] => rfl
  | [_, _, _] => rfl
  | _ :: key :: startStr :: stopStr :: _ =>
      rw [redisZrange, exec_ofExcept, Redis.redisZrange]
      cases stoi startStr with
      | error err => rfl
      | ok start =>
          dsimp only
          rw [exec_ofExcept, withNumber]
          cases stoi stopStr with
          | error err => rfl
          | ok stop =>
              refine exec_readCommand (exec_prefixClean _ key) store rfl ?_
              rw [if_neg Bool.false_ne_true, exec_lsmScan]
              split_ifs
              · rfl
              · rfl

theorem exec_redisZcard :
    exec (redisZcard now key) store = (Redis.redisZcard key).run now store :=
  exec_readCommand (exec_prefixClean _ key) store rfl rfl

theorem exec_redisZscore (elem : Bytes) :
    exec (redisZscore now key elem) store = (Redis.redisZscore key elem).run now store := by
  refine exec_readCommand (exec_prefixClean _ key) store rfl ?_
  rw [if_neg Bool.false_ne_true, exec_lsmGet]
  cases store.get (getZsetKeyElem key elem) with
  | none => rfl
  | some score => rfl

theorem exec_redisZincrby (arith : DoubleArith) (increment elem : Bytes) :
    exec (redisZincrby arith now key increment elem) store =
      (Redis.redisZincrby arith key increment elem).run now store := by
  refine exec_writeCommand (exec_prefixClean _ key) store fun store => ?_
  rw [exec_bind, incrScore, exec_lsmGet]
  dsimp only
  cases store.get (getZsetKeyElem key elem) with
  | none =>
      dsimp only
      rw [exec_ofExcept]
      cases arith.stod increment with
      | error err => rfl
      | ok increment => rfl
  | some originalScore =>
      dsimp only
      rw [exec_ofExcept]
      cases stol originalScore with
      | error err => rfl
      | ok original =>
          dsimp only
          rw [exec_ofExcept]
          cases arith.stod increment with
          | error err => rfl
          | ok increment => rfl

theorem exec_redisZrank (elem : Bytes) :
    exec (redisZrank now key elem) store = (Redis.redisZrank key elem).run now store := by
  refine exec_readCommand (exec_prefixClean _ key) store rfl ?_
  rw [if_neg Bool.false_ne_true, exec_lsmGet]
  cases store.get (getZsetKeyElem key elem) with
  | none => rfl
  | some score =>
      dsimp only
      rw [exec_lsmScan]
      cases (store.scan (getZsetKeyPreffix key)).findIdx? fun record =>
          decide (record.1 = getZsetKeySocre key score) with
      | none => rfl
      | some rank => rfl

end SortedSets

/-! ## Sets -/

/-- The loop of `redis_sadd`. -/
def newMembers (key : Bytes) :
    List Bytes → List (Bytes × Bytes) → Method (List (Bytes × Bytes))
  | [], putKvs => return putKvs
  | member :: rest, putKvs => do
      let memberKey := getSetMemberKey key member
      if (← lsmGet memberKey).isNone then
        newMembers key rest (putKvs ++ [(memberKey, getSetMemberValue)])
      else newMembers key rest putKvs

/-- The size in the record of a set. -/
def setSize (key : Bytes) : Method ℤ := do
  match ← lsmGet key with
  | none => return 0
  | some size => .ofExcept (stoi size)

def redisSadd (now : ℤ) (args : List Bytes) : Method Bytes :=
  match args with
  | _ :: key :: members => do
      let _ ← expireSetClean now key
      let putKvs ← newMembers key members []
      let prevSize ← setSize key
      lsmPutBatch (putKvs ++ [(key, toDecimal (wrapInt 32 (putKvs.length + prevSize)))])
      return intReply putKvs.length
  | _ => .throw .outOfBounds

/-- The loop of `redis_srem`. -/
def heldMembers (key : Bytes) : List Bytes → List Bytes → Method (List Bytes)
  | [], delKvs => return delKvs
  | member :: rest, delKvs => do
      let memberKey := getSetMemberKey key member
      if (← lsmGet memberKey).isSome then heldMembers key rest (delKvs ++ [memberKey])
      else heldMembers key rest delKvs

def redisSrem (now : ℤ) (args : List Bytes) : Method Bytes :=
  match args with
  | _ :: key :: members => do
      if ← expireSetClean now key then
        return intReply 0
      else
        let delKvs ← heldMembers key members []
        let prevSize ← setSize key
        lsmPut key (toDecimal (wrapInt 32 (-delKvs.length + prevSize)))
        lsmRemoveBatch delKvs
        return intReply delKvs.length
  | _ => .throw .outOfBounds

def redisSismember (now : ℤ) (key member : Bytes) : Method Bytes := do
  if ← expireSetClean now key then
    return intReply 0
  else
    let memberQuery ← lsmGet (getSetMemberKey key member)
    return intReply (if memberQuery.isSome then 1 else 0)

def redisScard (now : ℤ) (key : Bytes) : Method Bytes := do
  if ← expireSetClean now key then
    return intReply 0
  else
    match ← lsmGet key with
    | some size => return ascii ":" ++ size ++ ascii "\r\n"
    | none => return intReply 0

def redisSmembers (now : ℤ) (key : Bytes) : Method Bytes := do
  if ← expireSetClean now key then
    return arrayReply []
  else
    let preffix := getSetMemberPrefix key
    let records ← lsmScan preffix
    return arrayReply (records.map fun record => record.1.drop preffix.length)

section Sets

variable (now : ℤ) (key : Bytes) (store : Store)

theorem exec_newMembers (members : List Bytes) (putKvs : List (Bytes × Bytes)) :
    exec (newMembers key members putKvs) store =
      (store, .ok (putKvs ++ Redis.newMembers key members store)) := by
  induction members generalizing putKvs with
  | nil =>
      rw [newMembers, Redis.newMembers, List.filter_nil, List.map_nil, List.append_nil]
      rfl
  | cons member rest ih =>
      rw [newMembers]
      rw [exec_lsmGet, Redis.newMembers, List.filter_cons]
      split_ifs
      · rw [ih, List.append_assoc]
        rfl
      · exact ih putKvs

theorem exec_heldMembers (members delKvs : List Bytes) :
    exec (heldMembers key members delKvs) store = (store, .ok (delKvs ++
      (members.map (getSetMemberKey key)).filter fun memberKey =>
        (store.get memberKey).isSome)) := by
  induction members generalizing delKvs with
  | nil =>
      rw [heldMembers, List.map_nil, List.filter_nil, List.append_nil]
      rfl
  | cons member rest ih =>
      rw [heldMembers]
      rw [exec_lsmGet, List.map_cons, List.filter_cons]
      split_ifs
      · rw [ih, List.append_assoc]
        rfl
      · exact ih delKvs

theorem exec_setSize :
    exec (setSize key) store = (store, (store.get key).elim (.ok 0) stoi) := by
  rw [setSize, exec_lsmGet]
  cases store.get key with
  | none => rfl
  | some size =>
      dsimp only [Option.elim]
      cases stoi size with
      | error err => rfl
      | ok size => rfl

theorem exec_redisSadd (args : List Bytes) :
    exec (redisSadd now args) store = (Redis.redisSadd args).run now store := by
  match args with
  | [] => rfl
  | [_] => rfl
  | _ :: key :: members =>
      refine exec_writeCommand (exec_prefixClean _ key) store fun store => ?_
      rw [exec_bind, exec_newMembers]
      dsimp only
      rw [exec_bind, exec_setSize]
      cases (store.get key).elim (.ok 0) stoi with
      | error err => rfl
      | ok prevSize => rfl

theorem exec_redisSrem (args : List Bytes) :
    exec (redisSrem now args) store = (Redis.redisSrem args).run now store := by
  match args with
  | [] => rfl
  | [_] => rfl
  | _ :: key :: members =>
      refine exec_takeCommand (exec_prefixClean _ key) store rfl ?_
      rw [if_neg Bool.false_ne_true, exec_bind, exec_heldMembers]
      dsimp only
      rw [exec_bind, exec_setSize]
      cases (store.get key).elim (.ok 0) stoi with
      | error err => rfl
      | ok prevSize => rfl

theorem exec_redisSismember (member : Bytes) :
    exec (redisSismember now key member) store =
      (Redis.redisSismember key member).run now store :=
  exec_readCommand (exec_prefixClean _ key) store rfl rfl

theorem exec_redisScard :
    exec (redisScard now key) store = (Redis.redisScard key).run now store := by
  refine exec_readCommand (exec_prefixClean _ key) store rfl ?_
  rw [if_neg Bool.false_ne_true, exec_lsmGet]
  cases store.get key with
  | none => rfl
  | some size => rfl

theorem exec_redisSmembers :
    exec (redisSmembers now key) store = (Redis.redisSmembers key).run now store :=
  exec_readCommand (exec_prefixClean _ key) store rfl rfl

end Sets

end RedisWrapper

end KopiDb.Redis
