import KopiDb.Redis.Text

/-!
# Redis commands

Every command is a run of sections under the shared or the exclusive lock.  A section
under the shared lock checks the expiry time of the key; when it has passed, the lock is
given up and the clean-up takes the exclusive lock anew.  Strings, lists, hashes, sorted
sets and sets live in one key space, under keys made from the key of the user.
-/

namespace KopiDb.Redis

/-! ## Keys and stored values -/

def redisExpireHeader : Bytes := ascii "REDIS_EXPIRE_"

def redisHashValuePreffix : Bytes := ascii "REDIS_HASH_VALUE_"

def redisFieldPrefix : Bytes := ascii "REDIS_FIELD_"

/-- `'$'` -/
def redisFieldSeparator : Fin 256 := 36

/-- `'#'` -/
def redisListSeparator : Fin 256 := 35

def redisSortedSetPrefix : Bytes := ascii "REDIS_SORTED_SET_"

def redisSortedSetScoreLen : ℕ := 32

def redisSetPrefix : Bytes := ascii "REDIS_SET_"

/-- The list of fields in the record of a hash. -/
def getFiledsFromHashValue (fieldListOpt : Option Bytes) : Except Err (List Bytes) :=
  let fieldList := fieldListOpt.getD []
  if fieldList = [] then .ok []
  else if fieldList.length < redisHashValuePreffix.length then
    .error (.outOfRange "basic_string::substr")
  else .ok (split (fieldList.drop redisHashValuePreffix.length) redisFieldSeparator)

def getHashValueFromFields (fields : List Bytes) : Bytes :=
  redisHashValuePreffix ++ join fields redisFieldSeparator

def getHashFiledKey (key field : Bytes) : Bytes :=
  redisFieldPrefix ++ key ++ ascii "_" ++ field

def isValueHash (value : Bytes) : Bool := redisHashValuePreffix.isPrefixOf value

def getExplireKey (key : Bytes) : Bytes := redisExpireHeader ++ key

/-- The score with `setw` and `setfill('0')`. -/
def formattedScore (score : Bytes) : Bytes :=
  List.replicate (redisSortedSetScoreLen - score.length) 48 ++ score

def getZsetKeyPreffix (key : Bytes) : Bytes := redisSortedSetPrefix ++ key ++ ascii "_"

def getZsetScorePreffix (key : Bytes) : Bytes :=
  redisSortedSetPrefix ++ key ++ ascii "_SCORE_"

def getZsetKeySocre (key score : Bytes) : Bytes :=
  redisSortedSetPrefix ++ key ++ ascii "_SCORE_" ++ formattedScore score

def getZsetKeyElem (key elem : Bytes) : Bytes :=
  redisSortedSetPrefix ++ key ++ ascii "_ELEM_" ++ elem

def getSetKeyPreffix (key : Bytes) : Bytes := redisSetPrefix ++ key ++ ascii "_"

def getSetMemberKey (key elem : Bytes) : Bytes := redisSetPrefix ++ key ++ ascii "_" ++ elem

def getSetMemberValue : Bytes := ascii "1"

def getSetMemberPrefix (key : Bytes) : Bytes := redisSetPrefix ++ key ++ ascii "_"

/-! ## Replies -/

def okReply : Bytes := ascii "+OK\r\n"

def intReply (number : ℤ) : Bytes := ascii ":" ++ toDecimal number ++ ascii "\r\n"

def bulkReply (value : Bytes) : Bytes :=
  ascii "$" ++ decimal value.length ++ ascii "\r\n" ++ value ++ ascii "\r\n"

def nilReply : Bytes := ascii "$-1\r\n"

def arrayReply (values : List Bytes) : Bytes :=
  ascii "*" ++ decimal values.length ++ ascii "\r\n" ++ values.flatMap bulkReply

/-! ## Sections and commands -/

/-- What is left of a command: an answer, or a section that waits for a lock.  A section
under the shared lock only reads.  The time of the clock is in seconds. -/
inductive Command where
  | done (reply : Except Err Bytes)
  | shared (next : ℤ → Store → Command)
  /-- Removes an expired key, after a shared section has given up its lock. -/
  | cleanUp (clean : Store → Store × Except Err Unit) (next : Command)
  | exclusive (body : ℤ → Store → Store × Except Err Bytes)

namespace Command

/-- All sections without another command between them. -/
def run (now : ℤ) : Command → Store → Store × Except Err Bytes
  | .done reply, store => (store, reply)
  | .shared next, store => (next now store).run now store
  | .cleanUp clean next, store =>
      match clean store with
      | (store, .error err) => (store, .error err)
      | (store, .ok ()) => next.run now store
  | .exclusive body, store => body now store

def mapReply (f : Bytes → Bytes) : Command → Command
  | .done reply => .done (reply.map f)
  | .shared next => .shared fun now store => (next now store).mapReply f
  | .cleanUp clean next => .cleanUp clean (next.mapReply f)
  | .exclusive body => .exclusive fun now store =>
      let (store, reply) := body now store
      (store, reply.map f)

end Command

/-- An answer that depends on a conversion. -/
def withNumber (number : Except Err ℤ) (next : ℤ → Command) : Command :=
  match number with
  | .error err => .done (.error err)
  | .ok number => next number

/-! ## Expiry -/

def isExpired (expireStr : Option Bytes) (now : ℤ) : Except Err Bool :=
  match expireStr with
  | none => .ok false
  | some expireStr => (stoll expireStr).map fun expireTime => decide (expireTime < now)

def getExpireTime (secondsCount : Bytes) (now : ℤ) : Except Err Bytes :=
  (stoll secondsCount).map fun timeAdd => toDecimal (wrapInt 64 (now + timeAdd))

/-- The part of `expire_hash_clean` under the exclusive lock. -/
def expireHashClean (key : Bytes) (store : Store) : Store × Except Err Unit :=
  match getFiledsFromHashValue (store.get key) with
  | .error err => (store, .error err)
  | .ok fileds =>
      let store := store.removeBatch (fileds.map (getHashFiledKey key))
      ((store.remove key).remove (getExplireKey key), .ok ())

def expireListClean (key : Bytes) (store : Store) : Store × Except Err Unit :=
  ((store.remove key).remove (getExplireKey key), .ok ())

/-- The clean-ups of sorted sets and sets: everything with the prefix goes too. -/
def expirePrefixClean (preffix key : Bytes) (store : Store) : Store × Except Err Unit :=
  let store := (store.remove key).remove (getExplireKey key)
  (store.removeBatch ((store.scan preffix).map Prod.fst), .ok ())

def expireZsetClean (key : Bytes) : Store → Store × Except Err Unit :=
  expirePrefixClean (getZsetKeyPreffix key) key

def expireSetClean (key : Bytes) : Store → Store × Except Err Unit :=
  expirePrefixClean (getSetKeyPreffix key) key

/-- The check of the expiry time, which every clean-up makes first, with what follows it
when the key has expired and when it has not. -/
def checkExpiry (key : Bytes) (clean : Store → Store × Except Err Unit) (expired : Command)
    (live : ℤ → Store → Command) : Command :=
  .shared fun now store =>
    match isExpired (store.get (getExplireKey key)) now with
    | .error err => .done (.error err)
    | .ok true => .cleanUp clean expired
    | .ok false => live now store

/-- A command that reads under the shared lock that it made the check with. -/
def readCommand (key : Bytes) (clean : Store → Store × Except Err Unit) (expired : Bytes)
    (read : Store → Except Err Bytes) : Command :=
  checkExpiry key clean (.done (.ok expired)) fun _ store => .done (read store)

/-- A command that answers at once when the key has expired, and writes otherwise. -/
def takeCommand (key : Bytes) (clean : Store → Store × Except Err Unit) (expired : Bytes)
    (body : Store → Store × Except Err Bytes) : Command :=
  checkExpiry key clean (.done (.ok expired)) fun _ _ => .exclusive fun _ => body

/-- A command that writes in either case: an expired key is made anew. -/
def writeCommand (key : Bytes) (clean : Store → Store × Except Err Unit)
    (body : Store → Store × Except Err Bytes) : Command :=
  checkExpiry key clean (.exclusive fun _ => body) fun _ _ => .exclusive fun _ => body

/-! ## Strings -/

/-- `redis_incr` and `redis_decr`. -/
def redisAdd (step : ℤ) (key : Bytes) : Command :=
  .exclusive fun _ store =>
    match store.get key with
    | none => (store.put key (toDecimal step), .ok (toDecimal step))
    | some originalValue =>
        match stoll originalValue with
        | .error err => (store, .error err)
        | .ok number =>
            let newValue := toDecimal (wrapInt 64 (number + step))
            (store.put key newValue, .ok newValue)

def redisIncr (key : Bytes) : Command := redisAdd 1 key

def redisDecr (key : Bytes) : Command := redisAdd (-1) key

/-- The body of the loop of `redis_del`. -/
def delKey (store : Store) (curKey : Bytes) : Store × Except Err ℕ :=
  let (store, deleted) : Store × Except Err ℕ :=
    match store.get curKey with
    | none => (store, .ok 0)
    | some curValue =>
        if isValueHash curValue then
          match getFiledsFromHashValue (some curValue) with
          | .error err => (store, .error err)
          | .ok fieldList =>
              ((store.removeBatch (fieldList.map (getHashFiledKey curKey))).remove curKey,
                .ok 1)
        else (store.remove curKey, .ok 1)
  match deleted with
  | .error err => (store, .error err)
  | .ok deleted =>
      let expireKey := getExplireKey curKey
      (if (store.get expireKey).isSome then store.remove expireKey else store, .ok deleted)

def delKeys : List Bytes → Store → ℕ → Store × Except Err Bytes
  | [], store, delCount => (store, .ok (intReply delCount))
  | curKey :: rest, store, delCount =>
      match delKey store curKey with
      | (store, .error err) => (store, .error err)
      | (store, .ok deleted) => delKeys rest store (delCount + deleted)

def redisDel (args : List Bytes) : Command :=
  .exclusive fun _ store => delKeys (args.drop 1) store 0

def redisExpire (key secondsCount : Bytes) : Command :=
  .exclusive fun now store =>
    match getExpireTime secondsCount now with
    | .error err => (store, .error err)
    | .ok expireTimeStr => (store.put (getExplireKey key) expireTimeStr, .ok (intReply 1))

def redisSet (key value : Bytes) : Command :=
  .exclusive fun _ store =>
    let store := store.put key value
    let expireKey := getExplireKey key
    (if (store.get expireKey).isSome then store.remove expireKey else store, .ok okReply)

def redisGet (key : Bytes) : Command :=
  .shared fun now store =>
    let expireKey := getExplireKey key
    match store.get key, store.get expireKey with
    | some value, some expireStr =>
        match isExpired (some expireStr) now with
        | .error err => .done (.error err)
        | .ok true => .cleanUp (expireListClean key) (.done (.ok nilReply))
        | .ok false => .done (.ok (bulkReply value))
    | some value, none => .done (.ok (bulkReply value))
    | none, some _ =>
        .cleanUp (fun store => (store.remove expireKey, .ok ())) (.done (.ok nilReply))
    | none, none => .done (.ok nilReply)

def redisTtl (key : Bytes) : Command :=
  .shared fun now store =>
    match store.get key, store.get (getExplireKey key) with
    | some _, some expireStr =>
        match isExpired (some expireStr) now with
        | .error err => .done (.error err)
        | .ok true => .done (.ok (intReply (-2)))
        | .ok false =>
            .done ((stoll expireStr).map fun expireTime =>
              intReply (wrapInt 64 (expireTime - now)))
    | _, _ => .done (.ok (intReply (-1)))

/-! ## Hashes -/

/-- The loop of `redis_hset_batch`: the store, the fields and the number of new ones. -/
def hsetFields (key : Bytes) :
    List (Bytes × Bytes) → Store → List Bytes → ℕ → Store × List Bytes × ℕ
  | [], store, fieldList, addedCount => (store, fieldList, addedCount)
  | (field, value) :: rest, store, fieldList, addedCount =>
      let store := store.put (getHashFiledKey key field) value
      if field ∈ fieldList then hsetFields key rest store fieldList addedCount
      else hsetFields key rest store (fieldList ++ [field]) (addedCount + 1)

def redisHsetBatch (key : Bytes) (fieldValuePairs : List (Bytes × Bytes)) : Command :=
  writeCommand key (expireHashClean key) fun store =>
    match getFiledsFromHashValue (store.get key) with
    | .error err => (store, .error err)
    | .ok fieldList =>
        let (store, fieldList, addedCount) := hsetFields key fieldValuePairs store fieldList 0
        (store.put key (getHashValueFromFields fieldList), .ok (intReply addedCount))

/-- The value is written before the record of the hash is looked at. -/
def redisHset (key field value : Bytes) : Command :=
  writeCommand key (expireHashClean key) fun store =>
    let store := store.put (getHashFiledKey key field) value
    match getFiledsFromHashValue (store.get key) with
    | .error err => (store, .error err)
    | .ok fieldList =>
        (if field ∈ fieldList then store
          else store.put key (getHashValueFromFields (fieldList ++ [field])), .ok okReply)

def redisHget (key field : Bytes) : Command :=
  readCommand key (expireHashClean key) nilReply fun store =>
    match store.get (getHashFiledKey key field) with
    | some value => .ok (bulkReply value)
    | none => .ok nilReply

def redisHdel (key field : Bytes) : Command :=
  takeCommand key (expireHashClean key) (intReply 0) fun store =>
    let fieldKey := getHashFiledKey key field
    let delCount := if (store.get fieldKey).isSome then 1 else 0
    let store := if (store.get fieldKey).isSome then store.remove fieldKey else store
    match getFiledsFromHashValue (store.get key) with
    | .error err => (store, .error err)
    | .ok fieldList =>
        let remaining := fieldList.erase field
        (if field ∈ fieldList then
          if remaining = [] then store.remove key
          else store.put key (getHashValueFromFields remaining)
        else store, .ok (intReply delCount))

def redisHkeys (key : Bytes) : Command :=
  readCommand key (expireHashClean key) (arrayReply []) fun store =>
    (getFiledsFromHashValue (store.get key)).map arrayReply

/-! ## Lists -/

/-- `redis_lpush` and `redis_rpush`; `added` puts the value to its end of the list. -/
def redisPush (added : Bytes → Bytes → Bytes) (key value : Bytes) : Command :=
  writeCommand key (expireListClean key) fun store =>
    let listValue := (store.get key).getD []
    let listValue := if listValue ≠ [] then added value listValue else value
    (store.put key listValue, .ok (intReply (split listValue redisListSeparator).length))

def redisLpush : Bytes → Bytes → Command :=
  redisPush fun value listValue => value ++ redisListSeparator :: listValue

def redisRpush : Bytes → Bytes → Command :=
  redisPush fun value listValue => listValue ++ redisListSeparator :: value

/-- `redis_lpop` and `redis_rpop`; `taken` is the element and what it leaves. -/
def redisPop (taken : List Bytes → Option (Bytes × List Bytes)) (key : Bytes) : Command :=
  takeCommand key (expireListClean key) nilReply fun store =>
    match store.get key with
    | none => (store, .ok nilReply)
    | some list =>
        match taken (split list redisListSeparator) with
        | none => (store, .ok nilReply)
        | some (value, elements) =>
            (if elements = [] then store.remove key
              else store.put key (join elements redisListSeparator), .ok (bulkReply value))

def popFront : List Bytes → Option (Bytes × List Bytes)
  | [] => none
  | value :: rest => some (value, rest)

def popBack (elements : List Bytes) : Option (Bytes × List Bytes) :=
  elements.getLast?.map fun value => (value, elements.dropLast)

def redisLpop : Bytes → Command := redisPop popFront

def redisRpop : Bytes → Command := redisPop popBack

def redisLlen (key : Bytes) : Command :=
  readCommand key (expireListClean key) (intReply 0) fun store =>
    match store.get key with
    | none => .ok (intReply 0)
    | some list => .ok (intReply (split list redisListSeparator).length)

/-- The bounds of `redis_lrange` and `redis_zrange`.  A negative `stop` is compared with an
unsigned size, so it counts as large. -/
def rangeSlice (elements : List Bytes) (start stop : ℤ) : Bytes :=
  let size : ℤ := elements.length
  let start := if start < 0 then start + size else start
  let stop := if stop < 0 then stop + size else stop
  let start := if start < 0 then 0 else start
  let stop := if stop < 0 ∨ size ≤ stop then size - 1 else stop
  if start > stop then arrayReply []
  else arrayReply ((elements.drop start.toNat).take (stop - start + 1).toNat)

def redisLrange (key : Bytes) (start stop : ℤ) : Command :=
  readCommand key (expireListClean key) (arrayReply []) fun store =>
    match store.get key with
    | none => .ok (arrayReply [])
    | some list =>
        let elements := split list redisListSeparator
        if elements = [] then .ok (arrayReply []) else .ok (rangeSlice elements start stop)

/-! ## Sorted sets -/

/-- The arguments from the third on, in pairs. -/
def scorePairs : List Bytes → Except Err (List (Bytes × Bytes))
  | [] => .ok []
  | [_] => .error .outOfBounds
  | score :: elem :: rest => (scorePairs rest).map fun pairs => (score, elem) :: pairs

/-- The loop of `redis_zadd`: the records to write, the outdated score records that it
finds, and the count.  Nothing is written while it runs. -/
def zaddPairs (key : Bytes) (store : Store) :
    List (Bytes × Bytes) → List (Bytes × Bytes) → List Bytes → ℕ →
      List (Bytes × Bytes) × List Bytes × ℕ
  | [], putKvs, removeKeys, addedCount => (putKvs, removeKeys, addedCount)
  | (score, elem) :: rest, putKvs, removeKeys, addedCount =>
      let added := [(getZsetKeySocre key score, elem), (getZsetKeyElem key elem, score)]
      match store.get (getZsetKeyElem key elem) with
      | none => zaddPairs key store rest (putKvs ++ added) removeKeys (addedCount + 1)
      | some originalScore =>
          if originalScore = score then
            zaddPairs key store rest putKvs removeKeys addedCount
          else
            zaddPairs key store rest (putKvs ++ added)
              (removeKeys ++ [getZsetKeySocre key originalScore]) (addedCount + 1)

/-- The batch of deletions is `del_keys`, which stays empty: the outdated score records
are collected in `remove_keys` and stay in the store. -/
def redisZadd (args : List Bytes) : Command :=
  match args with
  | _ :: key :: args =>
      match scorePairs args with
      | .error err => .done (.error err)
      | .ok pairs =>
          writeCommand key (expireZsetClean key) fun store =>
            let value := getZsetKeyPreffix key
            let putKvs := if (store.get value).isSome then [] else [(key, value)]
            let delKeys : List Bytes := []
            let (putKvs, _, addedCount) := zaddPairs key store pairs putKvs [] 0
            ((store.removeBatch delKeys).putBatch putKvs, .ok (intReply addedCount))
  | _ => .done (.error .outOfBounds)

/-- The loop of `redis_zrem`. -/
def zremElems (key : Bytes) : List Bytes → Store → ℕ → Store × ℕ
  | [], store, removedCount => (store, removedCount)
  | elem :: rest, store, removedCount =>
      let keyElem := getZsetKeyElem key elem
      match store.get keyElem with
      | none => zremElems key rest store removedCount
      | some score =>
          zremElems key rest ((store.remove keyElem).remove (getZsetKeySocre key score))
            (removedCount + 1)

def redisZrem (args : List Bytes) : Command :=
  match args with
  | _ :: key :: elem :: rest =>
      takeCommand key (expireZsetClean key) (intReply 0) fun store =>
        let (store, removedCount) := zremElems key (elem :: rest) store 0
        (store, .ok (intReply removedCount))
  | _ => .done (.ok (ascii "-ERR wrong number of arguments for 'zrem' command\r\n"))

def redisZrange (args : List Bytes) : Command :=
  match args with
  | _ :: key :: startStr :: stopStr :: _ =>
      withNumber (stoi startStr) fun start =>
        withNumber (stoi stopStr) fun stop =>
          readCommand key (expireZsetClean key) (arrayReply []) fun store =>
            let elements := (store.scan (getZsetScorePreffix key)).map Prod.snd
            if elements = [] then .ok (arrayReply []) else .ok (rangeSlice elements start stop)
  | _ => .done (.error .outOfBounds)

def redisZcard (key : Bytes) : Command :=
  readCommand key (expireZsetClean key) (intReply 0) fun store =>
    .ok (intReply (store.scan (getZsetScorePreffix key)).length)

def redisZscore (key elem : Bytes) : Command :=
  readCommand key (expireZsetClean key) nilReply fun store =>
    match store.get (getZsetKeyElem key elem) with
    | some score => .ok (bulkReply score)
    | none => .ok nilReply

def redisZincrby (arith : DoubleArith) (key increment elem : Bytes) : Command :=
  writeCommand key (expireZsetClean key) fun store =>
    let keyElem := getZsetKeyElem key elem
    let computed : Store × Except Err ℕ :=
      match store.get keyElem with
      | some originalScore =>
          match stol originalScore, arith.stod increment with
          | .error err, _ => (store, .error err)
          | .ok _, .error err => (store, .error err)
          | .ok original, .ok increment =>
              (store.remove (getZsetKeySocre key originalScore),
                .ok (arith.addToUint64 original increment))
      | none => (store, (arith.stod increment).map arith.toUint64)
    match computed with
    | (store, .error err) => (store, .error err)
    | (store, .ok newScore) =>
        let newScoreStr := decimal newScore
        ((store.put keyElem newScoreStr).put (getZsetKeySocre key newScoreStr) elem,
          .ok (ascii ":" ++ newScoreStr ++ ascii "\r\n"))

/-- The rank is counted over all records of the set, those of the members too. -/
def redisZrank (key elem : Bytes) : Command :=
  readCommand key (expireZsetClean key) nilReply fun store =>
    match store.get (getZsetKeyElem key elem) with
    | none => .ok nilReply
    | some score =>
        match (store.scan (getZsetKeyPreffix key)).findIdx? fun record =>
            decide (record.1 = getZsetKeySocre key score) with
        | none => .ok nilReply
        | some rank => .ok (intReply rank)

/-! ## Sets -/

/-- The records of the members that are not there, one for each argument. -/
def newMembers (key : Bytes) (members : List Bytes) (store : Store) : List (Bytes × Bytes) :=
  (members.filter fun member => (store.get (getSetMemberKey key member)).isNone).map
    fun member => (getSetMemberKey key member, getSetMemberValue)

def redisSadd (args : List Bytes) : Command :=
  match args with
  | _ :: key :: members =>
      writeCommand key (expireSetClean key) fun store =>
        let putKvs := newMembers key members store
        match (store.get key).elim (.ok 0) stoi with
        | .error err => (store, .error err)
        | .ok prevSize =>
            (store.putBatch (putKvs ++ [(key, toDecimal (wrapInt 32 (putKvs.length + prevSize)))]),
              .ok (intReply putKvs.length))
  | _ => .done (.error .outOfBounds)

def redisSrem (args : List Bytes) : Command :=
  match args with
  | _ :: key :: members =>
      takeCommand key (expireSetClean key) (intReply 0) fun store =>
        let delKvs := (members.map (getSetMemberKey key)).filter fun memberKey =>
          (store.get memberKey).isSome
        match (store.get key).elim (.ok 0) stoi with
        | .error err => (store, .error err)
        | .ok prevSize =>
            ((store.put key (toDecimal (wrapInt 32 (-delKvs.length + prevSize)))).removeBatch delKvs,
              .ok (intReply delKvs.length))
  | _ => .done (.error .outOfBounds)

def redisSismember (key member : Bytes) : Command :=
  readCommand key (expireSetClean key) (intReply 0) fun store =>
    .ok (intReply (if (store.get (getSetMemberKey key member)).isSome then 1 else 0))

def redisScard (key : Bytes) : Command :=
  readCommand key (expireSetClean key) (intReply 0) fun store =>
    match store.get key with
    | some size => .ok (ascii ":" ++ size ++ ascii "\r\n")
    | none => .ok (intReply 0)

def redisSmembers (key : Bytes) : Command :=
  readCommand key (expireSetClean key) (arrayReply []) fun store =>
    let preffix := getSetMemberPrefix key
    .ok (arrayReply ((store.scan preffix).map fun record => record.1.drop preffix.length))

end KopiDb.Redis
