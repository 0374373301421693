import KopiDb.Redis.Runs

/-!
# Dispatch of requests

The handlers check the number of arguments and call the commands.  An argument is taken by
its index, and an index past the end is an access out of bounds.
-/

namespace KopiDb.Redis

/-- `args[idx]` -/
def withArg (args : List Bytes) (idx : ℕ) (next : Bytes → Command) : Command :=
  match args[idx]? with
  | none => .done (.error .outOfBounds)
  | some arg => next arg

inductive Ops where
  | ping | flushall | save
  | get | set | del | incr | decr | expire | ttl
  | hset | hget | hdel | hkeys
  | lpush | rpush | lpop | rpop | llen | lrange
  | zadd | zrem | zrange | zcard | zscore | zincrby | zrank
  | sadd | srem | sismember | scard | smembers
  | unknown
  deriving DecidableEq, Repr

/-- `std::tolower` of one character. -/
def toLowerChar (char : Fin 256) : Fin 256 :=
  if 65 ≤ char ∧ char ≤ 90 then char + 32 else char

def toLower (str : Bytes) : Bytes := str.map toLowerChar

def opsMap : List (Bytes × Ops) :=
  [(ascii "ping", .ping), (ascii "flushall", .flushall), (ascii "save", .save),
    (ascii "get", .get), (ascii "set", .set), (ascii "del", .del), (ascii "incr", .incr),
    (ascii "decr", .decr), (ascii "expire", .expire), (ascii "ttl", .ttl),
    (ascii "hset", .hset), (ascii "hget", .hget), (ascii "hdel", .hdel),
    (ascii "hkeys", .hkeys), (ascii "rpush", .rpush), (ascii "lpush", .lpush),
    (ascii "rpop", .rpop), (ascii "lpop", .lpop), (ascii "llen", .llen),
    (ascii "lrange", .lrange), (ascii "zadd", .zadd), (ascii "zcard", .zcard),
    (ascii "zincrby", .zincrby), (ascii "zrange", .zrange), (ascii "zrank", .zrank),
    (ascii "zrem", .zrem), (ascii "zscore", .zscore), (ascii "sadd", .sadd),
    (ascii "scard", .scard), (ascii "smembers", .smembers), (ascii "srem", .srem),
    (ascii "sismember", .sismember)]

def string2Ops (opStr : Bytes) : Ops := (opsMap.lookup (toLower opStr)).getD .unknown

/-- The answer to a wrong number of arguments. -/
def wrongNumber (name : String) : Command :=
  .done (.ok (ascii "-ERR wrong number of arguments for '" ++ ascii name ++
    ascii "' command\r\n"))

/-- Deletes everything, without the lock of the commands. -/
def flushallHandler : Command := .exclusive fun _ _ => (∅, .ok okReply)

/-- A flush moves records to the files and changes none.  One that throws is, like a put that
starts it, a fault among the calls of the request. -/
def saveHandler : Command := .exclusive fun _ store => (store, .ok okReply)

/-- A handler for a fixed number of arguments. -/
def exactly (size : ℕ) (name : String) (args : List Bytes) (next : Command) : Command :=
  if args.length ≠ size then wrongNumber name else next

def setHandler (args : List Bytes) : Command :=
  exactly 3 "SET" args <| withArg args 1 fun key => withArg args 2 fun value =>
    redisSet key value

def getHandler (args : List Bytes) : Command :=
  exactly 2 "GET" args <| withArg args 1 redisGet

def delHandler (args : List Bytes) : Command :=
  if args.length < 2 then wrongNumber "DEL" else redisDel args

/-- The answer of `redis_incr` and `redis_decr` in the form of a number. -/
def numberForm (res : Bytes) : Bytes := ascii ":" ++ res ++ ascii "\r\n"

def incrHandler (args : List Bytes) : Command :=
  exactly 2 "INCR" args <| withArg args 1 fun key => (redisIncr key).mapReply numberForm

def decrHandler (args : List Bytes) : Command :=
  exactly 2 "DECR" args <| withArg args 1 fun key => (redisDecr key).mapReply numberForm

def expireHandler (args : List Bytes) : Command :=
  exactly 3 "EXPIRE" args <| withArg args 1 fun key => withArg args 2 fun secondsCount =>
    redisExpire key secondsCount

def ttlHandler (args : List Bytes) : Command :=
  exactly 2 "TTL" args <| withArg args 1 redisTtl

/-- The loop of `RedisWrapper::hset`, which drops a field without a value. -/
def fieldValues : List Bytes → List (Bytes × Bytes)
  | field :: value :: rest => (field, value) :: fieldValues rest
  | _ => []

/-- `RedisWrapper::hset` -/
def wrapperHset (args : List Bytes) : Command :=
  if args.length < 4 ∨ (args.length - 1) % 2 ≠ 1 then wrongNumber "hset"
  else withArg args 1 fun key => redisHsetBatch key (fieldValues (args.drop 2))

def hsetHandler (args : List Bytes) : Command :=
  if args.length < 4 then wrongNumber "HSET" else wrapperHset args

def hgetHandler (args : List Bytes) : Command :=
  exactly 3 "HGET" args <| withArg args 1 fun key => withArg args 2 fun field =>
    redisHget key field

def hdelHandler (args : List Bytes) : Command :=
  exactly 3 "HDEL" args <| withArg args 1 fun key => withArg args 2 fun field =>
    redisHdel key field

def hkeysHandler (args : List Bytes) : Command :=
  exactly 2 "HKEYS" args <| withArg args 1 redisHkeys

def lpushHandler (args : List Bytes) : Command :=
  exactly 3 "LPUSH" args <| withArg args 1 fun key => withArg args 2 fun value =>
    redisLpush key value

def rpushHandler (args : List Bytes) : Command :=
  exactly 3 "RPUSH" args <| withArg args 1 fun key => withArg args 2 fun value =>
    redisRpush key value

def lpopHandler (args : List Bytes) : Command :=
  exactly 2 "LPOP" args <| withArg args 1 redisLpop

def rpopHandler (args : List Bytes) : Command :=
  exactly 2 "RPOP" args <| withArg args 1 redisRpop

/-- Asks for three arguments, of which the third is not read. -/
def llenHandler (args : List Bytes) : Command :=
  exactly 3 "LLEN" args <| withArg args 1 redisLlen

def lrangeHandler (args : List Bytes) : Command :=
  exactly 4 "LRANGE" args <| withArg args 2 fun startStr => withArg args 3 fun endStr =>
    withNumber (stoi startStr) fun start => withNumber (stoi endStr) fun stop =>
      withArg args 1 fun key => redisLrange key start stop

def zaddHandler (args : List Bytes) : Command :=
  if args.length < 4 ∨ (args.length - 2) % 2 ≠ 0 then wrongNumber "zadd" else redisZadd args

def zremHandler (args : List Bytes) : Command :=
  if args.length < 3 then wrongNumber "zrem" else redisZrem args

def zrangeHandler (args : List Bytes) : Command :=
  if args.length < 4 then wrongNumber "zrange" else redisZrange args

def zcardHandler (args : List Bytes) : Command :=
  exactly 2 "zcard" args <| withArg args 1 redisZcard

def zscoreHandler (args : List Bytes) : Command :=
  exactly 3 "zscore" args <| withArg args 1 fun key => withArg args 2 fun elem =>
    redisZscore key elem

def zincrbyHandler (arith : DoubleArith) (args : List Bytes) : Command :=
  exactly 4 "zincrby" args <| withArg args 1 fun key => withArg args 2 fun increment =>
    withArg args 3 fun elem => redisZincrby arith key increment elem

def zrankHandler (args : List Bytes) : Command :=
  exactly 3 "zrank" args <| withArg args 1 fun key => withArg args 2 fun elem =>
    redisZrank key elem

def saddHandler (args : List Bytes) : Command :=
  if args.length < 3 then wrongNumber "sadd" else redisSadd args

def sremHandler (args : List Bytes) : Command :=
  if args.length < 3 then wrongNumber "srem" else redisSrem args

def sismemberHandler (args : List Bytes) : Command :=
  exactly 3 "sismember" args <| withArg args 1 fun key => withArg args 2 fun member =>
    redisSismember key member

def scardHandler (args : List Bytes) : Command :=
  exactly 2 "scard" args <| withArg args 1 redisScard

def smembersHandler (args : List Bytes) : Command :=
  exactly 2 "smembers" args <| withArg args 1 redisSmembers

/-- The switch at the end of `handleRequest`. -/
def dispatch (arith : DoubleArith) (args : List Bytes) : Command :=
  withArg args 0 fun opStr =>
    match string2Ops opStr with
    | .ping => .done (.ok (ascii "+PONG\r\n"))
    | .flushall => flushallHandler
    | .save => saveHandler
    | .set => setHandler args
    | .get => getHandler args
    | .del => delHandler args
    | .incr => incrHandler args
    | .decr => decrHandler args
    | .expire => expireHandler args
    | .ttl => ttlHandler args
    | .hset => hsetHandler args
    | .hget => hgetHandler args
    | .hdel => hdelHandler args
    | .hkeys => hkeysHandler args
    | .llen => llenHandler args
    | .lpush => lpushHandler args
    | .rpush => rpushHandler args
    | .lpop => lpopHandler args
    | .rpop => rpopHandler args
    | .lrange => lrangeHandler args
    | .zadd => zaddHandler args
    | .zcard => zcardHandler args
    | .zincrby => zincrbyHandler arith args
    | .zrange => zrangeHandler args
    | .zrank => zrankHandler args
    | .zscore => zscoreHandler args
    | .zrem => zremHandler args
    | .sadd => saddHandler args
    | .smembers => smembersHandler args
    | .scard => scardHandler args
    | .sismember => sismemberHandler args
    | .srem => sremHandler args
    | .unknown => .done (.ok (ascii "-ERR unknown command '" ++ opStr ++ ascii "'\r\n"))

/-! ## Requests on one key -/

/-- The request names no other key than this one. -/
def OnKey (key : Bytes) : List Bytes → Prop
  | [] => True
  | opStr :: rest =>
      match string2Ops opStr with
      | .flushall => False
      | .ping | .save | .unknown => True
      | .del => ∀ other ∈ rest, other = key
      | _ => ∀ other ∈ rest.head?, other = key

/-- What the dispatch of requests on one key calls. -/
inductive KeyCommand (arith : DoubleArith) (key : Bytes) : Command → Prop where
  | done (reply : Except Err Bytes) : KeyCommand arith key (.done reply)
  | save : KeyCommand arith key saveHandler
  | set (value : Bytes) : KeyCommand arith key (redisSet key value)
  | get : KeyCommand arith key (redisGet key)
  | del (op : Bytes) (keys : List Bytes) (hkeys : ∀ other ∈ keys, other = key) :
      KeyCommand arith key (redisDel (op :: keys))
  | add (step : ℤ) : KeyCommand arith key ((redisAdd step key).mapReply numberForm)
  | expire (secondsCount : Bytes) : KeyCommand arith key (redisExpire key secondsCount)
  | ttl : KeyCommand arith key (redisTtl key)
  | hset (fieldValuePairs : List (Bytes × Bytes)) :
      KeyCommand arith key (redisHsetBatch key fieldValuePairs)
  | hget (field : Bytes) : KeyCommand arith key (redisHget key field)
  | hdel (field : Bytes) : KeyCommand arith key (redisHdel key field)
  | hkeys : KeyCommand arith key (redisHkeys key)
  | push (added : Bytes → Bytes → Bytes) (value : Bytes) :
      KeyCommand arith key (redisPush added key value)
  | pop (taken : List Bytes → Option (Bytes × List Bytes)) :
      KeyCommand arith key (redisPop taken key)
  | llen : KeyCommand arith key (redisLlen key)
  | lrange (start stop : ℤ) : KeyCommand arith key (redisLrange key start stop)
  | zadd (op : Bytes) (args : List Bytes) : KeyCommand arith key (redisZadd (op :: key :: args))
  | zrem (op : Bytes) (args : List Bytes) : KeyCommand arith key (redisZrem (op :: key :: args))
  | zrange (op : Bytes) (args : List Bytes) :
      KeyCommand arith key (redisZrange (op :: key :: args))
  | zcard : KeyCommand arith key (redisZcard key)
  | zscore (elem : Bytes) : KeyCommand arith key (redisZscore key elem)
  | zincrby (increment elem : Bytes) :
      KeyCommand arith key (redisZincrby arith key increment elem)
  | zrank (elem : Bytes) : KeyCommand arith key (redisZrank key elem)
  | sadd (op : Bytes) (members : List Bytes) :
      KeyCommand arith key (redisSadd (op :: key :: members))
  | srem (op : Bytes) (members : List Bytes) :
      KeyCommand arith key (redisSrem (op :: key :: members))
  | sismember (member : Bytes) : KeyCommand arith key (redisSismember key member)
  | scard : KeyCommand arith key (redisScard key)
  | smembers : KeyCommand arith key (redisSmembers key)

section KeyCommand

variable {arith : DoubleArith} {key : Bytes} {args : List Bytes}

theorem keyCommand_withArg {idx : ℕ} {next : Bytes → Command}
    (hnext : ∀ arg, args[idx]? = some arg → KeyCommand arith key (next arg)) :
    KeyCommand arith key (withArg args idx next) := by
  rw [withArg]
  cases harg : args[idx]? with
  | none => exact .done _
  | some arg => exact hnext arg harg

theorem keyCommand_exactly {size : ℕ} {name : String} {next : Command}
    (hnext : KeyCommand arith key next) :
    KeyCommand arith key (exactly size name args next) := by
  rw [exactly]
  split_ifs
  · exact .done _
  · exact hnext

theorem keyCommand_withNumber {number : Except Err ℤ} {next : ℤ → Command}
    (hnext : ∀ number, KeyCommand arith key (next number)) :
    KeyCommand arith key (withNumber number next) := by
  cases number with
  | error err => exact .done _
  | ok number => exact hnext number

end KeyCommand

theorem dispatch_keyCommand (arith : DoubleArith) {key : Bytes} {args : List Bytes}
    (hkey : OnKey key args) : KeyCommand arith key (dispatch arith args) := by
  cases args with
  | nil => exact .done _
  | cons opStr rest =>
      have hfirst : (∀ other ∈ rest.head?, other = key) → ∀ next : Bytes → Command,
          KeyCommand arith key (next key) →
            KeyCommand arith key (withArg (opStr :: rest) 1 next) := by
        intro hhead next hnext
        apply keyCommand_withArg
        intro arg harg
        rw [hhead arg (by rwa [List.getElem?_cons_succ, ← List.head?_eq_getElem?] at harg)]
        exact hnext
      have hlist : (∀ other ∈ rest.head?, other = key) → ∀ next : List Bytes → Command,
          KeyCommand arith key (next [opStr]) →
            (∀ args, KeyCommand arith key (next (opStr :: key :: args))) →
              KeyCommand arith key (next (opStr :: rest)) := by
        intro hhead next hnone hnext
        cases rest with
        | nil => exact hnone
        | cons other args =>
            rw [hhead other rfl]
            exact hnext args
      rw [dispatch, withArg, List.getElem?_cons_zero]
      rw [OnKey] at hkey
      dsimp only
      generalize string2Ops opStr = op at hkey ⊢
      cases op with
      | ping => exact .done _
      | flushall => exact hkey.elim
      | save => exact .save
      | unknown => exact .done _
      | get => exact keyCommand_exactly (hfirst hkey _ .get)
      | set =>
          apply keyCommand_exactly (hfirst hkey _ _)
          exact keyCommand_withArg fun value _ => .set value
      | del =>
          dsimp only
          rw [delHandler]
          split_ifs
          · exact .done _
          · exact .del opStr rest hkey
      | incr => exact keyCommand_exactly (hfirst hkey _ (.add 1))
      | decr => exact keyCommand_exactly (hfirst hkey _ (.add (-1)))
      | expire =>
          apply keyCommand_exactly (hfirst hkey _ _)
          exact keyCommand_withArg fun secondsCount _ => .expire secondsCount
      | ttl => exact keyCommand_exactly (hfirst hkey _ .ttl)
      | hset =>
          dsimp only
          rw [hsetHandler, wrapperHset]
          split_ifs
          · exact .done _
          · exact .done _
          · exact hfirst hkey _ (.hset _)
      | hget =>
          apply keyCommand_exactly (hfirst hkey _ _)
          exact keyCommand_withArg fun field _ => .hget field
      | hdel =>
          apply keyCommand_exactly (hfirst hkey _ _)
          exact keyCommand_withArg fun field _ => .hdel field
      | hkeys => exact keyCommand_exactly (hfirst hkey _ .hkeys)
      | lpush =>
          apply keyCommand_exactly (hfirst hkey _ _)
          exact keyCommand_withArg fun value _ => .push _ value
      | rpush =>
          apply keyCommand_exactly (hfirst hkey _ _)
          exact keyCommand_withArg fun value _ => .push _ value
      | lpop => exact keyCommand_exactly (hfirst hkey _ (.pop _))
      | rpop => exact keyCommand_exactly (hfirst hkey _ (.pop _))
      | llen => exact keyCommand_exactly (hfirst hkey _ .llen)
      | lrange =>
          apply keyCommand_exactly
          apply keyCommand_withArg
          intro startStr _
          apply keyCommand_withArg
          intro endStr _
          apply keyCommand_withNumber
          intro start
          apply keyCommand_withNumber
          intro stop
          exact hfirst hkey _ (.lrange start stop)
      | zadd =>
          dsimp only
          rw [zaddHandler]
          split_ifs
          · exact .done _
          · exact hlist hkey redisZadd (.done _) (.zadd opStr)
      | zrem =>
          dsimp only
          rw [zremHandler]
          split_ifs
          · exact .done _
          · exact hlist hkey redisZrem (.done _) (.zrem opStr)
      | zrange =>
          dsimp only
          rw [zrangeHandler]
          split_ifs
          · exact .done _
          · exact hlist hkey redisZrange (.done _) (.zrange opStr)
      | zcard => exact keyCommand_exactly (hfirst hkey _ .zcard)
      | zscore =>
          apply keyCommand_exactly (hfirst hkey _ _)
          exact keyCommand_withArg fun elem _ => .zscore elem
      | zincrby =>
          apply keyCommand_exactly (hfirst hkey _ _)
          apply keyCommand_withArg
          intro increment _
          exact keyCommand_withArg fun elem _ => .zincrby increment elem
      | zrank =>
          apply keyCommand_exactly (hfirst hkey _ _)
          exact keyCommand_withArg fun elem _ => .zrank elem
      | sadd =>
          dsimp only
          rw [saddHandler]
          split_ifs
          · exact .done _
          · exact hlist hkey redisSadd (.done _) (.sadd opStr)
      | srem =>
          dsimp only
          rw [sremHandler]
          split_ifs
          · exact .done _
          · exact hlist hkey redisSrem (.done _) (.srem opStr)
      | sismember =>
          apply keyCommand_exactly (hfirst hkey _ _)
          exact keyCommand_withArg fun member _ => .sismember member
      | scard => exact keyCommand_exactly (hfirst hkey _ .scard)
      | smembers => exact keyCommand_exactly (hfirst hkey _ .smembers)

/-- The store after requests one after the other, each at its own time. -/
def runRequests (arith : DoubleArith) (requests : List (ℤ × List Bytes)) (store : Store) :
    Store :=
  (runCommands (requests.map fun request => (request.1, dispatch arith request.2)) store).1

end KopiDb.Redis
