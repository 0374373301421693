import KopiDb.Redis.Exceptions
import KopiDb.Redis.WrapperRuns

/-!
# Requests whose calls may throw

A handler answers itself or calls one method of the wrapper, and the calls that the method
makes on the `LSM` may throw: a put may start a flush, and a flush may meet a record that no
block takes.  Nothing between the `LSM` and the session catches that.
-/

namespace KopiDb.Redis

open RedisWrapper (Request)

/-- A change of form changes the answer alone. -/
theorem Command.run_mapReply (f : Bytes → Bytes) (command : Command) (now : ℤ) (store : Store) :
    (command.mapReply f).run now store =
      ((command.run now store).1, (command.run now store).2.map f) := by
  induction command generalizing store with
  | done reply => rfl
  | shared next ih => exact ih now store store
  | cleanUp clean next ih =>
      rw [Command.mapReply, Command.run, Command.run]
      cases clean store with
      | mk cleaned result =>
          cases result with
          | error err => rfl
          | ok _ => exact ih cleaned
  | exclusive body => rfl

/-! ## Handlers, call by call -/

/-- A handler answers itself, or with what a method of the wrapper returns. -/
inductive Handled where
  | done (reply : Except Err Bytes)
  | wrapper (request : Request)
  /-- The answer of the method in the form of a number. -/
  | number (request : Request)

namespace Handled

/-- The command that the handler runs. -/
def command (arith : DoubleArith) : Handled → Command
  | done reply => .done reply
  | wrapper request => request.command arith
  | number request => (request.command arith).mapReply numberForm

/-- The calls of the handler on the `LSM`. -/
def method (arith : DoubleArith) (now : ℤ) : Handled → Method Bytes
  | done reply => .ofExcept reply
  | wrapper request => request.method arith now
  | number request => do
      let res ← request.method arith now
      return numberForm res

/-- `args[idx]` -/
def withArg (args : List Bytes) (idx : ℕ) (next : Bytes → Handled) : Handled :=
  match args[idx]? with
  | none => .done (.error .outOfBounds)
  | some arg => next arg

def withNumber (number : Except Err ℤ) (next : ℤ → Handled) : Handled :=
  match number with
  | .error err => .done (.error err)
  | .ok number => next number

/-- The answer to a wrong number of arguments. -/
def counted (wrong : Prop) [Decidable wrong] (name : String) (next : Handled) : Handled :=
  if wrong then
    .done (.ok (ascii "-ERR wrong number of arguments for '" ++ ascii name ++
      ascii "' command\r\n"))
  else next

/-- A handler for a key alone. -/
def onKey (args : List Bytes) (name : String) (request : Bytes → Request) : Handled :=
  counted (args.length ≠ 2) name <| withArg args 1 fun key => wrapper (request key)

/-- A handler for a key and one more argument. -/
def onKeyAnd (args : List Bytes) (name : String) (request : Bytes → Bytes → Request) : Handled :=
  counted (args.length ≠ 3) name <| withArg args 1 fun key => withArg args 2 fun value =>
    wrapper (request key value)

/-- The switch at the end of `handleRequest`. -/
def dispatch (args : List Bytes) : Handled :=
  withArg args 0 fun opStr =>
    match string2Ops opStr with
    | .ping => .done (.ok (ascii "+PONG\r\n"))
    | .flushall => .wrapper .clear
    | .save => .wrapper .flushall
    | .set => onKeyAnd args "SET" .set
    | .get => onKey args "GET" .get
    | .del => counted (args.length < 2) "DEL" <| .wrapper (.del args)
    | .incr =>
        counted (args.length ≠ 2) "INCR" <| withArg args 1 fun key => .number (.incr key)
    | .decr =>
        counted (args.length ≠ 2) "DECR" <| withArg args 1 fun key => .number (.decr key)
    | .expire => onKeyAnd args "EXPIRE" .expire
    | .ttl => onKey args "TTL" .ttl
    | .hset =>
        counted (args.length < 4) "HSET" <|
          counted (args.length < 4 ∨ (args.length - 1) % 2 ≠ 1) "hset" <|
            withArg args 1 fun key => .wrapper (.hset key (fieldValues (args.drop 2)))
    | .hget => onKeyAnd args "HGET" .hget
    | .hdel => onKeyAnd args "HDEL" .hdel
    | .hkeys => onKey args "HKEYS" .hkeys
    | .llen =>
        counted (args.length ≠ 3) "LLEN" <| withArg args 1 fun key => .wrapper (.llen key)
    | .lpush => onKeyAnd args "LPUSH" .lpush
    | .rpush => onKeyAnd args "RPUSH" .rpush
    | .lpop => onKey args "LPOP" .lpop
    | .rpop => onKey args "RPOP" .rpop
    | .lrange =>
        counted (args.length ≠ 4) "LRANGE" <|
          withArg args 2 fun startStr => withArg args 3 fun endStr =>
            withNumber (stoi startStr) fun start => withNumber (stoi endStr) fun stop =>
              withArg args 1 fun key => .wrapper (.lrange key start stop)
    | .zadd =>
        counted (args.length < 4 ∨ (args.length - 2) % 2 ≠ 0) "zadd" <| .wrapper (.zadd args)
    | .zcard => onKey args "zcard" .zcard
    | .zincrby =>
        counted (args.length ≠ 4) "zincrby" <| withArg args 1 fun key =>
          withArg args 2 fun increment => withArg args 3 fun elem =>
            .wrapper (.zincrby key increment elem)
    | .zrange => counted (args.length < 4) "zrange" <| .wrapper (.zrange args)
    | .zrank => onKeyAnd args "zrank" .zrank
    | .zscore => onKeyAnd args "zscore" .zscore
    | .zrem => counted (args.length < 3) "zrem" <| .wrapper (.zrem args)
    | .sadd => counted (args.length < 3) "sadd" <| .wrapper (.sadd args)
    | .smembers => onKey args "smembers" .smembers
    | .scard => onKey args "scard" .scard
    | .sismember => onKeyAnd args "sismember" .sismember
    | .srem => counted (args.length < 3) "srem" <| .wrapper (.srem args)
    | .unknown => .done (.ok (ascii "-ERR unknown command '" ++ opStr ++ ascii "'\r\n"))

section Command

variable {arith : DoubleArith} {args : List Bytes}

@[simp]
theorem command_wrapper (request : Request) :
    (wrapper request).command arith = request.command arith := rfl

@[simp]
theorem command_number (request : Request) :
    (number request).command arith = (request.command arith).mapReply numberForm := rfl

@[simp]
theorem command_withArg (idx : ℕ) (next : Bytes → Handled) :
    (withArg args idx next).command arith =
      Redis.withArg args idx fun arg => (next arg).command arith := by
  rw [withArg, Redis.withArg]
  cases args[idx]? with
  | none => rfl
  | some arg => rfl

@[simp]
theorem command_withNumber (number : Except Err ℤ) (next : ℤ → Handled) :
    (withNumber number next).command arith =
      Redis.withNumber number fun number => (next number).command arith := by
  cases number with
  | error err => rfl
  | ok number => rfl

@[simp]
theorem command_counted (wrong : Prop) [Decidable wrong] (name : String) (next : Handled) :
    (counted wrong name next).command arith =
      if wrong then wrongNumber name else next.command arith := by
  rw [counted, apply_ite (Handled.command arith)]
  rfl

/-- The command of the handler is the one that the server runs. -/
theorem command_dispatch (args : List Bytes) :
    (dispatch args).command arith = Redis.dispatch arith args := by
  rw [dispatch, command_withArg, Redis.dispatch]
  congr 1
  funext opStr
  cases string2Ops opStr <;>
    simp only [onKey, onKeyAnd, command_withArg, command_counted, command_withNumber,
      command_wrapper, command_number] <;>
    rfl

end Command

/-- On the one map, call by call is section by section. -/
theorem exec_method (arith : DoubleArith) (now : ℤ) (handled : Handled) (store : Store) :
    RedisWrapper.exec (handled.method arith now) store = (handled.command arith).run now store := by
  cases handled with
  | done reply => cases reply <;> rfl
  | wrapper request => exact request.exec_method arith now store
  | number request =>
      rw [method, command, RedisWrapper.exec_bind, request.exec_method, Command.run_mapReply]
      rcases (request.command arith).run now store with ⟨after, err | res⟩
      · rfl
      · rfl

end Handled

/-! ## Answers -/

/-- A request whose `n`-th call on the `LSM` throws what `faults n` says, if anything.  An
exception of a call or of a conversion is all that is left of the request. -/
def answer (arith : DoubleArith) (now : ℤ) (faults : ℕ → Option Err) (args : List Bytes)
    (store : Store) : Except Err (Store × Bytes) :=
  match ((Handled.dispatch args).method arith now).attempt
      (CallTree.faulty LsmCall.onStore faults) (store, 0) with
  | .error err => .error err
  | .ok (_, .error err) => .error err
  | .ok ((after, _), .ok reply) => .ok (after, reply)

/-- How many calls the request makes on the `LSM` when none of them throws. -/
def lsmCalls (arith : DoubleArith) (now : ℤ) (args : List Bytes) (store : Store) : ℕ :=
  ((Handled.dispatch args).method arith now).calls LsmCall.onStore store

section Answers

variable {arith : DoubleArith} {now : ℤ} {faults : ℕ → Option Err} {args : List Bytes}
  {store : Store}

/-- Without a call that throws a request does what its command does on the map. -/
theorem answer_eq_ok_iff {final : Store} {reply : Bytes} :
    answer arith now faults args store = .ok (final, reply) ↔
      (∀ call < lsmCalls arith now args store, faults call = none) ∧
        (dispatch arith args).run now store = (final, .ok reply) := by
  have hgets : answer arith now faults args store = .ok (final, reply) ↔
      ∃ total, ((Handled.dispatch args).method arith now).attempt
        (CallTree.faulty LsmCall.onStore faults) (store, 0) = .ok ((final, total), .ok reply) := by
    rw [answer]
    split <;> simp_all
  rw [hgets, ← Handled.command_dispatch, ← Handled.exec_method, RedisWrapper.exec]
  simp only [CallTree.attempt_faulty_eq_ok_iff, Nat.zero_add, exists_and_left, exists_eq',
    and_true, lsmCalls]

end Answers

/-- A request is answered, and the store is left alone when the answer is an error, exactly
when none of the calls that it makes on the `LSM` throws and the conversions that it comes to
succeed. -/
theorem request_answered_iff (arith : DoubleArith) {args : List Bytes} (hargs : args ≠ [])
    (now : ℤ) (faults : ℕ → Option Err) (store : Store) :
    (∃ final reply, answer arith now faults args store = .ok (final, reply) ∧
        (IsErrorReply reply → final = store)) ↔
      (∀ call < lsmCalls arith now args store, faults call = none) ∧
        Convertible arith now store args := by
  obtain ⟨opStr, rest, rfl⟩ := List.exists_cons_of_ne_nil hargs
  rw [← returns_dispatch]
  constructor
  · rintro ⟨final, reply, hanswer, -⟩
    obtain ⟨hcalls, hrun⟩ := answer_eq_ok_iff.mp hanswer
    exact ⟨hcalls, reply, congrArg Prod.snd hrun⟩
  · rintro ⟨hcalls, reply, hreply⟩
    exact ⟨_, reply, answer_eq_ok_iff.mpr ⟨hcalls, Prod.ext rfl hreply⟩,
      (errorsFirst_dispatch arith _).run hreply⟩

/-- The two calls of `incr` do not throw; what a third one would do is not asked for. -/
theorem request_answered_sample :
    ∃ final reply, answer wholeArith 0 (fun call => if call < 2 then none else some .sizeWraps)
        [ascii "INCR", ascii "k"] ((∅ : Store).put (ascii "k") (ascii "41")) = .ok (final, reply) ∧
      (IsErrorReply reply → final = (∅ : Store).put (ascii "k") (ascii "41")) := by
  rw [request_answered_iff wholeArith (by decide)]
  refine ⟨?_, ?_⟩
  · decide +kernel
  · rintro - text htext
    obtain rfl : ascii "41" = text := Option.some.inj htext
    exact ⟨41, by decide⟩

/-- A number that is none ends in an exception, in an argument and in a record, and so does a
flush that throws. -/
theorem requests_end_in_exceptions :
    answer wholeArith 1 (fun _ => none) [ascii "INCR", ascii "k"]
        (runRequests wholeArith [(0, [ascii "SET", ascii "k", ascii "v"])] ∅) =
      .error (.logicError "stoll") ∧
    answer wholeArith 1 (fun _ => none) [ascii "LRANGE", ascii "k", ascii "a", ascii "b"] ∅ =
      .error (.logicError "stoi") ∧
    answer wholeArith 1 (fun _ => none) [ascii "HKEYS", ascii "k"]
        (runRequests wholeArith [(0, [ascii "SET", ascii "k", ascii "v"])] ∅) =
      .error (.outOfRange "basic_string::substr") ∧
    answer wholeArith 1 (fun _ =>
          some (.lengthError "Block::add_entry: key or value exceeds uint16_t length limit"))
        [ascii "SAVE"] ∅ =
      .error (.lengthError "Block::add_entry: key or value exceeds uint16_t length limit") :=
  ⟨rfl, rfl, rfl, rfl⟩

end KopiDb.Redis
