import KopiDb.Redis.Connections
import KopiDb.Redis.Expiry

/-!
# Commands between the sections of other commands

A command gives up the shared lock before it writes under the exclusive one, and other clients
write in between.  As long as no key has expired, what the check found is still so, and every
command comes down to one step.
-/

namespace KopiDb.Redis

/-- No time of expiry has passed or is left behind by its key. -/
def Settled (now : ℤ) (store : Store) : Prop :=
  ∀ key, ∀ expireStr ∈ store.get (getExplireKey key),
    isExpired (some expireStr) now = .ok false ∧ (store.get key).isSome

theorem settled_iff (now : ℤ) (store : Store) :
    (∀ record ∈ store.scan redisExpireHeader, isExpired (some record.2) now = .ok false ∧
      (store.get (record.1.drop redisExpireHeader.length)).isSome) ↔ Settled now store := by
  constructor
  · intro hrecords key expireStr hexpire
    have hrecord := hrecords (getExplireKey key, expireStr)
      (Store.mem_scan.mpr ⟨List.prefix_append _ _, hexpire⟩)
    rwa [getExplireKey, List.drop_left] at hrecord
  · rintro hsettled ⟨expireKey, expireStr⟩ hmem
    obtain ⟨⟨key, rfl⟩, hexpire⟩ := Store.mem_scan.mp hmem
    rw [List.drop_left]
    exact hsettled key expireStr hexpire

instance (now : ℤ) (store : Store) : Decidable (Settled now store) :=
  decidable_of_iff _ (settled_iff now store)

theorem Settled.unexpired {now : ℤ} {store : Store} (hsettled : Settled now store)
    (key : Bytes) : isExpired (store.get (getExplireKey key)) now = .ok false := by
  cases hexpire : store.get (getExplireKey key) with
  | none => rfl
  | some expireStr => exact (hsettled key expireStr hexpire).1

/-! ## Commands that one section decides -/

namespace Command

/-- The answer, when there is one. -/
def reply? : Command → Option (Except Err Bytes)
  | .done reply => some reply
  | _ => none

/-- The first section answers in every settled state, or leads to one and the same write. -/
def Decided : Command → Prop
  | .done _ => True
  | .shared next =>
      (∀ now store, Settled now store → ∃ reply, next now store = .done reply) ∨
        ∃ body, ∀ now store, Settled now store → next now store = .exclusive body
  | .cleanUp _ _ => False
  | .exclusive _ => True

end Command

section Decided

variable {key expired : Bytes} {clean : Store → Store × Except Err Unit}

theorem decided_readCommand (read : Store → Except Err Bytes) :
    (readCommand key clean expired read).Decided := by
  refine Or.inl fun now store hsettled => ?_
  dsimp only
  rw [hsettled.unexpired key]
  exact ⟨_, rfl⟩

theorem decided_takeCommand (body : Store → Store × Except Err Bytes) :
    (takeCommand key clean expired body).Decided := by
  refine Or.inr ⟨fun _ => body, fun now store hsettled => ?_⟩
  dsimp only
  rw [hsettled.unexpired key]

theorem decided_writeCommand (body : Store → Store × Except Err Bytes) :
    (writeCommand key clean body).Decided := by
  refine Or.inr ⟨fun _ => body, fun now store hsettled => ?_⟩
  dsimp only
  rw [hsettled.unexpired key]

theorem decided_withNumber {number : Except Err ℤ} {next : ℤ → Command}
    (hnext : ∀ number, (next number).Decided) : (withNumber number next).Decided := by
  cases number with
  | error err => trivial
  | ok number => exact hnext number

theorem decided_redisGet : (redisGet key).Decided := by
  refine Or.inl fun now store hsettled => ?_
  dsimp only
  cases hexpire : store.get (getExplireKey key) with
  | none => cases store.get key <;> exact ⟨_, rfl⟩
  | some expireStr =>
      obtain ⟨hverdict, hsome⟩ := hsettled key expireStr hexpire
      obtain ⟨value, hvalue⟩ := Option.isSome_iff_exists.mp hsome
      rw [hvalue]
      dsimp only
      rw [hverdict]
      exact ⟨_, rfl⟩

theorem decided_redisTtl : (redisTtl key).Decided := by
  refine Or.inl fun now store hsettled => ?_
  dsimp only
  cases hexpire : store.get (getExplireKey key) with
  | none => cases store.get key <;> exact ⟨_, rfl⟩
  | some expireStr =>
      obtain ⟨hverdict, hsome⟩ := hsettled key expireStr hexpire
      obtain ⟨value, hvalue⟩ := Option.isSome_iff_exists.mp hsome
      rw [hvalue]
      dsimp only
      rw [hverdict]
      exact ⟨_, rfl⟩

theorem KeyCommand.decided {arith : DoubleArith} {command : Command}
    (hcommand : KeyCommand arith key command) : command.Decided := by
  cases hcommand with
  | get => exact decided_redisGet
  | ttl => exact decided_redisTtl
  | hset pairs => exact decided_writeCommand _
  | hget field => exact decided_readCommand _
  | hdel field => exact decided_takeCommand _
  | hkeys => exact decided_readCommand _
  | push added value => exact decided_writeCommand _
  | pop taken => exact decided_takeCommand _
  | llen => exact decided_readCommand _
  | lrange start stop => exact decided_readCommand _
  | zadd op args =>
      rw [redisZadd]
      dsimp only
      cases scorePairs args with
      | error err => trivial
      | ok pairs => exact decided_writeCommand _
  | zrem op args =>
      cases args with
      | nil => trivial
      | cons elem rest => exact decided_takeCommand _
  | zrange op args =>
      rcases args with _ | ⟨startStr, _ | ⟨stopStr, rest⟩⟩
      · trivial
      · trivial
      · exact decided_withNumber fun start => decided_withNumber fun stop =>
          decided_readCommand _
  | zcard => exact decided_readCommand _
  | zscore elem => exact decided_readCommand _
  | zincrby increment elem => exact decided_writeCommand _
  | zrank elem => exact decided_readCommand _
  | sadd op members => exact decided_writeCommand _
  | srem op members => exact decided_takeCommand _
  | sismember member => exact decided_readCommand _
  | scard => exact decided_readCommand _
  | smembers => exact decided_readCommand _
  -- These take the exclusive lock at once.
  | _ => trivial

end Decided

theorem decided_dispatch (arith : DoubleArith) (args : List Bytes) :
    (dispatch arith args).Decided := by
  rcases args with _ | ⟨opStr, rest⟩
  · trivial
  by_cases hkey : OnKey (rest.headD []) (opStr :: rest)
  · exact (dispatch_keyCommand arith hkey).decided
  · -- Only `del` and `flushall` are about more than one key.
    rw [dispatch, withArg, List.getElem?_cons_zero]
    rw [OnKey] at hkey
    dsimp only
    generalize string2Ops opStr = op at hkey ⊢
    have hhead : ∀ other ∈ rest.head?, other = rest.headD [] := by
      intro other hother
      cases rest with
      | nil => cases hother
      | cons head rest => exact (Option.some.inj hother).symm
    cases op with
    | del =>
        dsimp only
        rw [delHandler]
        split_ifs
        · trivial
        · trivial
    | flushall => trivial
    | ping => exact absurd trivial hkey
    | save => exact absurd trivial hkey
    | unknown => exact absurd trivial hkey
    | _ => exact absurd hhead hkey

/-! ## Calls of the clients -/

section Calls

variable {Client : Type*} [DecidableEq Client] (arith : DoubleArith)

/-- The call that is answered at an event.  `asked` is what every client waits for. -/
def Clients.answered (clients : Clients Client) (asked : Client → List Bytes) :
    Event Client → Option (Call Client)
  | .request client args =>
      match clients.pending client with
      | .done _ => (dispatch arith args).reply?.map fun reply =>
          { client, now := clients.clock, args, reply }
      | _ => none
  | .advance client =>
      match clients.pending client with
      | .done _ => none
      | command => (command.advance clients.clock clients.store).2.reply?.map fun reply =>
          { client, now := clients.clock, args := asked client, reply }
  | .tick _ => none

def Clients.asks (clients : Clients Client) (asked : Client → List Bytes) :
    Event Client → Client → List Bytes
  | .request client args =>
      match clients.pending client with
      | .done _ => Function.update asked client args
      | _ => asked
  | _ => asked

/-- The calls in the order of their answers. -/
def answeredCalls : List (Event Client) → Clients Client → (Client → List Bytes) →
    List (Call Client)
  | [], _, _ => []
  | event :: rest, clients, asked =>
      (clients.answered arith asked event).toList ++
        answeredCalls rest (clients.step arith event) (clients.asks asked event)

/-- `flushall` takes no lock. -/
def Locks : Event Client → Prop
  | .request _ args => ∀ opStr ∈ args.head?, string2Ops opStr ≠ .flushall
  | _ => True

instance decidableLocks : ∀ event : Event Client, Decidable (Locks event)
  | .request _ args => inferInstanceAs (Decidable (∀ opStr ∈ args.head?, _))
  | .advance _ => isTrue trivial
  | .tick _ => isTrue trivial

/-- Every state that an event meets is settled. -/
def SettledRun : List (Event Client) → Clients Client → Prop
  | [], _ => True
  | event :: rest, clients =>
      (Settled clients.clock clients.store ∧ Locks event) ∧
        SettledRun rest (clients.step arith event)

instance decidableSettledRun : ∀ (events : List (Event Client)) (clients : Clients Client),
    Decidable (SettledRun arith events clients)
  | [], _ => isTrue trivial
  | event :: rest, clients =>
      @instDecidableAnd _ _ inferInstance
        (decidableSettledRun rest (clients.step arith event))

end Calls

/-! ## One step for each call -/

/-- What is left of the command of a request: all of it, or the write that the check led to. -/
inductive Remaining (arith : DoubleArith) (args : List Bytes) : Command → Prop where
  | start : Remaining arith args (dispatch arith args)
  | locked {next : ℤ → Store → Command} {body : ℤ → Store → Store × Except Err Bytes}
      (hnext : dispatch arith args = .shared next)
      (hbody : ∀ now store, Settled now store → next now store = .exclusive body) :
      Remaining arith args (.exclusive body)

/-- A section answers as the whole command would, or leaves the store and a remainder. -/
theorem Remaining.advance {arith : DoubleArith} {args : List Bytes} {command : Command}
    (hremaining : Remaining arith args command) (hwaits : command.reply? = none) {now : ℤ}
    {store : Store} (hsettled : Settled now store) :
    (∃ reply, (command.advance now store).2 = .done reply ∧
      (dispatch arith args).run now store = ((command.advance now store).1, reply)) ∨
    ((command.advance now store).1 = store ∧ (command.advance now store).2.reply? = none ∧
      Remaining arith args (command.advance now store).2) := by
  cases hremaining with
  | start =>
      have hdecided := decided_dispatch arith args
      cases hcommand : dispatch arith args with
      | done reply =>
          rw [hcommand] at hwaits
          cases hwaits
      | cleanUp clean next =>
          rw [hcommand] at hdecided
          exact hdecided.elim
      | exclusive body => exact Or.inl ⟨_, rfl, rfl⟩
      | shared next =>
          rw [hcommand] at hdecided
          rcases hdecided with hanswer | ⟨body, hbody⟩
          · obtain ⟨reply, hreply⟩ := hanswer now store hsettled
            refine Or.inl ⟨reply, hreply, ?_⟩
            rw [Command.run, hreply]
            rfl
          · refine Or.inr ⟨rfl, ?_, ?_⟩
            · rw [Command.advance, hbody now store hsettled]
              rfl
            · rw [Command.advance, hbody now store hsettled]
              exact .locked hcommand hbody
  | @locked next body hnext hbody =>
      refine Or.inl ⟨_, rfl, ?_⟩
      rw [hnext, Command.run, hbody now store hsettled]
      rfl

section Serialized

variable {Client : Type*} [DecidableEq Client] {arith : DoubleArith} {clients : Clients Client}
  {asked : Client → List Bytes}

/-- Every client that waits has a remainder of what it asked. -/
def Open (arith : DoubleArith) (clients : Clients Client) (asked : Client → List Bytes) : Prop :=
  ∀ client, (clients.pending client).reply? = none →
    Remaining arith (asked client) (clients.pending client)

omit [DecidableEq Client] in
theorem answered_advance {client : Client} (hwaits : (clients.pending client).reply? = none) :
    clients.answered arith asked (.advance client) =
      ((clients.pending client).advance clients.clock clients.store).2.reply?.map fun reply =>
        { client, now := clients.clock, args := asked client, reply } := by
  rw [Clients.answered]
  cases hpending : clients.pending client with
  | done reply =>
      rw [hpending] at hwaits
      cases hwaits
  | _ => rfl

theorem Open.request (hopen : Open arith clients asked) (client : Client) (args : List Bytes) :
    Open arith (clients.step arith (.request client args))
        (clients.asks asked (.request client args)) ∧
      runCommands ((clients.answered arith asked (.request client args)).toList.map fun call =>
          (call.now, dispatch arith call.args)) clients.store =
        ((clients.step arith (.request client args)).store,
          (clients.answered arith asked (.request client args)).toList.map Call.reply) := by
  rw [Clients.step, Clients.asks, Clients.answered]
  cases hpending : clients.pending client with
  | done reply =>
      dsimp only
      constructor
      · intro other hwaits
        dsimp only at hwaits ⊢
        by_cases hsame : other = client
        · subst hsame
          rw [Function.update_self, Function.update_self]
          exact .start
        · rw [Function.update_of_ne hsame] at hwaits ⊢
          rw [Function.update_of_ne hsame]
          exact hopen other hwaits
      · cases hcommand : dispatch arith args with
        | done reply =>
            rw [Command.reply?, Option.map_some, Option.toList_some, List.map_singleton, hcommand]
            rfl
        | _ => rfl
  | _ => exact ⟨hopen, rfl⟩

theorem Open.advance (hopen : Open arith clients asked)
    (hsettled : Settled clients.clock clients.store) (client : Client) :
    Open arith (clients.step arith (.advance client)) (clients.asks asked (.advance client)) ∧
      runCommands ((clients.answered arith asked (.advance client)).toList.map fun call =>
          (call.now, dispatch arith call.args)) clients.store =
        ((clients.step arith (.advance client)).store,
          (clients.answered arith asked (.advance client)).toList.map Call.reply) := by
  have hothers : ∀ other, other ≠ client →
      ((clients.step arith (.advance client)).pending other).reply? = none →
        Remaining arith (asked other) ((clients.step arith (.advance client)).pending other) := by
    intro other hother hwaits
    rw [Clients.step] at hwaits ⊢
    dsimp only at hwaits ⊢
    rw [Function.update_of_ne hother] at hwaits ⊢
    exact hopen other hwaits
  have hpending : (clients.step arith (.advance client)).pending client =
      ((clients.pending client).advance clients.clock clients.store).2 :=
    Function.update_self _ _ _
  have hstore : (clients.step arith (.advance client)).store =
      ((clients.pending client).advance clients.clock clients.store).1 := rfl
  rw [hstore]
  by_cases hwaits : (clients.pending client).reply? = none
  swap
  · -- An answer stays what it is.
    obtain ⟨reply, hreply⟩ : ∃ reply, clients.pending client = .done reply := by
      cases hcommand : clients.pending client with
      | done reply => exact ⟨reply, rfl⟩
      | _ => exact absurd (by rw [hcommand]; rfl) hwaits
    rw [Clients.answered, hreply]
    refine ⟨fun other hother => ?_, rfl⟩
    by_cases hsame : other = client
    · subst hsame
      rw [hpending, hreply] at hother
      cases hother
    · exact hothers other hsame hother
  rw [answered_advance hwaits]
  rcases (hopen client hwaits).advance hwaits hsettled with
    ⟨reply, hreply, hrun⟩ | ⟨hsame, hnone, hremaining⟩
  · rw [hreply, Command.reply?, Option.map_some, Option.toList_some, List.map_singleton]
    refine ⟨fun other hother => ?_, ?_⟩
    · by_cases hsame : other = client
      · subst hsame
        rw [hpending, hreply] at hother
        cases hother
      · exact hothers other hsame hother
    · rw [runCommands, hrun]
      rfl
  · rw [hnone, hsame]
    refine ⟨fun other hother => ?_, rfl⟩
    by_cases hsame : other = client
    · subst hsame
      rw [hpending]
      exact hremaining
    · exact hothers other hsame hother

theorem Open.step (hopen : Open arith clients asked)
    (hsettled : Settled clients.clock clients.store) (event : Event Client) :
    Open arith (clients.step arith event) (clients.asks asked event) ∧
      runCommands ((clients.answered arith asked event).toList.map fun call =>
          (call.now, dispatch arith call.args)) clients.store =
        ((clients.step arith event).store,
          (clients.answered arith asked event).toList.map Call.reply) := by
  cases event with
  | tick seconds => exact ⟨hopen, rfl⟩
  | request client args => exact hopen.request client args
  | advance client => exact hopen.advance hsettled client

theorem Open.run (hopen : Open arith clients asked) {events : List (Event Client)}
    (hsettled : SettledRun arith events clients) :
    runCommands ((answeredCalls arith events clients asked).map fun call =>
        (call.now, dispatch arith call.args)) clients.store =
      ((clients.run arith events).store,
        (answeredCalls arith events clients asked).map Call.reply) := by
  induction events generalizing clients asked with
  | nil => rfl
  | cons event events ih =>
      obtain ⟨⟨hnow, -⟩, hsettled⟩ := hsettled
      obtain ⟨hopen, hcalls⟩ := hopen.step hnow event
      have hrest := ih hopen hsettled
      rw [answeredCalls, List.map_append, List.map_append, Clients.run, List.foldl_cons]
      cases hanswered : clients.answered arith asked event with
      | none =>
          rw [hanswered] at hcalls
          have hstore : clients.store = (clients.step arith event).store :=
            congrArg Prod.fst hcalls
          rw [hstore]
          exact hrest
      | some call =>
          rw [hanswered] at hcalls
          have hstore : ((dispatch arith call.args).run call.now clients.store).1 =
              (clients.step arith event).store := congrArg Prod.fst hcalls
          have hreply : ((dispatch arith call.args).run call.now clients.store).2 = call.reply :=
            List.head_eq_of_cons_eq (congrArg Prod.snd hcalls)
          rw [Option.toList_some, List.map_singleton, List.singleton_append, runCommands]
          dsimp only
          rw [hstore, hrest, hreply]
          rfl

end Serialized

/-- Whatever sections of other clients come between those of a command, the store and all answers
are those of whole commands in the order of their answers, as long as no key has expired. -/
theorem clients_serialized {Client : Type*} [DecidableEq Client] (arith : DoubleArith)
    {clients : Clients Client} {events : List (Event Client)}
    (hidle : ∀ client, ∃ reply, clients.pending client = .done reply)
    (hsettled : SettledRun arith events clients) :
    runCommands ((answeredCalls arith events clients fun _ => []).map fun call =>
        (call.now, dispatch arith call.args)) clients.store =
      ((clients.run arith events).store,
        (answeredCalls arith events clients fun _ => []).map Call.reply) := by
  have hopen : Open arith clients fun _ => [] := by
    intro client hwaits
    obtain ⟨reply, hreply⟩ := hidle client
    rw [hreply] at hwaits
    cases hwaits
  exact hopen.run hsettled

/-- Two clients that wait for nothing. -/
def idleClients : Clients Bool where
  store := ∅
  clock := 10
  pending := fun _ => .done (.ok [])
  written := ∅

/-- Both look at the list before one of them writes. -/
def crossing : List (Event Bool) :=
  [.request true [ascii "LPUSH", ascii "l", ascii "a"],
    .request false [ascii "RPUSH", ascii "l", ascii "b"],
    .advance true, .advance false, .advance false, .advance true,
    .request false [ascii "EXPIRE", ascii "l", ascii "100"], .advance false, .tick 5,
    .request true [ascii "TTL", ascii "l"], .request false [ascii "LPOP", ascii "l"],
    .advance false, .advance true, .advance false]

theorem clients_serialized_sample :
    (runCommands ((answeredCalls wholeArith crossing idleClients fun _ => []).map fun call =>
        (call.now, dispatch wholeArith call.args)) idleClients.store).2 =
      [.ok (intReply 1), .ok (intReply 2), .ok (intReply 1), .ok (intReply 95),
        .ok (bulkReply (ascii "a"))] := by
  rw [clients_serialized wholeArith (fun _ => ⟨_, rfl⟩) (by decide +kernel)]
  decide +kernel

end KopiDb.Redis
