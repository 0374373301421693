import Mathlib.Logic.Function.Basic
import KopiDb.Redis.Server

/-!
# Clean-ups between the sections of other clients

A command that finds its key expired gives up the shared lock before it takes the exclusive
one for the clean-up, and does not look at the key again.  Another client can write the key
in between.
-/

namespace KopiDb.Redis

namespace Command

/-- The next section, at one time. -/
def advance (now : ℤ) (store : Store) : Command → Store × Command
  | .done reply => (store, .done reply)
  | .shared next => (store, next now store)
  | .cleanUp clean next =>
      match clean store with
      | (store, .error err) => (store, .done (.error err))
      | (store, .ok ()) => (store, next)
  | .exclusive body =>
      let (store, reply) := body now store
      (store, .done reply)

/-- The command waits for the lock of its clean-up. -/
def AtCleanUp : Command → Prop
  | .cleanUp _ _ => True
  | _ => False

end Command

/-! ## Clients -/

/-- The store, the clock and what is left of the command of every client.  `written` is the
store as the last section with a write left it. -/
structure Clients (Client : Type*) where
  store : Store
  clock : ℤ
  pending : Client → Command
  written : Store

inductive Event (Client : Type*) where
  | request (client : Client) (args : List Bytes)
  | advance (client : Client)
  | tick (seconds : ℕ)

section Runs

variable {Client : Type*} [DecidableEq Client] (arith : DoubleArith)

/-- A client that has no answer yet makes no other request. -/
def Clients.step (clients : Clients Client) : Event Client → Clients Client
  | .request client args =>
      match clients.pending client with
      | .done _ =>
          { clients with
            pending := Function.update clients.pending client (dispatch arith args) }
      | _ => clients
  | .advance client =>
      let (store, rest) := (clients.pending client).advance clients.clock clients.store
      { clients with
        store := store
        pending := Function.update clients.pending client rest
        written := match clients.pending client with
          | .exclusive _ => store
          | _ => clients.written }
  | .tick seconds => { clients with clock := clients.clock + seconds }

def Clients.run (clients : Clients Client) (events : List (Event Client)) : Clients Client :=
  events.foldl (Clients.step arith) clients

/-- The key is there and has not expired. -/
def Live (key : Bytes) (now : ℤ) (store : Store) : Prop :=
  (store.get key).isSome ∧ isExpired (store.get (getExplireKey key)) now = .ok false

/-- No client waits for the lock of a clean-up while a section with a write leaves the key
alive. -/
def Careful (key : Bytes) (clients : Clients Client) : Event Client → Prop
  | .advance client =>
      match clients.pending client with
      | .exclusive body =>
          Live key clients.clock (body clients.clock clients.store).1 →
            ∀ other, ¬(clients.pending other).AtCleanUp
      | _ => True
  | _ => True

def CarefulRun (key : Bytes) : List (Event Client) → Clients Client → Prop
  | [], _ => True
  | event :: rest, clients =>
      Careful key clients event ∧ CarefulRun key rest (clients.step arith event)

/-- All requests are about one key. -/
def OnlyKey (key : Bytes) (events : List (Event Client)) : Prop :=
  ∀ client args, Event.request client args ∈ events → OnKey key args

end Runs

/-! ## Checks of a live key -/

/-- No check that finds the key alive leads to a clean-up. -/
def Command.Cautious (key : Bytes) : Command → Prop
  | .done _ => True
  | .shared next => ∀ now store, (next now store).Cautious key ∧
      (Live key now store → ¬(next now store).AtCleanUp)
  | .cleanUp _ next => next.Cautious key ∧ ¬next.AtCleanUp
  | .exclusive _ => True

/-- A command as a request starts it. -/
def Command.Starts (key : Bytes) (command : Command) : Prop :=
  command.Cautious key ∧ ¬command.AtCleanUp

theorem starts_done (key : Bytes) (reply : Except Err Bytes) :
    (Command.done reply).Starts key := ⟨trivial, not_false⟩

section Starts

variable {key : Bytes} {clean : Store → Store × Except Err Unit}

theorem starts_checkExpiry {expired : Command} {live : ℤ → Store → Command}
    (hexpired : expired.Starts key) (hlive : ∀ now store, (live now store).Starts key) :
    (checkExpiry key clean expired live).Starts key := by
  refine ⟨?_, not_false⟩
  intro now store
  dsimp only
  cases hverdict : isExpired (store.get (getExplireKey key)) now with
  | error err => exact ⟨trivial, fun _ => not_false⟩
  | ok verdict =>
      cases verdict with
      | true =>
          refine ⟨hexpired, fun halive => ?_⟩
          rw [halive.2] at hverdict
          cases hverdict
      | false => exact ⟨(hlive now store).1, fun _ => (hlive now store).2⟩

theorem starts_readCommand (expired : Bytes) (read : Store → Except Err Bytes) :
    (readCommand key clean expired read).Starts key :=
  starts_checkExpiry ⟨trivial, not_false⟩ fun _ _ => ⟨trivial, not_false⟩

theorem starts_takeCommand (expired : Bytes) (body : Store → Store × Except Err Bytes) :
    (takeCommand key clean expired body).Starts key :=
  starts_checkExpiry ⟨trivial, not_false⟩ fun _ _ => ⟨trivial, not_false⟩

theorem starts_writeCommand (body : Store → Store × Except Err Bytes) :
    (writeCommand key clean body).Starts key :=
  starts_checkExpiry ⟨trivial, not_false⟩ fun _ _ => ⟨trivial, not_false⟩

theorem starts_withNumber {number : Except Err ℤ} {next : ℤ → Command}
    (hnext : ∀ number, (next number).Starts key) : (withNumber number next).Starts key := by
  cases number with
  | error err => exact ⟨trivial, not_false⟩
  | ok number => exact hnext number

theorem starts_redisGet : (redisGet key).Starts key := by
  refine ⟨?_, not_false⟩
  intro now store
  dsimp only
  cases hplain : store.get key with
  | none =>
      have hdead : ¬Live key now store := by
        rintro ⟨hsome, -⟩
        rw [hplain] at hsome
        cases hsome
      cases store.get (getExplireKey key) with
      | none => exact ⟨trivial, fun _ => not_false⟩
      | some expireStr => exact ⟨⟨trivial, not_false⟩, fun halive => absurd halive hdead⟩
  | some value =>
      cases hexpire : store.get (getExplireKey key) with
      | none => exact ⟨trivial, fun _ => not_false⟩
      | some expireStr =>
          dsimp only
          cases hverdict : isExpired (some expireStr) now with
          | error err => exact ⟨trivial, fun _ => not_false⟩
          | ok verdict =>
              cases verdict with
              | false => exact ⟨trivial, fun _ => not_false⟩
              | true =>
                  refine ⟨⟨trivial, not_false⟩, ?_⟩
                  rintro ⟨-, halive⟩
                  rw [hexpire, hverdict] at halive
                  cases halive

theorem starts_redisTtl : (redisTtl key).Starts key := by
  refine ⟨?_, not_false⟩
  intro now store
  dsimp only
  cases store.get key with
  | none => exact ⟨trivial, fun _ => not_false⟩
  | some value =>
      cases store.get (getExplireKey key) with
      | none => exact ⟨trivial, fun _ => not_false⟩
      | some expireStr =>
          dsimp only
          cases isExpired (some expireStr) now with
          | error err => exact ⟨trivial, fun _ => not_false⟩
          | ok verdict => cases verdict <;> exact ⟨trivial, fun _ => not_false⟩

theorem KeyCommand.starts {arith : DoubleArith} {command : Command}
    (hcommand : KeyCommand arith key command) : command.Starts key := by
  cases hcommand with
  | get => exact starts_redisGet
  | ttl => exact starts_redisTtl
  | hset pairs => exact starts_writeCommand _
  | hget field => exact starts_readCommand _ _
  | hdel field => exact starts_takeCommand _ _
  | hkeys => exact starts_readCommand _ _
  | push added value => exact starts_writeCommand _
  | pop taken => exact starts_takeCommand _ _
  | llen => exact starts_readCommand _ _
  | lrange start stop => exact starts_readCommand _ _
  | zadd op args =>
      rw [redisZadd]
      dsimp only
      cases scorePairs args with
      | error err => exact ⟨trivial, not_false⟩
      | ok pairs => exact starts_writeCommand _
  | zrem op args =>
      cases args with
      | nil => exact ⟨trivial, not_false⟩
      | cons elem rest => exact starts_takeCommand _ _
  | zrange op args =>
      rcases args with _ | ⟨startStr, _ | ⟨stopStr, rest⟩⟩
      · exact ⟨trivial, not_false⟩
      · exact ⟨trivial, not_false⟩
      · exact starts_withNumber fun start => starts_withNumber fun stop =>
          starts_readCommand _ _
  | zcard => exact starts_readCommand _ _
  | zscore elem => exact starts_readCommand _ _
  | zincrby increment elem => exact starts_writeCommand _
  | zrank elem => exact starts_readCommand _ _
  | sadd op members => exact starts_writeCommand _
  | srem op members => exact starts_takeCommand _ _
  | sismember member => exact starts_readCommand _ _
  | scard => exact starts_readCommand _ _
  | smembers => exact starts_readCommand _ _
  -- These take the exclusive lock at once.
  | _ => exact ⟨trivial, not_false⟩

end Starts

/-! ## Runs of careful clients -/

theorem Live.earlier {key : Bytes} {store : Store} {now earlier : ℤ}
    (halive : Live key now store) (hle : earlier ≤ now) : Live key earlier store := by
  obtain ⟨hsome, hverdict⟩ := halive
  refine ⟨hsome, ?_⟩
  revert hverdict
  cases store.get (getExplireKey key) with
  | none => exact id
  | some expireStr =>
      rw [isExpired, isExpired]
      cases stoll expireStr with
      | error err => exact id
      | ok expireTime =>
          intro hverdict
          have hlater := Except.ok.inj hverdict
          rw [decide_eq_false_iff_not, not_lt] at hlater
          exact congrArg Except.ok (decide_eq_false (hle.trans hlater).not_gt)

section Kept

variable {Client : Type*} [DecidableEq Client] {arith : DoubleArith} {key : Bytes}
  {clients : Clients Client}

/-- As long as the key is alive in the store as it was last written, nothing has changed
since, and nobody is about to clean up. -/
structure Kept (key : Bytes) (clients : Clients Client) : Prop where
  cautious : ∀ client, (clients.pending client).Cautious key
  kept : Live key clients.clock clients.written →
    clients.store = clients.written ∧ ∀ client, ¬(clients.pending client).AtCleanUp

namespace Kept

/-- One client gets on to another section, and neither the store nor the key is written. -/
theorem update (hkept : Kept key clients) (client : Client) {rest : Command}
    (hcautious : rest.Cautious key)
    (hrest : Live key clients.clock clients.written → ¬rest.AtCleanUp) :
    Kept key { clients with pending := Function.update clients.pending client rest } where
  cautious := (Function.forall_update_iff _
    fun _ (command : Command) => command.Cautious key).mpr ⟨hcautious, fun other _ => hkept.cautious other⟩
  kept := by
    intro halive
    obtain ⟨hstore, hwaiting⟩ := hkept.kept halive
    exact ⟨hstore, (Function.forall_update_iff _
      fun _ (command : Command) => ¬command.AtCleanUp).mpr
        ⟨hrest halive, fun other _ => hwaiting other⟩⟩

theorem request (hkept : Kept key clients) {client : Client} {args : List Bytes}
    (hargs : OnKey key args) : Kept key (clients.step arith (.request client args)) := by
  obtain ⟨hcautious, hstart⟩ := (dispatch_keyCommand arith hargs).starts
  rw [Clients.step]
  cases clients.pending client with
  | done reply => exact hkept.update client hcautious fun _ => hstart
  | shared next => exact hkept
  | cleanUp clean next => exact hkept
  | exclusive body => exact hkept

theorem tick (hkept : Kept key clients) (seconds : ℕ) :
    Kept key (clients.step arith (.tick seconds)) where
  cautious := hkept.cautious
  kept halive := hkept.kept (halive.earlier (Int.le_add_of_nonneg_right seconds.cast_nonneg))

/-- A section: a shared one sees the key alive when it is, no clean-up runs while it is, and
a section with a write finds nobody before a clean-up. -/
theorem advance (hkept : Kept key clients) {client : Client}
    (hcareful : Careful key clients (.advance client)) :
    Kept key (clients.step arith (.advance client)) := by
  have hcautious := hkept.cautious client
  have hwaiting := fun halive => (hkept.kept halive).2 client
  rw [Careful] at hcareful
  rw [Clients.step]
  revert hcareful hcautious hwaiting
  cases hpending : clients.pending client with
  | done reply => exact fun _ _ _ => hkept.update client trivial fun _ => not_false
  | shared next =>
      intro _ hcautious _
      obtain ⟨hnext, hlive⟩ := hcautious clients.clock clients.store
      apply hkept.update client hnext
      intro halive
      apply hlive
      rwa [(hkept.kept halive).1]
  | cleanUp clean next =>
      intro _ hcautious hwaiting
      have hdead : ¬Live key clients.clock clients.written := fun halive =>
        hwaiting halive trivial
      rw [Command.advance]
      cases clean clients.store with
      | mk cleaned result =>
          cases result with
          | error err =>
              have hrest := starts_done key (.error err)
              have hdone := hkept.update client hrest.1 fun _ => hrest.2
              exact ⟨hdone.cautious, fun halive => absurd halive hdead⟩
          | ok _ =>
              have hnext := hkept.update client hcautious.1 fun _ => hcautious.2
              exact ⟨hnext.cautious, fun halive => absurd halive hdead⟩
  | exclusive body =>
      intro hcareful _ _
      have hrest := starts_done key (body clients.clock clients.store).2
      have hdone := hkept.update client hrest.1 fun _ => hrest.2
      constructor
      · exact hdone.cautious
      · intro halive
        refine ⟨rfl, (Function.forall_update_iff _
          fun _ (command : Command) => ¬command.AtCleanUp).mpr ?_⟩
        exact ⟨not_false, fun other _ => hcareful halive other⟩

theorem run (hkept : Kept key clients) {events : List (Event Client)}
    (honly : OnlyKey key events) (hcareful : CarefulRun arith key events clients) :
    Kept key (clients.run arith events) := by
  induction events generalizing clients with
  | nil => exact hkept
  | cons event rest ih =>
      have hrest : OnlyKey key rest := fun client args hmem =>
        honly client args (List.mem_cons_of_mem _ hmem)
      apply ih _ hrest hcareful.2
      cases event with
      | request client args => exact hkept.request (honly client args List.mem_cons_self)
      | advance client => exact hkept.advance hcareful.1
      | tick seconds => exact hkept.tick seconds

end Kept

end Kept

/-- What was written last is in the store as long as it is alive, in every run in which no
write that leaves the key alive comes between the check and the clean-up of another
command. -/
theorem newer_write_kept {Client : Type*} [DecidableEq Client] (arith : DoubleArith)
    {key : Bytes} {clients : Clients Client} {events : List (Event Client)}
    (hidle : ∀ client, ∃ reply, clients.pending client = .done reply)
    (hstart : clients.written = clients.store) (honly : OnlyKey key events)
    (hcareful : CarefulRun arith key events clients)
    (halive : Live key (clients.run arith events).clock (clients.run arith events).written) :
    (clients.run arith events).store = (clients.run arith events).written := by
  have hkept : Kept key clients := by
    constructor
    · intro client
      obtain ⟨reply, hreply⟩ := hidle client
      rw [hreply]
      trivial
    · intro _
      refine ⟨hstart.symm, ?_⟩
      intro client
      obtain ⟨reply, hreply⟩ := hidle client
      rw [hreply]
      exact not_false
  exact ((hkept.run honly hcareful).kept halive).1

/-- Two clients that wait for nothing, with a key that expired before second two. -/
def expiredClients : Clients Bool where
  store := ((∅ : Store).put (ascii "k") (ascii "old")).put (getExplireKey (ascii "k"))
    (ascii "1")
  clock := 2
  pending := fun _ => .done (.ok [])
  written := ((∅ : Store).put (ascii "k") (ascii "old")).put (getExplireKey (ascii "k"))
    (ascii "1")

/-- The clean-up of the one client comes before the write of the other. -/
theorem newer_write_kept_sample :
    ((expiredClients.run wholeArith [.request false [ascii "GET", ascii "k"], .advance false,
        .advance false, .request true [ascii "SET", ascii "k", ascii "new"],
        .advance true]).store.get (ascii "k")) = some (ascii "new") := by
  have hkept := @newer_write_kept Bool _ wholeArith (ascii "k") expiredClients
    [.request false [ascii "GET", ascii "k"], .advance false, .advance false,
      .request true [ascii "SET", ascii "k", ascii "new"], .advance true]
    (fun _ => ⟨_, rfl⟩) rfl ?_ ?_ ?_
  · rw [hkept]
    decide +kernel
  · intro client args hmem
    simp only [List.mem_cons, Event.request.injEq, reduceCtorEq, false_or, or_false,
      List.not_mem_nil] at hmem
    rcases hmem with ⟨-, rfl⟩ | ⟨-, rfl⟩
    · rintro _ ⟨⟩
      rfl
    · rintro _ ⟨⟩
      rfl
  · refine ⟨trivial, trivial, trivial, trivial, ?_, trivial⟩
    rintro - (_ | _)
    · exact not_false
    · exact not_false
  · rw [Live]
    decide +kernel

/-- The write comes between the check and the clean-up, and is deleted. -/
theorem newer_write_removed :
    Live (ascii "k") 2 ((expiredClients.run wholeArith
        [.request false [ascii "GET", ascii "k"], .advance false,
          .request true [ascii "SET", ascii "k", ascii "new"], .advance true]).store) ∧
    (expiredClients.run wholeArith
        [.request false [ascii "GET", ascii "k"], .advance false,
          .request true [ascii "SET", ascii "k", ascii "new"], .advance true,
          .advance false]).store.get (ascii "k") = none := by
  rw [Live]
  decide +kernel

end KopiDb.Redis
