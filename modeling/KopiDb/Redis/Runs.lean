import KopiDb.Redis.Commands

/-!
# Sequences of commands

Commands that follow one another without overlap, and the rule by which a sequence of them
refines an abstract data type: one step at a time, as long as every step is allowed.
-/

namespace KopiDb.Redis

/-! ## Commands on a key without an expiry time -/

theorem getExplireKey_ne (key : Bytes) : getExplireKey key ≠ key := by
  intro heq
  have hlength := congrArg List.length heq
  have hheader : redisExpireHeader.length = 13 := rfl
  rw [getExplireKey, List.length_append, hheader] at hlength
  omega

section Unexpired

variable {key : Bytes} {store : Store} (hexpire : store.get (getExplireKey key) = none)
  (clean : Store → Store × Except Err Unit) (now : ℤ)
include hexpire

theorem run_checkExpiry (expired : Command) (live : ℤ → Store → Command) :
    (checkExpiry key clean expired live).run now store = (live now store).run now store := by
  rw [checkExpiry, Command.run, hexpire]
  rfl

theorem run_readCommand (expired : Bytes) (read : Store → Except Err Bytes) :
    (readCommand key clean expired read).run now store = (store, read store) :=
  run_checkExpiry hexpire clean now _ _

theorem run_takeCommand (expired : Bytes) (body : Store → Store × Except Err Bytes) :
    (takeCommand key clean expired body).run now store = body store :=
  run_checkExpiry hexpire clean now _ _

theorem run_writeCommand (body : Store → Store × Except Err Bytes) :
    (writeCommand key clean body).run now store = body store :=
  run_checkExpiry hexpire clean now _ _

end Unexpired

/-! ## Runs -/

/-- Commands one after the other, each at its own time. -/
def runCommands : List (ℤ × Command) → Store → Store × List (Except Err Bytes)
  | [], store => (store, [])
  | (now, command) :: rest, store =>
      let (store, reply) := command.run now store
      let (store, replies) := runCommands rest store
      (store, reply :: replies)

section Refinement

variable {Op State : Type*} (command : Op → Command) (step : Op → State → State × Bytes)
  (allowed : Op → State → Prop)

/-- The operations of an abstract data type one after the other. -/
def runSpec : List (ℤ × Op) → State → State × List Bytes
  | [], state => (state, [])
  | (_, op) :: rest, state =>
      let (state, reply) := step op state
      let (state, replies) := runSpec rest state
      (state, reply :: replies)

/-- Every operation is allowed in the state that it meets. -/
def AllowedRun : List (ℤ × Op) → State → Prop
  | [], _ => True
  | (_, op) :: rest, state => allowed op state ∧ AllowedRun rest (step op state).1

variable {step} {allowed} in
theorem AllowedRun.and {promised : Op → Prop} {ops : List (ℤ × Op)} {state : State}
    (hallowed : AllowedRun step allowed ops state) (hpromised : ∀ op ∈ ops, promised op.2) :
    AllowedRun step (fun op state => promised op ∧ allowed op state) ops state := by
  induction ops generalizing state with
  | nil => trivial
  | cons op rest ih =>
      obtain ⟨hhead, htail⟩ := List.forall_mem_cons.mp hpromised
      exact ⟨⟨hhead, hallowed.1⟩, ih hallowed.2 htail⟩

theorem runSpec_fst (ops : List (ℤ × Op)) (state : State) :
    (runSpec step ops state).1 = ops.foldl (fun state op => (step op.2 state).1) state := by
  induction ops generalizing state with
  | nil => rfl
  | cons op rest ih => exact ih _

/-- From one step to the state after a run, whatever the answers are. -/
theorem runCommands_represents {represents : Store → State → Prop}
    (hstep : ∀ op store state now, represents store state → allowed op state →
      represents ((command op).run now store).1 (step op state).1)
    {ops : List (ℤ × Op)} {store : Store} {state : State} (hstart : represents store state)
    (hallowed : AllowedRun step allowed ops state) :
    represents (runCommands (ops.map fun op => (op.1, command op.2)) store).1
      (runSpec step ops state).1 := by
  induction ops generalizing store state with
  | nil => exact hstart
  | cons op rest ih =>
      exact ih (hstep op.2 store state op.1 hstart hallowed.1) hallowed.2

/-- From one step to all runs. -/
theorem runCommands_refines {represents : Store → State → Prop}
    (hstep : ∀ op store state now, represents store state → allowed op state →
      represents ((command op).run now store).1 (step op state).1 ∧
        ((command op).run now store).2 = .ok (step op state).2)
    {ops : List (ℤ × Op)} {store : Store} {state : State} (hstart : represents store state)
    (hallowed : AllowedRun step allowed ops state) :
    represents (runCommands (ops.map fun op => (op.1, command op.2)) store).1
        (runSpec step ops state).1 ∧
      (runCommands (ops.map fun op => (op.1, command op.2)) store).2 =
        (runSpec step ops state).2.map .ok := by
  induction ops generalizing store state with
  | nil => exact ⟨hstart, rfl⟩
  | cons op rest ih =>
      obtain ⟨now, op⟩ := op
      obtain ⟨hnext, hreply⟩ := hstep op store state now hstart hallowed.1
      obtain ⟨hend, hreplies⟩ := ih hnext hallowed.2
      refine ⟨hend, ?_⟩
      change ((command op).run now store).2 :: _ = Except.ok (step op state).2 :: _
      rw [hreply]
      exact congrArg _ hreplies

end Refinement

end KopiDb.Redis
