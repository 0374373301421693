import KopiDb.Redis.Replies

/-!
# Connections

The server is one loop over the sockets.  A connection waits until a line has ended in its
buffer, takes the lines of a request out of it, answers the request and goes on with what is
left.  A client may therefore write requests without waiting for the answers.
-/

namespace KopiDb.Redis

/-! ## Requests from a buffer -/

/-- `std::getline`: the characters of the line, and what is left of the buffer. -/
def getline (buffer : Bytes) : Bytes × Bytes :=
  (buffer.takeWhile fun char => decide (char ≠ 10),
    (buffer.dropWhile fun char => decide (char ≠ 10)).drop 1)

/-- The loop over the lines of the elements, which ends early when the buffer is used up. -/
def readElements : ℕ → Bytes → Bytes → Option Bytes × Bytes
  | 0, fullRequest, buffer => (some fullRequest, buffer)
  | lines + 1, fullRequest, buffer =>
      if buffer = [] then (none, buffer)
      else
        let (line, buffer) := getline buffer
        readElements lines (fullRequest ++ (line ++ ascii "\r\n")) buffer

/-- The part of `do_read` that runs when a line has ended: what becomes of the request, and what
is left of the buffer.  `getline` takes the line feed only, so that every line ends with two
carriage returns afterwards. -/
def doRead (buffer : Bytes) : Parsed × Bytes :=
  let (line, buffer) := getline buffer
  let requestLine := line ++ ascii "\r\n"
  if requestLine = ascii "PING\r\n" then (.reply (ascii "+PONG\r\n"), buffer)
  else if requestLine.length < 2 ∨ requestLine.head? ≠ some 42 then
    (protocolError "expected '*'", buffer)
  else
    match stoi (requestLine.drop 1) with
    | .error _ => (protocolError "invalid number of elements", buffer)
    | .ok numElements =>
        match readElements (wrapInt 32 (numElements * 2)).toNat requestLine buffer with
        | (none, buffer) => (protocolError "partial request received", buffer)
        | (some fullRequest, buffer) => (parseRequest fullRequest, buffer)

/-- What `handleRequest` goes on to. -/
def Parsed.command (arith : DoubleArith) : Parsed → Command
  | .reply text => .done (.ok text)
  | .dispatch args => Redis.dispatch arith args
  | .throws err => .done (.error err)

/-! ## The loop of the server -/

/-- What the next reads of the socket will take in, what they took in so far and was not used,
what was written, and whether the session has given up. -/
structure Connection where
  incoming : List Bytes
  buffer : Bytes
  sent : Bytes
  ended : Bool
  deriving DecidableEq

/-- How a socket takes a reply.  `do_write` hands out the bytes of a string that is gone when
the handler of the read returns: only the first send finds the reply there. -/
inductive Write where
  | whole
  /-- The sends behind the first one write what stands in the place of the reply. -/
  | cut (taken : ℕ) (remains : Bytes)
  /-- The error branches of `do_write`, which read no further. -/
  | failed (taken : ℕ)

/-- `do_write` -/
def Connection.doWrite (connection : Connection) (reply : Bytes) : Write → Connection
  | .whole => { connection with sent := connection.sent ++ reply }
  | .cut taken remains =>
      { connection with sent := connection.sent ++ (reply.take taken ++ remains) }
  | .failed taken =>
      { connection with sent := connection.sent ++ reply.take taken, ended := true }

/-- An exception in a handler ends the loop. -/
structure Server (Client : Type*) where
  store : Store
  running : Bool
  connections : Client → Connection

inductive Activity (Client Chunk : Type*) where
  | arrive (client : Client) (chunk : Chunk)
  | turn (client : Client) (now : ℤ)

/-- What is written for a reply. -/
def written (reply : Except Err Bytes) : Bytes := reply.toOption.getD []

section Server

/-- How the socket of a client takes what follows the bytes that it has sent. -/
abbrev Sockets (Client : Type*) := Client → Bytes → Write

variable {Client : Type*} [DecidableEq Client] (arith : DoubleArith) (sockets : Sockets Client)

def Server.start (store : Store) : Server Client where
  store := store
  running := true
  connections := fun _ => { incoming := [], buffer := [], sent := [], ended := false }

/-- On its turn a connection answers a request when a line has ended in the buffer, and takes
in more otherwise. -/
def Server.step (server : Server Client) : Activity Client Bytes → Server Client
  | .arrive client chunk =>
      let connection := server.connections client
      { server with
        connections := Function.update server.connections client
          { connection with incoming := connection.incoming ++ [chunk] } }
  | .turn client now =>
      let connection := server.connections client
      if server.running ∧ ¬connection.ended then
        if ascii "\r\n" <:+: connection.buffer then
          let (parsed, buffer) := doRead connection.buffer
          let (store, reply) := (parsed.command arith).run now server.store
          { store := store
            running := reply.isOk
            connections := Function.update server.connections client
              (Connection.doWrite { connection with buffer := buffer } (written reply)
                (sockets client connection.sent)) }
        else
          match connection.incoming with
          | [] => server
          | chunk :: incoming =>
              { server with
                connections := Function.update server.connections client
                  { connection with
                    incoming := incoming, buffer := connection.buffer ++ chunk } }
      else server

def Server.run (server : Server Client) (activities : List (Activity Client Bytes)) :
    Server Client :=
  activities.foldl (Server.step arith sockets) server

end Server

/-! ## Calls -/

/-- A request that was handled, with its reply. -/
structure Call (Client : Type*) where
  client : Client
  now : ℤ
  args : List Bytes
  reply : Except Err Bytes

/-- The purpose of the connections: every client has a queue of requests, and every request is
one call on the store. -/
structure Calls (Client : Type*) where
  store : Store
  running : Bool
  incoming : Client → List (List (List Bytes))
  queue : Client → List (List Bytes)
  log : List (Call Client)

section Calls

variable {Client : Type*} [DecidableEq Client] (arith : DoubleArith)

def Calls.start (store : Store) : Calls Client where
  store := store
  running := true
  incoming := fun _ => []
  queue := fun _ => []
  log := []

def Calls.step (calls : Calls Client) : Activity Client (List (List Bytes)) → Calls Client
  | .arrive client requests =>
      { calls with
        incoming := Function.update calls.incoming client
          (calls.incoming client ++ [requests]) }
  | .turn client now =>
      if calls.running then
        match calls.queue client with
        | args :: queue =>
            let (store, reply) := (dispatch arith args).run now calls.store
            { calls with
              store := store
              running := reply.isOk
              queue := Function.update calls.queue client queue
              log := calls.log ++ [{ client, now, args, reply }] }
        | [] =>
            match calls.incoming client with
            | [] => calls
            | requests :: incoming =>
                { calls with
                  incoming := Function.update calls.incoming client incoming
                  queue := Function.update calls.queue client requests }
      else calls

def Calls.run (calls : Calls Client) (activities : List (Activity Client (List (List Bytes)))) :
    Calls Client :=
  activities.foldl (Calls.step arith) calls

/-- What a client wrote. -/
def arrived (client : Client) (activities : List (Activity Client (List (List Bytes)))) :
    List (List Bytes) :=
  activities.flatMap fun activity =>
    match activity with
    | .arrive other requests => if other = client then requests else []
    | .turn _ _ => []

/-- The requests of a client that were handled. -/
def handled (client : Client) (log : List (Call Client)) : List (List Bytes) :=
  log.filterMap fun call => if call.client = client then some call.args else none

/-- The answers to a client. -/
def answers (client : Client) (log : List (Call Client)) : List Bytes :=
  log.filterMap fun call => if call.client = client then call.reply.toOption else none

end Calls

/-! ## Requests on the wire -/

/-- A client writes whole requests at a time. -/
def Activity.encode {Client : Type*} :
    Activity Client (List (List Bytes)) → Activity Client Bytes
  | .arrive client requests => .arrive client (requests.flatMap encodeRequest)
  | .turn client now => .turn client now

/-- A string as it stands in the buffer of the parser. -/
def bulkRead (value : Bytes) : Bytes :=
  ascii "$" ++ decimal value.length ++ ascii "\r\r\n" ++ value ++ ascii "\r\r\n"

def requestRead (args : List Bytes) : Bytes :=
  ascii "*" ++ decimal args.length ++ ascii "\r\r\n" ++ args.flatMap bulkRead

/-- No argument has line feeds, and positions fit into an `int`. -/
def Sendable (args : List Bytes) : Prop :=
  (∀ arg ∈ args, 10 ∉ arg) ∧ (requestRead args).length < 2 ^ 31

instance (args : List Bytes) : Decidable (Sendable args) := inferInstanceAs (Decidable (_ ∧ _))

theorem getline_append {line : Bytes} (hline : 10 ∉ line) (rest : Bytes) :
    getline (line ++ 10 :: rest) = (line, rest) := by
  have hkeep : ∀ char ∈ line, decide (char ≠ 10) = true := by
    intro char hmem
    rw [decide_eq_true_iff]
    rintro rfl
    exact hline hmem
  rw [getline, List.takeWhile_append_of_pos hkeep, List.dropWhile_append_of_pos hkeep]
  simp

/-- Two lines of the buffer are one element. -/
theorem readElements_bulk {arg : Bytes} (harg : 10 ∉ arg) (lines : ℕ)
    (fullRequest buffer : Bytes) :
    readElements (lines + 2) fullRequest (bulkReply arg ++ buffer) =
      readElements lines (fullRequest ++ bulkRead arg) buffer := by
  have hlength : (10 : Fin 256) ∉ 36 :: (decimal arg.length ++ [13]) :=
    List.not_mem_cons_of_ne_of_not_mem (by decide) (newline_not_mem_decimal _)
  have hvalue : (10 : Fin 256) ∉ arg ++ [13] := List.not_mem_append harg (by decide)
  have hsplit : bulkReply arg ++ buffer =
      (36 :: (decimal arg.length ++ [13])) ++ 10 :: ((arg ++ [13]) ++ 10 :: buffer) := by
    rw [bulkReply_append]
    simp only [List.append_assoc, List.cons_append]
  have hread : bulkRead arg =
      (36 :: (decimal arg.length ++ [13]) ++ ascii "\r\n") ++ (arg ++ [13] ++ ascii "\r\n") := by
    have hend : ascii "\r\r\n" = [13] ++ ascii "\r\n" := by decide
    rw [bulkRead, hend, show ascii "$" = [36] by decide]
    simp only [List.append_assoc, List.cons_append, List.nil_append]
  rw [hsplit, readElements, if_neg (List.append_ne_nil_of_left_ne_nil (List.cons_ne_nil _ _) _),
    getline_append hlength]
  dsimp only
  rw [readElements, if_neg (List.append_ne_nil_of_right_ne_nil _ (List.cons_ne_nil _ _)),
    getline_append hvalue]
  dsimp only
  rw [hread]
  simp only [List.append_assoc]

theorem readElements_bulks {args : List Bytes} (hlines : ∀ arg ∈ args, 10 ∉ arg)
    (fullRequest buffer : Bytes) :
    readElements (args.length * 2) fullRequest (args.flatMap bulkReply ++ buffer) =
      (some (fullRequest ++ args.flatMap bulkRead), buffer) := by
  induction args generalizing fullRequest with
  | nil =>
      rw [List.flatMap_nil, List.flatMap_nil, List.append_nil, List.length_nil, Nat.zero_mul]
      rfl
  | cons arg args ih =>
      obtain ⟨harg, hlines⟩ := List.forall_mem_cons.mp hlines
      rw [List.flatMap_cons, List.flatMap_cons, List.append_assoc, List.length_cons, Nat.succ_mul,
        readElements_bulk harg, ih hlines, List.append_assoc]

theorem bulksForm_read {args : List Bytes} (hlines : ∀ arg ∈ args, 10 ∉ arg)
    (hsize : ∀ arg ∈ args, arg.length < 2 ^ 31) : BulksForm args (args.flatMap bulkRead) := by
  induction args with
  | nil => trivial
  | cons arg args ih =>
      obtain ⟨harg, hsize⟩ := List.forall_mem_cons.mp hsize
      obtain ⟨hline, hlines⟩ := List.forall_mem_cons.mp hlines
      have hend : ascii "\r\r\n" = [13, 13, 10] := by decide
      have hsplit : ∀ rest, bulkRead arg ++ rest =
          36 :: ((decimal arg.length ++ [13, 13]) ++ 10 :: (arg ++ ([13, 13] ++ 10 :: rest))) := by
        intro rest
        rw [bulkRead, hend, show ascii "$" = [36] by decide]
        simp only [List.append_assoc, List.cons_append, List.nil_append]
      have hlength : (10 : Fin 256) ∉ decimal arg.length ++ [13, 13] := by
        have hfront := newline_not_mem_decimal arg.length
        have hmore := List.not_mem_append hfront (by decide : (10 : Fin 256) ∉ [13])
        rwa [List.append_assoc] at hmore
      have hlen : ∀ tail, stoi ((decimal arg.length ++ [13, 13]) ++ tail) = .ok arg.length := by
        intro tail
        rw [List.append_assoc]
        exact stoi_decimal harg _
      rw [List.flatMap_cons, hsplit]
      cases args with
      | nil => exact ⟨_, _, rfl, hlength, hlen _⟩
      | cons other args =>
          exact ⟨_, _, _, rfl, hlength, hline, by decide, hlen _, ih hlines hsize⟩

theorem length_bulksRead (args : List Bytes) :
    args.length * 2 ≤ (args.flatMap bulkRead).length ∧
      ∀ arg ∈ args, arg.length ≤ (args.flatMap bulkRead).length := by
  induction args with
  | nil => exact ⟨le_rfl, List.forall_mem_nil _⟩
  | cons arg args ih =>
      have hbulk : arg.length + 2 ≤ (bulkRead arg).length := by
        simp only [bulkRead, List.length_append]
        have hend : (ascii "\r\r\n").length = 3 := rfl
        omega
      rw [List.flatMap_cons, List.length_append, List.length_cons, List.forall_mem_cons]
      refine ⟨by omega, by omega, ?_⟩
      intro other hother
      exact (ih.2 other hother).trans (Nat.le_add_left _ _)

/-- The line with the number of elements, as the connection passes it on. -/
theorem requestRead_eq (args : List Bytes) :
    requestRead args =
      (42 :: (decimal args.length ++ [13])) ++ ascii "\r\n" ++ args.flatMap bulkRead := by
  have hend : ascii "\r\r\n" = [13] ++ ascii "\r\n" := by decide
  rw [requestRead, hend, show ascii "*" = [42] by decide]
  simp only [List.append_assoc, List.cons_append, List.nil_append]

theorem parseRequest_read {args : List Bytes} (hsend : Sendable args) :
    parseRequest (requestRead args) = .dispatch args := by
  obtain ⟨hlines, hsize⟩ := hsend
  obtain ⟨hcount, hargs⟩ := length_bulksRead args
  have hsplit : requestRead args =
      42 :: ((decimal args.length ++ [13, 13]) ++ 10 :: args.flatMap bulkRead) := by
    have hend : ascii "\r\n" = [13, 10] := by decide
    rw [requestRead_eq, hend]
    simp only [List.append_assoc, List.cons_append, List.nil_append]
  have hbound : (args.flatMap bulkRead).length < 2 ^ 31 := by
    rw [hsplit, List.length_cons, List.length_append, List.length_cons] at hsize
    omega
  apply parseRequest_form (by rw [hsplit]; rfl) hsize
  refine ⟨42, _, _, hsplit, ?_, ?_, ?_⟩
  · have hmore := List.not_mem_append (newline_not_mem_decimal args.length)
      (by decide : (10 : Fin 256) ∉ [13])
    rwa [List.append_assoc] at hmore
  · rw [hsplit, List.drop_succ_cons, List.drop_zero, List.append_assoc]
    exact stoi_decimal (by omega) _
  · exact bulksForm_read hlines fun arg harg => (hargs arg harg).trans_lt hbound

/-- A connection takes exactly one request off the buffer. -/
theorem doRead_encode {args : List Bytes} (hsend : Sendable args) (rest : Bytes) :
    doRead (encodeRequest args ++ rest) = (.dispatch args, rest) := by
  have hline : (10 : Fin 256) ∉ 42 :: (decimal args.length ++ [13]) :=
    List.not_mem_cons_of_ne_of_not_mem (by decide) (newline_not_mem_decimal _)
  have hsplit : encodeRequest args ++ rest = (42 :: (decimal args.length ++ [13])) ++
      10 :: (args.flatMap bulkReply ++ rest) := by
    have hend : ascii "\r\n" = [13, 10] := by decide
    rw [encodeRequest, arrayReply, hend, show ascii "*" = [42] by decide]
    simp only [List.append_assoc, List.cons_append, List.nil_append]
  have hsmall : args.length * 2 < 2 ^ 31 := by
    have hcount := (length_bulksRead args).1
    have hsize := hsend.2
    rw [requestRead_eq, List.length_append] at hsize
    omega
  have hcount : stoi ((42 :: (decimal args.length ++ [13]) ++ ascii "\r\n").drop 1) =
      .ok args.length := by
    rw [List.cons_append, List.drop_succ_cons, List.drop_zero, List.append_assoc]
    exact stoi_decimal (by omega) _
  have hlines : (wrapInt 32 ((args.length : ℤ) * 2)).toNat = args.length * 2 := by
    have hwrap : wrapInt 32 ((args.length : ℤ) * 2) = (args.length : ℤ) * 2 := by
      rw [wrapInt]
      apply Int.bmod_eq_of_le <;> omega
    rw [hwrap]
    omega
  have hping : (42 :: (decimal args.length ++ [13])) ++ ascii "\r\n" ≠ ascii "PING\r\n" := by
    intro hsame
    rw [show ascii "PING\r\n" = [80, 73, 78, 71, 13, 10] by decide, List.cons_append] at hsame
    exact absurd (List.cons.inj hsame).1 (by decide)
  have hstar : ¬(((42 :: (decimal args.length ++ [13])) ++ ascii "\r\n").length < 2 ∨
      ((42 :: (decimal args.length ++ [13])) ++ ascii "\r\n").head? ≠ some 42) := by
    rintro (hshort | hhead)
    · rw [List.length_append] at hshort
      have hend : (ascii "\r\n").length = 2 := rfl
      omega
    · exact hhead rfl
  rw [hsplit, doRead, getline_append hline]
  dsimp only
  rw [if_neg hping, if_neg hstar]
  split
  next err herror =>
    rw [hcount] at herror
    cases herror
  next numElements hnumber =>
    obtain rfl := Except.ok.inj (hcount.symm.trans hnumber)
    rw [hlines, readElements_bulks hsend.1]
    dsimp only
    rw [← requestRead_eq, parseRequest_read hsend]

/-! ## Every request is one call -/

theorem runCommands_concat (commands : List (ℤ × Command)) (now : ℤ) (command : Command)
    (store : Store) :
    runCommands (commands ++ [(now, command)]) store =
      ((command.run now (runCommands commands store).1).1,
        (runCommands commands store).2 ++
          [(command.run now (runCommands commands store).1).2]) := by
  induction commands generalizing store with
  | nil => rfl
  | cons first commands ih =>
      rw [List.cons_append, runCommands]
      dsimp only
      rw [ih]
      rfl

section Serve

variable {Client : Type*} [DecidableEq Client]

/-- The calls one after the other are what happened to the store, those of a client are its
requests in their order, up to what it still waits for, and all of them have answers while the
server is running. -/
structure Serves (arith : DoubleArith) (store : Store)
    (activities : List (Activity Client (List (List Bytes)))) (calls : Calls Client) : Prop where
  serial : runCommands (calls.log.map fun call => (call.now, dispatch arith call.args)) store =
    (calls.store, calls.log.map Call.reply)
  inOrder : ∀ client, handled client calls.log ++
    (calls.queue client ++ (calls.incoming client).flatten) = arrived client activities
  answered : calls.running = true → ∀ call ∈ calls.log, call.reply.isOk = true

variable {arith : DoubleArith} {store : Store} {calls : Calls Client} {server : Server Client}
  {sockets : Sockets Client} {activities : List (Activity Client (List (List Bytes)))}

theorem Serves.step (hserves : Serves arith store activities calls)
    (activity : Activity Client (List (List Bytes))) :
    Serves arith store (activities ++ [activity]) (calls.step arith activity) := by
  have harrived : ∀ client, arrived client (activities ++ [activity]) =
      arrived client activities ++ arrived client [activity] :=
    fun client => List.flatMap_append
  cases activity with
  | arrive client requests =>
      refine ⟨hserves.serial, fun other => ?_, hserves.answered⟩
      rw [harrived, ← hserves.inOrder other]
      by_cases hsame : client = other
      · subst hsame
        simp [Calls.step, arrived]
      · simp [Calls.step, arrived, hsame, Function.update_of_ne (Ne.symm hsame)]
  | turn client now =>
      have hnone : ∀ other, arrived other (activities ++ [.turn client now]) =
          arrived other activities := by
        intro other
        rw [harrived]
        exact List.append_nil _
      rw [Calls.step]
      split_ifs with hrunning
      swap
      · exact ⟨hserves.serial, fun other => (hserves.inOrder other).trans (hnone other).symm,
          hserves.answered⟩
      split
      next args queue hqueue =>
        constructor
        · rw [List.map_append, List.map_singleton, runCommands_concat, hserves.serial,
            List.map_append]
          rfl
        · intro other
          rw [hnone, ← hserves.inOrder other]
          by_cases hsame : client = other
          · subst hsame
            simp [handled, hqueue]
          · simp [handled, hsame, Function.update_of_ne (Ne.symm hsame)]
        · intro hok call hmem
          rcases List.mem_append.mp hmem with hmem | hmem
          · exact hserves.answered hrunning call hmem
          · rwa [List.mem_singleton.mp hmem]
      next hqueue =>
        split
        next hincoming =>
          exact ⟨hserves.serial, fun other => (hserves.inOrder other).trans (hnone other).symm,
            hserves.answered⟩
        next requests incoming hincoming =>
          refine ⟨hserves.serial, fun other => ?_, hserves.answered⟩
          rw [hnone, ← hserves.inOrder other]
          by_cases hsame : client = other
          · subst hsame
            simp [hqueue, hincoming]
          · simp [Function.update_of_ne (Ne.symm hsame)]

theorem serves_run (arith : DoubleArith) (store : Store)
    (activities : List (Activity Client (List (List Bytes)))) :
    Serves arith store activities ((Calls.start store).run arith activities) := by
  induction activities using List.reverseRecOn with
  | nil => exact ⟨rfl, fun _ => rfl, fun _ _ hmem => by cases hmem⟩
  | append_singleton activities activity ih =>
      rw [Calls.run, List.foldl_append]
      exact ih.step activity

/-! ## The server on the wire -/

/-- The buffers hold the requests that wait, and the answers were written. -/
structure OnWire (calls : Calls Client) (server : Server Client) : Prop where
  store : server.store = calls.store
  running : server.running = calls.running
  incoming : ∀ client, (server.connections client).incoming =
    (calls.incoming client).map fun requests => requests.flatMap encodeRequest
  buffer : ∀ client, (server.connections client).buffer =
    (calls.queue client).flatMap encodeRequest
  sent : ∀ client, (server.connections client).sent = (answers client calls.log).flatten
  reading : ∀ client, (server.connections client).ended = false

theorem line_ends (args : List Bytes) (rest : Bytes) :
    ascii "\r\n" <:+: encodeRequest args ++ rest := by
  refine ⟨ascii "*" ++ decimal args.length, args.flatMap bulkReply ++ rest, ?_⟩
  rw [encodeRequest, arrayReply]
  simp only [List.append_assoc]

/-- What one more call adds to the answers of a client. -/
theorem flatten_answers_concat (client : Client) (log : List (Call Client)) (call : Call Client) :
    (answers client (log ++ [call])).flatten =
      (answers client log).flatten ++ if call.client = client then written call.reply else [] := by
  rw [answers, List.filterMap_append, List.flatten_append]
  congr 1
  split_ifs with hsame
  · cases hreply : call.reply with
    | error err => simp [hsame, hreply, written, Except.toOption]
    | ok text => simp [hsame, hreply, written, Except.toOption]
  · simp [hsame]

theorem OnWire.step (hwire : OnWire calls server)
    (hwhole : ∀ client sent, sockets client sent = .whole)
    (hsend : ∀ client, ∀ args ∈ calls.queue client, Sendable args)
    (activity : Activity Client (List (List Bytes))) :
    OnWire (calls.step arith activity) (server.step arith sockets activity.encode) := by
  obtain ⟨hstore, hrunning, hincoming, hbuffer, hsent, hreading⟩ := hwire
  cases activity with
  | arrive client requests =>
      rw [Activity.encode, Server.step, Calls.step]
      refine ⟨hstore, hrunning, fun other => ?_, fun other => ?_, fun other => ?_,
        fun other => ?_⟩
      all_goals
        by_cases hsame : other = client
        · subst hsame
          simp [hincoming, hbuffer, hsent, hreading]
        · simp [Function.update_of_ne hsame, hincoming, hbuffer, hsent, hreading]
  | turn client now =>
      rw [Activity.encode, Server.step, Calls.step]
      dsimp only
      by_cases hrun : calls.running = true
      swap
      · rw [if_neg hrun, if_neg fun hturn => hrun (hrunning ▸ hturn.1)]
        exact ⟨hstore, hrunning, hincoming, hbuffer, hsent, hreading⟩
      rw [if_pos hrun, if_pos ⟨hrunning.trans hrun, by rw [hreading]; exact Bool.false_ne_true⟩]
      cases hqueue : calls.queue client with
      | cons args queue =>
          have hargs := hsend client args (hqueue ▸ List.mem_cons_self)
          have hread : (server.connections client).buffer =
              encodeRequest args ++ queue.flatMap encodeRequest := by
            rw [hbuffer, hqueue, List.flatMap_cons]
          rw [hread, if_pos (line_ends args _), doRead_encode hargs, hstore, hwhole]
          refine ⟨rfl, rfl, fun other => ?_, fun other => ?_, fun other => ?_, fun other => ?_⟩
          · by_cases hsame : other = client
            · subst hsame
              simp [Connection.doWrite, hincoming]
            · simp [Function.update_of_ne hsame, hincoming]
          · by_cases hsame : other = client
            · subst hsame
              simp [Connection.doWrite]
            · simp [Function.update_of_ne hsame, hbuffer]
          · rw [flatten_answers_concat, ← hsent]
            by_cases hsame : other = client
            · subst hsame
              simp [Connection.doWrite, Parsed.command]
            · simp [Function.update_of_ne hsame, Ne.symm hsame]
          · by_cases hsame : other = client
            · subst hsame
              simp [Connection.doWrite, hreading]
            · simp [Function.update_of_ne hsame, hreading]
      | nil =>
          have hempty : (server.connections client).buffer = [] := by
            rw [hbuffer, hqueue, List.flatMap_nil]
          rw [hempty, if_neg (by decide), hincoming]
          cases hchunks : calls.incoming client with
          | nil => exact ⟨hstore, hrunning, hincoming, hbuffer, hsent, hreading⟩
          | cons requests incoming =>
              refine ⟨hstore, hrunning, fun other => ?_, fun other => ?_, fun other => ?_,
                fun other => ?_⟩
              all_goals
                by_cases hsame : other = client
                · subst hsame
                  simp [hsent, hreading]
                · simp [Function.update_of_ne hsame, hincoming, hbuffer, hsent, hreading]

theorem onWire_run (arith : DoubleArith) (store : Store)
    (hwhole : ∀ client sent, sockets client sent = .whole)
    (hsend : ∀ client, ∀ args ∈ arrived client activities, Sendable args) :
    OnWire ((Calls.start store).run arith activities)
      ((Server.start store).run arith sockets (activities.map Activity.encode)) := by
  induction activities using List.reverseRecOn with
  | nil => exact ⟨rfl, rfl, fun _ => rfl, fun _ => rfl, fun _ => rfl, fun _ => rfl⟩
  | append_singleton activities activity ih =>
      have hpast : ∀ client, ∀ args ∈ arrived client activities, Sendable args := by
        intro client args hargs
        apply hsend client
        rw [arrived, List.flatMap_append]
        exact List.mem_append_left _ hargs
      rw [List.map_append, Server.run, List.foldl_append, Calls.run, List.foldl_append]
      apply (ih hpast).step hwhole
      intro client args hargs
      apply hpast client
      rw [← (serves_run arith store activities).inOrder client]
      exact List.mem_append_right _ (List.mem_append_left _ hargs)

end Serve

/-- Two clients on one key, of which each writes its requests at once. -/
def pipelined : List (Activity Bool (List (List Bytes))) :=
  [.arrive true [[ascii "SET", ascii "k", ascii "1"], [ascii "GET", ascii "k"]],
    .arrive false [[ascii "INCR", ascii "k"], [ascii "SADD", ascii "s", ascii "a", ascii "b"]],
    .turn true 0, .turn false 0, .turn true 1, .turn false 1, .turn true 2, .turn false 2,
    .arrive false [[ascii "SCARD", ascii "s"], [ascii "QUIT"]], .turn false 3, .turn false 4,
    .turn false 5]

/-- Sockets that take everything in one send. -/
def roomy (_ : Bool) (_ : Bytes) : Write := .whole

/-- A request that is not taken in at once is given up where it was cut, and a line feed in a
value moves the end of the request. -/
example :
    (((Server.start ∅).run wholeArith roomy [.arrive true (ascii "*1\r\n$4\r\n"),
      .arrive true (ascii "PING\r\n"), .turn true 0, .turn true 0, .turn true 0,
      .turn true 0]).connections true).sent =
        ascii "-ERR Protocol error: partial request received\r\n" ++
          ascii "-ERR Protocol error: expected '*'\r\n" ∧
    (doRead (encodeRequest [ascii "SET", ascii "k", ascii "a\nb"])).2 = ascii "b\r\n" := by
  decide +kernel

/-- A session whose reply could not be sent reads no further, and the others go on. -/
example : let sockets (client : Bool) (_ : Bytes) : Write :=
      if client then .failed 2 else .whole
    let server := (Server.start ∅).run wholeArith sockets (pipelined.map Activity.encode)
    (server.connections true).sent = ascii "+O" ∧
      (server.connections false).sent =
        ascii ":2\r\n:2\r\n:2\r\n-ERR unknown command 'QUIT'\r\n" := by
  decide +kernel

/-! ## The client -/

section Client

variable {Client : Type*} [DecidableEq Client] (arith : DoubleArith) (sockets : Sockets Client)

/-- What is written to a client. -/
def Server.answer (server : Server Client) (client : Client) : Activity Client Bytes →
    Option Bytes
  | .arrive _ _ => none
  | .turn other now =>
      let connection := server.connections client
      let buffer := connection.buffer
      if other = client ∧ (server.running ∧ ¬connection.ended) ∧ ascii "\r\n" <:+: buffer then
        (((doRead buffer).1.command arith).run now server.store).2.toOption
      else none

/-- The answers to a client, whatever it sent. -/
def Server.answers (client : Client) : List (Activity Client Bytes) → Server Client → List Bytes
  | [], _ => []
  | activity :: rest, server =>
      (server.answer arith client activity).toList ++
        Server.answers client rest (server.step arith sockets activity)

/-- What the answer to a request takes over fits. -/
def Parsed.Readable (store : Store) : Parsed → Prop
  | .dispatch args => Redis.Readable store args
  | _ => True

instance (store : Store) : ∀ parsed : Parsed, Decidable (parsed.Readable store)
  | .reply _ => isTrue trivial
  | .dispatch args => inferInstanceAs (Decidable (Redis.Readable store args))
  | .throws _ => isTrue trivial

def Server.Reads (server : Server Client) : Activity Client Bytes → Prop
  | .arrive _ _ => True
  | .turn client _ =>
      server.running ∧ ¬(server.connections client).ended →
        ascii "\r\n" <:+: (server.connections client).buffer →
        (doRead (server.connections client).buffer).1.Readable server.store

instance (server : Server Client) : ∀ activity, Decidable (server.Reads activity)
  | .arrive _ _ => isTrue trivial
  | .turn _ _ => inferInstanceAs (Decidable (_ → _ → _))

def ReadableRun : List (Activity Client Bytes) → Server Client → Prop
  | [], _ => True
  | activity :: rest, server =>
      server.Reads activity ∧ ReadableRun rest (server.step arith sockets activity)

instance decidableReadableRun : ∀ (activities : List (Activity Client Bytes))
    (server : Server Client), Decidable (ReadableRun arith sockets activities server)
  | [], _ => isTrue trivial
  | activity :: rest, server =>
      @instDecidableAnd _ _ inferInstance
        (decidableReadableRun rest (server.step arith sockets activity))

variable {arith} {sockets} {server : Server Client}

omit [DecidableEq Client] in
theorem doRead_reply {buffer reply : Bytes} (hreply : (doRead buffer).1 = .reply reply) :
    IsReply reply := by
  rw [doRead] at hreply
  dsimp only at hreply
  split_ifs at hreply
  · exact Parsed.reply.inj hreply ▸ isReply_pong
  · exact isReply_of_protocolError (by decide) hreply
  · split at hreply
    next => exact isReply_of_protocolError (by decide) hreply
    next =>
      split at hreply
      next => exact isReply_of_protocolError (by decide) hreply
      next => exact parseRequest_reply hreply

theorem isReply_answer (client : Client) {activity : Activity Client Bytes}
    (hreads : server.Reads activity) :
    ∀ text ∈ server.answer arith client activity, IsReply text := by
  intro text htext
  cases activity with
  | arrive other chunk => cases htext
  | turn other now =>
      rw [Server.answer] at htext
      split_ifs at htext with hturn
      swap
      · cases htext
      obtain ⟨rfl, hrunning, hline⟩ := hturn
      have hreadable := hreads hrunning hline
      have hok : (((doRead (server.connections other).buffer).1.command arith).run now
          server.store).2 = .ok text := by
        revert htext
        cases (((doRead (server.connections other).buffer).1.command arith).run now
          server.store).2 with
        | error err => exact fun htext => by cases htext
        | ok reply => exact fun htext => congrArg Except.ok (Option.some.inj htext)
      cases hparsed : (doRead (server.connections other).buffer).1 with
      | reply reply =>
          rw [hparsed] at hok
          exact isReply_of_ok (doRead_reply hparsed) hok
      | dispatch args =>
          rw [hparsed] at hok hreadable
          exact isReply_dispatch arith hreadable hok
      | throws err =>
          rw [hparsed] at hok
          cases hok

theorem sent_step (hwhole : ∀ client sent, sockets client sent = .whole) (client : Client)
    (activity : Activity Client Bytes) :
    ((server.step arith sockets activity).connections client).sent =
      (server.connections client).sent ++
        (server.answer arith client activity).toList.flatten := by
  cases activity with
  | arrive other chunk =>
      rw [Server.step, Server.answer, Option.toList_none, List.flatten_nil, List.append_nil]
      by_cases hsame : client = other
      · subst hsame
        simp
      · simp [Function.update_of_ne hsame]
  | turn other now =>
      have hsilent : ¬(other = client ∧
          (server.running ∧ ¬(server.connections client).ended) ∧
            ascii "\r\n" <:+: (server.connections client).buffer) →
          (server.answer arith client (.turn other now)).toList.flatten = [] := by
        intro hnot
        rw [Server.answer, if_neg hnot]
        rfl
      by_cases hrunning : server.running ∧ ¬(server.connections other).ended
      swap
      · rw [hsilent fun hturn => hrunning (hturn.1 ▸ hturn.2.1), Server.step, List.append_nil]
        dsimp only
        rw [if_neg hrunning]
      by_cases hline : ascii "\r\n" <:+: (server.connections other).buffer
      · by_cases hsame : other = client
        · subst hsame
          rw [Server.step]
          dsimp only
          rw [if_pos hrunning, if_pos hline, Server.answer, if_pos ⟨rfl, hrunning, hline⟩, hwhole]
          dsimp only [Connection.doWrite]
          rw [Function.update_self, written]
          cases (((doRead (server.connections other).buffer).1.command arith).run now
              server.store).2 with
          | error err => rfl
          | ok reply => exact congrArg _ (List.append_nil reply).symm
        · rw [hsilent fun hturn => hsame hturn.1, Server.step, List.append_nil]
          dsimp only
          rw [if_pos hrunning, if_pos hline]
          dsimp only
          rw [Function.update_of_ne (Ne.symm hsame)]
      · rw [hsilent fun hturn => hline (hturn.1 ▸ hturn.2.2), Server.step, List.append_nil]
        dsimp only
        rw [if_pos hrunning, if_neg hline]
        cases (server.connections other).incoming with
        | nil => rfl
        | cons chunk incoming =>
            dsimp only
            by_cases hsame : client = other
            · subst hsame
              rw [Function.update_self]
            · rw [Function.update_of_ne hsame]

theorem sent_run (hwhole : ∀ client sent, sockets client sent = .whole) (client : Client)
    (activities : List (Activity Client Bytes)) :
    ((server.run arith sockets activities).connections client).sent =
      (server.connections client).sent ++
        (server.answers arith sockets client activities).flatten := by
  induction activities generalizing server with
  | nil => exact (List.append_nil _).symm
  | cons activity activities ih =>
      rw [Server.run, List.foldl_cons, ← Server.run, ih, sent_step hwhole, Server.answers,
        List.flatten_append, List.append_assoc]

theorem isReply_answers (client : Client) {activities : List (Activity Client Bytes)}
    (hreadable : ReadableRun arith sockets activities server) :
    ∀ text ∈ server.answers arith sockets client activities, IsReply text := by
  induction activities generalizing server with
  | nil => exact List.forall_mem_nil _
  | cons activity activities ih =>
      intro text hmem
      rcases List.mem_append.mp hmem with hmem | hmem
      · exact isReply_answer client hreadable.1 text (Option.mem_toList.mp hmem)
      · exact ih hreadable.2 text hmem

end Client

/-- The first read ends within a request. -/
def tornRequest : List (Activity Bool Bytes) :=
  [.arrive true (ascii "*2\r\n$5\r\nSCA"),
    .arrive true (ascii "RD\r\n" ++ encodeRequest [ascii "SCARD", ascii "s"]),
    .turn true 0, .turn true 0, .turn true 0, .turn true 0, .turn true 0]

end KopiDb.Redis
