import QueryPlayback.MySQL.Client

/-!
# The MySQL worker thread

`MySQLDBThread` and the parts of `DBThread` that call into it. `execute_query`
connects when there is no connection and reconnects after every failure;
connecting initialises the session; initialising the session executes a query
again.

## Implementation notes

The recursion is written with an explicit depth, and the loop over the results
of an answer with the same bound. A run that needs more is cut off there, and so
is a thread that pops from an empty queue. A larger bound only continues the run.
The signed counter of `connect` is a natural number; its bound is compared as an
unsigned number in the source, too.
-/

namespace QueryPlayback

open MySQL Interruptible

/-- The settings a thread runs with and the server it talks to. -/
structure Env where
  options : MySQLOptions
  sessionInitQuery : Bytes
  server : Server

/-- What `DBThread::run` asks of an entry. The text is the one its `execute` passes
to `execute_query`; a `FinishEntry` has none. -/
structure ThreadEntry where
  isQuit : Bool
  isShutdown : Bool
  text : Option Bytes
  deriving DecidableEq, Repr

/-- `class FinishEntry`. -/
def finishEntry : ThreadEntry := ⟨false, true, none⟩

/-- What the body of the loop in `DBThread::run` does with an entry. -/
inductive Treatment where
  | quit
  | executes (text : Bytes)
  | nothing
  deriving DecidableEq, Repr

/-- The entry is asked whether it is a quit first. -/
def ThreadEntry.treatment (query : ThreadEntry) : Treatment :=
  if query.isQuit then .quit
  else
    match query.text with
    | some text => .executes text
    | none => .nothing

/-- The arguments `connect` passes on. -/
def MySQLOptions.connectArguments (options : MySQLOptions) : ConnectArguments :=
  ⟨options.host, options.user, options.password, options.schema, options.port, options.socket,
    clientMultiStatements⟩

namespace MySQLDBThread

/-- A new thread object. The constructor does not set `have_connected`. -/
def created (haveConnected : Bool) : MySQLDBThread := ⟨⟨.raw, 0, []⟩, 0, haveConnected, []⟩

/-- `have_connected = b`. -/
def setHaveConnected (b : Bool) : Client Unit := modify fun s => { s with haveConnected := b }

variable (env : Env)

/-- The body of the loop in `connect`; the result is `had_too_many_connections`. -/
def tryConnect : Client Bool := do
  init
  let succeeded ← realConnect env.server env.options.connectArguments
  if succeeded then pure false
  else do
    modify fun s => { s with numConnectErrors := s.numConnectErrors + 1 }
    gets fun s => decide (s.handle.errno = 1203)

/-- The loop in `connect`, where `left` is `max_retries - num_tries`. -/
def connectLoop : (left : Nat) → (numTries : Nat) → Client Unit
  | 0, _ => do
      let _ ← tryConnect env
      pure ()
  | left + 1, numTries => do
      let hadTooManyConnections ← tryConnect env
      if hadTooManyConnections then do
        let result ← usleep env.server (UInt32.ofNat (1000000 * numTries))
        if result ≠ 0 then connectLoop left (numTries + 1) else pure ()
      else pure ()

/-- `connect()`. -/
def connect : Client Bool := do
  connectLoop env (env.options.maxRetries.toNat - 1) 1
  let error ← gets (·.handle.error)
  if error ≠ [] then do
    setHaveConnected false
    pure false
  else do
    setHaveConnected true
    pure true

/-- `disconnect()`. -/
def disconnect : Client Unit := do
  let haveConnected ← gets (·.haveConnected)
  (if haveConnected then close else pure ())
  setHaveConnected false

/-- The type of `execute_query`. -/
abbrev Execute := Origin → Bytes → QueryResult → Client QueryResult

/-- `init_session()`. -/
def initSession (executeQuery : Execute) : Client Unit :=
  if env.sessionInitQuery = [] then pure ()
  else do
    let _ ← executeQuery .sessionInit env.sessionInitQuery {}
    pure ()

/-- `connect_and_init_session()`. -/
def connectAndInitSession (executeQuery : Execute) : Client Bool := do
  let connected ← connect env
  if connected then do
    initSession env executeQuery
    pure true
  else pure false

/-- The rows of a stored result are counted and the result is freed. -/
def countRows (result : Option Nat) (r : QueryResult) : Client QueryResult :=
  match result with
  | none => pure r
  | some rows => do
      let rowsSent ← numRows rows
      record .freeResult
      pure { r with rowsSent := rowsSent }

/-- The loop over the results of an answer. -/
def readResults (answer : Answer) : (fuel : Nat) → (i : Nat) → QueryResult → Client QueryResult
  | 0, _, _ => cutOff
  | fuel + 1, i, r => do
      let result ← storeResult answer i
      let r ← countRows result r
      let status ← nextResult answer i
      if status = 0 then readResults answer fuel (i + 1) r else pure r

/-- What `execute_query` does behind a successful query. -/
def readAnswer (fuel : Nat) (answer : Answer) (r : QueryResult) : Client QueryResult := do
  let warnings ← warningCount answer
  readResults answer fuel 0 { r with warningCount := warnings, rowsSent := 0 }

/-- What `execute_query` does behind a failed query. -/
def reconnect (executeQuery : Execute) (i : Nat) : Client Unit := do
  let errno ← gets (·.handle.errno)
  let _ ← (if errno = 1203 then usleep env.server (UInt32.ofNat (1000000 * i)) else pure 0)
  disconnect
  let _ ← connectAndInitSession env executeQuery
  pure ()

/-- The loop in `execute_query`, where `left` is the number of attempts to come. -/
def queryLoop (executeQuery : Execute) (fuel : Nat) (origin : Origin) (query : Bytes) :
    (left : Nat) → (i : Nat) → QueryResult → Client QueryResult
  | 0, _, r => pure r
  | left + 1, i, r => do
      let reply ← realQuery env.server origin query
      match reply with
      | .failed .. => do
          reconnect env executeQuery i
          queryLoop executeQuery fuel origin query left (i + 1) { r with error := reply.code }
      | .accepted answer => readAnswer fuel answer { r with error := reply.code }

/-- Connecting is delayed until there is a query to execute. -/
def ensureConnected (executeQuery : Execute) : Client Unit := do
  let haveConnected ← gets (·.haveConnected)
  if haveConnected then pure ()
  else do
    let _ ← connectAndInitSession env executeQuery
    pure ()

/-- `max_retries + 1`, a sum of 32-bit numbers. -/
def attempts : Nat := (env.options.maxRetries + 1).toNat

/-- `execute_query(query, r, expected_result)` with the depth of the recursion. -/
def executeQuery : (fuel : Nat) → Execute
  | 0, _, _, _ => cutOff
  | fuel + 1, origin, query, r => do
      ensureConnected env (executeQuery fuel)
      queryLoop env (executeQuery fuel) (fuel + 1) origin query (attempts env) 0 r

/-- `query->execute(this)`. -/
def execute (fuel : Nat) (query : ThreadEntry) : Client Unit :=
  match query.text with
  | none => pure ()
  | some text => do
      let _ ← executeQuery env fuel .user text {}
      pure ()

/-- The body of the loop in `DBThread::run`. -/
def handleEntry (fuel : Nat) (query : ThreadEntry) : Client Unit :=
  if query.isQuit then do
    disconnect
    let _ ← connectAndInitSession env (executeQuery env fuel)
    pure ()
  else execute env fuel query

/-- A quit disconnects and reconnects, and the text of another entry goes to `execute_query`. -/
theorem handleEntry_eq (fuel : Nat) (query : ThreadEntry) :
    handleEntry env fuel query =
      match query.treatment with
      | .quit => do
          disconnect
          let _ ← connectAndInitSession env (executeQuery env fuel)
          pure ()
      | .executes text => do
          let _ ← executeQuery env fuel .user text {}
          pure ()
      | .nothing => pure () := by
  rw [handleEntry, ThreadEntry.treatment, execute]
  cases query.isQuit with
  | true => rfl
  | false => cases query.text <;> rfl

/-- `DBThread::run()` with the entries its queue is going to deliver. -/
def runEntries (fuel : Nat) : (queries : List ThreadEntry) → Client Unit
  | [] => cutOff
  | query :: queries => do
      handleEntry env fuel query
      if query.isShutdown then disconnect else runEntries fuel queries

/-- `MySQLDBThread::run()`. -/
def run (fuel : Nat) (queries : List ThreadEntry) : Client Unit := do
  setHaveConnected false
  record .threadInit
  runEntries env fuel queries
  record .threadEnd

/-- The calls of a run up to where it is cut off. -/
def calls (fuel : Nat) (haveConnected : Bool) (queries : List ThreadEntry) : List Call :=
  (run env fuel queries (created haveConnected)).state.trace

end MySQLDBThread

end QueryPlayback
