import QueryPlayback.Lib.Interruptible
import QueryPlayback.Text.StringRef

/-!
# The calls into libmysqlclient

What `MySQLDBThread` uses of the client library, with a server whose outcomes
are arbitrary. Every call is recorded in the trace of the thread, and the number
of calls made so far selects the outcome of the next one.

## Implementation notes

The library is used as documented. After `mysql_real_connect` the text of
`mysql_error` is empty exactly when the connection was established, nothing
reconnects by itself, and a query on a handle that is not connected fails with
the error "server has gone away". A server that has dropped a connection is one
whose later outcomes are failures. The calls of `mysql_errno` and `mysql_error`
only read the handle and are not recorded.
-/

namespace QueryPlayback

/-- `class QueryResult` without the duration, which the caller measures. -/
structure QueryResult where
  rowsSent : Nat := 0
  rowsExamined : Nat := 0
  error : Int := 0
  warningCount : Nat := 0
  deriving DecidableEq, Repr

/-- `class MySQLOptions` without the filter of the printed errors. -/
structure MySQLOptions where
  host : Bytes := bytes "127.0.0.1"
  user : Bytes := bytes "root"
  password : Bytes := []
  schema : Bytes := bytes "test"
  socket : Bytes := bytes "/var/lib/mysql/mysql.sock"
  port : UInt32 := 3306
  maxRetries : UInt32 := 9
  deriving DecidableEq, Repr

namespace MySQL

/-- The arguments of `mysql_real_connect`. -/
structure ConnectArguments where
  host : Bytes
  user : Bytes
  passwd : Bytes
  db : Bytes
  port : UInt32
  unixSocket : Bytes
  clientFlag : UInt32
  deriving DecidableEq, Repr

/-- `CLIENT_MULTI_STATEMENTS`. -/
def clientMultiStatements : UInt32 := 65536

/-- Whether `execute_query` was called for an entry or by `init_session`. -/
inductive Origin
  | user
  | sessionInit
  deriving DecidableEq, Repr

/-- The library calls. -/
inductive Call
  | threadInit
  | threadEnd
  | init
  | realConnect (arguments : ConnectArguments) (succeeded : Bool)
  | close
  | realQuery (origin : Origin) (query : Bytes) (succeeded : Bool)
  | warningCount
  | storeResult
  | numRows
  | freeResult
  | nextResult
  | usleep (useconds : UInt32)
  deriving DecidableEq, Repr

/-- What the server sends for a query it accepts: the results of the statements
as `mysql_store_result` gives them and the return values of `mysql_next_result`. -/
structure Answer where
  warningCount : Nat
  result : Nat → Option Nat
  next : Nat → Int

/-- The outcome of `mysql_real_connect`. -/
inductive ConnectReply
  | accepted
  | refused (errno : Nat) (error : Bytes) (nonempty : error ≠ [])

def ConnectReply.succeeded : ConnectReply → Bool
  | accepted => true
  | refused .. => false

/-- The outcome of `mysql_real_query`. -/
inductive QueryReply
  | accepted (answer : Answer)
  | failed (code : Int) (errno : Nat) (error : Bytes) (nonzero : code ≠ 0)

namespace QueryReply

def succeeded : QueryReply → Bool
  | accepted _ => true
  | failed .. => false

/-- The return value of the call. -/
def code : QueryReply → Int
  | accepted _ => 0
  | failed code .. => code

def errno : QueryReply → Nat
  | accepted _ => 0
  | failed _ errno .. => errno

def error : QueryReply → Bytes
  | accepted _ => []
  | failed _ _ error _ => error

/-- `CR_SERVER_GONE_ERROR`. -/
def serverGone : QueryReply := failed 1 2006 (bytes "MySQL server has gone away") Int.one_ne_zero

end QueryReply

/-- The outcomes of the calls by the number of calls made before. -/
structure Server where
  connect : Nat → ConnectReply
  query : Nat → QueryReply
  usleep : Nat → Int

/-- What a `MYSQL` can be used for. -/
inductive HandleState
  /-- before `mysql_init` and after `mysql_close` -/
  | raw
  /-- initialised but not connected -/
  | idle
  | connected
  deriving DecidableEq, Repr

/-- The type `MYSQL`. -/
structure Handle where
  state : HandleState
  errno : Nat
  error : Bytes
  deriving DecidableEq, Repr

end MySQL

/-- `class MySQLDBThread`, with the library calls made by its thread. -/
structure MySQLDBThread where
  handle : MySQL.Handle
  numConnectErrors : Nat
  haveConnected : Bool
  trace : List MySQL.Call
  deriving DecidableEq, Repr

namespace MySQL

/-- Code that runs in the thread. -/
abbrev Client := Interruptible MySQLDBThread

open Interruptible

/-- Record a call that does not change the handle. -/
def record (c : Call) : Client Unit := modify fun s => { s with trace := s.trace ++ [c] }

/-- `mysql_init`. -/
def init : Client Unit :=
  modify fun s => { s with handle := ⟨.idle, 0, []⟩, trace := s.trace ++ [.init] }

/-- `mysql_close`. -/
def close : Client Unit :=
  modify fun s => { s with handle := { s.handle with state := .raw }, trace := s.trace ++ [.close] }

/-- The handle behind `mysql_real_connect`. -/
def Handle.connect (h : Handle) : ConnectReply → Handle
  | .accepted => ⟨.connected, 0, []⟩
  | .refused errno error _ => { h with errno := errno, error := error }

/-- `mysql_real_connect`; the result says whether it was not `NULL`. -/
def realConnect (server : Server) (arguments : ConnectArguments) : Client Bool := fun s =>
  let reply := server.connect s.trace.length
  .done reply.succeeded
    { s with
      handle := s.handle.connect reply
      trace := s.trace ++ [.realConnect arguments reply.succeeded] }

/-- How `mysql_real_query` ends on this handle. -/
def Handle.query (h : Handle) (reply : QueryReply) : QueryReply :=
  match h.state with
  | .connected => reply
  | _ => .serverGone

/-- `mysql_real_query`. -/
def realQuery (server : Server) (origin : Origin) (query : Bytes) : Client QueryReply := fun s =>
  let reply := s.handle.query (server.query s.trace.length)
  .done reply
    { s with
      handle := { s.handle with errno := reply.errno, error := reply.error }
      trace := s.trace ++ [.realQuery origin query reply.succeeded] }

/-- `mysql_warning_count`. -/
def warningCount (answer : Answer) : Client Nat := do
  record .warningCount
  pure answer.warningCount

/-- `mysql_store_result` behind `i` calls of `mysql_next_result`; no result is `NULL`. -/
def storeResult (answer : Answer) (i : Nat) : Client (Option Nat) := do
  record .storeResult
  pure (answer.result i)

/-- `mysql_num_rows`. -/
def numRows (rows : Nat) : Client Nat := do
  record .numRows
  pure rows

/-- `mysql_next_result`. -/
def nextResult (answer : Answer) (i : Nat) : Client Int := do
  record .nextResult
  pure (answer.next i)

/-- `usleep`. -/
def usleep (server : Server) (useconds : UInt32) : Client Int := fun s =>
  .done (server.usleep s.trace.length) { s with trace := s.trace ++ [.usleep useconds] }

end MySQL

end QueryPlayback
