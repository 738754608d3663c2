import QueryPlayback.Dispatch.Worker
import QueryPlayback.Lib.Interleaving

/-!
# The thread-pool dispatcher

`ThreadPoolDispatcher` together with the workers of its pool. The vector holds
the only references to the workers, so clearing it deletes them.

## Implementation notes

The list of delivered entries and the list of the workers deleted by the last
`clear()` only record what happened; no step reads them.
-/

namespace QueryPlayback

/-- What lies in the queue of a pool worker: an entry of the log or a `FinishEntry`. -/
inductive QueueEntry (ε : Type)
  | query (e : ε)
  | finish
  deriving DecidableEq, Repr

instance {ε : Type} [QueryEntry ε] : QueryEntry (QueueEntry ε) where
  getThreadId
    | .query e => QueryEntry.getThreadId e
    | .finish => 0
  isQuit
    | .query e => QueryEntry.isQuit e
    | .finish => false
  isShutdown
    | .query e => QueryEntry.isShutdown e
    | .finish => true

namespace ThreadPool

open QueryEntry QueryEntries Interleaving Relation

/-- The settings of the pool and the checksum of the bytes of a thread id. -/
structure Config where
  threadsCount : Nat
  queueDepth : Nat
  checksum : UInt64 → UInt32

/-- `crc.checksum() % workers.size()`. -/
def Config.workerIndex (c : Config) (size : Nat) (id : UInt64) : Nat :=
  (c.checksum id).toNat % size

/-- Where `run`, `dispatch` and `finish_all_and_wait` stand. -/
inductive Pc (ε : Type)
  /-- the loop of `run` -/
  | create (i : Nat)
  /-- the condition of the loop over the entries -/
  | pop
  /-- the push in the loop over the entries -/
  | push (e : ε)
  /-- the first loop of `finish_all_and_wait` -/
  | finish (i : Nat)
  /-- the second loop of `finish_all_and_wait` -/
  | join (i : Nat)
  | returned
  | crashed
  deriving DecidableEq, Repr

/-- The dispatcher and its workers. -/
structure State (σ ε : Type) where
  pc : Pc ε
  queryEntries : σ
  workers : List (Worker (QueueEntry ε))
  delivered : List ε
  retired : List (Worker (QueueEntry ε))

variable {σ ε : Type}

namespace State

/-- The constructor of the plugin. -/
def init (q : σ) : State σ ε where
  pc := .returned
  queryEntries := q
  workers := []
  delivered := []
  retired := []

/-- The beginning of a run over the entries of `q`. -/
def run (s : State σ ε) (q : σ) : State σ ε :=
  { s with pc := .create 0, queryEntries := q, delivered := [], retired := [] }

/-- The entry the dispatcher has popped but not pushed yet. -/
def inHand (s : State σ ε) : List ε :=
  match s.pc with
  | .push e => [e]
  | _ => []

/-- The entries popped so far. -/
def popped (s : State σ ε) : List ε := s.delivered ++ s.inHand

end State

variable [QueryEntry ε] [QueryEntries σ ε]

/-- One step of the dispatcher or of one of its workers. -/
inductive Step (c : Config) : State σ ε → State σ ε → Prop
  | worker {s : State σ ε} {workers : List (Worker (QueueEntry ε))}
      (hstep : ComponentStep Worker.Step s.workers workers) :
      Step c s { s with workers := workers }
  /-- `create(i)`, `push_back` and `start_thread`. -/
  | create {s : State σ ε} {i : Nat} (hpc : s.pc = .create i) (hi : i < c.threadsCount) :
      Step c s
        { s with pc := .create (i + 1), workers := s.workers ++ [Worker.start (UInt64.ofNat i)] }
  | createEnd {s : State σ ε} {i : Nat} (hpc : s.pc = .create i) (hi : c.threadsCount ≤ i) :
      Step c s { s with pc := .pop }
  | popNone {s : State σ ε} (hpc : s.pc = .pop) (hpop : popEntry s.queryEntries = none) :
      Step c s { s with pc := .finish 0 }
  | popSome {s : State σ ε} {e : ε} {q : σ} (hpc : s.pc = .pop)
      (hpop : popEntry s.queryEntries = some (e, q)) :
      Step c s { s with pc := .push e, queryEntries := q }
  /-- The bounded queue of the worker has room. -/
  | push {s : State σ ε} {e : ε} {w : Worker (QueueEntry ε)} (hpc : s.pc = .push e)
      (hget : s.workers[c.workerIndex s.workers.length (getThreadId e)]? = some w)
      (hroom : w.queue.length < c.queueDepth) :
      Step c s
        { s with
          pc := .pop
          workers := s.workers.set (c.workerIndex s.workers.length (getThreadId e))
            (w.push (.query e))
          delivered := s.delivered ++ [e] }
  /-- The remainder by zero of a pool without workers. -/
  | pushCrash {s : State σ ε} {e : ε} (hpc : s.pc = .push e) (hnone : s.workers = []) :
      Step c s { s with pc := .crashed }
  | finish {s : State σ ε} {i : Nat} {w : Worker (QueueEntry ε)} (hpc : s.pc = .finish i)
      (hget : s.workers[i]? = some w) (hroom : w.queue.length < c.queueDepth) :
      Step c s { s with pc := .finish (i + 1), workers := s.workers.set i (w.push .finish) }
  | finishEnd {s : State σ ε} {i : Nat} (hpc : s.pc = .finish i) (hi : s.workers.length ≤ i) :
      Step c s { s with pc := .join 0 }
  | join {s : State σ ε} {i : Nat} {w : Worker (QueueEntry ε)} (hpc : s.pc = .join i)
      (hget : s.workers[i]? = some w) (hret : w.pc = .returned) :
      Step c s { s with pc := .join (i + 1) }
  /-- `workers.clear()`. -/
  | joinEnd {s : State σ ε} {i : Nat} (hpc : s.pc = .join i) (hi : s.workers.length ≤ i) :
      Step c s
        { s with pc := .returned, workers := [], retired := s.workers.map Worker.destroy }

/-- The states that a run reaches. -/
def Reaches (c : Config) (s₀ s : State σ ε) : Prop := ReflTransGen (Step c) s₀ s

end ThreadPool

end QueryPlayback
