import QueryPlayback.Dispatch.Worker
import QueryPlayback.Lib.Interleaving
import Mathlib.Data.List.AList

/-!
# The thread-per-connection dispatcher

`ThreadPerConnectionDispatcher` together with the worker threads it has
created. The table of executors maps thread ids to pointers to workers; the
null pointer is the value `operator[]` puts there for a new id.

## Implementation notes

Workers live on a heap and a pointer is an index into it, so that a pointer
left behind by `delete` can be told from a good one. Reaching through a null
or deleted pointer is the state `crashed`. The list of delivered entries and
the first index of a run only record what happened; no step reads them.
-/

namespace QueryPlayback.ThreadPerConnection

open QueryEntry QueryEntries Interleaving Relation

/-- `DBExecutorsTable`. -/
abbrev Executors := AList fun _ : UInt64 => Option Nat

/-- Where `dispatch` and `finish_all_and_wait` stand. -/
inductive Pc (ε : Type)
  /-- the condition of the loop over the entries -/
  | pop
  /-- the test of `num_running` in front of the creation of a worker -/
  | spawn (e : ε)
  /-- the loop of `finish_some_and_go` over the rest of the table -/
  | reap (e : ε) (todo : List UInt64)
  /-- `db_thread->queries->push(query_entry)` -/
  | push (e : ε)
  /-- the loop of `finish_all_and_wait` over the rest of the table -/
  | join (todo : List UInt64)
  | returned
  | crashed
  deriving DecidableEq, Repr

/-- The dispatcher and its workers. -/
structure State (σ ε : Type) where
  pc : Pc ε
  queryEntries : σ
  executors : Executors
  numRunning : Int
  workers : List (Worker ε)
  delivered : List ε
  firstWorker : Nat

variable {σ ε : Type}

/-- The pointer stored for an id, if it is neither missing nor null. -/
def pointer (executors : Executors) (id : UInt64) : Option Nat := (executors.lookup id).join

/-- The most workers that may run when another one is created. -/
def maxRunning : Int := 10000

namespace State

/-- The constructor of the plugin; `num_running` is set by `dispatch`. -/
def init (q : σ) : State σ ε where
  pc := .returned
  queryEntries := q
  executors := ∅
  numRunning := 0
  workers := []
  delivered := []
  firstWorker := 0

/-- The beginning of `dispatch(query_entries)`. -/
def dispatch [QueryEntries σ ε] (s : State σ ε) (q : σ) : State σ ε :=
  { s with
    pc := .pop
    queryEntries := setShutdownOnLastQueryOfConn q
    numRunning := 0
    delivered := []
    firstWorker := s.workers.length }

/-- The entry the dispatcher has popped but not pushed yet. -/
def inHand (s : State σ ε) : List ε :=
  match s.pc with
  | .spawn e => [e]
  | .reap e _ => [e]
  | .push e => [e]
  | _ => []

/-- The entries popped so far. -/
def popped (s : State σ ε) : List ε := s.delivered ++ s.inHand

end State

variable [QueryEntry ε] [QueryEntries σ ε]

/-- One step of the dispatcher or of one of its workers. -/
inductive Step (depth : Nat) : State σ ε → State σ ε → Prop
  | worker {s : State σ ε} {workers : List (Worker ε)}
      (hstep : ComponentStep Worker.Step s.workers workers) :
      Step depth s { s with workers := workers }
  /-- `popEntry` gives null and `finish_all_and_wait` begins. -/
  | popNone {s : State σ ε} {todo : List UInt64} (hpc : s.pc = .pop)
      (hpop : popEntry s.queryEntries = none) (htodo : todo.Perm s.executors.keys) :
      Step depth s { s with pc := .join todo }
  /-- `executors[thread_id]` finds a worker. -/
  | popKnown {s : State σ ε} {e : ε} {q : σ} {i : Nat} (hpc : s.pc = .pop)
      (hpop : popEntry s.queryEntries = some (e, q))
      (hslot : pointer s.executors (getThreadId e) = some i) :
      Step depth s { s with pc := .push e, queryEntries := q }
  /-- `executors[thread_id]` is null, perhaps because it has just been inserted. -/
  | popNew {s : State σ ε} {e : ε} {q : σ} (hpc : s.pc = .pop)
      (hpop : popEntry s.queryEntries = some (e, q))
      (hslot : pointer s.executors (getThreadId e) = none) :
      Step depth s
        { s with
          pc := .spawn e
          queryEntries := q
          executors := s.executors.insert (getThreadId e) none }
  /-- Too many workers: `finish_some_and_go` begins. -/
  | spawnWait {s : State σ ε} {e : ε} {todo : List UInt64} (hpc : s.pc = .spawn e)
      (hrunning : maxRunning < s.numRunning) (htodo : todo.Perm s.executors.keys) :
      Step depth s { s with pc := .reap e todo }
  /-- `create`, `num_running += 1` and `start_thread`. -/
  | spawnCreate {s : State σ ε} {e : ε} (hpc : s.pc = .spawn e)
      (hrunning : s.numRunning ≤ maxRunning) :
      Step depth s
        { s with
          pc := .push e
          executors := s.executors.insert (getThreadId e) (some s.workers.length)
          numRunning := s.numRunning + 1
          workers := s.workers ++ [Worker.start (getThreadId e)] }
  /-- The pointer is null or the timed join gives up. -/
  | reapSkip {s : State σ ε} {e : ε} {id : UInt64} {todo : List UInt64}
      (hpc : s.pc = .reap e (id :: todo))
      (hlive : ∀ i w, pointer s.executors id = some i → s.workers[i]? = some w →
        w.destroyed = false) :
      Step depth s { s with pc := .reap e todo }
  /-- The timed join succeeds. -/
  | reapErase {s : State σ ε} {e : ε} {id : UInt64} {todo : List UInt64} {i : Nat} {w : Worker ε}
      (hpc : s.pc = .reap e (id :: todo)) (hslot : pointer s.executors id = some i)
      (hget : s.workers[i]? = some w) (hlive : w.destroyed = false) (hret : w.pc = .returned) :
      Step depth s
        { s with
          pc := .reap e todo
          executors := s.executors.erase id
          numRunning := s.numRunning - 1 }
  | reapCrash {s : State σ ε} {e : ε} {id : UInt64} {todo : List UInt64} {i : Nat} {w : Worker ε}
      (hpc : s.pc = .reap e (id :: todo)) (hslot : pointer s.executors id = some i)
      (hget : s.workers[i]? = some w) (hdead : w.destroyed = true) :
      Step depth s { s with pc := .crashed }
  | reapEnd {s : State σ ε} {e : ε} (hpc : s.pc = .reap e []) :
      Step depth s { s with pc := .spawn e }
  /-- The bounded queue has room. -/
  | push {s : State σ ε} {e : ε} {i : Nat} {w : Worker ε} (hpc : s.pc = .push e)
      (hslot : pointer s.executors (getThreadId e) = some i) (hget : s.workers[i]? = some w)
      (hlive : w.destroyed = false) (hroom : w.queue.length < depth) :
      Step depth s
        { s with
          pc := .pop
          workers := s.workers.set i (w.push e)
          delivered := s.delivered ++ [e] }
  | pushCrash {s : State σ ε} {e : ε} (hpc : s.pc = .push e)
      (hdead : ∀ i w, pointer s.executors (getThreadId e) = some i → s.workers[i]? = some w →
        w.destroyed = true) :
      Step depth s { s with pc := .crashed }
  /-- `join()` and `delete`. -/
  | join {s : State σ ε} {id : UInt64} {todo : List UInt64} {i : Nat} {w : Worker ε}
      (hpc : s.pc = .join (id :: todo)) (hslot : pointer s.executors id = some i)
      (hget : s.workers[i]? = some w) (hlive : w.destroyed = false) (hret : w.pc = .returned) :
      Step depth s { s with pc := .join todo, workers := s.workers.set i w.destroy }
  | joinCrash {s : State σ ε} {id : UInt64} {todo : List UInt64} (hpc : s.pc = .join (id :: todo))
      (hdead : ∀ i w, pointer s.executors id = some i → s.workers[i]? = some w →
        w.destroyed = true) :
      Step depth s { s with pc := .crashed }
  | joinEnd {s : State σ ε} (hpc : s.pc = .join []) :
      Step depth s { s with pc := .returned }

/-- The states of one run that starts with the entries of `q`. -/
def Reaches (depth : Nat) (s₀ s : State σ ε) : Prop := ReflTransGen (Step depth) s₀ s

end QueryPlayback.ThreadPerConnection
