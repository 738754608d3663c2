import QueryPlayback.Dispatch.ThreadPerConnection
import QueryPlayback.Dispatch.ThreadPool

/-!
# What dispatchers do to their workers

Both dispatchers keep their workers in a list that never shrinks: the heap of
the thread-per-connection dispatcher, and the vector of the pool together with
the workers that `clear()` has deleted. Every step lets one worker take a step,
starts one, or leaves alone what the workers have done.
-/

namespace QueryPlayback

open QueryEntry Interleaving Relation

namespace Handled

variable {ε A : Type}

/-- The same action on another view of the entry. -/
def map (f : ε → A) : Handled ε → Handled A
  | .execute e => .execute (f e)
  | .reconnect e => .reconnect (f e)

end Handled

section Heap

variable {ε : Type}

/-- Where a worker stands and what it has done. -/
def Worker.progress (w : Worker ε) : UInt64 × WorkerPc ε × List (Handled ε) :=
  (w.threadId, w.pc, w.processed)

/-- What the workers have done, worker by worker. -/
def handledBy (workers : List (Worker ε)) : List (Handled ε) := workers.flatMap (·.processed)

variable [QueryEntry ε]

/-- What a step can do to the list of all workers. -/
inductive HeapStep (workers : List (Worker ε)) : List (Worker ε) → Prop
  | worker {workers' : List (Worker ε)} (hstep : ComponentStep Worker.Step workers workers') :
      HeapStep workers workers'
  | start (id : UInt64) : HeapStep workers (workers ++ [Worker.start id])
  | keep {workers' : List (Worker ε)}
      (hkept : workers'.map Worker.progress = workers.map Worker.progress) :
      HeapStep workers workers'

/-- Replacing a worker by one that has come as far. -/
theorem HeapStep.set {workers : List (Worker ε)} {i : ℕ} {w w' : Worker ε}
    (hget : workers[i]? = some w) (hkept : w'.progress = w.progress) :
    HeapStep workers (workers.set i w') :=
  .keep (map_set_eq Worker.progress hget hkept)

/-- A step of a worker leaves alone what it has done or adds the entry it handles. -/
theorem Worker.Step.processed_eq {w w' : Worker ε} (h : Worker.Step w w') :
    w'.processed = w.processed ∨ ∃ e, w.pc = .handle e ∧
      w'.processed = w.processed ++ [Worker.handle e] := by
  obtain ⟨e, queue, -, -, rfl⟩ | ⟨e, hpc, rfl⟩ | ⟨e, -, rfl⟩ := h.cases
  · exact Or.inl rfl
  · exact Or.inr ⟨e, hpc, rfl⟩
  · exact Or.inl rfl

/-- One element more in the contribution of one element of a list. -/
theorem flatMap_set_perm {α β : Type} (f : α → List β) {l : List α} {i : ℕ} {a a' : α} {b : β}
    (hget : l[i]? = some a) (hmore : f a' = f a ++ [b]) :
    ((l.set i a').flatMap f).Perm (b :: l.flatMap f) := by
  induction l generalizing i with
  | nil => simp at hget
  | cons c l ih =>
      cases i with
      | zero =>
          obtain rfl : c = a := by simpa using hget
          rw [List.set_cons_zero, List.flatMap_cons, List.flatMap_cons, hmore, List.append_assoc]
          exact List.perm_middle
      | succ i =>
          rw [List.set_cons_succ, List.flatMap_cons, List.flatMap_cons]
          exact ((ih (by simpa using hget)).append_left (f c)).trans List.perm_middle

/-- Every step adds at most one entry to what has been handled. -/
theorem HeapStep.handledBy {workers workers' : List (Worker ε)} (h : HeapStep workers workers') :
    handledBy workers' = handledBy workers ∨
      ∃ e, (QueryPlayback.handledBy workers').Perm
        (Worker.handle e :: QueryPlayback.handledBy workers) := by
  cases h with
  | worker hstep =>
      obtain ⟨i, w, w', hget, hww, rfl⟩ := hstep
      rcases hww.processed_eq with hsame | ⟨e, -, hmore⟩
      · refine Or.inl ?_
        rw [QueryPlayback.handledBy, List.flatMap_def, map_set_eq _ hget hsame, ← List.flatMap_def]
        rfl
      · exact Or.inr ⟨e, flatMap_set_perm _ hget hmore⟩
  | start id =>
      refine Or.inl ?_
      simp [QueryPlayback.handledBy, Worker.start]
  | keep hkept =>
      refine Or.inl ?_
      have hprocessed := congrArg (List.map fun p => p.2.2) hkept
      rw [List.map_map, List.map_map] at hprocessed
      exact congrArg List.flatten hprocessed

end Heap

namespace ThreadPerConnection

variable {σ ε : Type} [QueryEntry ε] [QueryEntries σ ε] {depth : ℕ} {s s' : State σ ε}

theorem Step.heapStep (h : Step depth s s') : HeapStep s.workers s'.workers := by
  cases h with
  | worker hstep => exact .worker hstep
  | spawnCreate hpc hrunning => exact .start _
  | push hpc hslot hget hlive hroom => exact .set hget rfl
  | join hpc hslot hget hlive hret => exact .set hget rfl
  | _ => exact .keep rfl

end ThreadPerConnection

namespace ThreadPool

variable {σ ε : Type}

/-- The workers of the pool, also after they have been deleted. -/
def State.heap (s : State σ ε) : List (Worker (QueueEntry ε)) := s.workers ++ s.retired

/-- Workers are only deleted by `clear()`, behind which the pool is empty. -/
def State.Cleared (s : State σ ε) : Prop := s.retired = [] ∨ s.pc = .returned ∧ s.workers = []

theorem State.run_cleared (s : State σ ε) (q : σ) : (s.run q).Cleared := Or.inl rfl

variable [QueryEntry ε] [QueryEntries σ ε] {c : Config} {s s' : State σ ε}

theorem Step.heapStep (h : Step c s s') (hs : s.Cleared) : HeapStep s.heap s'.heap := by
  rcases hs with hretired | ⟨hreturned, hempty⟩
  · have hheap : s.heap = s.workers := by rw [State.heap, hretired, List.append_nil]
    rw [hheap]
    cases h with
    | worker hstep =>
        rw [State.heap, hretired, List.append_nil]
        exact .worker hstep
    | create hpc hi =>
        rw [State.heap, hretired, List.append_nil]
        exact .start _
    | push hpc hget hroom =>
        rw [State.heap, hretired, List.append_nil]
        exact .set hget rfl
    | finish hpc hget hroom =>
        rw [State.heap, hretired, List.append_nil]
        exact .set hget rfl
    | joinEnd hpc hi =>
        refine .keep ?_
        rw [State.heap, List.nil_append, List.map_map]
        rfl
    | _ =>
        refine .keep ?_
        rw [State.heap, hretired, List.append_nil]
  · cases h with
    | worker hstep =>
        obtain ⟨i, w, w', hget, -, -⟩ := hstep
        simp [hempty] at hget
    | _ => simp_all

theorem Step.cleared (h : Step c s s') (hs : s.Cleared) : s'.Cleared := by
  rcases hs with hretired | ⟨hreturned, hempty⟩
  · cases h with
    | joinEnd hpc hi => exact Or.inr ⟨rfl, rfl⟩
    | _ => exact Or.inl hretired
  · cases h with
    | worker hstep =>
        obtain ⟨i, w, w', hget, -, -⟩ := hstep
        simp [hempty] at hget
    | _ => simp_all

end ThreadPool

end QueryPlayback
