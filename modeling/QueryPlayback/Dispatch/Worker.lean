import QueryPlayback.Dispatch.Entry
import Mathlib.Logic.Relation

/-!
# Worker threads

`DBThread::run` as the dispatchers see it: a loop that pops an entry from the
thread's own queue, handles it, and stops behind an entry with the shutdown
flag. A quit entry reaches the test of the loop as well.

## Implementation notes

The list of handled entries only records what happened; no step reads it.
-/

namespace QueryPlayback

open QueryEntry Relation

/-- What a worker did with an entry. -/
inductive Handled (ε : Type)
  | execute (e : ε)
  | reconnect (e : ε)
  deriving DecidableEq, Repr

def Handled.entry {ε : Type} : Handled ε → ε
  | .execute e => e
  | .reconnect e => e

/-- Where the loop of `DBThread::run` stands. -/
inductive WorkerPc (ε : Type)
  | pop
  | handle (e : ε)
  | test (e : ε)
  | returned
  deriving DecidableEq, Repr

/-- `class DBThread` with its queue and its thread. -/
structure Worker (ε : Type) where
  threadId : UInt64
  queue : List ε
  pc : WorkerPc ε
  processed : List (Handled ε)
  destroyed : Bool
  deriving DecidableEq, Repr

namespace Worker

section Data

variable {ε : Type}

/-- A created worker whose thread has been started. -/
def start (threadId : UInt64) : Worker ε := ⟨threadId, [], .pop, [], false⟩

/-- `queries->push(e)`, once there is room. -/
def push (w : Worker ε) (e : ε) : Worker ε := { w with queue := w.queue ++ [e] }

/-- `delete` behind a join. -/
def destroy (w : Worker ε) : Worker ε := { w with destroyed := true }

/-- The entry that has been popped but not handled yet. -/
def inHand (w : Worker ε) : List ε :=
  match w.pc with
  | .handle e => [e]
  | _ => []

/-- All entries the worker has ever been given, in order. -/
def stream (w : Worker ε) : List ε := w.processed.map Handled.entry ++ w.inHand ++ w.queue

@[simp] theorem push_stream (w : Worker ε) (e : ε) : (w.push e).stream = w.stream ++ [e] := by
  simp [stream, push, inHand]

@[simp] theorem destroy_stream (w : Worker ε) : w.destroy.stream = w.stream := rfl

theorem processed_prefix (w : Worker ε) : w.processed.map Handled.entry <+: w.stream := by
  rw [stream, List.append_assoc]
  exact List.prefix_append _ _

end Data

variable {ε : Type} [QueryEntry ε]

/-- A quit entry reconnects, every other entry is executed. -/
def handle (e : ε) : Handled ε := if isQuit e then .reconnect e else .execute e

@[simp] theorem handle_entry (e : ε) : (handle e).entry = e := by
  unfold handle
  split <;> rfl

@[simp] theorem map_handle_entry (l : List ε) : (l.map handle).map Handled.entry = l := by
  simp [List.map_map, Function.comp_def]

/-- One step of `DBThread::run`. -/
def step (w : Worker ε) : Option (Worker ε) :=
  match w.pc with
  | .pop =>
      match w.queue with
      | [] => none
      | e :: queue => some { w with queue := queue, pc := .handle e }
  | .handle e => some { w with processed := w.processed ++ [handle e], pc := .test e }
  | .test e => some { w with pc := if isShutdown e then .returned else .pop }
  | .returned => none

def Step (w w' : Worker ε) : Prop := w.step = some w'

/-- What the flags of the handled entries say about the place in the loop. -/
def Ok (w : Worker ε) : Prop :=
  (∀ h ∈ w.processed, h = handle h.entry) ∧
  match w.pc with
  | .test e => ∃ init, w.processed.map Handled.entry = init ++ [e] ∧
      ∀ x ∈ init, isShutdown x = false
  | .returned => ∃ init e, w.processed.map Handled.entry = init ++ [e] ∧ isShutdown e = true ∧
      ∀ x ∈ init, isShutdown x = false
  | _ => ∀ x ∈ w.processed.map Handled.entry, isShutdown x = false

/-- The four kinds of steps of a worker. -/
theorem Step.cases {w w' : Worker ε} (h : Step w w') :
    (∃ e queue, w.pc = .pop ∧ w.queue = e :: queue ∧
        w' = { w with queue := queue, pc := .handle e }) ∨
      (∃ e, w.pc = .handle e ∧
        w' = { w with processed := w.processed ++ [handle e], pc := .test e }) ∨
      ∃ e, w.pc = .test e ∧ w' = { w with pc := if isShutdown e then .returned else .pop } := by
  unfold Step step at h
  split at h
  · rename_i hpc
    split at h
    · exact absurd h (by simp)
    · rename_i e queue hq
      exact Or.inl ⟨e, queue, hpc, hq, (Option.some.inj h).symm⟩
  · rename_i e hpc
    exact Or.inr (Or.inl ⟨e, hpc, (Option.some.inj h).symm⟩)
  · rename_i e hpc
    exact Or.inr (Or.inr ⟨e, hpc, (Option.some.inj h).symm⟩)
  · exact absurd h (by simp)

theorem Step.threadId_eq {w w' : Worker ε} (h : Step w w') : w'.threadId = w.threadId := by
  obtain ⟨e, queue, -, -, rfl⟩ | ⟨e, -, rfl⟩ | ⟨e, -, rfl⟩ := h.cases <;> rfl

theorem Step.destroyed_eq {w w' : Worker ε} (h : Step w w') : w'.destroyed = w.destroyed := by
  obtain ⟨e, queue, -, -, rfl⟩ | ⟨e, -, rfl⟩ | ⟨e, -, rfl⟩ := h.cases <;> rfl

/-- No step loses, adds or moves an entry. -/
theorem Step.stream_eq {w w' : Worker ε} (h : Step w w') : w'.stream = w.stream := by
  obtain ⟨e, queue, hpc, hq, rfl⟩ | ⟨e, hpc, rfl⟩ | ⟨e, hpc, rfl⟩ := h.cases
  · simp [stream, inHand, hpc, hq]
  · simp [stream, inHand, hpc]
  · cases isShutdown e <;> simp [stream, inHand, hpc]

theorem Step.ok {w w' : Worker ε} (h : Step w w') (hok : w.Ok) : w'.Ok := by
  obtain ⟨hhandled, hflags⟩ := hok
  obtain ⟨e, queue, hpc, hq, rfl⟩ | ⟨e, hpc, rfl⟩ | ⟨e, hpc, rfl⟩ := h.cases
  · rw [hpc] at hflags
    exact ⟨hhandled, hflags⟩
  · rw [hpc] at hflags
    refine ⟨?_, w.processed.map Handled.entry, by simp, hflags⟩
    intro x hx
    rcases List.mem_append.mp hx with hx | hx
    · exact hhandled x hx
    · obtain rfl : x = handle e := by simpa using hx
      rw [handle_entry]
  · rw [hpc] at hflags
    obtain ⟨init, hinit, hno⟩ := hflags
    refine ⟨hhandled, ?_⟩
    cases hs : isShutdown e with
    | true => exact ⟨init, e, hinit, hs, hno⟩
    | false =>
        change ∀ x ∈ w.processed.map Handled.entry, isShutdown x = false
        rw [hinit]
        intro x hx
        rcases List.mem_append.mp hx with hx | hx
        · exact hno x hx
        · obtain rfl : x = e := by simpa using hx
          exact hs

/-- A worker that has left its loop takes no step. -/
theorem Step.pc_ne_returned {w w' : Worker ε} (h : Step w w') : w.pc ≠ .returned := by
  obtain ⟨e, queue, hpc, -, -⟩ | ⟨e, hpc, -⟩ | ⟨e, hpc, -⟩ := h.cases <;> simp [hpc]

theorem start_ok (threadId : UInt64) : (start threadId : Worker ε).Ok := by
  simp [Ok, start]

theorem push_ok {w : Worker ε} (e : ε) (h : w.Ok) : (w.push e).Ok := h

theorem destroy_ok {w : Worker ε} (h : w.Ok) : w.destroy.Ok := h

theorem processed_eq {w : Worker ε} (h : w.Ok) :
    w.processed = (w.processed.map Handled.entry).map handle := by
  rw [List.map_map]
  conv_lhs => rw [← List.map_id w.processed]
  exact List.map_congr_left h.1

/-- A worker rests when it has left its loop or waits at an empty queue. -/
theorem step_eq_none_iff {w : Worker ε} :
    w.step = none ↔ w.pc = .returned ∨ w.pc = .pop ∧ w.queue = [] := by
  unfold step
  split
  · rename_i hpc
    split
    · rename_i hq
      simp [hpc, hq]
    · rename_i e queue hq
      simp [hpc, hq]
  · rename_i e hpc
    simp [hpc]
  · rename_i e hpc
    simp [hpc]
  · rename_i hpc
    simp [hpc]

/-- The steps a worker can take without being given more entries. -/
def work (w : Worker ε) : Nat :=
  3 * w.queue.length +
    match w.pc with
    | .handle _ => 2
    | .test _ => 1
    | _ => 0

theorem Step.work_lt {w w' : Worker ε} (h : Step w w') : w'.work < w.work := by
  obtain ⟨e, queue, hpc, hq, rfl⟩ | ⟨e, hpc, rfl⟩ | ⟨e, hpc, rfl⟩ := h.cases
  · simp only [work, hpc, hq, List.length_cons]
    omega
  · simp [work, hpc]
  · cases isShutdown e <;> simp [work, hpc]

/-- Left alone, every worker comes to rest. -/
theorem exists_rest (w : Worker ε) : ∃ w', ReflTransGen Step w w' ∧ w'.step = none := by
  induction hn : w.work using Nat.strongRecOn generalizing w with
  | ind n ih =>
      cases hs : w.step with
      | none => exact ⟨w, .refl, hs⟩
      | some w₁ =>
          have hstep : Step w w₁ := hs
          obtain ⟨w', hsteps, hrest⟩ := ih w₁.work (hn ▸ hstep.work_lt) w₁ rfl
          exact ⟨w', .head hstep hsteps, hrest⟩

end Worker

end QueryPlayback
