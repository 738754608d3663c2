import QueryPlayback.Dispatch.ThreadPool

/-!
# The invariant of thread-pool dispatch

Every worker has been given exactly the delivered entries whose thread id
selects it, in the order of delivery, and a `FinishEntry` behind them once
`finish_all_and_wait` has come to it.
-/

namespace QueryPlayback.ThreadPool

open QueryEntry QueryEntries Interleaving Relation

variable {σ ε : Type} [QueryEntry ε]

/-- The entries whose thread id selects the worker with index `j`. -/
def assigned (c : Config) (j : Nat) (entries : List ε) : List ε :=
  entries.filter fun e => c.workerIndex c.threadsCount (getThreadId e) = j

/-- How many workers have been sent their `FinishEntry`. -/
def Pc.finished (c : Config) : Pc ε → Nat
  | .finish i => i
  | .join _ => c.threadsCount
  | _ => 0

/-- What the worker with index `j` has been given. -/
def sent (c : Config) (pc : Pc ε) (delivered : List ε) (j : Nat) : List (QueueEntry ε) :=
  (assigned c j delivered).map .query ++ if j < pc.finished c then [.finish] else []

/-- The workers of the pool have been given what `sent` says and none is deleted. -/
structure WorkersOk (workers : List (Worker (QueueEntry ε)))
    (given : Nat → List (QueueEntry ε)) : Prop where
  stream : ∀ j w, workers[j]? = some w → w.stream = given j
  ok : ∀ w ∈ workers, w.Ok
  undeleted : ∀ w ∈ workers, w.destroyed = false

namespace WorkersOk

variable {workers : List (Worker (QueueEntry ε))} {given given' : Nat → List (QueueEntry ε)}

theorem of_componentStep (h : WorkersOk workers given) {workers' : List (Worker (QueueEntry ε))}
    (hstep : ComponentStep Worker.Step workers workers') : WorkersOk workers' given where
  stream := by
    intro j w' hget'
    obtain ⟨w, hget, rfl | hww⟩ := hstep.getElem? hget'
    · exact h.stream j w hget
    · rw [hww.stream_eq, h.stream j w hget]
  ok := by
    intro w' hw'
    obtain ⟨w, hw, rfl | hww⟩ := hstep.mem hw'
    · exact h.ok w hw
    · exact hww.ok (h.ok w hw)
  undeleted := by
    intro w' hw'
    obtain ⟨w, hw, rfl | hww⟩ := hstep.mem hw'
    · exact h.undeleted w hw
    · rw [hww.destroyed_eq, h.undeleted w hw]

theorem start (h : WorkersOk workers given) (hempty : given workers.length = []) (id : UInt64) :
    WorkersOk (workers ++ [Worker.start id]) given where
  stream := by
    intro j w hget
    rcases Nat.lt_or_ge j workers.length with hlt | hge
    · rw [List.getElem?_append_left hlt] at hget
      exact h.stream j w hget
    · rw [List.getElem?_append_right hge, List.getElem?_singleton] at hget
      split at hget
      · rename_i hzero
        obtain rfl : Worker.start id = w := Option.some.inj hget
        rw [show j = workers.length by omega, hempty]
        rfl
      · exact absurd hget (by simp)
  ok := by
    intro w hw
    rcases List.mem_append.mp hw with hw | hw
    · exact h.ok w hw
    · obtain rfl : w = Worker.start id := by simpa using hw
      exact Worker.start_ok id
  undeleted := by
    intro w hw
    rcases List.mem_append.mp hw with hw | hw
    · exact h.undeleted w hw
    · obtain rfl : w = Worker.start id := by simpa using hw
      rfl

/-- One worker is given one more entry. -/
theorem push (h : WorkersOk workers given) {i : Nat} {w : Worker (QueueEntry ε)}
    {x : QueueEntry ε} (hget : workers[i]? = some w) (hself : given' i = given i ++ [x])
    (hother : ∀ j, j ≠ i → given' j = given j) : WorkersOk (workers.set i (w.push x)) given' where
  stream := by
    intro j v hj
    by_cases hij : i = j
    · subst hij
      rw [List.getElem?_set_self (List.getElem?_eq_some_iff.mp hget).1, Option.some.injEq] at hj
      rw [← hj, Worker.push_stream, h.stream i w hget, hself]
    · rw [List.getElem?_set_ne hij] at hj
      rw [hother j (Ne.symm hij), h.stream j v hj]
  ok := by
    intro v hv
    rcases List.mem_or_eq_of_mem_set hv with hv | rfl
    · exact h.ok v hv
    · exact Worker.push_ok x (h.ok w (List.mem_of_getElem? hget))
  undeleted := by
    intro v hv
    rcases List.mem_or_eq_of_mem_set hv with hv | rfl
    · exact h.undeleted v hv
    · exact h.undeleted w (List.mem_of_getElem? hget)

end WorkersOk

/-- What holds at each place of the code. -/
def State.PcOk (c : Config) (all : List ε) (s : State σ ε) (pc : Pc ε) : Prop :=
  match pc with
  | .create i => s.workers.length = i ∧ i ≤ c.threadsCount ∧ s.delivered = []
  | .pop => s.workers.length = c.threadsCount
  | .push _ => s.workers.length = c.threadsCount
  | .finish i => s.workers.length = c.threadsCount ∧ i ≤ c.threadsCount ∧ s.delivered = all
  | .join i => s.workers.length = c.threadsCount ∧ s.delivered = all ∧
      ∀ j w, j < i → s.workers[j]? = some w → w.pc = .returned
  | .returned => s.workers = [] ∧ s.delivered = all ∧ s.retired.length = c.threadsCount ∧
      ∀ j w, s.retired[j]? = some w → w.pc = .returned ∧ w.Ok ∧
        w.stream = (assigned c j all).map .query ++ [.finish]
  | .crashed => False

variable [QueryEntries σ ε]

/-- The invariant of a run that dispatches the entries `all`. -/
structure Inv (c : Config) (all : List ε) (s : State σ ε) : Prop where
  split : ∃ rest, Drains s.queryEntries rest ∧ s.popped ++ rest = all
  workers : WorkersOk s.workers (sent c s.pc s.delivered)
  atPc : s.PcOk c all s.pc

namespace Inv

variable {c : Config} {all : List ε} {s s' : State σ ε}

theorem at_pc (h : Inv c all s) {pc : Pc ε} (hpc : s.pc = pc) : s.PcOk c all pc := hpc ▸ h.atPc

/-- Steps that pop nothing keep the popped entries and those still to come. -/
theorem split_keep (h : Inv c all s) (hpopped : s'.popped = s.popped)
    (hqueue : s'.queryEntries = s.queryEntries) :
    ∃ rest, Drains s'.queryEntries rest ∧ s'.popped ++ rest = all := by
  rw [hpopped, hqueue]
  exact h.split

/-- A popped entry is the first of those still to come. -/
theorem split_pop (h : Inv c all s) {e : ε} {q : σ} (hpop : popEntry s.queryEntries = some (e, q))
    (hpopped : s'.popped = s.popped ++ [e]) (hqueue : s'.queryEntries = q) :
    ∃ rest, Drains s'.queryEntries rest ∧ s'.popped ++ rest = all := by
  obtain ⟨rest, hdrain, hall⟩ := h.split
  obtain ⟨rest, rfl, hdrain'⟩ := hdrain.eq_cons hpop
  refine ⟨rest, hqueue ▸ hdrain', ?_⟩
  rw [hpopped, List.append_assoc]
  exact hall

theorem popped_prefix (h : Inv c all s) : s.popped <+: all := by
  obtain ⟨rest, -, hall⟩ := h.split
  exact ⟨rest, hall⟩

theorem all_ne_nil (h : Inv c all s) {e : ε} (hpc : s.pc = .push e) : all ≠ [] := by
  rintro rfl
  have hnil := List.prefix_nil.mp h.popped_prefix
  simp [State.popped, State.inHand, hpc] at hnil

theorem worker (h : Inv c all s) {workers : List (Worker (QueueEntry ε))}
    (hstep : ComponentStep Worker.Step s.workers workers) :
    Inv c all { s with workers := workers } where
  split := h.split
  workers := h.workers.of_componentStep hstep
  atPc := by
    suffices hkeep : ∀ pc, s.PcOk c all pc → State.PcOk c all { s with workers := workers } pc from
      hkeep s.pc h.atPc
    intro pc hok
    cases pc with
    | create i => exact ⟨hstep.length_eq.trans hok.1, hok.2⟩
    | pop => exact hstep.length_eq.trans hok
    | push e => exact hstep.length_eq.trans hok
    | finish i => exact ⟨hstep.length_eq.trans hok.1, hok.2⟩
    | join i =>
        refine ⟨hstep.length_eq.trans hok.1, hok.2.1, ?_⟩
        intro j w' hlt hget'
        obtain ⟨w, hget, rfl | hww⟩ := hstep.getElem? hget'
        · exact hok.2.2 j w hlt hget
        · exact absurd (hok.2.2 j w hlt hget) hww.pc_ne_returned
    | returned =>
        have hempty : workers = [] := by
          rw [← List.length_eq_zero_iff, hstep.length_eq, hok.1]
          rfl
        exact ⟨hempty, hok.2⟩
    | crashed => exact hok

theorem create (h : Inv c all s) {i : Nat} (hpc : s.pc = .create i) (hi : i < c.threadsCount) :
    Inv c all
      { s with
        pc := .create (i + 1)
        workers := s.workers ++ [Worker.start (UInt64.ofNat i)] } := by
  obtain ⟨hlen, -, hdelivered⟩ : s.workers.length = i ∧ i ≤ c.threadsCount ∧ s.delivered = [] :=
    h.at_pc hpc
  have hgiven : ∀ pc : Pc ε, pc.finished c = 0 → sent c pc s.delivered = fun _ => [] := by
    intro pc hpc
    funext j
    simp [sent, assigned, hpc, hdelivered]
  refine ⟨?_, ?_, by simp [hlen], hi, hdelivered⟩
  · exact h.split_keep (by simp [State.popped, State.inHand, hpc]) rfl
  · have hworkers := h.workers
    rw [hgiven s.pc (by simp [hpc, Pc.finished])] at hworkers
    have hstart := hworkers.start rfl (UInt64.ofNat i)
    rwa [← hgiven (.create (i + 1)) rfl] at hstart

/-- Steps that only move on keep what the workers have been given. -/
theorem move (h : Inv c all s) {pc : Pc ε} {q : σ}
    (hsplit : ∃ rest, Drains (State.queryEntries { s with pc := pc, queryEntries := q }) rest ∧
      State.popped { s with pc := pc, queryEntries := q } ++ rest = all)
    (hfinished : pc.finished c = s.pc.finished c) (hok : s.PcOk c all pc) :
    Inv c all { s with pc := pc, queryEntries := q } where
  split := hsplit
  workers := by
    have hsame : sent c pc s.delivered = sent c s.pc s.delivered := by
      funext j
      rw [sent, sent, hfinished]
    rw [hsame]
    exact h.workers
  atPc := by cases pc <;> exact hok

theorem push (h : Inv c all s) {e : ε} {w : Worker (QueueEntry ε)} (hpc : s.pc = .push e)
    (hget : s.workers[c.workerIndex s.workers.length (getThreadId e)]? = some w) :
    Inv c all
      { s with
        pc := .pop
        workers := s.workers.set (c.workerIndex s.workers.length (getThreadId e))
          (w.push (.query e))
        delivered := s.delivered ++ [e] } := by
  have hlen : s.workers.length = c.threadsCount := h.at_pc hpc
  rw [hlen] at hget ⊢
  refine ⟨?_, ?_, by simpa [State.PcOk] using hlen⟩
  · exact h.split_keep (by simp [State.popped, State.inHand, hpc]) rfl
  · refine h.workers.push hget ?_ ?_
    · simp [sent, assigned, Pc.finished, hpc]
    · intro j hj
      simp [sent, assigned, Pc.finished, hpc, Ne.symm hj]

theorem finish (h : Inv c all s) {i : Nat} {w : Worker (QueueEntry ε)} (hpc : s.pc = .finish i)
    (hget : s.workers[i]? = some w) :
    Inv c all { s with pc := .finish (i + 1), workers := s.workers.set i (w.push .finish) } := by
  obtain ⟨hlen, -, hdelivered⟩ : s.workers.length = c.threadsCount ∧ i ≤ c.threadsCount ∧
      s.delivered = all := h.at_pc hpc
  have hi := (List.getElem?_eq_some_iff.mp hget).1
  refine ⟨?_, ?_, by simpa using hlen, by omega, hdelivered⟩
  · exact h.split_keep (by simp [State.popped, State.inHand, hpc]) rfl
  · refine h.workers.push hget ?_ ?_
    · simp [sent, Pc.finished, hpc]
    · intro j hj
      have hiff : j < i + 1 ↔ j < i := by omega
      simp [sent, Pc.finished, hpc, hiff]

theorem joinEnd (h : Inv c all s) {i : Nat} (hpc : s.pc = .join i) (hi : s.workers.length ≤ i) :
    Inv c all
      { s with pc := .returned, workers := [], retired := s.workers.map Worker.destroy } := by
  obtain ⟨hlen, hdelivered, hreturned⟩ : s.workers.length = c.threadsCount ∧ s.delivered = all ∧
      ∀ j w, j < i → s.workers[j]? = some w → w.pc = .returned := h.at_pc hpc
  refine ⟨?_, ⟨by simp, by simp, by simp⟩, rfl, hdelivered, by simpa using hlen, ?_⟩
  · exact h.split_keep (by simp [State.popped, State.inHand, hpc]) rfl
  · intro j w' hget'
    rw [List.getElem?_map, Option.map_eq_some_iff] at hget'
    obtain ⟨w, hget, rfl⟩ := hget'
    have hj := (List.getElem?_eq_some_iff.mp hget).1
    refine ⟨hreturned j w (by omega) hget, h.workers.ok w (List.mem_of_getElem? hget), ?_⟩
    rw [Worker.destroy_stream, h.workers.stream j w hget, sent, hpc, hdelivered]
    simp [Pc.finished, ← hlen, hj]

/-- Every step of a pool with workers, or without entries, keeps the invariant. -/
theorem step (hpos : all ≠ [] → 0 < c.threadsCount) (h : Inv c all s) (hstep : Step c s s') :
    Inv c all s' := by
  cases hstep with
  | worker hworker => exact h.worker hworker
  | create hpc hi => exact h.create hpc hi
  | @createEnd i hpc hi =>
      obtain ⟨hlen, hle, -⟩ : s.workers.length = i ∧ i ≤ c.threadsCount ∧ s.delivered = [] :=
        h.at_pc hpc
      refine h.move ?_ (by simp [hpc, Pc.finished]) (hlen.trans (Nat.le_antisymm hle hi))
      exact h.split_keep (by simp [State.popped, State.inHand, hpc]) rfl
  | popNone hpc hpop =>
      have hlen : s.workers.length = c.threadsCount := h.at_pc hpc
      obtain ⟨rest, hdrain, hall⟩ := h.split
      obtain rfl := hdrain.eq_nil hpop
      have hdelivered : s.delivered = all := by
        simpa [State.popped, State.inHand, hpc] using hall
      exact h.move ⟨[], hdrain, by simpa [State.popped, State.inHand] using hdelivered⟩
        (by simp [hpc, Pc.finished]) ⟨hlen, Nat.zero_le _, hdelivered⟩
  | popSome hpc hpop =>
      have hlen : s.workers.length = c.threadsCount := h.at_pc hpc
      refine h.move ?_ (by simp [hpc, Pc.finished]) hlen
      exact h.split_pop hpop (by simp [State.popped, State.inHand, hpc]) rfl
  | push hpc hget hroom => exact h.push hpc hget
  | pushCrash hpc hnone =>
      have hlen : s.workers.length = c.threadsCount := h.at_pc hpc
      have hcount := hpos (h.all_ne_nil hpc)
      rw [hnone, List.length_nil] at hlen
      omega
  | finish hpc hget hroom => exact h.finish hpc hget
  | @finishEnd i hpc hi =>
      obtain ⟨hlen, hle, hdelivered⟩ : s.workers.length = c.threadsCount ∧ i ≤ c.threadsCount ∧
          s.delivered = all := h.at_pc hpc
      refine h.move ?_ ?_ ⟨hlen, hdelivered, by simp⟩
      · exact h.split_keep (by simp [State.popped, State.inHand, hpc]) rfl
      · simp only [hpc, Pc.finished]
        omega
  | @join i w hpc hget hret =>
      obtain ⟨hlen, hdelivered, hreturned⟩ : s.workers.length = c.threadsCount ∧
          s.delivered = all ∧ ∀ j w, j < i → s.workers[j]? = some w → w.pc = .returned :=
        h.at_pc hpc
      refine h.move ?_ (by simp [hpc, Pc.finished]) ⟨hlen, hdelivered, ?_⟩
      · exact h.split_keep (by simp [State.popped, State.inHand, hpc]) rfl
      · intro j v hj hv
        rcases Nat.lt_succ_iff_lt_or_eq.mp hj with hj | rfl
        · exact hreturned j v hj hv
        · rw [hget, Option.some.injEq] at hv
          exact hv ▸ hret
  | joinEnd hpc hi => exact h.joinEnd hpc hi

/-- A run that begins with an empty vector. -/
theorem run {q : σ} (hdrain : Drains q all) (hworkers : s.workers = []) :
    Inv c all (s.run q) where
  split := ⟨all, hdrain, rfl⟩
  workers := by
    simp only [State.run, hworkers]
    exact ⟨by simp, by simp, by simp⟩
  atPc := ⟨by simp [State.run, hworkers], Nat.zero_le _, rfl⟩

/-- Every state of a run satisfies the invariant. -/
theorem reaches (hpos : all ≠ [] → 0 < c.threadsCount) (h : Inv c all s) (hsteps : Reaches c s s') :
    Inv c all s' :=
  invariant_of_steps (fun _ _ hi hstep => hi.step hpos hstep) hsteps h

end Inv

end QueryPlayback.ThreadPool
