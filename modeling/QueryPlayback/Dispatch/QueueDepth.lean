import QueryPlayback.Dispatch.Refinement

/-!
# How far a connection can be behind

A connection is behind the log by the entries that have been popped for it and
that no worker has handled. They are in the queue of its worker, in the hand of
that worker or in the hand of the dispatcher, and the queue is bounded.
-/

namespace QueryPlayback

open QueryEntry QueryEntries Interleaving Relation

section Workers

variable {ε : Type}

/-- No queue holds more entries than it has room for. -/
def QueuesWithin (depth : ℕ) (workers : List (Worker ε)) : Prop :=
  ∀ w ∈ workers, w.queue.length ≤ depth

theorem QueuesWithin.push {depth : ℕ} {workers : List (Worker ε)} {i : ℕ} {w : Worker ε}
    (h : QueuesWithin depth workers) (hroom : w.queue.length < depth) (e : ε) :
    QueuesWithin depth (workers.set i (w.push e)) := by
  intro v hv
  rcases List.mem_or_eq_of_mem_set hv with hv | rfl
  · exact h v hv
  · rw [Worker.push, List.length_append]
    exact hroom

theorem QueuesWithin.start {depth : ℕ} {workers : List (Worker ε)}
    (h : QueuesWithin depth workers) (id : UInt64) :
    QueuesWithin depth (workers ++ [Worker.start id]) := by
  intro v hv
  rcases List.mem_append.mp hv with hv | hv
  · exact h v hv
  · obtain rfl : v = Worker.start id := by simpa using hv
    exact Nat.zero_le _

theorem QueuesWithin.worker [QueryEntry ε] {depth : ℕ} {workers workers' : List (Worker ε)}
    (h : QueuesWithin depth workers) (hstep : ComponentStep Worker.Step workers workers') :
    QueuesWithin depth workers' := by
  intro v hv
  obtain ⟨w, hw, rfl | hwv⟩ := hstep.mem hv
  · exact h w hw
  · have hle := h w hw
    obtain ⟨e, queue, -, hq, rfl⟩ | ⟨e, -, rfl⟩ | ⟨e, -, rfl⟩ := hwv.cases
    · rw [hq, List.length_cons] at hle
      exact Nat.le_of_succ_le hle
    · exact hle
    · exact hle

/-- What a worker has been given and not yet handled. -/
def Worker.waiting (w : Worker ε) : List ε := w.inHand ++ w.queue

theorem Worker.stream_eq_waiting (w : Worker ε) :
    w.stream = w.processed.map Handled.entry ++ w.waiting := List.append_assoc ..

theorem Worker.length_waiting_le {depth : ℕ} {w : Worker ε} (h : w.queue.length ≤ depth) :
    w.waiting.length ≤ depth + 1 := by
  have hhand : w.inHand.length ≤ 1 := by
    unfold inHand
    split <;> simp
  rw [waiting, List.length_append]
  omega

/-- The entries of a connection that have been popped and not handled are at most these. -/
theorem length_ofThread_le [QueryEntry ε] {id : UInt64} {delivered hand handled waiting : List ε}
    {n : ℕ} (hsplit : ofThread id delivered = ofThread id (handled ++ waiting))
    (hwaiting : waiting.length ≤ n) (hhand : hand.length ≤ 1) :
    (ofThread id (delivered ++ hand)).length ≤ (ofThread id handled).length + n + 1 := by
  have hwait : (ofThread id waiting).length ≤ waiting.length := List.length_filter_le ..
  have hin : (ofThread id hand).length ≤ hand.length := List.length_filter_le ..
  rw [ofThread_append, List.length_append, hsplit, ofThread_append, List.length_append]
  omega

end Workers

/-- A part of the handled entries is no more than all of them. -/
theorem length_ofThread_le_performed {ε A : Type} [QueryEntry ε] (view : ε → A) (id : UInt64)
    {entries : List ε} {handled : List (Handled ε)}
    (h : entries.Sublist (handled.map Handled.entry)) :
    (ofThread id entries).length ≤ (performed view handled id).length := by
  have hcount : (ofThread id entries).length = entries.countP (getThreadId · = id) :=
    (List.countP_eq_length_filter ..).symm
  have hsame : handled.countP (getThreadId ·.entry = id) =
      (handled.map Handled.entry).countP (getThreadId · = id) := by
    rw [List.countP_map]
    rfl
  rw [hcount, length_performed, hsame]
  exact h.countP_le

namespace ThreadPerConnection

variable {σ ε A : Type} [QueryEntry ε] {s s' : State σ ε} {depth : ℕ}

omit [QueryEntry ε] in
theorem State.length_inHand_le (s : State σ ε) : s.inHand.length ≤ 1 := by
  unfold State.inHand
  split <;> simp

variable [QueryEntries σ ε] {all : List ε}

theorem Step.queuesWithin (h : QueuesWithin depth s.workers) (hstep : Step depth s s') :
    QueuesWithin depth s'.workers := by
  cases hstep with
  | worker hworker => exact h.worker hworker
  | spawnCreate _ _ => exact h.start _
  | push _ _ _ _ hroom => exact h.push hroom _
  | @join id todo i w _ _ hget _ _ =>
      intro v hv
      rcases List.mem_or_eq_of_mem_set hv with hv | rfl
      · exact h v hv
      · exact h w (List.mem_of_getElem? hget)
  | _ => exact h

theorem Reaches.queuesWithin (h : Reaches depth s s') (hs : s.workers = []) :
    QueuesWithin depth s'.workers := by
  refine invariant_of_steps (P := fun s => QueuesWithin depth s.workers)
    (fun _ _ hi hstep => Step.queuesWithin hi hstep) h ?_
  intro w hw
  rw [hs] at hw
  exact absurd hw List.not_mem_nil

/-- The queue, the worker and the dispatcher hold all that is missing of a connection. -/
theorem Inv.behind_le (view : ε → A) (h : Inv all s) (hqueues : QueuesWithin depth s.workers)
    (id : UInt64) : (ofThread id s.popped).length ≤
      (performed view (handledBy s.workers) id).length + depth + 2 := by
  have hhand := s.length_inHand_le
  rw [State.popped]
  by_cases hexists : ∃ w ∈ s.workers, w.threadId = id
  · obtain ⟨w, hw, rfl⟩ := hexists
    have hsplit : ofThread w.threadId s.delivered =
        ofThread w.threadId (w.processed.map Handled.entry ++ w.waiting) := by
      rw [← w.stream_eq_waiting, h.workers.stream w hw, ofThread_idem]
    have hle := length_ofThread_le hsplit (Worker.length_waiting_le (hqueues w hw)) hhand
    have hpart : (w.processed.map Handled.entry).Sublist
        ((handledBy s.workers).map Handled.entry) :=
      (List.sublist_flatten_of_mem (List.mem_map_of_mem hw)).map _
    have hperformed := length_ofThread_le_performed view w.threadId hpart
    omega
  · have hnone : ofThread id s.delivered = [] := by
      rw [ofThread_eq_nil_iff]
      intro hmem
      obtain ⟨e, he, rfl⟩ := List.mem_map.mp hmem
      exact hexists (h.workers.owned e he)
    have hin : (ofThread id s.inHand).length ≤ s.inHand.length := List.length_filter_le ..
    rw [ofThread_append, hnone, List.nil_append]
    omega

end ThreadPerConnection

namespace ThreadPool

variable {σ ε A : Type} [QueryEntry ε] {c : Config} {s s' : State σ ε}

omit [QueryEntry ε] in
theorem State.length_inHand_le (s : State σ ε) : s.inHand.length ≤ 1 := by
  unfold State.inHand
  split <;> simp

variable [QueryEntries σ ε] {all : List ε}

theorem Step.queuesWithin (h : QueuesWithin c.queueDepth s.workers) (hstep : Step c s s') :
    QueuesWithin c.queueDepth s'.workers := by
  cases hstep with
  | worker hworker => exact h.worker hworker
  | create _ _ => exact h.start _
  | push _ _ hroom => exact h.push hroom _
  | finish _ _ hroom => exact h.push hroom _
  | joinEnd _ _ => exact fun v hv => absurd hv List.not_mem_nil
  | _ => exact h

theorem Reaches.queuesWithin (h : Reaches c s s') (hs : s.workers = []) :
    QueuesWithin c.queueDepth s'.workers := by
  refine invariant_of_steps (P := fun s => QueuesWithin c.queueDepth s.workers)
    (fun _ _ hi hstep => Step.queuesWithin hi hstep) h ?_
  intro w hw
  rw [hs] at hw
  exact absurd hw List.not_mem_nil

/-- The entries of the log among those that a worker waits to handle. -/
theorem Inv.delivered_eq (h : Inv c all s) {j : ℕ} {w : Worker (QueueEntry ε)}
    (hget : s.workers[j]? = some w) :
    assigned c j s.delivered = handledEntries w ++ w.waiting.filterMap QueueEntry.query? := by
  have hstream := h.workers.stream j w hget
  have hqueries := congrArg (List.filterMap QueueEntry.query?) hstream
  rw [w.stream_eq_waiting, List.filterMap_append, sent, List.filterMap_append] at hqueries
  have hfinish : (if j < s.pc.finished c then [QueueEntry.finish] else []).filterMap
      (QueueEntry.query? (ε := ε)) = [] := by
    split <;> rfl
  have hquery : ((assigned c j s.delivered).map QueueEntry.query).filterMap QueueEntry.query? =
      assigned c j s.delivered := by
    rw [List.filterMap_map]
    exact List.filterMap_some
  rw [hfinish, hquery, List.append_nil] at hqueries
  exact hqueries.symm

/-- While a selected worker is missing, nothing has been delivered. -/
theorem Inv.delivered_eq_nil (hpos : all ≠ [] → 0 < c.threadsCount) (h : Inv c all s)
    (hpc : s.pc ≠ .returned) {id : UInt64}
    (hget : s.workers[c.workerIndex c.threadsCount id]? = none) : s.delivered = [] := by
  by_contra hdelivered
  have hall : all ≠ [] := by
    rintro rfl
    have hpopped := List.prefix_nil.mp h.popped_prefix
    exact hdelivered (List.append_eq_nil_iff.mp hpopped).1
  have hindex : c.workerIndex c.threadsCount id < c.threadsCount := Nat.mod_lt _ (hpos hall)
  have hmissing := List.getElem?_eq_none_iff.mp hget
  have hlength : s.workers.length = c.threadsCount := by
    cases hcase : s.pc with
    | create i => exact absurd (h.at_pc hcase).2.2 hdelivered
    | pop => exact h.at_pc hcase
    | push e => exact h.at_pc hcase
    | finish i => exact (h.at_pc hcase).1
    | join i => exact (h.at_pc hcase).1
    | returned => exact absurd hcase hpc
    | crashed => exact absurd hcase h.not_crashed
  omega

/-- The queue, the worker and the dispatcher hold all that is missing of a connection. -/
theorem Inv.behind_le (view : ε → A) (hpos : all ≠ [] → 0 < c.threadsCount)
    (hno : ∀ e ∈ all, isShutdown e = false) (h : Inv c all s) (hs : s.Cleared)
    (hqueues : QueuesWithin c.queueDepth s.workers) (id : UInt64) :
    (ofThread id s.popped).length ≤
      (performed view (handledQueries s.heap) id).length + c.queueDepth + 2 := by
  have hhand := s.length_inHand_le
  by_cases hreturned : s.pc = .returned
  · have hperformed := h.performed_of_returned view hpos hno hs hreturned
    have hpopped : (ofThread id s.popped).length ≤ (ofThread id all).length :=
      (h.popped_prefix.filter _).length_le
    rw [hperformed, length_script]
    omega
  rw [State.popped]
  cases hget : s.workers[c.workerIndex c.threadsCount id]? with
  | some w =>
      have hmem := List.mem_of_getElem? hget
      have hsplit : ofThread id s.delivered =
          ofThread id (handledEntries w ++ w.waiting.filterMap QueueEntry.query?) := by
        rw [← h.delivered_eq hget, ofThread_assigned]
      have hwaiting : (w.waiting.filterMap QueueEntry.query?).length ≤ c.queueDepth + 1 :=
        (List.length_filterMap_le ..).trans (Worker.length_waiting_le (hqueues w hmem))
      have hle := length_ofThread_le hsplit hwaiting hhand
      have hpart : (handledEntries w).Sublist ((handledQueries s.heap).map Handled.entry) := by
        rw [map_entry_handledQueries, List.flatMap_def]
        exact List.sublist_flatten_of_mem
          (List.mem_map_of_mem (List.mem_append_left _ hmem))
      have hperformed := length_ofThread_le_performed view id hpart
      omega
  | none =>
      have hin : (ofThread id s.inHand).length ≤ s.inHand.length := List.length_filter_le ..
      rw [h.delivered_eq_nil hpos hreturned hget, List.nil_append]
      omega

end ThreadPool

end QueryPlayback
