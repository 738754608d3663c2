import QueryPlayback.Dispatch.ThreadPool.Safety

/-!
# Progress of thread-pool dispatch

When all workers have come to rest, either the dispatcher has returned or it can take
its next step, as long as the queues have room for an entry. So a run can always be
brought to its end.
-/

namespace QueryPlayback.ThreadPool

open QueryEntry QueryEntries Interleaving Relation

variable {σ ε : Type} [QueryEntry ε] {c : Config} {all : List ε} {s : State σ ε}

/-- The steps the dispatcher still has to take, at most. -/
def rank (c : Config) (all : List ε) (s : State σ ε) : ℕ :=
  let left := 2 * (all.length - s.popped.length)
  match s.pc with
  | .create i => (c.threadsCount - i) + left + 2 * c.threadsCount + 5
  | .pop => left + 2 * c.threadsCount + 4
  | .push _ => left + 2 * c.threadsCount + 5
  | .finish i => (c.threadsCount - i) + c.threadsCount + 3
  | .join i => (c.threadsCount - i) + 1
  | .returned => 0
  | .crashed => 0

variable [QueryEntries σ ε]

/-- The workers can come to rest without the dispatcher. -/
theorem exists_workersAtRest (c : Config) (s : State σ ε) :
    ∃ workers, Reaches c s { s with workers := workers } ∧
      ∀ w ∈ workers, w.pc = .returned ∨ w.pc = .pop ∧ w.queue = [] := by
  obtain ⟨workers, hsteps, hrest⟩ :=
    componentSteps_of_forall (l := s.workers) fun w _ => w.exists_rest
  refine ⟨workers, ?_, fun w hw => Worker.step_eq_none_iff.mp (hrest w hw)⟩
  clear hrest
  induction hsteps with
  | refl => exact .refl
  | tail _ hstep ih => exact ih.tail (.worker hstep)

/-- A worker that has not been sent its `FinishEntry` has not returned. -/
theorem Inv.not_returned (hno : ∀ e ∈ all, isShutdown e = false) (h : Inv c all s) {j : ℕ}
    {w : Worker (QueueEntry ε)} (hget : s.workers[j]? = some w) (hj : ¬j < s.pc.finished c) :
    w.pc ≠ .returned := by
  intro hret
  have hstream := h.workers.stream j w hget
  rw [sent, if_neg hj] at hstream
  have hdelivered : s.delivered <+: all := (List.prefix_append _ _).trans h.popped_prefix
  have hspec := returned_spec hno (h.workers.ok w (List.mem_of_getElem? hget)) hret hdelivered
    (Or.inl rfl) hstream
  exact absurd hspec.1 (by simp)

/-- A worker that waits at an empty queue has not been sent its `FinishEntry`. -/
theorem Inv.not_waiting (h : Inv c all s) {j : ℕ} {w : Worker (QueueEntry ε)}
    (hget : s.workers[j]? = some w) (hj : j < s.pc.finished c) :
    ¬(w.pc = .pop ∧ w.queue = []) := by
  rintro ⟨hpc, hqueue⟩
  have hstream := h.workers.stream j w hget
  rw [sent, if_pos hj, Worker.stream, Worker.inHand, hpc, hqueue] at hstream
  have hflags := (h.workers.ok w (List.mem_of_getElem? hget)).2
  rw [hpc] at hflags
  have hmem : QueueEntry.finish ∈ w.processed.map Handled.entry := by
    simp only [List.append_nil] at hstream
    rw [hstream]
    simp
  cases hflags _ hmem

/-- While an entry is left, not all entries have been popped. -/
theorem Inv.popped_length_lt (hpos : all ≠ [] → 0 < c.threadsCount) (h : Inv c all s)
    (hs : s.pc = .pop) {e : ε} {q : σ} (hpop : popEntry s.queryEntries = some (e, q)) :
    s.popped.length < all.length := by
  have hafter := h.step hpos (.popSome hs hpop)
  have hle := List.IsPrefix.length_le hafter.popped_prefix
  simp only [State.popped, State.inHand, hs, List.length_append, List.length_singleton,
    List.length_nil] at hle ⊢
  omega

/-- With all workers at rest and room in the queues the dispatcher takes its next step. -/
theorem Inv.exists_step (hpos : all ≠ [] → 0 < c.threadsCount)
    (hdepth : 0 < c.threadsCount → 0 < c.queueDepth) (hno : ∀ e ∈ all, isShutdown e = false)
    (h : Inv c all s) (hpc : s.pc ≠ .returned)
    (hrest : ∀ w ∈ s.workers, w.pc = .returned ∨ w.pc = .pop ∧ w.queue = []) :
    ∃ s', Step c s s' ∧ rank c all s' < rank c all s := by
  have hroom : ∀ {j : ℕ} {w : Worker (QueueEntry ε)}, s.workers.length = c.threadsCount →
      s.workers[j]? = some w → w.pc ≠ .returned → w.queue.length < c.queueDepth := by
    intro j w hlen hget hne
    rw [((hrest w (List.mem_of_getElem? hget)).resolve_left hne).2]
    exact hdepth (hlen ▸ List.length_pos_of_mem (List.mem_of_getElem? hget))
  cases hs : s.pc with
  | create i =>
      by_cases hi : i < c.threadsCount
      · refine ⟨_, .create hs hi, ?_⟩
        simp only [rank, hs, State.popped, State.inHand]
        omega
      · refine ⟨_, .createEnd hs (Nat.not_lt.mp hi), ?_⟩
        simp only [rank, hs, State.popped, State.inHand]
        omega
  | pop =>
      cases hpop : popEntry s.queryEntries with
      | none =>
          refine ⟨_, .popNone hs hpop, ?_⟩
          simp only [rank, hs]
          omega
      | some p =>
          obtain ⟨e, q⟩ := p
          have hlt := h.popped_length_lt hpos hs hpop
          refine ⟨_, .popSome hs hpop, ?_⟩
          simp only [rank, hs, State.popped, State.inHand, List.length_append,
            List.length_singleton, List.length_nil] at hlt ⊢
          omega
  | push e =>
      have hlen : s.workers.length = c.threadsCount := h.at_pc hs
      obtain ⟨w, hget, hne, -⟩ := h.push_target hpos hno hs
      refine ⟨_, .push hs hget (hroom hlen hget hne), ?_⟩
      simp only [rank, hs, State.popped, State.inHand, List.append_nil]
      omega
  | finish i =>
      obtain ⟨hlen, -, -⟩ : s.workers.length = c.threadsCount ∧ i ≤ c.threadsCount ∧
          s.delivered = all := h.at_pc hs
      by_cases hi : i < s.workers.length
      · have hget := List.getElem?_eq_getElem hi
        have hne := h.not_returned hno hget (by simp [hs, Pc.finished])
        refine ⟨_, .finish hs hget (hroom hlen hget hne), ?_⟩
        simp only [rank, hs]
        omega
      · refine ⟨_, .finishEnd hs (Nat.not_lt.mp hi), ?_⟩
        simp only [rank, hs]
        omega
  | join i =>
      obtain ⟨hlen, -⟩ : s.workers.length = c.threadsCount ∧ s.delivered = all ∧
          ∀ (j : ℕ) (w : Worker (QueueEntry ε)), j < i → s.workers[j]? = some w →
            w.pc = .returned := h.at_pc hs
      by_cases hi : i < s.workers.length
      · have hget := List.getElem?_eq_getElem hi
        have hret := (hrest _ (List.getElem_mem hi)).resolve_right
          (h.not_waiting hget (by simpa [hs, Pc.finished, hlen] using hi))
        refine ⟨_, .join hs hget hret, ?_⟩
        simp only [rank, hs]
        omega
      · refine ⟨_, .joinEnd hs (Nat.not_lt.mp hi), ?_⟩
        simp only [rank, hs]
        omega
  | returned => exact absurd hs hpc
  | crashed => exact absurd hs h.not_crashed

/-- A run can be brought to its end from every state. -/
theorem Inv.exists_returned (hpos : all ≠ [] → 0 < c.threadsCount)
    (hdepth : 0 < c.threadsCount → 0 < c.queueDepth) (hno : ∀ e ∈ all, isShutdown e = false)
    (h : Inv c all s) : ∃ s', Reaches c s s' ∧ s'.pc = .returned := by
  induction hn : rank c all s using Nat.strongRecOn generalizing s with
  | ind n ih =>
      by_cases hpc : s.pc = .returned
      · exact ⟨s, .refl, hpc⟩
      · obtain ⟨workers, hsteps, hrest⟩ := exists_workersAtRest c s
        have hresting := h.reaches hpos hsteps
        obtain ⟨s₁, hstep, hlt⟩ := hresting.exists_step hpos hdepth hno hpc hrest
        obtain ⟨s', hend, hreturned⟩ := ih _ (hn ▸ hlt) (hresting.step hpos hstep) rfl
        exact ⟨s', hsteps.trans (.head hstep hend), hreturned⟩

/-- In this state nothing has been divided by zero, the dispatcher pushes to a worker that
exists, and the run can still be brought to an end at which all entries are handled. -/
structure CanFinish (c : Config) (all : List ε) (s : State σ ε) : Prop where
  not_crashed : s.pc ≠ .crashed
  divisor : ∀ e, s.pc = .push e → s.workers.length ≠ 0
  target : ∀ e, s.pc = .push e →
    ∃ w, s.workers[c.workerIndex s.workers.length (getThreadId e)]? = some w
  finishes : ∃ s', Reaches c s s' ∧ s'.pc = .returned ∧
    (s'.retired.flatMap handledEntries).Perm all

theorem Inv.canFinish (hpos : 0 < c.threadsCount) (hdepth : 0 < c.queueDepth)
    (hno : ∀ e ∈ all, isShutdown e = false) (h : Inv c all s) : CanFinish c all s where
  not_crashed := h.not_crashed
  divisor e hpc := by
    have hlen : s.workers.length = c.threadsCount := h.at_pc hpc
    omega
  target e hpc := by
    obtain ⟨w, hget, -⟩ := h.push_target (fun _ => hpos) hno hpc
    exact ⟨w, hget⟩
  finishes := by
    obtain ⟨s', hsteps, hpc⟩ := h.exists_returned (fun _ => hpos) (fun _ => hdepth) hno
    exact ⟨s', hsteps, hpc, (h.reaches (fun _ => hpos) hsteps).handled_perm (fun _ => hpos) hno hpc⟩

/-- A dispatcher without workers comes to divide by their number. -/
theorem reaches_crashed {q : σ} (hcount : c.threadsCount = 0) (hdrain : Drains q all)
    (hne : all ≠ []) : ∃ s, Reaches c ((State.init q).run q) s ∧ s.pc = .crashed := by
  cases hdrain with
  | done _ => exact absurd rfl hne
  | pop hpop _ =>
      exact ⟨_, .tail (.tail (.tail .refl (.createEnd rfl hcount.le)) (.popSome rfl hpop))
        (.pushCrash rfl rfl), rfl⟩

/-- No entry gets into queues without room. -/
theorem delivered_eq_nil {s₀ : State σ ε} (hdepth : c.queueDepth = 0) (h : Reaches c s₀ s)
    (hstart : s₀.delivered = []) : s.delivered = [] := by
  refine invariant_of_steps (P := fun s => s.delivered = []) ?_ h hstart
  intro s s' hs hstep
  cases hstep with
  | push hpc hget hroom =>
      rw [hdepth] at hroom
      exact absurd hroom (Nat.not_lt_zero _)
  | worker _ => exact hs
  | create _ _ => exact hs
  | createEnd _ _ => exact hs
  | popNone _ _ => exact hs
  | popSome _ _ => exact hs
  | pushCrash _ _ => exact hs
  | finish _ _ _ => exact hs
  | finishEnd _ _ => exact hs
  | join _ _ _ => exact hs
  | joinEnd _ _ => exact hs

/-- Every state of a run can be brought to the end exactly when there are workers and
their queues have room. -/
theorem canFinish_iff {q : σ} (hdrain : Drains q all) (hne : all ≠ [])
    (hno : ∀ e ∈ all, isShutdown e = false) :
    (∀ s, Reaches c ((State.init q).run q) s → CanFinish c all s) ↔
      0 < c.threadsCount ∧ 0 < c.queueDepth := by
  constructor
  · intro h
    have hcount : 0 < c.threadsCount := by
      by_contra hzero
      obtain ⟨s, hs, hpc⟩ := reaches_crashed (Nat.eq_zero_of_not_pos hzero) hdrain hne
      exact (h s hs).not_crashed hpc
    refine ⟨hcount, ?_⟩
    by_contra hzero
    obtain ⟨s, hs, hpc, -⟩ := (h _ .refl).finishes
    have hi : Inv c all s := (Inv.run hdrain rfl).reaches (fun _ => hcount) hs
    obtain ⟨-, hdelivered, -⟩ := hi.at_pc hpc
    exact hne (hdelivered.symm.trans (delivered_eq_nil (Nat.eq_zero_of_not_pos hzero) hs rfl))
  · rintro ⟨hcount, hdepth⟩ s hs
    have hi : Inv c all s := (Inv.run hdrain rfl).reaches (fun _ => hcount) hs
    exact hi.canFinish hcount hdepth hno

end QueryPlayback.ThreadPool
