import QueryPlayback.Lib.Bounded
import QueryPlayback.Dispatch.ThreadPerConnection.Cap
import QueryPlayback.Dispatch.ThreadPool.Progress
import Mathlib.Algebra.GroupWithZero.Nat

/-!
# Every run of a dispatcher ends

A rank pays for every step of a dispatcher and of its workers: an entry that is
still in the log pays for its way into a queue and for what the worker does with
it. Only `finish_some_and_go` has no such rank, as it waits in a loop. It is not
entered with at most 10001 connections.
-/

namespace QueryPlayback

open QueryEntry QueryEntries Interleaving Relation Bounded

section Work

/-- Replacing an element changes the sum by its own share. -/
theorem sum_map_set {α : Type} (f : α → ℕ) {l : List α} {i : ℕ} {a : α} (hget : l[i]? = some a)
    (a' : α) : ((l.set i a').map f).sum + f a = (l.map f).sum + f a' := by
  induction l generalizing i with
  | nil => simp at hget
  | cons b l ih =>
      cases i with
      | zero =>
          obtain rfl : b = a := by simpa using hget
          simp only [List.set_cons_zero, List.map_cons, List.sum_cons]
          omega
      | succ i =>
          have hrest := ih (i := i) (by simpa using hget)
          simp only [List.set_cons_succ, List.map_cons, List.sum_cons]
          omega

variable {ε : Type}

/-- The steps that workers can take without being given more entries. -/
def totalWork (workers : List (Worker ε)) : ℕ := (workers.map Worker.work).sum

theorem work_push (w : Worker ε) (e : ε) : (w.push e).work = w.work + 3 := by
  simp only [Worker.work, Worker.push, List.length_append, List.length_singleton]
  omega

theorem totalWork_push {workers : List (Worker ε)} {i : ℕ} {w : Worker ε}
    (hget : workers[i]? = some w) (e : ε) :
    totalWork (workers.set i (w.push e)) = totalWork workers + 3 := by
  have hsum := sum_map_set Worker.work hget (w.push e)
  rw [work_push] at hsum
  unfold totalWork
  omega

theorem totalWork_destroy {workers : List (Worker ε)} {i : ℕ} {w : Worker ε}
    (hget : workers[i]? = some w) :
    totalWork (workers.set i w.destroy) = totalWork workers := by
  have hsum := sum_map_set Worker.work hget w.destroy
  have hsame : w.destroy.work = w.work := rfl
  unfold totalWork
  omega

theorem totalWork_start (workers : List (Worker ε)) (id : UInt64) :
    totalWork (workers ++ [Worker.start id]) = totalWork workers := by
  simp [totalWork, Worker.start, Worker.work]

theorem totalWork_step [QueryEntry ε] {workers workers' : List (Worker ε)}
    (h : ComponentStep Worker.Step workers workers') : totalWork workers' < totalWork workers := by
  obtain ⟨i, w, w', hget, hstep, rfl⟩ := h
  have hsum := sum_map_set Worker.work hget w'
  have hlt := hstep.work_lt
  unfold totalWork
  omega

end Work

namespace ThreadPool

variable {σ ε : Type} [QueryEntry ε] {c : Config} {all : List ε} {s s' : State σ ε}

/-- What the dispatcher still has to do and to hand over. -/
def dispatchRank (c : Config) (all : List ε) (s : State σ ε) : ℕ :=
  let left := 5 * (all.length - s.popped.length)
  match s.pc with
  | .create i => (c.threadsCount - i) + left + 5 * c.threadsCount + 4
  | .pop => left + 5 * c.threadsCount + 3
  | .push _ => left + 5 * c.threadsCount + 7
  | .finish i => 4 * (c.threadsCount - i) + c.threadsCount + 2
  | .join i => (c.threadsCount - i) + 1
  | .returned => 0
  | .crashed => 0

/-- The steps that are left at most. -/
def stepsLeft (c : Config) (all : List ε) (s : State σ ε) : ℕ :=
  dispatchRank c all s + totalWork s.workers

variable [QueryEntries σ ε]

/-- Every step of the dispatcher and of a worker is paid for. -/
theorem Inv.stepsLeft_lt (hpos : all ≠ [] → 0 < c.threadsCount) (h : Inv c all s)
    (hstep : Step c s s') : stepsLeft c all s' < stepsLeft c all s := by
  cases hstep with
  | worker hworker =>
      have hlt := totalWork_step hworker
      have hsame : ∀ workers, dispatchRank c all { s with workers := workers } =
          dispatchRank c all s := fun _ => rfl
      rw [stepsLeft, stepsLeft, hsame]
      exact Nat.add_lt_add_left hlt _
  | @create i hpc hi =>
      have hwork := totalWork_start s.workers (UInt64.ofNat i)
      simp only [stepsLeft, dispatchRank, hpc, State.popped, State.inHand] at hwork ⊢
      omega
  | @createEnd i hpc hi =>
      simp only [stepsLeft, dispatchRank, hpc, State.popped, State.inHand]
      omega
  | popNone hpc hpop =>
      simp only [stepsLeft, dispatchRank, hpc]
      omega
  | popSome hpc hpop =>
      have hlt := h.popped_length_lt hpos hpc hpop
      simp only [stepsLeft, dispatchRank, hpc, State.popped, State.inHand, List.length_append,
        List.length_singleton, List.length_nil] at hlt ⊢
      omega
  | @push e w hpc hget hroom =>
      have hwork := totalWork_push hget (.query e)
      simp only [stepsLeft, dispatchRank, hpc, State.popped, State.inHand,
        List.append_nil] at hwork ⊢
      omega
  | pushCrash hpc hnone => exact absurd rfl (h.step hpos (.pushCrash hpc hnone)).not_crashed
  | @finish i w hpc hget hroom =>
      have hlen : s.workers.length = c.threadsCount := (h.at_pc hpc).1
      have hi := (List.getElem?_eq_some_iff.mp hget).1
      have hwork := totalWork_push hget .finish
      simp only [stepsLeft, dispatchRank, hpc] at hwork ⊢
      omega
  | @finishEnd i hpc hi =>
      simp only [stepsLeft, dispatchRank, hpc]
      omega
  | @join i w hpc hget hret =>
      have hlen : s.workers.length = c.threadsCount := (h.at_pc hpc).1
      have hi := (List.getElem?_eq_some_iff.mp hget).1
      simp only [stepsLeft, dispatchRank, hpc]
      omega
  | joinEnd hpc hi =>
      simp only [stepsLeft, dispatchRank, hpc, totalWork, List.map_nil, List.sum_nil]
      omega

/-- A state in which nobody can take a step is the end of the run. -/
theorem Inv.returned_of_rest (hpos : all ≠ [] → 0 < c.threadsCount) (hdepth : 0 < c.queueDepth)
    (hno : ∀ e ∈ all, isShutdown e = false) (h : Inv c all s) (hrest : ∀ s', ¬Step c s s') :
    s.pc = .returned := by
  by_contra hpc
  have hworkers : ∀ w ∈ s.workers, w.pc = .returned ∨ w.pc = .pop ∧ w.queue = [] := by
    intro w hw
    apply Worker.step_eq_none_iff.mp
    obtain ⟨i, hget⟩ := List.mem_iff_getElem?.mp hw
    cases hnext : w.step with
    | none => rfl
    | some w' => exact absurd (.worker ⟨i, w, w', hget, hnext, rfl⟩) (hrest _)
  obtain ⟨s', hstep, -⟩ := h.exists_step hpos (fun _ => hdepth) hno hpc hworkers
  exact hrest s' hstep

theorem lowers (hpos : all ≠ [] → 0 < c.threadsCount) :
    Lowers (Step c) (Inv c all) (stepsLeft (σ := σ) c all) where
  keeps _ _ hi hstep := hi.step hpos hstep
  lowers _ _ hi hstep := hi.stepsLeft_lt hpos hstep

/-- At the beginning at most five steps are left for each entry and six for each worker. -/
theorem Inv.stepsLeft_le (h : Inv c all s) (hpc : s.pc = .create 0) :
    stepsLeft c all s ≤ 5 * all.length + 6 * c.threadsCount + 4 := by
  have hempty : s.workers = [] := List.length_eq_zero_iff.mp (h.at_pc hpc).1
  simp only [stepsLeft, dispatchRank, hpc, hempty, totalWork, List.map_nil, List.sum_nil]
  omega

/-- A run over `n` entries takes at most five steps for each of them and six for each worker. -/
theorem terminatesIn (hpos : all ≠ [] → 0 < c.threadsCount) (hdepth : 0 < c.queueDepth)
    (hno : ∀ e ∈ all, isShutdown e = false) {start : State σ ε} (hstart : Inv c all start)
    (hpc : start.pc = .create 0) :
    TerminatesIn (Step c) (5 * all.length + 6 * c.threadsCount + 4) start
      fun s => Inv c all s ∧ s.pc = .returned :=
  (lowers hpos).terminatesIn hstart (hstart.stepsLeft_le hpc) fun _ hi hrest =>
    ⟨hi, hi.returned_of_rest hpos hdepth hno hrest⟩

end ThreadPool

namespace ThreadPerConnection

variable {σ ε : Type} [QueryEntry ε] {all : List ε} {depth : ℕ} {s s' : State σ ε}

/-- The connections of the entries. -/
def connections (all : List ε) : Finset UInt64 := (all.map getThreadId).toFinset

/-- What the dispatcher still has to do and to hand over, as long as it need not wait. -/
def dispatchRank (all : List ε) (s : State σ ε) : ℕ :=
  let left := 6 * (all.length - s.popped.length) + (connections all).card + 2
  match s.pc with
  | .pop => left
  | .spawn _ => left + 5
  | .reap _ _ => 0
  | .push _ => left + 4
  | .join todo => todo.length + 1
  | .returned => 0
  | .crashed => 0

/-- The steps that are left at most. -/
def stepsLeft (all : List ε) (s : State σ ε) : ℕ := dispatchRank all s + totalWork s.workers

variable [QueryEntries σ ε]

/-- What holds in the runs over few connections. -/
structure NeverWaits (all : List ε) (s : State σ ε) : Prop where
  inv : Inv all s
  wanted : Wanted s
  noReap : ∀ e todo, s.pc ≠ .reap e todo

theorem NeverWaits.running_subset (h : NeverWaits all s) :
    running s.executors ⊆ connections all := by
  intro id hid
  obtain ⟨i, hptr⟩ := mem_running.mp hid
  obtain ⟨w, hget, rfl⟩ := h.inv.table.slot id i hptr
  have hpopped := h.wanted w (List.mem_of_getElem? hget)
  exact List.mem_toFinset.mpr ((h.inv.popped_prefix.map getThreadId).subset hpopped)

/-- In front of the creation of a worker there is room for it. -/
theorem NeverWaits.room (h : NeverWaits all s) (hfew : (connections all).card ≤ 10001) {e : ε}
    (hpc : s.pc = .spawn e) : s.numRunning ≤ maxRunning := by
  have hs : s.Spawning e := h.inv.at_pc hpc
  have hmem : getThreadId e ∈ connections all := by
    have hpopped : e ∈ s.popped := by simp [State.popped, State.inHand, hpc]
    exact List.mem_toFinset.mpr
      (List.mem_map_of_mem (h.inv.popped_prefix.subset hpopped))
  have hsub : running s.executors ⊆ (connections all).erase (getThreadId e) := by
    intro id hid
    refine Finset.mem_erase.mpr ⟨?_, h.running_subset hid⟩
    rintro rfl
    obtain ⟨i, hptr⟩ := mem_running.mp hid
    rw [hs.null] at hptr
    cases hptr
  have hcard := Finset.card_le_card hsub
  have hpositive := Finset.card_pos.mpr ⟨_, hmem⟩
  rw [Finset.card_erase_of_mem hmem] at hcard
  rw [h.inv.table.numRunning_eq, maxRunning]
  omega

theorem NeverWaits.step (hmarked : LastMarked all) (hfew : (connections all).card ≤ 10001)
    (h : NeverWaits all s) (hstep : Step depth s s') : NeverWaits all s' where
  inv := h.inv.step hmarked hstep
  wanted := h.wanted.step hmarked h.inv hstep
  noReap e todo := by
    cases hstep with
    | worker _ => exact h.noReap e todo
    | spawnWait hpc hrunning _ => exact absurd (h.room hfew hpc) (not_le.mpr hrunning)
    | reapSkip hpc _ => exact absurd hpc (h.noReap _ _)
    | reapErase hpc _ _ _ _ => exact absurd hpc (h.noReap _ _)
    | reapCrash hpc _ _ _ => exact absurd hpc (h.noReap _ _)
    | reapEnd hpc => exact absurd hpc (h.noReap _ _)
    | _ => simp

/-- While an entry is left, not all entries have been popped. -/
theorem NeverWaits.popped_length_lt (h : NeverWaits all s) {e : ε} {q : σ}
    (hpop : popEntry s.queryEntries = some (e, q)) : s.popped.length < all.length := by
  obtain ⟨rest, hdrain, hall⟩ := h.inv.split
  obtain ⟨rest, rfl, -⟩ := hdrain.eq_cons hpop
  rw [← hall, List.length_append, List.length_cons]
  omega

/-- Every pointer that is to be joined belongs to a connection of the log. -/
theorem NeverWaits.keys_length_le (h : NeverWaits all s) (hpc : s.pc = .pop) :
    s.executors.keys.length ≤ (connections all).card := by
  obtain ⟨-, hnonNull⟩ : s.Undeleted ∧ s.NonNull fun _ => True := h.inv.at_pc hpc
  rw [← List.toFinset_card_of_nodup s.executors.keys_nodup]
  apply Finset.card_le_card
  intro id hid
  have hkey := List.mem_toFinset.mp hid
  exact h.running_subset (mem_running.mpr (hnonNull id (AList.mem_keys.mpr hkey) trivial))

/-- Every step of the dispatcher and of a worker is paid for. -/
theorem NeverWaits.stepsLeft_lt (hfew : (connections all).card ≤ 10001) (hmarked : LastMarked all)
    (h : NeverWaits all s) (hstep : Step depth s s') : stepsLeft all s' < stepsLeft all s := by
  have hafter := h.step hmarked hfew hstep
  cases hstep with
  | worker hworker =>
      have hlt := totalWork_step hworker
      have hsame : ∀ workers, dispatchRank all { s with workers := workers } =
          dispatchRank all s := fun _ => rfl
      rw [stepsLeft, stepsLeft, hsame]
      exact Nat.add_lt_add_left hlt _
  | popNone hpc hpop htodo =>
      have hle := h.keys_length_le hpc
      rw [← htodo.length_eq] at hle
      simp only [stepsLeft, dispatchRank, hpc]
      omega
  | popKnown hpc hpop hslot =>
      have hlt := h.popped_length_lt hpop
      simp only [stepsLeft, dispatchRank, hpc, State.popped, State.inHand, List.length_append,
        List.length_singleton, List.length_nil] at hlt ⊢
      omega
  | popNew hpc hpop hslot =>
      have hlt := h.popped_length_lt hpop
      simp only [stepsLeft, dispatchRank, hpc, State.popped, State.inHand, List.length_append,
        List.length_singleton, List.length_nil] at hlt ⊢
      omega
  | spawnWait hpc hrunning htodo => exact absurd rfl (hafter.noReap _ _)
  | @spawnCreate e hpc hrunning =>
      have hwork := totalWork_start s.workers (getThreadId e)
      simp only [stepsLeft, dispatchRank, hpc, State.popped, State.inHand] at hwork ⊢
      omega
  | reapSkip hpc _ => exact absurd hpc (h.noReap _ _)
  | reapErase hpc _ _ _ _ => exact absurd hpc (h.noReap _ _)
  | reapCrash hpc _ _ _ => exact absurd hpc (h.noReap _ _)
  | reapEnd hpc => exact absurd hpc (h.noReap _ _)
  | @push e i w hpc hslot hget hlive hroom =>
      have hwork := totalWork_push hget e
      simp only [stepsLeft, dispatchRank, hpc, State.popped, State.inHand,
        List.append_nil] at hwork ⊢
      omega
  | pushCrash hpc hdead => exact absurd rfl hafter.inv.not_crashed
  | join hpc hslot hget hlive hret =>
      have hwork := totalWork_destroy hget
      simp only [stepsLeft, dispatchRank, hpc, List.length_cons] at hwork ⊢
      omega
  | joinCrash hpc hdead => exact absurd rfl hafter.inv.not_crashed
  | joinEnd hpc =>
      simp only [stepsLeft, dispatchRank, hpc]
      omega

/-- A state in which nobody can take a step is the end of the run, however many connections
there are. -/
theorem Inv.returned_of_rest (hmarked : LastMarked all) (hdepth : 0 < depth) (h : Inv all s)
    (hw : Wanted s) (hrest : ∀ s', ¬Step depth s s') : s.pc = .returned := by
  have hworkers : ∀ w ∈ s.workers, w.step = none := by
    intro w hw
    obtain ⟨i, hget⟩ := List.mem_iff_getElem?.mp hw
    cases hnext : w.step with
    | none => rfl
    | some w' => exact absurd (.worker ⟨i, w, w', hget, hnext, rfl⟩) (hrest _)
  cases hpc : s.pc with
  | pop =>
      cases hpop : popEntry s.queryEntries with
      | none => exact absurd (.popNone hpc hpop (.refl _)) (hrest _)
      | some p =>
          obtain ⟨e, q⟩ := p
          cases hslot : pointer s.executors (getThreadId e) with
          | none => exact absurd (.popNew hpc hpop hslot) (hrest _)
          | some i => exact absurd (.popKnown hpc hpop hslot) (hrest _)
  | spawn e =>
      rcases le_or_gt s.numRunning maxRunning with hrunning | hrunning
      · exact absurd (.spawnCreate hpc hrunning) (hrest _)
      · exact absurd (.spawnWait hpc hrunning (.refl _)) (hrest _)
  | reap e todo =>
      cases todo with
      | nil => exact absurd (.reapEnd hpc) (hrest _)
      | cons id todo =>
          have hs : s.Spawning e := h.at_pc hpc
          exact absurd (.reapSkip hpc fun i w _ hget => hs.undeleted w (List.mem_of_getElem? hget))
            (hrest _)
  | push e =>
      obtain ⟨i, w, hptr, hget, -, hrun, hlive⟩ := h.push_target hmarked hpc
      obtain ⟨-, hqueue⟩ := (Worker.step_eq_none_iff.mp
        (hworkers w (List.mem_of_getElem? hget))).resolve_left hrun
      exact absurd (.push hpc hptr hget hlive (by simpa [hqueue] using hdepth)) (hrest _)
  | join todo =>
      cases todo with
      | nil => exact absurd (.joinEnd hpc) (hrest _)
      | cons id todo =>
          obtain ⟨hdelivered, hj⟩ : s.delivered = all ∧ s.Joining (id :: todo) := h.at_pc hpc
          obtain ⟨i, hptr⟩ := hj.pointers id List.mem_cons_self
          obtain ⟨w, hget, hid⟩ := h.table.slot id i hptr
          have hmem := List.mem_of_getElem? hget
          have hlive : w.destroyed = false := by
            rw [← Bool.not_eq_true, hj.destroyed i w hget]
            simp [hid]
          have hpopped := hw w hmem
          simp only [State.popped, State.inHand, hpc, List.append_nil] at hpopped
          have hmarked' : LastMarked (s.delivered ++ []) := by rwa [List.append_nil, hdelivered]
          have hret := h.workers.returned_of_rest hmarked' hmem (hworkers w hmem) rfl
            fun hnone => ofThread_eq_nil_iff.mp hnone hpopped
          exact absurd (.join hpc hptr hget hlive hret) (hrest _)
  | returned => rfl
  | crashed => exact absurd hpc h.not_crashed

theorem lowers (hmarked : LastMarked all) (hfew : (connections all).card ≤ 10001) :
    Lowers (Step depth) (NeverWaits all) (stepsLeft (σ := σ) all) where
  keeps _ _ hi hstep := hi.step hmarked hfew hstep
  lowers _ _ hi hstep := hi.stepsLeft_lt hfew hmarked hstep

/-- At the beginning no worker has been created, so nobody waits. -/
theorem Inv.neverWaits (h : Inv all s) (hpc : s.pc = .pop) (hworkers : s.workers = []) :
    NeverWaits all s := ⟨h, by simp [Wanted, hworkers], by simp [hpc]⟩

omit [QueryEntries σ ε] in
/-- At the beginning at most six steps are left for each entry and one for each connection. -/
theorem stepsLeft_le (hpc : s.pc = .pop) (hworkers : s.workers = []) :
    stepsLeft all s ≤ 6 * all.length + (connections all).card + 2 := by
  simp only [stepsLeft, dispatchRank, hpc, hworkers, totalWork, List.map_nil, List.sum_nil]
  omega

/-- A run over at most 10001 connections takes at most six steps for each entry and one for
each connection. -/
theorem terminatesIn (hmarked : LastMarked all) (hfew : (connections all).card ≤ 10001)
    (hdepth : 0 < depth) {start : State σ ε} (hstart : Inv all start) (hpc : start.pc = .pop)
    (hworkers : start.workers = []) :
    TerminatesIn (Step depth) (6 * all.length + (connections all).card + 2) start
      fun s => Inv all s ∧ s.pc = .returned :=
  (lowers hmarked hfew).terminatesIn (hstart.neverWaits hpc hworkers)
    (stepsLeft_le hpc hworkers) fun _ hi hrest =>
      ⟨hi.inv, hi.inv.returned_of_rest hmarked hdepth hi.wanted hrest⟩

end ThreadPerConnection

end QueryPlayback
