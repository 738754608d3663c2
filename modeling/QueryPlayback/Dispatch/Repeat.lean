import QueryPlayback.Dispatch.ThreadPerConnection.Cap
import QueryPlayback.Dispatch.ThreadPool.Progress
import QueryPlayback.Lib.Repetition

/-!
# Several runs in one process

`percona_playback_run_all` repeats the run with the same dispatcher. The pool
begins every run with an empty vector, since `finish_all_and_wait` clears it.
The table of the thread-per-connection dispatcher is never cleared, so that
its pointers to deleted workers stay behind for the next run, which cannot get
past them. Otherwise a sequence of runs can be brought to its end wherever each
of the runs can.
-/

namespace QueryPlayback

open QueryEntry QueryEntries Interleaving Relation Repetition

namespace ThreadPerConnection

section Empty

variable {σ ε : Type} [QueryEntry ε] [QueryEntries σ ε] {s s' : State σ ε} {depth : Nat}

/-- A run without entries leaves the table and the heap empty. -/
structure Idle (s : State σ ε) : Prop where
  executors : s.executors = ∅
  workers : s.workers = []
  exhausted : popEntry s.queryEntries = none
  pc : s.pc = .pop ∨ s.pc = .join [] ∨ s.pc = .returned

theorem Idle.step (h : Idle s) (hstep : Step depth s s') : Idle s' := by
  obtain ⟨hexecutors, hworkers, hexhausted, hpc⟩ := h
  cases hstep with
  | worker hworker =>
      obtain ⟨i, w, w', hget, -, -⟩ := hworker
      simp [hworkers] at hget
  | @popNone todo _ _ htodo =>
      have htodo' : todo = [] := by simpa [hexecutors] using htodo
      exact ⟨hexecutors, hworkers, hexhausted, Or.inr (Or.inl (by rw [htodo']))⟩
  | joinEnd _ => exact ⟨hexecutors, hworkers, hexhausted, Or.inr (Or.inr rfl)⟩
  | popKnown _ hpop => simp [hexhausted] at hpop
  | popNew _ hpop => simp [hexhausted] at hpop
  | _ => simp_all

theorem Idle.reaches (h : Idle s) (hsteps : Reaches depth s s') : Idle s' :=
  invariant_of_steps (fun _ _ hi hstep => hi.step hstep) hsteps h

/-- A run without entries comes to its end by itself. -/
theorem Idle.exists_returned (h : Idle s) : ∃ s', Reaches depth s s' ∧ s'.pc = .returned := by
  rcases h.pc with hpc | hpc | hpc
  · refine ⟨_, .tail (.tail .refl (.popNone hpc h.exhausted ?_)) (.joinEnd rfl), rfl⟩
    rw [h.executors]
    exact .refl _
  · exact ⟨_, .tail .refl (.joinEnd hpc), rfl⟩
  · exact ⟨s, .refl, hpc⟩

theorem Step.firstWorker_eq (h : Step depth s s') : s'.firstWorker = s.firstWorker := by
  cases h <;> rfl

end Empty

/-- What a run promises about the entries `all`, with the workers it created itself. -/
structure RunOk (all : List QueryLogEntry) (s : State QueryLogEntries QueryLogEntry) : Prop where
  not_crashed : s.pc ≠ .crashed
  /-- Delivered entries have a worker that this run created. -/
  owned : ∀ e ∈ s.delivered, ∃ w ∈ s.workers.drop s.firstWorker,
    w.threadId = getThreadId e ∧ e ∈ w.stream
  /-- An entry is only pushed to a live worker that this run created. -/
  target : ∀ e, s.pc = .push e → ∃ i w, pointer s.executors (getThreadId e) = some i ∧
    s.firstWorker ≤ i ∧ s.workers[i]? = some w ∧ w.pc ≠ .returned ∧ w.destroyed = false
  once : s.pc = .returned →
    ((s.workers.drop s.firstWorker).flatMap fun w => w.processed.map Handled.entry).Perm all

theorem Inv.runOk {all : List QueryLogEntry} {s : State QueryLogEntries QueryLogEntry}
    (hmarked : LastMarked all) (h : Inv all s) (hfirst : s.firstWorker = 0) : RunOk all s where
  not_crashed := h.not_crashed
  owned := by
    intro e he
    obtain ⟨w, hw, hid⟩ := h.workers.owned e he
    refine ⟨w, by rwa [hfirst], hid, ?_⟩
    rw [h.workers.stream w hw, mem_ofThread]
    exact ⟨he, hid.symm⟩
  target := by
    intro e hpc
    obtain ⟨i, w, hptr, hget, -, hrun, hlive⟩ := h.push_target hmarked hpc
    exact ⟨i, w, hptr, hfirst ▸ Nat.zero_le i, hget, hrun, hlive⟩
  once := by
    intro hpc
    rw [hfirst]
    exact h.handled_perm hmarked hpc

/-- The ids of the entries are not changed by the flags. -/
theorem map_getThreadId_toPop (q : QueryLogEntries) :
    q.setShutdownOnLastQueryOfConn.toPop.map getThreadId =
      q.entries.map QueryLogData.getThreadId := by
  have h := congrArg (List.map Prod.snd) (QueryLogEntries.toPop_setShutdown q)
  simpa only [List.map_map, Function.comp_def] using h

/-- A run over the list can be completed: it has no entries, or there is room in the queues and
nowhere do too many connections straddle. -/
def Completable (depth : Nat) (q : QueryLogEntries) : Prop :=
  q.entries ≠ [] → 0 < depth ∧ Unstuck (q.entries.map QueryLogData.getThreadId)

/-- What holds in a run over the list on a dispatcher without workers. -/
structure Repeatable (q : QueryLogEntries) (s : State QueryLogEntries QueryLogEntry) : Prop where
  inv : Inv q.setShutdownOnLastQueryOfConn.toPop s
  wanted : Wanted s
  firstWorker : s.firstWorker = 0
  idle : q.entries = [] → Idle s

theorem Repeatable.dispatch {s : State QueryLogEntries QueryLogEntry} {q : QueryLogEntries}
    (hs : s.executors = ∅ ∧ s.workers = []) : Repeatable q (s.dispatch q) := by
  obtain ⟨hexecutors, hworkers⟩ := hs
  refine ⟨Inv.dispatch (QueryLogEntries.drains_toPop _) hexecutors hworkers, ?_,
    by simp [State.dispatch, hworkers], fun hnone => ⟨hexecutors, hworkers, ?_, Or.inl rfl⟩⟩
  · intro w hw
    exact absurd hw (by simp [State.dispatch, hworkers])
  · obtain ⟨entries, last, numEntries, numQueries⟩ := q
    obtain rfl : entries = [] := hnone
    rfl

section Runs

variable {depth : Nat} {q : QueryLogEntries} {qs : List QueryLogEntries}
  {s s' : State QueryLogEntries QueryLogEntry}

theorem Repeatable.step (hq : q.Fresh) (h : Repeatable q s) (hstep : Step depth s s') :
    Repeatable q s' where
  inv := h.inv.step hq.lastMarked hstep
  wanted := h.wanted.step hq.lastMarked h.inv hstep
  firstWorker := hstep.firstWorker_eq.trans h.firstWorker
  idle hnone := (h.idle hnone).step hstep

theorem Repeatable.reaches (hq : q.Fresh) (h : Repeatable q s) (hsteps : Reaches depth s s') :
    Repeatable q s' :=
  invariant_of_steps (fun _ _ hi hstep => hi.step hq hstep) hsteps h

theorem Repeatable.exists_returned (hq : q.Fresh) (hcompletable : Completable depth q)
    (h : Repeatable q s) : ∃ s', Reaches depth s s' ∧ s'.pc = .returned := by
  by_cases hnone : q.entries = []
  · exact (h.idle hnone).exists_returned
  · obtain ⟨hdepth, hunstuck⟩ := hcompletable hnone
    rw [← map_getThreadId_toPop] at hunstuck
    exact reaches_returned hq.lastMarked hunstuck hdepth h.inv h.wanted

/-- Without entries nothing is created, and the next run finds what a fresh process has. -/
theorem repeat_spec (hfresh : ∀ j ∈ q :: qs, j.Fresh)
    (hempty : ∀ j ∈ (q :: qs).dropLast, j.entries = [])
    (hcompletable : ∀ j ∈ q :: qs, Completable depth j)
    {p : Process (State QueryLogEntries QueryLogEntry) QueryLogEntries}
    (hsteps : ReflTransGen (Repeat (Step depth) State.dispatch (·.pc = .returned))
      ⟨start q, q, qs⟩ p) :
    p.job.Fresh ∧ Repeatable p.job p.state ∧
      CanEnd (Step depth) State.dispatch (·.pc = .returned) p := by
  have hstart : ∀ (s : State QueryLogEntries QueryLogEntry) (j : QueryLogEntries),
      j.Fresh ∧ Completable depth j → s.executors = ∅ ∧ s.workers = [] →
        Repeatable j (s.dispatch j) := fun _ _ _ => Repeatable.dispatch
  have hstep : ∀ j (s s' : State QueryLogEntries QueryLogEntry),
      j.Fresh ∧ Completable depth j → Repeatable j s → Step depth s s' → Repeatable j s' :=
    fun _ _ _ hj h hstep => h.step hj.1 hstep
  have hend : ∀ (j : QueryLogEntries) (s : State QueryLogEntries QueryLogEntry),
      j.entries = [] → Repeatable j s → s.pc = .returned → s.executors = ∅ ∧ s.workers = [] :=
    fun _ _ hnone h _ => ⟨(h.idle hnone).executors, (h.idle hnone).workers⟩
  have hsound := sound_of_repeat hstart hstep hend hsteps
    ⟨fun j hj => ⟨hfresh j hj, hcompletable j hj⟩, hempty,
      Repeatable.dispatch (s := State.init q) ⟨rfl, rfl⟩⟩
  refine ⟨(hsound.valid _ List.mem_cons_self).1, hsound.current,
    canEnd_of_sound hstart hstep hend ?_ hsound⟩
  exact fun j s hj h => h.exists_returned hj.1 hj.2

end Runs

section Dangling

variable {σ ε : Type} {s s' : State σ ε} {depth : Nat} {id : UInt64}

/-- The worker of the id has been deleted, and its pointer has been left in the table. -/
def State.Left (s : State σ ε) (id : UInt64) : Prop :=
  ∃ i w, pointer s.executors id = some i ∧ s.workers[i]? = some w ∧ w.destroyed = true

/-- The dispatcher is neither about to replace the pointer of the id nor past joining it. -/
def State.InFrontOf [QueryEntry ε] (s : State σ ε) (id : UInt64) : Prop :=
  match s.pc with
  | .spawn e => getThreadId e ≠ id
  | .reap e _ => getThreadId e ≠ id
  | .join todo => id ∈ todo
  | .returned => False
  | _ => True

/-- A pointer is not that of another id whose worker has been deleted. -/
theorem State.Left.ne (h : s.Left id) {id' : UInt64} {i : Nat} {w : Worker ε}
    (hslot : pointer s.executors id' = some i) (hget : s.workers[i]? = some w)
    (hlive : w.destroyed = false) : id' ≠ id := by
  rintro rfl
  obtain ⟨j, v, hptr, hv, hdead⟩ := h
  obtain rfl : i = j := Option.some.inj (hslot.symm.trans hptr)
  obtain rfl : w = v := Option.some.inj (hget.symm.trans hv)
  exact Bool.noConfusion (hlive.symm.trans hdead)

/-- Replacing a worker that has not been deleted. -/
theorem State.Left.set (h : s.Left id) {i : Nat} {w w' : Worker ε}
    (hget : s.workers[i]? = some w) (hlive : w.destroyed = false) {pc : Pc ε}
    {delivered : List ε} :
    State.Left { s with pc := pc, workers := s.workers.set i w', delivered := delivered } id := by
  obtain ⟨j, v, hptr, hv, hdead⟩ := h
  refine ⟨j, v, hptr, ?_, hdead⟩
  rw [List.getElem?_set_ne, hv]
  rintro rfl
  obtain rfl : w = v := Option.some.inj (hget.symm.trans hv)
  exact Bool.noConfusion (hlive.symm.trans hdead)

variable [QueryEntry ε] [QueryEntries σ ε]

/-- A pointer that has been left stays, and the dispatcher does not get past it. -/
theorem State.Left.step (h : s.Left id) (hfront : s.InFrontOf id) (hstep : Step depth s s') :
    s'.Left id ∧ s'.InFrontOf id := by
  have hat : ∀ {pc}, s.pc = pc → State.InFrontOf { s with pc := pc } id := by
    rintro pc rfl
    exact hfront
  have hleft := h
  obtain ⟨i, w, hptr, hget, hdead⟩ := hleft
  cases hstep with
  | worker hworker =>
      obtain ⟨v, hv, rfl | hwv⟩ := hworker.getElem?_old hget
      · exact ⟨⟨i, w, hptr, hv, hdead⟩, hfront⟩
      · exact ⟨⟨i, v, hptr, hv, hwv.destroyed_eq.trans hdead⟩, hfront⟩
  | popNone hpc hpop htodo =>
      exact ⟨h, htodo.mem_iff.mpr (mem_keys_of_pointer hptr)⟩
  | popKnown hpc hpop hslot => exact ⟨h, trivial⟩
  | popNew hpc hpop hslot =>
      refine ⟨⟨i, w, (pointer_insert_none hslot id).trans hptr, hget, hdead⟩, ?_⟩
      rintro rfl
      rw [hslot] at hptr
      cases hptr
  | @spawnWait e _ hpc hrunning htodo =>
      have hne : getThreadId e ≠ id := hat hpc
      exact ⟨h, hne⟩
  | @spawnCreate e hpc hrunning =>
      have hne : getThreadId e ≠ id := hat hpc
      refine ⟨⟨i, w, (pointer_insert_of_ne hne.symm _).trans hptr, ?_, hdead⟩, trivial⟩
      exact List.getElem?_append_left (List.getElem?_eq_some_iff.mp hget).1 ▸ hget
  | @reapSkip e _ _ hpc hlive =>
      have hne : getThreadId e ≠ id := hat hpc
      exact ⟨h, hne⟩
  | @reapErase e _ _ _ _ hpc hslot hget' hlive hret =>
      have hne : getThreadId e ≠ id := hat hpc
      have hother := h.ne hslot hget' hlive
      exact ⟨⟨i, w, (pointer_erase_of_ne hother.symm).trans hptr, hget, hdead⟩, hne⟩
  | reapCrash hpc hslot hget' hdead' => exact ⟨h, trivial⟩
  | @reapEnd e hpc =>
      have hne : getThreadId e ≠ id := hat hpc
      exact ⟨h, hne⟩
  | push hpc hslot hget' hlive hroom => exact ⟨h.set hget' hlive, trivial⟩
  | pushCrash hpc hdead' => exact ⟨h, trivial⟩
  | join hpc hslot hget' hlive hret =>
      refine ⟨h.set hget' hlive, ?_⟩
      have hmem : id ∈ _ :: _ := hat hpc
      exact (List.mem_cons.mp hmem).resolve_left (h.ne hslot hget' hlive).symm
  | joinCrash hpc hdead' => exact ⟨h, trivial⟩
  | joinEnd hpc =>
      have hmem : id ∈ [] := hat hpc
      cases hmem

/-- A run that finds a pointer to a deleted worker never ends. -/
theorem State.Left.not_returned {q : σ} (h : s.Left id) (hsteps : Reaches depth (s.dispatch q) s') :
    s'.pc ≠ .returned := by
  intro hpc
  have hkept : s'.Left id ∧ s'.InFrontOf id :=
    invariant_of_steps (P := fun s => s.Left id ∧ s.InFrontOf id)
      (fun _ _ hs hstep => hs.1.step hs.2 hstep) hsteps ⟨h, trivial⟩
  have hfront := hkept.2
  rw [State.InFrontOf, hpc] at hfront
  exact hfront

end Dangling

section Need

variable {σ ε : Type} [QueryEntry ε] [QueryEntries σ ε] {all : List ε} {s s' : State σ ε}
  {depth : Nat}

/-- Once an entry has been delivered there is a pointer in the table, in the end to a deleted
worker. -/
def State.Pointing (s : State σ ε) : Prop :=
  match s.pc with
  | .pop => s.delivered ≠ [] → ∃ id i, pointer s.executors id = some i
  | .join _ => s.delivered ≠ [] → ∃ id i, pointer s.executors id = some i
  | .returned => s.delivered ≠ [] → ∃ id, s.Left id
  | _ => True

theorem State.Pointing.step (hi : Inv all s) (h : s.Pointing) (hstep : Step depth s s') :
    s'.Pointing := by
  cases hstep with
  | worker hworker =>
      unfold State.Pointing at h ⊢
      cases hpc : s.pc with
      | pop => rwa [hpc] at h
      | join todo => rwa [hpc] at h
      | returned =>
          rw [hpc] at h
          intro hne
          obtain ⟨id, i, w, hptr, hget, hdead⟩ := h hne
          obtain ⟨v, hv, rfl | hwv⟩ := hworker.getElem?_old hget
          · exact ⟨id, i, w, hptr, hv, hdead⟩
          · exact ⟨id, i, v, hptr, hv, hwv.destroyed_eq.trans hdead⟩
      | _ => trivial
  | popNone hpc hpop htodo =>
      rw [State.Pointing, hpc] at h
      exact h
  | @push e i w hpc hslot hget hlive hroom => exact fun _ => ⟨getThreadId e, i, hslot⟩
  | join hpc hslot hget hlive hret =>
      rw [State.Pointing, hpc] at h
      exact h
  | joinEnd hpc =>
      rw [State.Pointing, hpc] at h
      intro hne
      obtain ⟨id, i, hptr⟩ := h hne
      obtain ⟨w, hget, rfl⟩ := hi.table.slot id i hptr
      obtain ⟨-, hjoined⟩ : s.delivered = all ∧ s.Joining [] := hi.at_pc hpc
      exact ⟨_, i, w, hptr, hget, (hjoined.destroyed i w hget).mpr ⟨hptr, List.not_mem_nil⟩⟩
  | _ => trivial

/-- Without room in the queues nothing is delivered. -/
theorem delivered_eq_nil (h : Reaches 0 s s') (hstart : s.delivered = []) : s'.delivered = [] := by
  refine invariant_of_steps (P := fun s => s.delivered = []) (fun s s' hs hstep => ?_) h hstart
  cases hstep with
  | push hpc hslot hget hlive hroom => exact absurd hroom (Nat.not_lt_zero _)
  | _ => exact hs

end Need

section Exact

variable {depth : Nat} {q : QueryLogEntries} {s s' : State QueryLogEntries QueryLogEntry}

theorem toPop_ne_nil (h : q.entries ≠ []) : q.setShutdownOnLastQueryOfConn.toPop ≠ [] := by
  intro hnone
  have hids := map_getThreadId_toPop q
  rw [hnone, List.map_nil] at hids
  exact h (List.map_eq_nil_iff.mp hids.symm)

/-- A run that ends is over a list that can be completed, and with entries it leaves the pointer
to a deleted worker behind. -/
theorem completable_of_returned (hq : q.Fresh) (hs : s.executors = ∅ ∧ s.workers = [])
    (hsteps : Reaches depth (s.dispatch q) s') (hpc : s'.pc = .returned) :
    Completable depth q ∧ (q.entries ≠ [] → ∃ id, s'.Left id) := by
  have hmarked := hq.lastMarked
  have hstart := Repeatable.dispatch (q := q) hs
  have hinv := hstart.inv.reaches hmarked hsteps
  obtain ⟨hpopped, howned, -⟩ := hinv.complete hmarked hpc
  obtain ⟨hdelivered, -⟩ : s'.delivered = _ ∧ ∀ w ∈ s'.workers, w.pc = .returned := hinv.at_pc hpc
  constructor
  · intro hne
    constructor
    · refine Nat.pos_of_ne_zero fun hzero => ?_
      subst hzero
      exact toPop_ne_nil hne (hdelivered.symm.trans (delivered_eq_nil hsteps rfl))
    · have hadmitted : Admitted q.setShutdownOnLastQueryOfConn.toPop (s.dispatch q) := by
        intro w hw
        exact absurd hw (by simp [State.dispatch, hs.2])
      rw [← map_getThreadId_toPop]
      exact (hadmitted.reaches hmarked hstart.inv hsteps).unstuck howned
  · intro hne
    have hpointing : Inv q.setShutdownOnLastQueryOfConn.toPop s' ∧ s'.Pointing :=
      invariant_of_steps (P := fun s => Inv _ s ∧ s.Pointing)
        (fun _ _ h hstep => ⟨h.1.step hmarked hstep, h.2.step h.1 hstep⟩) hsteps
        ⟨hstart.inv, fun hdelivered => absurd rfl hdelivered⟩
    have hleft := hpointing.2
    rw [State.Pointing, hpc] at hleft
    exact hleft (hdelivered ▸ toPop_ne_nil hne)

/-- Runs that can all be brought to their ends are over lists that can be completed, and only the
last of them has entries. -/
theorem canRepeat_of_canEnd {qs : List QueryLogEntries} (hfresh : ∀ j ∈ q :: qs, j.Fresh)
    (hs : s.executors = ∅ ∧ s.workers = [])
    (h : CanEnd (Step depth) State.dispatch (·.pc = .returned) ⟨s.dispatch q, q, qs⟩) :
    (∀ j ∈ (q :: qs).dropLast, j.entries = []) ∧ ∀ j ∈ q :: qs, Completable depth j := by
  induction qs generalizing q s with
  | nil =>
      obtain ⟨s', hsteps, hpc⟩ := h.last
      have hq := hfresh q List.mem_cons_self
      exact ⟨nofun, List.forall_mem_singleton.mpr (completable_of_returned hq hs hsteps hpc).1⟩
  | cons k qs ih =>
      obtain ⟨s', hsteps, hpc, hrest⟩ := h.next
      have hq := hfresh q List.mem_cons_self
      obtain ⟨hcompletable, hleft⟩ := completable_of_returned hq hs hsteps hpc
      have hnone : q.entries = [] := by
        by_contra hne
        obtain ⟨id, hid⟩ := hleft hne
        obtain ⟨s'', hsteps', hpc'⟩ := hrest.current
        exact hid.not_returned hsteps' hpc'
      have hidle := ((Repeatable.dispatch (q := q) hs).idle hnone).reaches hsteps
      obtain ⟨hempty, hall⟩ := ih (fun j hj => hfresh j (List.mem_cons_of_mem _ hj))
        ⟨hidle.executors, hidle.workers⟩ hrest
      refine ⟨?_, List.forall_mem_cons.mpr ⟨hcompletable, hall⟩⟩
      rw [List.dropLast_cons_of_ne_nil (List.cons_ne_nil _ _)]
      exact List.forall_mem_cons.mpr ⟨hnone, hempty⟩

end Exact

end ThreadPerConnection

namespace ThreadPool

/-- What a run promises about the entries `all`, with the workers in its vector. -/
structure RunOk (c : Config) (all : List QueryLogEntry) (s : State QueryLogEntries QueryLogEntry) :
    Prop where
  not_crashed : s.pc ≠ .crashed
  /-- The workers have been given entries of this run only, and all that were delivered. -/
  owned : ∀ (j : Nat) (w : Worker (QueueEntry QueryLogEntry)), s.workers[j]? = some w →
    w.stream = sent c s.pc s.delivered j
  /-- An entry is only pushed to a live worker. -/
  target : ∀ e, s.pc = .push e →
    ∃ w, s.workers[c.workerIndex s.workers.length (getThreadId e)]? = some w ∧
      w.pc ≠ .returned ∧ w.destroyed = false
  once : s.pc = .returned → (s.retired.flatMap handledEntries).Perm all

/-- A run over the list can be completed: there is a worker if there are entries, and room in the
queues if there is a worker, since each of them is sent a `FinishEntry`. -/
structure Completable (c : Config) (q : QueryLogEntries) : Prop where
  worker : q.entries ≠ [] → 0 < c.threadsCount
  room : 0 < c.threadsCount → 0 < c.queueDepth

section Runs

variable {c : Config} {q : QueryLogEntries} {qs : List QueryLogEntries}
  {s s' : State QueryLogEntries QueryLogEntry}

theorem Completable.pos (h : Completable c q) (hne : q.toPop ≠ []) : 0 < c.threadsCount :=
  h.worker fun hnone => hne (by simp [QueryLogEntries.toPop, hnone])

/-- Clearing the vector makes every end of a run a fresh beginning. -/
theorem repeat_spec (hfresh : ∀ j ∈ q :: qs, j.Fresh)
    (hcompletable : ∀ j ∈ q :: qs, Completable c j)
    {p : Process (State QueryLogEntries QueryLogEntry) QueryLogEntries}
    (hsteps : ReflTransGen (Repeat (Step c) State.run (·.pc = .returned)) ⟨start q, q, qs⟩ p) :
    RunOk c p.job.toPop p.state ∧ CanEnd (Step c) State.run (·.pc = .returned) p := by
  have hstart : ∀ (s : State QueryLogEntries QueryLogEntry) (j : QueryLogEntries),
      j.Fresh ∧ Completable c j → s.workers = [] → Inv c j.toPop (s.run j) :=
    fun _ j _ hready => Inv.run j.drains_toPop hready
  have hstep : ∀ (j : QueryLogEntries) (s s' : State QueryLogEntries QueryLogEntry),
      j.Fresh ∧ Completable c j → Inv c j.toPop s → Step c s s' → Inv c j.toPop s' :=
    fun _ _ _ hj hi hstep => hi.step hj.2.pos hstep
  have hend : ∀ (j : QueryLogEntries) (s : State QueryLogEntries QueryLogEntry),
      True → Inv c j.toPop s → s.pc = .returned → s.workers = [] :=
    fun _ _ _ hi hpc => (hi.at_pc hpc).1
  have hsound := sound_of_repeat hstart hstep hend hsteps
    ⟨fun j hj => ⟨hfresh j hj, hcompletable j hj⟩, fun _ _ => trivial, Inv.run q.drains_toPop rfl⟩
  obtain ⟨hq, hpool⟩ := hsound.valid _ List.mem_cons_self
  have hno := hq.toPop_not_shutdown
  have hi := hsound.current
  constructor
  · exact
      { not_crashed := hi.not_crashed
        owned := hi.workers.stream
        target := fun _ hpc => hi.push_target hpool.pos hno hpc
        once := hi.handled_perm hpool.pos hno }
  · refine canEnd_of_sound hstart hstep hend (fun j s hj hi => ?_) hsound
    exact hi.exists_returned hj.2.pos hj.2.room hj.1.toPop_not_shutdown

/-- What holds in a run that never gets as far as joining the workers. -/
def State.Blocked (c : Config) (q : QueryLogEntries) (s : State QueryLogEntries QueryLogEntry) :
    Prop :=
  match s.pc with
  | .create i => s.workers.length = i ∧ i ≤ c.threadsCount ∧ s.queryEntries = q
  | .pop => s.workers.length = c.threadsCount ∧ s.queryEntries = q
  | .push _ => s.workers.length = c.threadsCount
  | .finish i => i = 0 ∧ s.workers.length = c.threadsCount ∧ q.entries = []
  | .join _ => False
  | .returned => False
  | .crashed => True

theorem State.Blocked.step (hnot : ¬Completable c q) (h : s.Blocked c q) (hstep : Step c s s') :
    s'.Blocked c q := by
  -- whoever pushes to a worker finds no room
  have hfull : ∀ {j : ℕ} {w : Worker (QueueEntry QueryLogEntry)},
      s.workers.length = c.threadsCount → s.workers[j]? = some w →
        ¬w.queue.length < c.queueDepth := by
    intro j w hlen hget hroom
    have hcount : 0 < c.threadsCount := hlen ▸ List.length_pos_of_mem (List.mem_of_getElem? hget)
    exact hnot ⟨fun _ => hcount, fun _ => Nat.zero_lt_of_lt hroom⟩
  have hat : ∀ {pc}, s.pc = pc → State.Blocked c q { s with pc := pc } := by
    rintro pc rfl
    exact h
  cases hstep with
  | worker hworker =>
      have hlength := hworker.length_eq
      unfold State.Blocked at h ⊢
      dsimp only
      rw [hlength]
      exact h
  | @create i hpc hi =>
      obtain ⟨hlen, -, hqueue⟩ : s.workers.length = i ∧ _ ∧ s.queryEntries = q := hat hpc
      exact ⟨by rw [List.length_append, hlen, List.length_singleton], hi, hqueue⟩
  | @createEnd i hpc hi =>
      obtain ⟨hlen, hle, hqueue⟩ : s.workers.length = i ∧ i ≤ _ ∧ s.queryEntries = q := hat hpc
      exact ⟨hlen.trans (Nat.le_antisymm hle hi), hqueue⟩
  | popNone hpc hpop =>
      obtain ⟨hlen, rfl⟩ : s.workers.length = c.threadsCount ∧ s.queryEntries = q := hat hpc
      refine ⟨rfl, hlen, ?_⟩
      by_contra hne
      obtain ⟨d, rest, hcons⟩ := List.exists_cons_of_ne_nil hne
      simp [popEntry, QueryLogEntries.popEntry, hcons] at hpop
  | popSome hpc hpop => exact (hat hpc).1
  | push hpc hget hroom => exact absurd hroom (hfull (hat hpc) hget)
  | pushCrash hpc hnone => trivial
  | finish hpc hget hroom => exact absurd hroom (hfull (hat hpc).2.1 hget)
  | finishEnd hpc hi =>
      obtain ⟨rfl, hlen, hnone⟩ : _ = 0 ∧ s.workers.length = c.threadsCount ∧ _ := hat hpc
      have hzero : c.threadsCount = 0 := by omega
      refine hnot ⟨fun hne => absurd hnone hne, fun hcount => ?_⟩
      omega
  | join hpc hget hret => exact (hat hpc).elim
  | joinEnd hpc hi => exact (hat hpc).elim

/-- A run that ends is over a list that can be completed. -/
theorem completable_of_returned (hs : s.workers = []) (hsteps : Reaches c (s.run q) s')
    (hpc : s'.pc = .returned) : Completable c q := by
  by_contra hnot
  have hblocked : s'.Blocked c q :=
    invariant_of_steps (P := State.Blocked c q) (fun _ _ h hstep => h.step hnot hstep) hsteps
      ⟨by simp [State.run, hs], Nat.zero_le _, rfl⟩
  rw [State.Blocked, hpc] at hblocked
  exact hblocked

theorem completable_of_canEnd (hs : s.workers = [])
    (h : CanEnd (Step c) State.run (·.pc = .returned) ⟨s.run q, q, qs⟩) :
    ∀ j ∈ q :: qs, Completable c j := by
  induction qs generalizing q s with
  | nil =>
      obtain ⟨s', hsteps, hpc⟩ := h.last
      exact List.forall_mem_singleton.mpr (completable_of_returned hs hsteps hpc)
  | cons k qs ih =>
      obtain ⟨s', hsteps, hpc, hrest⟩ := h.next
      have hq := completable_of_returned hs hsteps hpc
      have hi := (Inv.run q.drains_toPop hs).reaches hq.pos hsteps
      exact List.forall_mem_cons.mpr ⟨hq, ih (hi.at_pc hpc).1 hrest⟩

end Runs

end ThreadPool

/-- The dispatcher plugins with their settings. -/
inductive Dispatcher
  | threadPerConnection (queueDepth : Nat)
  | threadPool (config : ThreadPool.Config)

/-- In every state of a sequence of runs over `q` and then `qs` the current run
keeps its promises, and all runs can still be brought to their ends. -/
def Dispatcher.RunsOk (d : Dispatcher) (q : QueryLogEntries) (qs : List QueryLogEntries) : Prop :=
  match d with
  | .threadPerConnection depth =>
      ∀ p, ReflTransGen (Repeat (ThreadPerConnection.Step depth)
          ThreadPerConnection.State.dispatch (·.pc = .returned))
          ⟨ThreadPerConnection.start q, q, qs⟩ p →
        ThreadPerConnection.RunOk p.job.setShutdownOnLastQueryOfConn.toPop p.state ∧
          CanEnd (ThreadPerConnection.Step depth) ThreadPerConnection.State.dispatch
            (·.pc = .returned) p
  | .threadPool c =>
      ∀ p, ReflTransGen (Repeat (ThreadPool.Step c) ThreadPool.State.run (·.pc = .returned))
          ⟨ThreadPool.start q, q, qs⟩ p →
        ThreadPool.RunOk c p.job.toPop p.state ∧
          CanEnd (ThreadPool.Step c) ThreadPool.State.run (·.pc = .returned) p

/-- Only the last run of the thread-per-connection dispatcher may have entries, and
every run must be over a list that can be completed. -/
def Dispatcher.CanRepeat (d : Dispatcher) (q : QueryLogEntries) (qs : List QueryLogEntries) :
    Prop :=
  match d with
  | .threadPerConnection depth => (∀ j ∈ (q :: qs).dropLast, j.entries = []) ∧
      ∀ j ∈ q :: qs, ThreadPerConnection.Completable depth j
  | .threadPool c => ∀ j ∈ q :: qs, ThreadPool.Completable c j

/-- Exactly under the condition every run of a sequence creates live workers for its own
entries and can be brought to its end, where each of them has been handled once. -/
theorem runsOk_iff_canRepeat (d : Dispatcher) (q : QueryLogEntries) (qs : List QueryLogEntries)
    (hfresh : ∀ j ∈ q :: qs, j.Fresh) : d.RunsOk q qs ↔ d.CanRepeat q qs := by
  cases d with
  | threadPerConnection depth =>
      constructor
      · intro h
        exact ThreadPerConnection.canRepeat_of_canEnd hfresh ⟨rfl, rfl⟩ (h _ .refl).2
      · rintro ⟨hempty, hcompletable⟩ p hsteps
        obtain ⟨hq, hcurrent, hends⟩ :=
          ThreadPerConnection.repeat_spec hfresh hempty hcompletable hsteps
        exact ⟨hcurrent.inv.runOk hq.lastMarked hcurrent.firstWorker, hends⟩
  | threadPool c =>
      constructor
      · intro h
        exact ThreadPool.completable_of_canEnd rfl (h _ .refl).2
      · exact fun h p hsteps => ThreadPool.repeat_spec hfresh h hsteps

/-- Two runs of the pool over the same log. -/
theorem runsOk_iff_canRepeat_sample :
    (Dispatcher.threadPool ThreadPool.sampleConfig).RunsOk ThreadPool.sampleLog
      [ThreadPool.sampleLog] := by
  have hfresh : ∀ j ∈ [ThreadPool.sampleLog, ThreadPool.sampleLog], j.Fresh := by
    intro j hj
    obtain rfl : j = ThreadPool.sampleLog := by simpa using hj
    exact ⟨rfl, by decide⟩
  exact (runsOk_iff_canRepeat (.threadPool ThreadPool.sampleConfig) ThreadPool.sampleLog
    [ThreadPool.sampleLog] hfresh).mpr fun _ _ => ⟨fun _ => by decide, fun _ => by decide⟩

namespace ThreadPerConnection

/-- One statement on one connection. -/
def singleLog : QueryLogEntries where
  entries := [⟨⟨0, bytes "# User@Host: a\nselect 1;\n", []⟩, 7, epoch⟩]
  lastQueryOfConn := ∅
  numEntries := 1
  numQueries := 1

/-- The second run finds the pointer of the first one and pushes to the deleted worker. -/
theorem second_run_crashes :
    ∃ p, ReflTransGen (Repeat (Step 1) State.dispatch (·.pc = .returned))
      ⟨start singleLog, singleLog, [singleLog]⟩ p ∧ p.state.pc = .crashed :=
  ⟨_, .head (.inside (.popNew rfl rfl rfl)) <|
    .head (.inside (.spawnCreate rfl (by decide))) <|
    .head (.inside (.push rfl rfl rfl rfl (by decide))) <|
    .head (.inside (.worker ⟨0, _, _, rfl, rfl, rfl⟩)) <|
    .head (.inside (.worker ⟨0, _, _, rfl, rfl, rfl⟩)) <|
    .head (.inside (.worker ⟨0, _, _, rfl, rfl, rfl⟩)) <|
    .head (.inside (.popNone rfl rfl (.refl _))) <|
    .head (.inside (.join rfl rfl rfl rfl rfl)) <|
    .head (.inside (.joinEnd rfl)) <|
    .head (.next rfl rfl) <|
    .head (.inside (.popKnown rfl rfl rfl)) <|
    .head (.inside (.pushCrash rfl fun i w hptr hget => by
      obtain rfl : 0 = i := Option.some.inj hptr
      exact (Option.some.inj hget) ▸ rfl)) .refl, rfl⟩

end ThreadPerConnection

/-- Thread-per-connection playback cannot repeat a run that has an entry. -/
theorem not_runsOk_threadPerConnection :
    ¬ (Dispatcher.threadPerConnection 1).RunsOk ThreadPerConnection.singleLog
      [ThreadPerConnection.singleLog] := by
  intro hok
  obtain ⟨p, hsteps, hcrashed⟩ := ThreadPerConnection.second_run_crashes
  exact (hok p hsteps).1.not_crashed hcrashed

end QueryPlayback
