import QueryPlayback.Dispatch.ThreadPerConnection.Bookkeeping

/-!
# The invariant of thread-per-connection dispatch

The table, the queues, the shutdown flags and the entries still to come are
tied together in every state of a run. One lemma for each kind of step shows
that the invariant is kept.
-/

namespace QueryPlayback.ThreadPerConnection

open QueryEntry QueryEntries Interleaving Relation

variable {σ ε : Type} [QueryEntry ε]

namespace State

/-- No worker has been deleted. -/
def Undeleted (s : State σ ε) : Prop := ∀ w ∈ s.workers, w.destroyed = false

/-- The ids in the table whose pointer may not be null. -/
def NonNull (s : State σ ε) (ids : UInt64 → Prop) : Prop :=
  ∀ id ∈ s.executors, ids id → ∃ i, pointer s.executors id = some i

/-- The connection of the entry has neither a pointer nor a worker. -/
structure Spawning (s : State σ ε) (e : ε) : Prop where
  null : pointer s.executors (getThreadId e) = none
  new : ∀ w ∈ s.workers, w.threadId ≠ getThreadId e
  nonNull : s.NonNull (· ≠ getThreadId e)
  undeleted : s.Undeleted

/-- The workers of the ids that have been joined are the deleted ones. -/
structure Joining (s : State σ ε) (todo : List UInt64) : Prop where
  nodup : todo.Nodup
  pointers : ∀ id ∈ todo, ∃ i, pointer s.executors id = some i
  destroyed : ∀ i w, s.workers[i]? = some w →
    (w.destroyed = true ↔ pointer s.executors w.threadId = some i ∧ w.threadId ∉ todo)

/-- What holds at each place of the code. -/
def PcOk (all : List ε) (s : State σ ε) (pc : Pc ε) : Prop :=
  match pc with
  | .pop => s.Undeleted ∧ s.NonNull fun _ => True
  | .spawn e => s.Spawning e
  | .reap e _ => s.Spawning e
  | .push e => s.Undeleted ∧ (s.NonNull fun _ => True) ∧
      ∃ i, pointer s.executors (getThreadId e) = some i
  | .join todo => s.delivered = all ∧ s.Joining todo
  | .returned => s.delivered = all ∧ ∀ w ∈ s.workers, w.pc = .returned
  | .crashed => False

end State

variable [QueryEntries σ ε]

/-- The invariant of a run that dispatches the entries `all`. -/
structure Inv (all : List ε) (s : State σ ε) : Prop where
  split : ∃ rest, Drains s.queryEntries rest ∧ s.popped ++ rest = all
  workers : WorkersOk s.delivered s.workers
  table : TableOk s.executors s.numRunning s.workers
  atPc : s.PcOk all s.pc

namespace Inv

variable {all : List ε} {s s' : State σ ε} {depth : Nat}

/-- What the invariant says at the current place of the code. -/
theorem at_pc (h : Inv all s) {pc : Pc ε} (hpc : s.pc = pc) : s.PcOk all pc := hpc ▸ h.atPc

/-- Steps that pop nothing keep the popped entries and those still to come. -/
theorem split_keep (h : Inv all s) (hpopped : s'.popped = s.popped)
    (hqueue : s'.queryEntries = s.queryEntries) :
    ∃ rest, Drains s'.queryEntries rest ∧ s'.popped ++ rest = all := by
  rw [hpopped, hqueue]
  exact h.split

/-- A popped entry is the first of those still to come. -/
theorem split_pop (h : Inv all s) {e : ε} {q : σ} (hpop : popEntry s.queryEntries = some (e, q))
    (hpopped : s'.popped = s.popped ++ [e]) (hqueue : s'.queryEntries = q) :
    ∃ rest, Drains s'.queryEntries rest ∧ s'.popped ++ rest = all := by
  obtain ⟨rest, hdrain, hall⟩ := h.split
  obtain ⟨rest, rfl, hdrain'⟩ := hdrain.eq_cons hpop
  refine ⟨rest, hqueue ▸ hdrain', ?_⟩
  rw [hpopped, List.append_assoc]
  exact hall

/-- The entry a connection without a pointer gets first has no worker yet. -/
theorem no_worker (hmarked : LastMarked all) (h : Inv all s) (hpc : s.pc = .pop) {e : ε} {q : σ}
    (hpop : popEntry s.queryEntries = some (e, q))
    (hslot : pointer s.executors (getThreadId e) = none) :
    ∀ w ∈ s.workers, w.threadId ≠ getThreadId e := by
  intro w hw hid
  obtain ⟨rest, hdrain, hall⟩ := h.split
  obtain ⟨rest, rfl, -⟩ := hdrain.eq_cons hpop
  obtain ⟨i, hget⟩ := List.mem_iff_getElem?.mp hw
  rcases h.table.kept i w hget with hptr | hret
  · rw [hid, hslot] at hptr
    exact absurd hptr (by simp)
  · have hpopped : s.popped = s.delivered := by simp [State.popped, State.inHand, hpc]
    rw [hpopped] at hall
    subst hall
    have hnone := (h.workers.returned_spec hmarked hw hret).2
    exact ofThread_eq_nil_iff.mp hnone (by simp [hid])

theorem worker (h : Inv all s) {workers : List (Worker ε)}
    (hstep : ComponentStep Worker.Step s.workers workers) :
    Inv all { s with workers := workers } where
  split := h.split
  workers := h.workers.of_componentStep hstep
  table := h.table.of_componentStep hstep
  atPc := by
    have hundeleted : s.Undeleted → ∀ w ∈ workers, w.destroyed = false := by
      intro hu w' hw'
      obtain ⟨w, hw, rfl | hww⟩ := hstep.mem hw'
      · exact hu w hw
      · rw [hww.destroyed_eq, hu w hw]
    have hspawning : ∀ e, s.Spawning e → State.Spawning { s with workers := workers } e := by
      intro e hs
      refine ⟨hs.null, ?_, hs.nonNull, hundeleted hs.undeleted⟩
      intro w' hw'
      obtain ⟨w, hw, rfl | hww⟩ := hstep.mem hw'
      · exact hs.new w hw
      · rw [hww.threadId_eq]
        exact hs.new w hw
    suffices hkeep : ∀ pc, s.PcOk all pc → State.PcOk all { s with workers := workers } pc from
      hkeep s.pc h.atPc
    intro pc hok
    cases pc with
    | pop => exact ⟨hundeleted hok.1, hok.2⟩
    | spawn e => exact hspawning e hok
    | reap e todo => exact hspawning e hok
    | push e => exact ⟨hundeleted hok.1, hok.2⟩
    | join todo =>
        refine ⟨hok.1, hok.2.nodup, hok.2.pointers, ?_⟩
        intro i w' hget'
        obtain ⟨w, hget, rfl | hww⟩ := hstep.getElem? hget'
        · exact hok.2.destroyed i w hget
        · rw [hww.threadId_eq, hww.destroyed_eq]
          exact hok.2.destroyed i w hget
    | returned =>
        refine ⟨hok.1, ?_⟩
        intro w' hw'
        obtain ⟨w, hw, rfl | hww⟩ := hstep.mem hw'
        · exact hok.2 w hw
        · exact absurd (hok.2 w hw) hww.pc_ne_returned
    | crashed => exact hok

theorem popNone (h : Inv all s) {todo : List UInt64} (hpc : s.pc = .pop)
    (hpop : popEntry s.queryEntries = none) (htodo : todo.Perm s.executors.keys) :
    Inv all { s with pc := .join todo } where
  split := h.split_keep (by simp [State.popped, State.inHand, hpc]) rfl
  workers := h.workers
  table := h.table
  atPc := by
    obtain ⟨hundeleted, hnonNull⟩ : s.Undeleted ∧ s.NonNull fun _ => True := h.at_pc hpc
    obtain ⟨rest, hdrain, hall⟩ := h.split
    obtain rfl := hdrain.eq_nil hpop
    have hdelivered : s.delivered = all := by
      simpa [State.popped, State.inHand, hpc] using hall
    refine ⟨hdelivered, htodo.nodup_iff.mpr s.executors.keys_nodup, ?_, ?_⟩
    · intro id hid
      exact hnonNull id (AList.mem_keys.mpr (htodo.mem_iff.mp hid)) trivial
    · intro i w hget
      rw [hundeleted w (List.mem_of_getElem? hget)]
      refine ⟨fun hf => absurd hf (by simp), fun ⟨hptr, hnot⟩ => ?_⟩
      exact absurd (htodo.mem_iff.mpr (mem_keys_of_pointer hptr)) hnot

theorem popKnown (h : Inv all s) {e : ε} {q : σ} {i : Nat} (hpc : s.pc = .pop)
    (hpop : popEntry s.queryEntries = some (e, q))
    (hslot : pointer s.executors (getThreadId e) = some i) :
    Inv all { s with pc := .push e, queryEntries := q } where
  split := h.split_pop hpop (by simp [State.popped, State.inHand, hpc]) rfl
  workers := h.workers
  table := h.table
  atPc := by
    obtain ⟨hundeleted, hnonNull⟩ : s.Undeleted ∧ s.NonNull fun _ => True := h.at_pc hpc
    exact ⟨hundeleted, hnonNull, i, hslot⟩

theorem popNew (hmarked : LastMarked all) (h : Inv all s) {e : ε} {q : σ} (hpc : s.pc = .pop)
    (hpop : popEntry s.queryEntries = some (e, q))
    (hslot : pointer s.executors (getThreadId e) = none) :
    Inv all
      { s with
        pc := .spawn e
        queryEntries := q
        executors := s.executors.insert (getThreadId e) none } where
  split := h.split_pop hpop (by simp [State.popped, State.inHand, hpc]) rfl
  workers := h.workers
  table := h.table.insert_none hslot
  atPc := by
    obtain ⟨hundeleted, hnonNull⟩ : s.Undeleted ∧ s.NonNull fun _ => True := h.at_pc hpc
    refine ⟨pointer_insert_self none, h.no_worker hmarked hpc hpop hslot, ?_, hundeleted⟩
    intro id hid hne
    obtain ⟨i, hptr⟩ := hnonNull id ((AList.mem_insert _).mp hid |>.resolve_left hne) trivial
    exact ⟨i, (pointer_insert_of_ne hne none).trans hptr⟩

/-- Steps between the tests in front of the creation change nothing else. -/
theorem respawn (h : Inv all s) {e : ε} {pc : Pc ε} (hs : s.Spawning e)
    (hhand : s.inHand = [e]) (hpc : pc = .spawn e ∨ ∃ todo, pc = .reap e todo) :
    Inv all { s with pc := pc } where
  split := by
    obtain ⟨rest, hdrain, hall⟩ := h.split
    rw [State.popped, hhand] at hall
    refine ⟨rest, hdrain, ?_⟩
    obtain rfl | ⟨todo, rfl⟩ := hpc <;> exact hall
  workers := h.workers
  table := h.table
  atPc := by
    obtain rfl | ⟨todo, rfl⟩ := hpc
    · exact ⟨hs.null, hs.new, hs.nonNull, hs.undeleted⟩
    · exact ⟨hs.null, hs.new, hs.nonNull, hs.undeleted⟩

theorem spawnCreate (h : Inv all s) {e : ε} (hpc : s.pc = .spawn e)
    (hrunning : s.numRunning ≤ maxRunning) :
    Inv all
      { s with
        pc := .push e
        executors := s.executors.insert (getThreadId e) (some s.workers.length)
        numRunning := s.numRunning + 1
        workers := s.workers ++ [Worker.start (getThreadId e)] } := by
  have hs : s.Spawning e := h.at_pc hpc
  refine ⟨?_, h.workers.start hs.new, h.table.start hs.null hs.new hrunning, ?_, ?_,
    s.workers.length, pointer_insert_self _⟩
  · exact h.split_keep (by simp [State.popped, State.inHand, hpc]) rfl
  · intro w hw
    rcases List.mem_append.mp hw with hw | hw
    · exact hs.undeleted w hw
    · obtain rfl : w = Worker.start (getThreadId e) := by simpa using hw
      rfl
  · intro id hid _
    by_cases hne : id = getThreadId e
    · exact ⟨s.workers.length, hne ▸ pointer_insert_self _⟩
    · obtain ⟨i, hptr⟩ := hs.nonNull id ((AList.mem_insert _).mp hid |>.resolve_left hne) hne
      exact ⟨i, (pointer_insert_of_ne hne _).trans hptr⟩

theorem reapErase (h : Inv all s) {e : ε} {id : UInt64} {todo : List UInt64} {i : Nat}
    {w : Worker ε} (hpc : s.pc = .reap e (id :: todo)) (hslot : pointer s.executors id = some i)
    (hget : s.workers[i]? = some w) (hret : w.pc = .returned) :
    Inv all
      { s with
        pc := .reap e todo
        executors := s.executors.erase id
        numRunning := s.numRunning - 1 } where
  split := h.split_keep (by simp [State.popped, State.inHand, hpc]) rfl
  workers := h.workers
  table := h.table.erase hslot hget hret
  atPc := by
    have hs : s.Spawning e := h.at_pc hpc
    refine ⟨?_, hs.new, ?_, hs.undeleted⟩
    · by_cases hid : getThreadId e = id
      · rw [hid]
        exact pointer_erase_self
      · rw [pointer_erase_of_ne hid]
        exact hs.null
    · intro id' hmem hne
      obtain ⟨hid, hmem'⟩ := AList.mem_erase.mp hmem
      obtain ⟨j, hptr⟩ := hs.nonNull id' hmem' hne
      exact ⟨j, (pointer_erase_of_ne hid).trans hptr⟩

theorem push (h : Inv all s) {e : ε} {i : Nat} {w : Worker ε} (hpc : s.pc = .push e)
    (hslot : pointer s.executors (getThreadId e) = some i) (hget : s.workers[i]? = some w) :
    Inv all
      { s with
        pc := .pop
        workers := s.workers.set i (w.push e)
        delivered := s.delivered ++ [e] } := by
  obtain ⟨hundeleted, hnonNull, -⟩ : s.Undeleted ∧ (s.NonNull fun _ => True) ∧
      ∃ i, pointer s.executors (getThreadId e) = some i := h.at_pc hpc
  have hid : w.threadId = getThreadId e := by
    obtain ⟨w', hget', hid⟩ := h.table.slot _ i hslot
    rw [hget, Option.some.injEq] at hget'
    rw [hget', hid]
  refine ⟨?_, h.workers.push hget hid, h.table.set hget rfl rfl, ?_, hnonNull⟩
  · exact h.split_keep (by simp [State.popped, State.inHand, hpc]) rfl
  · intro w' hw'
    rcases List.mem_or_eq_of_mem_set hw' with hw' | rfl
    · exact hundeleted w' hw'
    · exact hundeleted w (List.mem_of_getElem? hget)

theorem join (h : Inv all s) {id : UInt64} {todo : List UInt64} {i : Nat} {w : Worker ε}
    (hpc : s.pc = .join (id :: todo)) (hslot : pointer s.executors id = some i)
    (hget : s.workers[i]? = some w) (hret : w.pc = .returned) :
    Inv all { s with pc := .join todo, workers := s.workers.set i w.destroy } := by
  obtain ⟨hdelivered, hj⟩ : s.delivered = all ∧ s.Joining (id :: todo) := h.at_pc hpc
  obtain ⟨hnot, hnodup⟩ := List.nodup_cons.mp hj.nodup
  have hid : w.threadId = id := by
    obtain ⟨w', hget', hid⟩ := h.table.slot _ i hslot
    rw [hget, Option.some.injEq] at hget'
    rw [hget', hid]
  refine ⟨?_, h.workers.destroy hget hret, h.table.set hget rfl rfl, hdelivered, hnodup,
    fun id' hid' => hj.pointers id' (List.mem_cons_of_mem _ hid'), ?_⟩
  · exact h.split_keep (by simp [State.popped, State.inHand, hpc]) rfl
  · intro j v hv
    by_cases hij : i = j
    · subst hij
      rw [List.getElem?_set_self (List.getElem?_eq_some_iff.mp hget).1, Option.some.injEq] at hv
      subst hv
      have hthread : w.destroy.threadId = id := hid
      rw [hthread]
      exact ⟨fun _ => ⟨hslot, hnot⟩, fun _ => rfl⟩
    · rw [List.getElem?_set_ne hij] at hv
      have hne : v.threadId ≠ id := by
        intro hsame
        exact hij (h.workers.index_eq hget hv (hid.trans hsame.symm))
      rw [hj.destroyed j v hv]
      simp [hne]

theorem joinEnd (h : Inv all s) (hpc : s.pc = .join []) : Inv all { s with pc := .returned } where
  split := h.split_keep (by simp [State.popped, State.inHand, hpc]) rfl
  workers := h.workers
  table := h.table
  atPc := by
    obtain ⟨hdelivered, hj⟩ : s.delivered = all ∧ s.Joining [] := h.at_pc hpc
    refine ⟨hdelivered, fun w hw => ?_⟩
    obtain ⟨i, hget⟩ := List.mem_iff_getElem?.mp hw
    rcases h.table.kept i w hget with hptr | hret
    · exact h.workers.joined w hw ((hj.destroyed i w hget).mpr ⟨hptr, by simp⟩)
    · exact hret

/-- Every step keeps the invariant. -/
theorem step (hmarked : LastMarked all) (h : Inv all s) (hstep : Step depth s s') : Inv all s' := by
  cases hstep with
  | worker hworker => exact h.worker hworker
  | popNone hpc hpop htodo => exact h.popNone hpc hpop htodo
  | popKnown hpc hpop hslot => exact h.popKnown hpc hpop hslot
  | popNew hpc hpop hslot => exact h.popNew hmarked hpc hpop hslot
  | spawnWait hpc hrunning htodo =>
      exact h.respawn (h.at_pc hpc) (by simp [State.inHand, hpc]) (Or.inr ⟨_, rfl⟩)
  | spawnCreate hpc hrunning => exact h.spawnCreate hpc hrunning
  | reapSkip hpc hlive =>
      exact h.respawn (h.at_pc hpc) (by simp [State.inHand, hpc]) (Or.inr ⟨_, rfl⟩)
  | reapErase hpc hslot hget hlive hret => exact h.reapErase hpc hslot hget hret
  | @reapCrash e id todo i w hpc hslot hget hdead =>
      have hs : s.Spawning e := h.at_pc hpc
      exact absurd hdead (by simp [hs.undeleted w (List.mem_of_getElem? hget)])
  | reapEnd hpc => exact h.respawn (h.at_pc hpc) (by simp [State.inHand, hpc]) (Or.inl rfl)
  | push hpc hslot hget hlive hroom => exact h.push hpc hslot hget
  | @pushCrash e hpc hdead =>
      obtain ⟨hundeleted, -, i, hptr⟩ : s.Undeleted ∧ (s.NonNull fun _ => True) ∧
          ∃ i, pointer s.executors (getThreadId e) = some i := h.at_pc hpc
      obtain ⟨w, hget, -⟩ := h.table.slot _ i hptr
      exact absurd (hdead i w hptr hget) (by simp [hundeleted w (List.mem_of_getElem? hget)])
  | join hpc hslot hget hlive hret => exact h.join hpc hslot hget hret
  | @joinCrash id todo hpc hdead =>
      obtain ⟨-, hj⟩ : s.delivered = all ∧ s.Joining (id :: todo) := h.at_pc hpc
      obtain ⟨i, hptr⟩ := hj.pointers id List.mem_cons_self
      obtain ⟨w, hget, hid⟩ := h.table.slot _ i hptr
      have hnot := ((hj.destroyed i w hget).mp (hdead i w hptr hget)).2
      exact absurd hnot (by simp [hid])
  | joinEnd hpc => exact h.joinEnd hpc

/-- A run that begins with an empty table and no workers. -/
theorem dispatch {q : σ} (hdrain : Drains (setShutdownOnLastQueryOfConn q) all)
    (hexecutors : s.executors = ∅) (hworkers : s.workers = []) : Inv all (s.dispatch q) := by
  have hnone : ∀ id, pointer (∅ : Executors) id = none := by
    intro id
    rw [pointer, AList.lookup_empty]
    rfl
  refine ⟨⟨all, hdrain, rfl⟩, ?_, ?_, ?_, ?_⟩
  · simp only [State.dispatch, hworkers]
    exact ⟨by simp, by simp, by simp, by simp, by simp⟩
  · simp only [State.dispatch, hworkers, hexecutors]
    refine ⟨?_, by simp, ?_, by simp⟩
    · intro id i hptr
      exact absurd hptr (by simp [hnone])
    · have hempty : running ∅ = ∅ := by
        ext id
        simp [mem_running, hnone]
      rw [hempty]
      rfl
  · simp [State.dispatch, State.Undeleted, hworkers]
  · intro id hid
    simp only [State.dispatch, hexecutors] at hid
    exact absurd hid (AList.notMem_empty id)

/-- Every state of a run satisfies the invariant. -/
theorem reaches (hmarked : LastMarked all) (h : Inv all s) (hsteps : Reaches depth s s') :
    Inv all s' :=
  invariant_of_steps (fun _ _ hi hstep => hi.step hmarked hstep) hsteps h

end Inv

end QueryPlayback.ThreadPerConnection
