import QueryPlayback.Dispatch.ThreadPerConnection.Safety

/-!
# The thread cap and when dispatch gets stuck

A worker can only be reaped once the last entry of its connection has been
popped. So a new worker finds room exactly when few enough connections have
entries on both sides of the new connection's first entry.
-/

namespace QueryPlayback.ThreadPerConnection

open QueryEntry QueryEntries Interleaving Relation

/-- The ids with entries both before and after a position, other than the id there. -/
def straddling (pre : List UInt64) (id : UInt64) (post : List UInt64) : Finset UInt64 :=
  (pre.toFinset ∩ post.toFinset).erase id

/-- Where an id occurs for the first time, at most 10000 other ids straddle. -/
def Unstuck (ids : List UInt64) : Prop :=
  ∀ pre id post, ids = pre ++ id :: post → id ∉ pre → (straddling pre id post).card ≤ 10000

/-- The first occurrence of an id is at one place only. -/
theorem firstOccurrence_unique {ids pre post pre' post' : List UInt64} {id : UInt64}
    (h : ids = pre ++ id :: post) (h' : ids = pre' ++ id :: post') (hpre : id ∉ pre)
    (hpre' : id ∉ pre') : pre = pre' ∧ post = post' := by
  subst h
  induction pre generalizing pre' with
  | nil =>
      cases pre' with
      | nil => simpa using h'
      | cons x xs =>
          obtain ⟨rfl, -⟩ : id = x ∧ _ := by simpa using h'
          exact absurd List.mem_cons_self hpre'
  | cons x xs ih =>
      cases pre' with
      | nil =>
          obtain ⟨rfl, -⟩ : x = id ∧ _ := by simpa using h'
          exact absurd List.mem_cons_self hpre
      | cons y ys =>
          obtain ⟨rfl, htail⟩ : x = y ∧ xs ++ id :: post = ys ++ id :: post' := by simpa using h'
          obtain ⟨rfl, rfl⟩ := ih (fun hx => hpre (List.mem_cons_of_mem _ hx))
            (fun hx => hpre' (List.mem_cons_of_mem _ hx)) htail
          exact ⟨rfl, rfl⟩

variable {σ ε : Type} [QueryEntry ε] [QueryEntries σ ε]
variable {all : List ε} {depth : Nat} {s s' : State σ ε}

section Steps

/-- Every worker has been created for an entry that had been popped. -/
def Wanted (s : State σ ε) : Prop :=
  ∀ w ∈ s.workers, w.threadId ∈ s.popped.map getThreadId

/-- The ids of the workers never change, and new ones belong to the entry in hand. -/
theorem Step.workers_spec (h : Step depth s s') :
    (∀ w' ∈ s'.workers, ∃ w ∈ s.workers, w.threadId = w'.threadId) ∨
      ∃ e, s.pc = .spawn e ∧ s.numRunning ≤ maxRunning ∧ s'.popped = s.popped ∧
        ∀ w' ∈ s'.workers, w'.threadId = getThreadId e ∨
          ∃ w ∈ s.workers, w.threadId = w'.threadId := by
  cases h with
  | @worker workers hstep =>
      left
      intro w' hw'
      obtain ⟨w, hw, rfl | hww⟩ := hstep.mem hw'
      · exact ⟨w, hw, rfl⟩
      · exact ⟨w, hw, hww.threadId_eq.symm⟩
  | @spawnCreate e hpc hrunning =>
      refine Or.inr ⟨e, hpc, hrunning, by simp [State.popped, State.inHand, hpc], ?_⟩
      intro w' hw'
      rcases List.mem_append.mp hw' with hw' | hw'
      · exact Or.inr ⟨w', hw', rfl⟩
      · obtain rfl : w' = Worker.start (getThreadId e) := by simpa using hw'
        exact Or.inl rfl
  | @push e i w hpc hslot hget hlive hroom =>
      left
      intro w' hw'
      rcases List.mem_or_eq_of_mem_set hw' with hw' | rfl
      · exact ⟨w', hw', rfl⟩
      · exact ⟨w, List.mem_of_getElem? hget, rfl⟩
  | @join id todo i w hpc hslot hget hlive hret =>
      left
      intro w' hw'
      rcases List.mem_or_eq_of_mem_set hw' with hw' | rfl
      · exact ⟨w', hw', rfl⟩
      · exact ⟨w, List.mem_of_getElem? hget, rfl⟩
  | _ => exact Or.inl fun w' hw' => ⟨w', hw', rfl⟩

/-- Popping goes on and never takes an entry back. -/
theorem Step.popped_prefix (h : Step depth s s') (hcrash : s'.pc ≠ .crashed) :
    s.popped <+: s'.popped := by
  cases h with
  | worker _ => exact List.prefix_rfl
  | reapCrash => exact absurd rfl hcrash
  | pushCrash => exact absurd rfl hcrash
  | joinCrash => exact absurd rfl hcrash
  | popNone hpc => simp [State.popped, State.inHand, hpc]
  | popKnown hpc => simp [State.popped, State.inHand, hpc]
  | popNew hpc => simp [State.popped, State.inHand, hpc]
  | spawnWait hpc => simp [State.popped, State.inHand, hpc]
  | spawnCreate hpc => simp [State.popped, State.inHand, hpc]
  | reapSkip hpc => simp [State.popped, State.inHand, hpc]
  | reapErase hpc => simp [State.popped, State.inHand, hpc]
  | reapEnd hpc => simp [State.popped, State.inHand, hpc]
  | push hpc => simp [State.popped, State.inHand, hpc]
  | join hpc => simp [State.popped, State.inHand, hpc]
  | joinEnd hpc => simp [State.popped, State.inHand, hpc]

theorem Wanted.step (hmarked : LastMarked all) (hi : Inv all s) (h : Wanted s)
    (hstep : Step depth s s') : Wanted s' := by
  have hpopped := hstep.popped_prefix (hi.step hmarked hstep).not_crashed
  intro w' hw'
  rcases hstep.workers_spec with hold | ⟨e, hpc, -, hsame, hnew⟩
  · obtain ⟨w, hw, hid⟩ := hold w' hw'
    exact hid ▸ (hpopped.map getThreadId).subset (h w hw)
  · rcases hnew w' hw' with hid | ⟨w, hw, hid⟩
    · rw [hid, hsame]
      simp [State.popped, State.inHand, hpc]
    · exact hid ▸ (hpopped.map getThreadId).subset (h w hw)

theorem Wanted.reaches (hmarked : LastMarked all) (hi : Inv all s) (h : Wanted s)
    (hsteps : Reaches depth s s') : Wanted s' :=
  (invariant_of_steps (P := fun s => Inv all s ∧ Wanted s)
    (fun _ _ h hstep => ⟨h.1.step hmarked hstep, h.2.step hmarked h.1 hstep⟩) hsteps ⟨hi, h⟩).2

end Steps

section Room

/-- A connection with delivered entries and entries to come has a running worker. -/
theorem Inv.running_of_pending (hmarked : LastMarked all) (h : Inv all s) {pending : List ε}
    (hall : s.delivered ++ pending = all) {id : UInt64} (hpre : id ∈ s.delivered.map getThreadId)
    (hpost : id ∈ pending.map getThreadId) : id ∈ running s.executors := by
  subst hall
  obtain ⟨e, he, rfl⟩ := List.mem_map.mp hpre
  obtain ⟨w, hw, hid⟩ := h.workers.owned e he
  obtain ⟨i, hget⟩ := List.mem_iff_getElem?.mp hw
  rcases h.table.kept i w hget with hptr | hret
  · exact mem_running.mpr ⟨i, hid ▸ hptr⟩
  · have hnone := (h.workers.returned_spec hmarked hw hret).2
    rw [hid] at hnone
    exact absurd hpost (ofThread_eq_nil_iff.mp hnone)

/-- In front of a creation the entry in hand is the first one of its connection. -/
theorem Inv.spawning_split (h : Inv all s) {e : ε} (hs : s.Spawning e) (hhand : s.inHand = [e]) :
    ∃ rest, Drains s.queryEntries rest ∧ s.delivered ++ e :: rest = all ∧
      getThreadId e ∉ s.delivered.map getThreadId := by
  obtain ⟨rest, hdrain, hall⟩ := h.split
  refine ⟨rest, hdrain, by simpa [State.popped, hhand] using hall, ?_⟩
  intro hmem
  obtain ⟨x, hx, hid⟩ := List.mem_map.mp hmem
  obtain ⟨w, hw, hw'⟩ := h.workers.owned x hx
  exact hs.new w hw (hw'.trans hid)

/-- Around the first entry of every connection that has a worker there was room. -/
def Admitted (all : List ε) (s : State σ ε) : Prop :=
  ∀ w ∈ s.workers, ∀ pre post, all.map getThreadId = pre ++ w.threadId :: post →
    w.threadId ∉ pre → (straddling pre w.threadId post).card ≤ 10000

theorem Admitted.step (hmarked : LastMarked all) (hi : Inv all s) (h : Admitted all s)
    (hstep : Step depth s s') : Admitted all s' := by
  intro w' hw' pre post hsplit hfirst
  rcases hstep.workers_spec with hold | ⟨e, hpc, hrunning, -, hnew⟩
  · obtain ⟨w, hw, hid⟩ := hold w' hw'
    rw [← hid] at hsplit hfirst ⊢
    exact h w hw pre post hsplit hfirst
  · rcases hnew w' hw' with hid | ⟨w, hw, hid⟩
    · rw [hid] at hsplit hfirst ⊢
      obtain ⟨rest, -, hall, hdelivered⟩ :=
        hi.spawning_split (hi.at_pc hpc) (by simp [State.inHand, hpc])
      have hsplit' : all.map getThreadId =
          s.delivered.map getThreadId ++ getThreadId e :: rest.map getThreadId := by
        rw [← hall, List.map_append, List.map_cons]
      obtain ⟨rfl, rfl⟩ := firstOccurrence_unique hsplit hsplit' hfirst hdelivered
      -- All straddling connections still have a running worker.
      have hsub : straddling (s.delivered.map getThreadId) (getThreadId e)
          (rest.map getThreadId) ⊆ running s.executors := by
        intro id hid
        obtain ⟨-, hmem⟩ := Finset.mem_erase.mp hid
        obtain ⟨hpre, hpost⟩ := Finset.mem_inter.mp hmem
        exact hi.running_of_pending hmarked hall (List.mem_toFinset.mp hpre)
          (by simpa using Or.inr (List.mem_toFinset.mp hpost))
      have hcard := Finset.card_le_card hsub
      have hnum := hi.table.numRunning_eq
      rw [maxRunning] at hrunning
      omega
    · rw [← hid] at hsplit hfirst ⊢
      exact h w hw pre post hsplit hfirst

theorem Admitted.reaches (hmarked : LastMarked all) (hi : Inv all s) (h : Admitted all s)
    (hsteps : Reaches depth s s') : Admitted all s' :=
  (invariant_of_steps (P := fun s => Inv all s ∧ Admitted all s)
    (fun _ _ h hstep => ⟨h.1.step hmarked hstep, h.2.step hmarked h.1 hstep⟩) hsteps ⟨hi, h⟩).2

omit [QueryEntries σ ε] in
/-- Once all connections have got their workers, there was room for each of them. -/
theorem Admitted.unstuck (h : Admitted all s)
    (howned : ∀ e ∈ all, ∃ w ∈ s.workers, w.threadId = getThreadId e) :
    Unstuck (all.map getThreadId) := by
  intro pre id post hsplit hfirst
  have hmem : id ∈ all.map getThreadId := by simp [hsplit]
  obtain ⟨e, he, rfl⟩ := List.mem_map.mp hmem
  obtain ⟨w, hw, hid⟩ := howned e he
  rw [← hid] at hsplit hfirst ⊢
  exact h w hw pre post hsplit hfirst

end Room

section Progress

/-- All workers can come to rest while the dispatcher waits. -/
theorem exists_rest (depth : Nat) (s : State σ ε) :
    ∃ workers, Reaches depth s { s with workers := workers } ∧
      ∀ w ∈ workers, w.step = none := by
  obtain ⟨workers, hsteps, hrest⟩ :=
    componentSteps_of_forall (l := s.workers) fun w _ => w.exists_rest
  refine ⟨workers, ?_, hrest⟩
  clear hrest
  induction hsteps with
  | refl => exact .refl
  | tail _ hstep ih => exact ih.tail (.worker hstep)

/-- Joining ends, since all workers have returned once they are at rest. -/
theorem join_reaches_returned (hmarked : LastMarked all) {todo : List UInt64} (hi : Inv all s)
    (hw : Wanted s) (hpc : s.pc = .join todo) :
    ∃ s', Reaches depth s s' ∧ s'.pc = .returned := by
  obtain ⟨workers, hsteps, hrest⟩ := exists_rest depth s
  suffices hjoin : ∀ todo (s : State σ ε), Inv all s → (∀ w ∈ s.workers, w.pc = .returned) →
      s.pc = .join todo → ∃ s', Reaches depth s s' ∧ s'.pc = .returned by
    have hi' : Inv all { s with workers := workers } := hi.reaches hmarked hsteps
    have hw' : Wanted { s with workers := workers } := hw.reaches hmarked hi hsteps
    obtain ⟨hdelivered, -⟩ : s.delivered = all ∧ s.Joining todo := hi.at_pc hpc
    have hreturned : ∀ w ∈ workers, w.pc = .returned := by
      intro w hw
      have hmem := hw' w hw
      simp only [State.popped, State.inHand, hpc, List.append_nil] at hmem
      have hmarked' : LastMarked (s.delivered ++ []) := by rwa [List.append_nil, hdelivered]
      exact hi'.workers.returned_of_rest hmarked' hw (hrest w hw) rfl
        fun hnone => ofThread_eq_nil_iff.mp hnone hmem
    obtain ⟨s', hsteps', hret⟩ := hjoin todo _ hi' hreturned hpc
    exact ⟨s', hsteps.trans hsteps', hret⟩
  intro todo
  induction todo with
  | nil =>
      intro s _ _ hpc
      exact ⟨_, .single (.joinEnd hpc), rfl⟩
  | cons id todo ih =>
      intro s hi hreturned hpc
      obtain ⟨-, hj⟩ : s.delivered = all ∧ s.Joining (id :: todo) := hi.at_pc hpc
      obtain ⟨i, hptr⟩ := hj.pointers id List.mem_cons_self
      obtain ⟨w, hget, hid⟩ := hi.table.slot id i hptr
      have hmem := List.mem_of_getElem? hget
      have hlive : w.destroyed = false := by
        rw [← Bool.not_eq_true, hj.destroyed i w hget]
        simp [hid]
      have hstep : Step depth s _ := .join hpc hptr hget hlive (hreturned w hmem)
      have hreturned' : ∀ w' ∈ s.workers.set i w.destroy, w'.pc = .returned := by
        intro w' hw'
        rcases List.mem_or_eq_of_mem_set hw' with hw' | rfl
        · exact hreturned w' hw'
        · exact hreturned w hmem
      obtain ⟨s', hsteps, hret⟩ := ih _ (hi.step hmarked hstep) hreturned' rfl
      exact ⟨s', .head hstep hsteps, hret⟩

/-- One pass of `finish_some_and_go` erases every worker that has returned. -/
theorem reap_reaches_spawn (depth : Nat) (hmarked : LastMarked all) {e : ε} {todo : List UInt64}
    (hi : Inv all s) (hpc : s.pc = .reap e todo) :
    ∃ s', Reaches depth s s' ∧ s'.pc = .spawn e ∧ s'.queryEntries = s.queryEntries ∧
      s'.workers = s.workers ∧
      ∀ id i, pointer s'.executors id = some i → pointer s.executors id = some i ∧
        (id ∈ todo → ∀ w, s.workers[i]? = some w → w.pc ≠ .returned) := by
  induction todo generalizing s with
  | nil => exact ⟨_, .single (.reapEnd hpc), rfl, rfl, rfl, fun id i hptr => ⟨hptr, by simp⟩⟩
  | cons id todo ih =>
      have hs : s.Spawning e := hi.at_pc hpc
      by_cases hdone : ∃ i w, pointer s.executors id = some i ∧ s.workers[i]? = some w ∧
          w.pc = .returned
      · obtain ⟨i, w, hptr, hget, hret⟩ := hdone
        have hstep : Step depth s _ :=
          .reapErase hpc hptr hget (hs.undeleted w (List.mem_of_getElem? hget)) hret
        obtain ⟨s', hsteps, hpc', hq, hworkers, hkept⟩ := ih (hi.step hmarked hstep) rfl
        refine ⟨s', .head hstep hsteps, hpc', hq, hworkers, fun id' j hptr' => ?_⟩
        obtain ⟨herased, hrun⟩ := hkept id' j hptr'
        have hne : id' ≠ id := by
          rintro rfl
          simp at herased
        rw [pointer_erase_of_ne hne] at herased
        exact ⟨herased, fun hmem => hrun ((List.mem_cons.mp hmem).resolve_left hne)⟩
      · have hstep : Step depth s _ := .reapSkip hpc
          fun i w _ hget => hs.undeleted w (List.mem_of_getElem? hget)
        obtain ⟨s', hsteps, hpc', hq, hworkers, hkept⟩ := ih (hi.step hmarked hstep) rfl
        refine ⟨s', .head hstep hsteps, hpc', hq, hworkers, fun id' j hptr' => ?_⟩
        obtain ⟨hptr, hrun⟩ := hkept id' j hptr'
        refine ⟨hptr, fun hmem => ?_⟩
        rcases List.mem_cons.mp hmem with rfl | hmem
        · exact fun w hget hret => hdone ⟨j, w, hptr, hget, hret⟩
        · exact hrun hmem

/-- The creation of a worker finds room once the others have been given time. -/
theorem spawn_reaches_push (depth : Nat) (hmarked : LastMarked all)
    (hunstuck : Unstuck (all.map getThreadId)) {e : ε} (hi : Inv all s) (hw : Wanted s)
    (hpc : s.pc = .spawn e) :
    ∃ s', Reaches depth s s' ∧ s'.pc = .push e ∧ s'.queryEntries = s.queryEntries := by
  by_cases hroom : s.numRunning ≤ maxRunning
  · exact ⟨_, .single (.spawnCreate hpc hroom), rfl, rfl⟩
  · obtain ⟨workers, hrestSteps, hrest⟩ := exists_rest depth s
    have hi₁ : Inv all { s with workers := workers } := hi.reaches hmarked hrestSteps
    have hw₁ : Wanted { s with workers := workers } := hw.reaches hmarked hi hrestSteps
    have hwait : Step depth { s with workers := workers }
        { s with workers := workers, pc := .reap e s.executors.keys } :=
      .spawnWait hpc (not_le.mp hroom) (.refl _)
    have hi₂ := hi₁.step hmarked hwait
    obtain ⟨s₃, hreap, hpc₃, hq₃, hworkers₃, hkept⟩ :=
      reap_reaches_spawn depth hmarked hi₂ rfl
    have hi₃ := hi₂.reaches hmarked hreap
    obtain ⟨rest, -, hall, hfirst⟩ :=
      hi₁.spawning_split (hi₁.at_pc hpc) (by simp [State.inHand, hpc])
    -- The workers left in the table belong to straddling connections.
    have hsub : running s₃.executors ⊆ straddling (s.delivered.map getThreadId) (getThreadId e)
        (rest.map getThreadId) := by
      intro id hid
      obtain ⟨i, hptr₃⟩ := mem_running.mp hid
      obtain ⟨hptr, hrun⟩ := hkept id i hptr₃
      obtain ⟨w, hget, rfl⟩ := hi₁.table.slot id i hptr
      have hmem := List.mem_of_getElem? hget
      have hne : w.threadId ≠ getThreadId e := by
        have hs : State.Spawning { s with workers := workers } e := hi₁.at_pc hpc
        exact hs.new w hmem
      have hdelivered : w.threadId ∈ s.delivered.map getThreadId := by
        have hpopped := hw₁ w hmem
        simpa [State.popped, State.inHand, hpc, hne] using hpopped
      have hpending : w.threadId ∈ rest.map getThreadId := by
        by_contra hnone
        have hmarked' : LastMarked (s.delivered ++ e :: rest) := by rwa [hall]
        have hret := hi₁.workers.returned_of_rest hmarked' hmem
          (hrest w hmem) (ofThread_eq_nil_iff.mpr (by simpa [hne] using hnone))
          (fun hnil => ofThread_eq_nil_iff.mp hnil hdelivered)
        exact hrun (mem_keys_of_pointer hptr) w hget hret
      exact Finset.mem_erase.mpr ⟨hne, Finset.mem_inter.mpr
        ⟨List.mem_toFinset.mpr hdelivered, List.mem_toFinset.mpr hpending⟩⟩
    have hcard := hunstuck _ _ _
      (show all.map getThreadId = s.delivered.map getThreadId ++ getThreadId e ::
        rest.map getThreadId by rw [← hall, List.map_append, List.map_cons]) hfirst
    have hroom₃ : s₃.numRunning ≤ maxRunning := by
      have hle := (Finset.card_le_card hsub).trans hcard
      rw [hi₃.table.numRunning_eq, maxRunning]
      omega
    refine ⟨_, (hrestSteps.tail hwait).trans (hreap.tail (.spawnCreate hpc₃ hroom₃)), rfl, ?_⟩
    exact hq₃

/-- A push goes through once the worker has made room in its queue. -/
theorem push_reaches_pop (hmarked : LastMarked all) (hdepth : 0 < depth) {e : ε}
    (hi : Inv all s) (hpc : s.pc = .push e) :
    ∃ s', Reaches depth s s' ∧ s'.pc = .pop ∧ s'.queryEntries = s.queryEntries := by
  obtain ⟨workers, hsteps, hrest⟩ := exists_rest depth s
  have hi' : Inv all { s with workers := workers } := hi.reaches hmarked hsteps
  obtain ⟨i, w, hptr, hget, -, hrun, hlive⟩ := hi'.push_target hmarked hpc
  obtain ⟨-, hqueue⟩ := (Worker.step_eq_none_iff.mp
    (hrest w (List.mem_of_getElem? hget))).resolve_left hrun
  exact ⟨_, hsteps.tail (.push hpc hptr hget hlive (by simpa [hqueue] using hdepth)), rfl, rfl⟩

/-- From the head of the loop the rest of the entries can be dispatched. -/
theorem pop_reaches_returned (hmarked : LastMarked all)
    (hunstuck : Unstuck (all.map getThreadId)) (hdepth : 0 < depth) {rest : List ε}
    (hi : Inv all s) (hw : Wanted s) (hpc : s.pc = .pop) (hdrain : Drains s.queryEntries rest) :
    ∃ s', Reaches depth s s' ∧ s'.pc = .returned := by
  induction rest generalizing s with
  | nil =>
      cases hdrain with
      | done hpop =>
          have hstep : Step depth s _ := .popNone hpc hpop (.refl _)
          obtain ⟨s', hsteps, hret⟩ := join_reaches_returned hmarked (hi.step hmarked hstep)
            (hw.step hmarked hi hstep) rfl
          exact ⟨s', .head hstep hsteps, hret⟩
  | cons e rest ih =>
      cases hdrain with
      | @pop _ q _ _ hpop hdrain =>
          obtain ⟨s₁, hsteps₁, hpc₁, hq₁⟩ : ∃ s₁, Reaches depth s s₁ ∧ s₁.pc = .push e ∧
              s₁.queryEntries = q := by
            cases hslot : pointer s.executors (getThreadId e) with
            | some i => exact ⟨_, .single (.popKnown hpc hpop hslot), rfl, rfl⟩
            | none =>
                have hstep : Step depth s _ := .popNew hpc hpop hslot
                obtain ⟨s₁, hsteps, hpc₁, hq₁⟩ := spawn_reaches_push depth hmarked hunstuck
                  (hi.step hmarked hstep) (hw.step hmarked hi hstep) rfl
                exact ⟨s₁, .head hstep hsteps, hpc₁, hq₁⟩
          obtain ⟨s₂, hsteps₂, hpc₂, hq₂⟩ :=
            push_reaches_pop hmarked hdepth (hi.reaches hmarked hsteps₁) hpc₁
          have hsteps := hsteps₁.trans hsteps₂
          obtain ⟨s', hsteps', hret⟩ := ih (hi.reaches hmarked hsteps)
            (hw.reaches hmarked hi hsteps) hpc₂ (by rwa [hq₂, hq₁])
          exact ⟨s', hsteps.trans hsteps', hret⟩

/-- Every state of a run can be continued to the end. -/
theorem reaches_returned (hmarked : LastMarked all) (hunstuck : Unstuck (all.map getThreadId))
    (hdepth : 0 < depth) (hi : Inv all s) (hw : Wanted s) :
    ∃ s', Reaches depth s s' ∧ s'.pc = .returned := by
  have hpop : ∀ s : State σ ε, Inv all s → Wanted s → s.pc = .pop →
      ∃ s', Reaches depth s s' ∧ s'.pc = .returned := by
    intro s hi hw hpc
    obtain ⟨rest, hdrain, -⟩ := hi.split
    exact pop_reaches_returned hmarked hunstuck hdepth hi hw hpc hdrain
  have hpush : ∀ (s : State σ ε) e, Inv all s → Wanted s → s.pc = .push e →
      ∃ s', Reaches depth s s' ∧ s'.pc = .returned := by
    intro s e hi hw hpc
    obtain ⟨s₁, hsteps, hpc₁, -⟩ := push_reaches_pop hmarked hdepth hi hpc
    obtain ⟨s', hsteps', hret⟩ :=
      hpop s₁ (hi.reaches hmarked hsteps) (hw.reaches hmarked hi hsteps) hpc₁
    exact ⟨s', hsteps.trans hsteps', hret⟩
  have hspawn : ∀ (s : State σ ε) e, Inv all s → Wanted s → s.pc = .spawn e →
      ∃ s', Reaches depth s s' ∧ s'.pc = .returned := by
    intro s e hi hw hpc
    obtain ⟨s₁, hsteps, hpc₁, -⟩ := spawn_reaches_push depth hmarked hunstuck hi hw hpc
    obtain ⟨s', hsteps', hret⟩ :=
      hpush s₁ e (hi.reaches hmarked hsteps) (hw.reaches hmarked hi hsteps) hpc₁
    exact ⟨s', hsteps.trans hsteps', hret⟩
  cases hpc : s.pc with
  | pop => exact hpop s hi hw hpc
  | spawn e => exact hspawn s e hi hw hpc
  | reap e todo =>
      obtain ⟨s₁, hsteps, hpc₁, -⟩ := reap_reaches_spawn depth hmarked hi hpc
      obtain ⟨s', hsteps', hret⟩ :=
        hspawn s₁ e (hi.reaches hmarked hsteps) (hw.reaches hmarked hi hsteps) hpc₁
      exact ⟨s', hsteps.trans hsteps', hret⟩
  | push e => exact hpush s e hi hw hpc
  | join todo => exact join_reaches_returned hmarked hi hw hpc
  | returned => exact ⟨s, .refl, hpc⟩
  | crashed => exact absurd hpc hi.not_crashed

end Progress

/-- `finish_all_and_wait` has returned and every entry has been handled. -/
structure Completed (all : List QueryLogEntry) (s : State QueryLogEntries QueryLogEntry) :
    Prop where
  returned : s.pc = .returned
  owned : ∀ e ∈ all, ∃ w ∈ s.workers, w.threadId = getThreadId e
  processed : ∀ w ∈ s.workers, w.processed = (ofThread w.threadId all).map Worker.handle

/-- The number of running workers is the number of pointers in the table and at
most 10001, and a run over a slow log can always be completed exactly when at
most 10000 other connections straddle the first entry of each connection. -/
theorem cap_and_completion (q : QueryLogEntries) (hq : q.Fresh) (depth : Nat)
    (hdepth : 0 < depth) :
    (∀ s, Reaches depth (start q) s →
        s.numRunning = (running s.executors).card ∧ s.numRunning ≤ 10001) ∧
      ((∀ s, Reaches depth (start q) s → ∃ s', Reaches depth s s' ∧
          Completed q.setShutdownOnLastQueryOfConn.toPop s') ↔
        Unstuck (q.entries.map QueryLogData.getThreadId)) := by
  have hids : q.setShutdownOnLastQueryOfConn.toPop.map getThreadId =
      q.entries.map QueryLogData.getThreadId := by
    have h := congrArg (List.map Prod.snd) (QueryLogEntries.toPop_setShutdown q)
    simpa only [List.map_map, Function.comp_def] using h
  have hmarked := hq.lastMarked
  have hstart : Inv q.setShutdownOnLastQueryOfConn.toPop (start q) :=
    Inv.dispatch (QueryLogEntries.drains_toPop _) rfl rfl
  refine ⟨fun s hs => ?_, fun hcomplete => ?_, fun hunstuck s hs => ?_⟩
  · have hi := inv_of_reaches hq hs
    exact ⟨hi.table.numRunning_eq, hi.table.numRunning_le⟩
  · obtain ⟨s, hs, hdone⟩ := hcomplete (start q) .refl
    have hempty : Admitted q.setShutdownOnLastQueryOfConn.toPop (start q) := by
      intro w hw
      exact absurd hw (by simp [start, State.dispatch, State.init])
    rw [← hids]
    exact (hempty.reaches hmarked hstart hs).unstuck hdone.owned
  · have hi := inv_of_reaches hq hs
    have hempty : Wanted (start q) := by
      intro w hw
      exact absurd hw (by simp [start, State.dispatch, State.init])
    obtain ⟨s', hsteps, hret⟩ := reaches_returned hmarked (hids ▸ hunstuck) hdepth hi
      (hempty.reaches hmarked hstart hs)
    obtain ⟨-, howned, hprocessed⟩ := (hi.reaches hmarked hsteps).complete hmarked hret
    exact ⟨s', hsteps, hret, howned, fun w hw => (hprocessed w hw).2.2⟩

/-- The cap and the completion criterion for the sample log. -/
theorem cap_and_completion_sample :
    (∀ s, Reaches 1 (start sampleLog) s →
        s.numRunning = (running s.executors).card ∧ s.numRunning ≤ 10001) ∧
      ((∀ s, Reaches 1 (start sampleLog) s → ∃ s', Reaches 1 s s' ∧
          Completed sampleLog.setShutdownOnLastQueryOfConn.toPop s') ↔
        Unstuck (sampleLog.entries.map QueryLogData.getThreadId)) :=
  cap_and_completion sampleLog sampleLog_fresh 1 (by decide)

end QueryPlayback.ThreadPerConnection
