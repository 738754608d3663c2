import QueryPlayback.Lib.Updates
import QueryPlayback.Dispatch.Heap
import QueryPlayback.Dispatch.Termination

/-!
# Workers that report what they have executed

Behind every entry that it executes a worker calls the report plugins, and it
goes on with its loop when the calls have returned. The updates of these calls
interleave with the steps of the dispatcher and of the other workers. When the
dispatcher has joined all workers, no call is under way, and the reports are
those of the executed entries.

## Implementation notes

The programs of the report plugins stand in the order of the workers. A worker
whose program is not empty is inside of a call.
-/

namespace QueryPlayback

open QueryEntry Interleaving Updates Bounded Relation

/-- The entry that was executed, if one was. -/
def Handled.executed? {ε : Type} : Handled ε → Option ε
  | .execute e => some e
  | .reconnect _ => none

/-- The entries that were executed. -/
def executed {ε : Type} (handled : List (Handled ε)) : List ε :=
  handled.filterMap Handled.executed?

/-- A dispatcher with its workers, the calls of the report plugins that the execution of an
entry can lead to, and what the plugins do in a call. -/
structure Reporters (D ε C S U : Type) where
  step : D → D → Prop
  workers : D → List (Worker ε)
  call : ε → C → Prop
  updates : C → List U
  perform : U → S → S

/-- The dispatcher, and the report plugins with the rest of the calls under way. -/
structure Reporters.State (D S U : Type) where
  dispatcher : D
  reports : System S U

namespace Reporters

variable {D ε C S U : Type} [QueryEntry ε] (m : Reporters D ε C S U)

/-- One step of a report plugin, of the dispatcher or of a worker that is not inside of a call. -/
inductive Step (s : State D S U) : State D S U → Prop
  | report {reports : System S U} (h : Updates.Step m.perform s.reports reports) :
      Step s { s with reports := reports }
  | dispatch {d : D} (h : m.step s.dispatcher d)
      (hkept : (m.workers d).map Worker.progress =
        (m.workers s.dispatcher).map Worker.progress) :
      Step s { s with dispatcher := d }
  | start {d : D} {id : UInt64} (h : m.step s.dispatcher d)
      (hstart : m.workers d = m.workers s.dispatcher ++ [Worker.start id]) :
      Step s ⟨d, ⟨s.reports.shared, s.reports.programs ++ [[]]⟩⟩
  /-- The worker pops, tests a flag or reconnects. -/
  | worker {d : D} {i : ℕ} {w w' : Worker ε} (h : m.step s.dispatcher d)
      (hget : (m.workers s.dispatcher)[i]? = some w) (hnext : w.step = some w')
      (hset : m.workers d = (m.workers s.dispatcher).set i w')
      (hback : s.reports.programs[i]? = some [])
      (hquit : ∀ e, w.pc = .handle e → isQuit e = true) :
      Step s { s with dispatcher := d }
  /-- The worker has executed an entry and enters the calls. -/
  | execute {d : D} {i : ℕ} {w w' : Worker ε} {e : ε} {c : C} (h : m.step s.dispatcher d)
      (hget : (m.workers s.dispatcher)[i]? = some w) (hnext : w.step = some w')
      (hset : m.workers d = (m.workers s.dispatcher).set i w')
      (hback : s.reports.programs[i]? = some []) (hpc : w.pc = .handle e)
      (hexecute : isQuit e = false) (hcall : m.call e c) :
      Step s ⟨d, ⟨s.reports.shared, s.reports.programs.set i (m.updates c)⟩⟩

variable {m} {s s' : State D S U}

/-- Without the reports it is a step of the dispatcher and its workers, or none. -/
theorem Step.dispatcher (h : m.Step s s') :
    s'.dispatcher = s.dispatcher ∨ m.step s.dispatcher s'.dispatcher := by
  cases h with
  | report _ => exact Or.inl rfl
  | dispatch h _ => exact Or.inr h
  | start h _ => exact Or.inr h
  | worker h _ _ _ _ _ => exact Or.inr h
  | execute h _ _ _ _ _ _ _ => exact Or.inr h

/-- Without the reports it is a run of the dispatcher. -/
theorem reaches_dispatcher (h : ReflTransGen m.Step s s') :
    ReflTransGen m.step s.dispatcher s'.dispatcher := by
  induction h with
  | refl => exact .refl
  | tail _ hlast ih =>
      rcases hlast.dispatcher with hsame | hnext
      · rwa [hsame]
      · exact ih.tail hnext

/-- A worker inside of a call has not tested the flag, and the reports are on their way to
those of the entries executed so far. -/
structure Inv (m : Reporters D ε C S U) (initial : S) (s : State D S U) : Prop where
  busy : ∀ (i : ℕ) (pc : WorkerPc ε) (us : List U),
    ((m.workers s.dispatcher).map Worker.pc)[i]? = some pc →
    s.reports.programs[i]? = some us → us ≠ [] → ∃ e, pc = .test e
  called : ∃ threads : List (List C),
    List.Forall₂ (fun hs cs => List.Forall₂ m.call (executed hs) cs)
      ((m.workers s.dispatcher).map Worker.processed) threads ∧
    Runs m.perform ⟨initial, threads.map (·.flatMap m.updates)⟩ s.reports

section Lists

theorem forall₂_set_modify {α β : Type} {R : α → β → Prop} {l : List α} {l' : List β} {i : ℕ}
    {a a' : α} {f : β → β} (h : List.Forall₂ R l l') (hget : l[i]? = some a)
    (hnext : ∀ b, R a b → R a' (f b)) : List.Forall₂ R (l.set i a') (l'.modify i f) := by
  induction h generalizing i with
  | nil => simp at hget
  | cons hab htail ih =>
      cases i with
      | zero =>
          obtain rfl : _ = a := by simpa using hget
          exact .cons (hnext _ hab) htail
      | succ i => exact .cons hab (ih (by simpa using hget))

theorem getElem?_map_of_eq {α β : Type} (f : α → β) {l : List α} {i : ℕ} {a : α}
    (h : l[i]? = some a) : (l.map f)[i]? = some (f a) := by
  rw [List.getElem?_map, h, Option.map_some]

theorem map_modify {α β : Type} {f : α → β} {g : α → α} {g' : β → β}
    (h : ∀ a, f (g a) = g' (f a)) (l : List α) (i : ℕ) :
    (l.modify i g).map f = (l.map f).modify i g' := by
  apply List.ext_getElem?
  intro j
  rw [List.getElem?_map, List.getElem?_modify, List.getElem?_modify, List.getElem?_map]
  cases l[j]? with
  | none => rfl
  | some a => by_cases hij : i = j <;> simp [hij, h]

omit [QueryEntry ε] in
theorem executed_append (hs hs' : List (Handled ε)) :
    executed (hs ++ hs') = executed hs ++ executed hs' := List.filterMap_append

omit [QueryEntry ε] in
/-- The calls of all workers, one worker behind the other. -/
theorem forall₂_executed_flatten {R : ε → C → Prop} {hss : List (List (Handled ε))}
    {css : List (List C)}
    (h : List.Forall₂ (fun hs cs => List.Forall₂ R (executed hs) cs) hss css) :
    List.Forall₂ R (executed hss.flatten) css.flatten := by
  induction h with
  | nil => exact .nil
  | cons hhead _ ih =>
      rw [List.flatten_cons, executed_append]
      exact List.rel_append hhead ih

end Lists

namespace Inv

variable {initial : S}

omit [QueryEntry ε] in
/-- A step that leaves the workers where they are. -/
theorem keep (h : Inv m initial s) {d : D}
    (hkept : (m.workers d).map Worker.progress =
      (m.workers s.dispatcher).map Worker.progress) :
    Inv m initial { s with dispatcher := d } := by
  have hpcs : (m.workers d).map Worker.pc = (m.workers s.dispatcher).map Worker.pc := by
    have hpcs := congrArg (List.map fun p => p.2.1) hkept
    rwa [List.map_map, List.map_map] at hpcs
  have hprocessed : (m.workers d).map Worker.processed =
      (m.workers s.dispatcher).map Worker.processed := by
    have hprocessed := congrArg (List.map fun p => p.2.2) hkept
    rwa [List.map_map, List.map_map] at hprocessed
  constructor
  · rw [hpcs]
    exact h.busy
  · rw [hprocessed]
    exact h.called

omit [QueryEntry ε] in
/-- An update of a report plugin belongs to a call under way. -/
theorem report (h : Inv m initial s) {reports : System S U}
    (hstep : Updates.Step m.perform s.reports reports) :
    Inv m initial { s with reports := reports } where
  busy i pc us hpc hus hne := by
    obtain ⟨j, u, rest, hget, rfl⟩ := hstep
    by_cases hji : j = i
    · subst hji
      exact h.busy j pc (u :: rest) hpc hget (List.cons_ne_nil u rest)
    · rw [List.getElem?_set_ne hji] at hus
      exact h.busy i pc us hpc hus hne
  called := by
    obtain ⟨threads, hcalls, hruns⟩ := h.called
    exact ⟨threads, hcalls, hruns.tail hstep⟩

omit [QueryEntry ε] in
/-- A worker that has just been created has not called anything. -/
theorem start (h : Inv m initial s) {d : D} {id : UInt64}
    (hstart : m.workers d = m.workers s.dispatcher ++ [Worker.start id]) :
    Inv m initial ⟨d, ⟨s.reports.shared, s.reports.programs ++ [[]]⟩⟩ := by
  obtain ⟨threads, hcalls, hruns⟩ := h.called
  have hlength : s.reports.programs.length = (m.workers s.dispatcher).length := by
    rw [hruns.programs_length, List.length_map, ← hcalls.length_eq, List.length_map]
  constructor
  · intro i pc us hpc hus hne
    dsimp only at hpc hus
    rw [hstart, List.map_append] at hpc
    rcases lt_or_ge i s.reports.programs.length with hi | hi
    · rw [List.getElem?_append_left (by rwa [List.length_map, ← hlength])] at hpc
      rw [List.getElem?_append_left hi] at hus
      exact h.busy i pc us hpc hus hne
    · rw [List.getElem?_append_right hi] at hus
      obtain rfl : us = [] := by
        have hmem := List.mem_of_getElem? hus
        simpa using hmem
      exact absurd rfl hne
  · refine ⟨threads ++ [[]], ?_, ?_⟩
    · rw [hstart, List.map_append]
      exact List.rel_append hcalls (.cons .nil .nil)
    · rw [List.map_append]
      exact hruns.addThread []

/-- A worker that is not inside of a call takes a step without calling anything. -/
theorem worker (h : Inv m initial s) {d : D} {i : ℕ} {w w' : Worker ε}
    (hget : (m.workers s.dispatcher)[i]? = some w) (hnext : w.step = some w')
    (hset : m.workers d = (m.workers s.dispatcher).set i w')
    (hback : s.reports.programs[i]? = some [])
    (hquit : ∀ e, w.pc = .handle e → isQuit e = true) :
    Inv m initial { s with dispatcher := d } where
  busy j pc us hpc hus hne := by
    have hij : i ≠ j := by
      rintro rfl
      rw [hback] at hus
      exact hne (Option.some.inj hus).symm
    dsimp only at hpc
    rw [hset, List.map_set, List.getElem?_set_ne hij] at hpc
    exact h.busy j pc us hpc hus hne
  called := by
    obtain ⟨threads, hcalls, hruns⟩ := h.called
    refine ⟨threads, ?_, hruns⟩
    have hsame : executed w'.processed = executed w.processed := by
      rcases Worker.Step.processed_eq hnext with hsame | ⟨e, hpc, hmore⟩
      · rw [hsame]
      · rw [hmore, executed_append, Worker.handle, if_pos (hquit e hpc)]
        exact List.append_nil _
    have hid : threads.modify i id = threads := List.modify_id ..
    dsimp only
    rw [hset, List.map_set, ← hid]
    refine forall₂_set_modify hcalls (getElem?_map_of_eq _ hget) fun cs hcs => ?_
    rwa [hsame]

/-- A worker that has executed an entry has the calls of that entry before it. -/
theorem execute (h : Inv m initial s) {d : D} {i : ℕ} {w w' : Worker ε} {e : ε} {c : C}
    (hget : (m.workers s.dispatcher)[i]? = some w) (hnext : w.step = some w')
    (hset : m.workers d = (m.workers s.dispatcher).set i w')
    (hback : s.reports.programs[i]? = some []) (hpc : w.pc = .handle e)
    (hexecute : isQuit e = false) (hcall : m.call e c) :
    Inv m initial ⟨d, ⟨s.reports.shared, s.reports.programs.set i (m.updates c)⟩⟩ := by
  obtain ⟨hpc', hprocessed⟩ : w'.pc = .test e ∧ w'.processed = w.processed ++ [.execute e] := by
    rw [Worker.step, hpc, Option.some.injEq] at hnext
    subst hnext
    rw [Worker.handle, hexecute]
    exact ⟨rfl, rfl⟩
  constructor
  · intro j pc us hj hus hne
    dsimp only at hj hus
    rw [hset, List.map_set] at hj
    by_cases hij : i = j
    · subst hij
      rw [List.getElem?_set_self (by simpa using (List.getElem?_eq_some_iff.mp hget).1), hpc',
        Option.some.injEq] at hj
      exact ⟨e, hj.symm⟩
    · rw [List.getElem?_set_ne hij] at hj hus
      exact h.busy j pc us hj hus hne
  · obtain ⟨threads, hcalls, hruns⟩ := h.called
    refine ⟨threads.modify i (· ++ [c]), ?_, ?_⟩
    · dsimp only
      rw [hset, List.map_set]
      refine forall₂_set_modify hcalls (getElem?_map_of_eq _ hget) fun cs hcs => ?_
      rw [hprocessed, executed_append]
      exact List.rel_append hcs (.cons hcall .nil)
    · have hmore := hruns.extend i (m.updates c)
      have hset : s.reports.programs.modify i (· ++ m.updates c) =
          s.reports.programs.set i (m.updates c) := by
        rw [List.modify_eq_set_getElem?, hback]
        rfl
      have hflat : (threads.modify i (· ++ [c])).map (·.flatMap m.updates) =
          (threads.map (·.flatMap m.updates)).modify i (· ++ m.updates c) :=
        map_modify (fun cs => by rw [List.flatMap_append, List.flatMap_singleton]) threads i
      rw [hset] at hmore
      rwa [hflat]

theorem step (h : Inv m initial s) (hstep : m.Step s s') : Inv m initial s' := by
  cases hstep with
  | report hstep => exact h.report hstep
  | dispatch _ hkept => exact h.keep hkept
  | start _ hstart => exact h.start hstart
  | worker _ hget hnext hset hback hquit => exact h.worker hget hnext hset hback hquit
  | execute _ hget hnext hset hback hpc hexecute hcall =>
      exact h.execute hget hnext hset hback hpc hexecute hcall

omit [QueryEntry ε] in
/-- Before the first worker is created nothing has been reported. -/
theorem begin {d : D} (hworkers : m.workers d = []) (initial : S) :
    Inv m initial ⟨d, ⟨initial, []⟩⟩ where
  busy i pc us hpc _ _ := by simp [hworkers] at hpc
  called := ⟨[], by rw [hworkers]; exact .nil, .refl⟩

omit [QueryEntry ε] in
/-- There is a program for every worker. -/
theorem programs_length (h : Inv m initial s) :
    s.reports.programs.length = (m.workers s.dispatcher).length := by
  obtain ⟨threads, hcalls, hruns⟩ := h.called
  rw [hruns.programs_length, List.length_map, ← hcalls.length_eq, List.length_map]

omit [QueryEntry ε] in
/-- When all workers have left their loops, all calls have returned. -/
theorem finished (h : Inv m initial s)
    (hreturned : ∀ w ∈ m.workers s.dispatcher, w.pc = .returned) : s.reports.Finished := by
  intro us hus
  obtain ⟨i, hget⟩ := List.mem_iff_getElem?.mp hus
  obtain ⟨hi, -⟩ := List.getElem?_eq_some_iff.mp hget
  rw [h.programs_length] at hi
  by_contra hne
  obtain ⟨e, he⟩ := h.busy i _ us
    (getElem?_map_of_eq Worker.pc (List.getElem?_eq_getElem hi)) hget hne
  rw [hreturned _ (List.getElem_mem hi)] at he
  cases he

omit [QueryEntry ε] in
/-- When all workers have left their loops, the reports are those of the executed entries. -/
theorem reported (h : Inv m initial s)
    (hreturned : ∀ w ∈ m.workers s.dispatcher, w.pc = .returned) :
    ∃ threads : List (List C),
      List.Forall₂ m.call (executed (handledBy (m.workers s.dispatcher))) threads.flatten ∧
      Runs m.perform ⟨initial, threads.map (·.flatMap m.updates)⟩ s.reports ∧
      s.reports.Finished := by
  obtain ⟨threads, hcalls, hruns⟩ := h.called
  refine ⟨threads, ?_, hruns, h.finished hreturned⟩
  rw [handledBy, List.flatMap_def]
  exact forall₂_executed_flatten hcalls

end Inv

/-- Every state of a run satisfies the invariant. -/
theorem inv_of_reaches {d : D} {initial : S} (hworkers : m.workers d = [])
    (h : ReflTransGen m.Step ⟨d, ⟨initial, []⟩⟩ s) : Inv m initial s :=
  invariant_of_steps (fun _ _ hi hstep => hi.step hstep) h (.begin hworkers initial)

section Termination

variable {initial : S} {InvD : D → Prop} {rank : D → ℕ} {k : ℕ}

/-- The steps that are left at most, with those of the calls that are still to be made. -/
def stepsLeft (rank : D → ℕ) (k : ℕ) (s : State D S U) : ℕ :=
  (k + 1) * rank s.dispatcher + (s.reports.programs.map List.length).sum

omit [QueryEntry ε] in
theorem stepsLeft_lt_of_rank {d : D} {reports : System S U} (hrank : rank d < rank s.dispatcher)
    (hcalls : (reports.programs.map List.length).sum ≤
      (s.reports.programs.map List.length).sum + k) :
    stepsLeft rank k ⟨d, reports⟩ < stepsLeft rank k s := by
  have hpaid := Nat.mul_le_mul_left (k + 1) hrank
  rw [Nat.mul_succ] at hpaid
  unfold stepsLeft
  dsimp only
  omega

/-- A step of the dispatcher pays for the calls of one entry. -/
theorem lowers (h : Lowers m.step InvD rank) (hk : ∀ c, (m.updates c).length ≤ k) :
    Lowers m.Step (fun s => Inv m initial s ∧ InvD s.dispatcher) (stepsLeft rank k) where
  keeps s s' hi hstep := by
    refine ⟨hi.1.step hstep, ?_⟩
    rcases hstep.dispatcher with hsame | hnext
    · rw [hsame]
      exact hi.2
    · exact h.keeps _ _ hi.2 hnext
  lowers s s' hi hstep := by
    cases hstep with
    | report hstep =>
        obtain ⟨i, u, rest, hget, rfl⟩ := hstep
        have hsum := sum_map_set List.length hget rest
        rw [List.length_cons] at hsum
        unfold stepsLeft
        dsimp only
        omega
    | dispatch hnext _ =>
        exact stepsLeft_lt_of_rank (h.lowers _ _ hi.2 hnext) (Nat.le_add_right _ _)
    | start hnext _ =>
        refine stepsLeft_lt_of_rank (h.lowers _ _ hi.2 hnext) ?_
        simp
    | worker hnext _ _ _ _ _ =>
        exact stepsLeft_lt_of_rank (h.lowers _ _ hi.2 hnext) (Nat.le_add_right _ _)
    | @execute d i w w' e c hnext _ _ _ hback _ _ _ =>
        refine stepsLeft_lt_of_rank (h.lowers _ _ hi.2 hnext) ?_
        have hsum := sum_map_set List.length hback (m.updates c)
        have hlength := hk c
        rw [List.length_nil] at hsum
        dsimp only
        omega

/-- When nobody can take a step, no call is under way and the dispatcher cannot go on either. -/
theorem rest (hcall : ∀ e, ∃ c, m.call e c) (h : Inv m initial s)
    (hheap : ∀ d, m.step s.dispatcher d → HeapStep (m.workers s.dispatcher) (m.workers d))
    (hrest : ∀ s', ¬m.Step s s') : s.reports.Finished ∧ ∀ d, ¬m.step s.dispatcher d := by
  have hfinished : s.reports.Finished := by
    intro us hus
    cases us with
    | nil => rfl
    | cons u us =>
        obtain ⟨i, hget⟩ := List.mem_iff_getElem?.mp hus
        exact absurd (.report ⟨i, u, us, hget, rfl⟩) (hrest _)
  have hback : ∀ {i : ℕ} {w : Worker ε}, (m.workers s.dispatcher)[i]? = some w →
      s.reports.programs[i]? = some [] := by
    intro i w hget
    obtain ⟨hi, -⟩ := List.getElem?_eq_some_iff.mp hget
    rw [← h.programs_length] at hi
    rw [List.getElem?_eq_getElem hi, hfinished _ (List.getElem_mem hi)]
  refine ⟨hfinished, fun d hstep => ?_⟩
  have hkind := hheap d hstep
  generalize hd : m.workers d = workers' at hkind
  cases hkind with
  | keep hkept => exact hrest _ (.dispatch hstep (hd ▸ hkept))
  | start id => exact hrest _ (.start hstep hd)
  | worker hworker =>
      obtain ⟨i, w, w', hget, hnext, rfl⟩ := hworker
      by_cases hexecutes : ∃ e, w.pc = .handle e ∧ isQuit e = false
      · obtain ⟨e, hpc, hexecute⟩ := hexecutes
        obtain ⟨c, hc⟩ := hcall e
        exact hrest _ (.execute hstep hget hnext hd (hback hget) hpc hexecute hc)
      · refine hrest _ (.worker hstep hget hnext hd (hback hget) fun e hpc => ?_)
        by_contra hquit
        exact hexecutes ⟨e, hpc, Bool.eq_false_iff.mpr hquit⟩

/-- The run of the dispatcher and all calls of the report plugins come to an end together. -/
theorem terminatesIn (h : Lowers m.step InvD rank) (hk : ∀ c, (m.updates c).length ≤ k)
    (hcall : ∀ e, ∃ c, m.call e c)
    (hheap : ∀ d d', InvD d → m.step d d' → HeapStep (m.workers d) (m.workers d')) {d : D}
    (hd : InvD d) (hworkers : m.workers d = []) {bound : ℕ} (hbound : rank d ≤ bound)
    {Final : D → Prop} (hfinal : ∀ d, InvD d → (∀ d', ¬m.step d d') → Final d) :
    TerminatesIn m.Step ((k + 1) * bound) ⟨d, ⟨initial, []⟩⟩ fun s =>
      Inv m initial s ∧ InvD s.dispatcher ∧ Final s.dispatcher := by
  have hstart : Inv m initial ⟨d, ⟨initial, []⟩⟩ := .begin hworkers initial
  refine (lowers h hk).terminatesIn ⟨hstart, hd⟩ ?_ ?_
  · unfold stepsLeft
    simpa using Nat.mul_le_mul_left (k + 1) hbound
  · intro s hi hrest
    obtain ⟨-, hstuck⟩ := rest hcall hi.1 (fun d' hstep => hheap _ d' hi.2 hstep) hrest
    exact ⟨hi.1, hi.2, hfinal _ hi.2 hstuck⟩

end Termination

end Reporters

end QueryPlayback
