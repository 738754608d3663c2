import QueryPlayback.QueryLog.Data
import QueryPlayback.Lib.Interleaving
import Mathlib.Logic.Function.Basic

/-!
# The replay timeline of the accurate mode

In accurate mode `execute` sleeps until the start time of the entry plus an
offset. The offset is a static variable that the first call fixes for all
workers, so the timeline is anchored at the entry of whichever worker gets
there first.

## Implementation notes

The dispatcher hands out the entries in their order, each to the worker it is
assigned to, through queues of bounded depth. Every reading of the clock is
arbitrary. The list of executed entries and the moment the offset was fixed only
record what happened; no step reads them. Durations are unbounded integers like
the points in time, where the code counts nanoseconds in 64 bits.
-/

namespace QueryPlayback

open Relation Interleaving

/-- `system_clock::duration` in nanoseconds. -/
abbrev Duration := Int

/-- The accurate-mode part of `execute`: `first_query_exec_offset`, which the first call
fixes, and `time_diff`, the time to sleep. -/
def QueryLogData.accurateMode (d : QueryLogData) (firstQueryExecOffset : Option Duration)
    (now now' : TimePoint) : Duration × Duration :=
  let offset := firstQueryExecOffset.getD (now - d.startTime)
  (offset, d.startTime + offset - now')

namespace AccurateMode

/-- The dispatcher, the workers and the static variable. -/
structure Replay (W : Type) where
  toDispatch : List (QueryLogData × W)
  queue : W → List QueryLogData
  current : W → Option QueryLogData
  firstQueryExecOffset : Option Duration
  fixedAt : TimePoint
  executed : List QueryLogData

variable {W : Type}

/-- All entries are still to be dispatched, each to its worker. -/
def start (assigned : List (QueryLogData × W)) : Replay W where
  toDispatch := assigned
  queue _ := []
  current _ := none
  firstQueryExecOffset := none
  fixedAt := epoch
  executed := []

variable [DecidableEq W]

namespace Replay

/-- A worker executes the entry it has popped. -/
def execute (s : Replay W) (w : W) (e : QueryLogData) (now now' : TimePoint) : Replay W :=
  { s with
    current := Function.update s.current w none
    firstQueryExecOffset := some (e.accurateMode s.firstQueryExecOffset now now').1
    fixedAt := if s.firstQueryExecOffset.isNone then now else s.fixedAt
    executed := s.executed ++ [e] }

end Replay

/-- One step of the dispatcher or of a worker. -/
inductive Step (depth : ℕ) : Replay W → Replay W → Prop
  /-- The queue of the worker has room. -/
  | dispatch {s : Replay W} {e : QueryLogData} {w : W} {rest : List (QueryLogData × W)}
      (hnext : s.toDispatch = (e, w) :: rest) (hroom : (s.queue w).length < depth) :
      Step depth s
        { s with toDispatch := rest, queue := Function.update s.queue w (s.queue w ++ [e]) }
  | pop {s : Replay W} {e : QueryLogData} {w : W} {rest : List QueryLogData}
      (hidle : s.current w = none) (hqueue : s.queue w = e :: rest) :
      Step depth s
        { s with
          queue := Function.update s.queue w rest
          current := Function.update s.current w (some e) }
  /-- A quit entry reconnects and is not executed. -/
  | quit {s : Replay W} {e : QueryLogData} {w : W} (hcurrent : s.current w = some e)
      (hquit : e.isQuit = true) :
      Step depth s { s with current := Function.update s.current w none }
  | execute {s : Replay W} {e : QueryLogData} {w : W} (now now' : TimePoint)
      (hcurrent : s.current w = some e) (hquit : e.isQuit = false) :
      Step depth s (s.execute w e now now')

/-- The dispatcher and the workers take some steps in some order. -/
abbrev Runs (depth : ℕ) : Replay W → Replay W → Prop := ReflTransGen (Step depth)

/-- No executed entry was scheduled before the moment the offset was fixed. -/
def InTime (s : Replay W) : Prop :=
  ∀ offset, s.firstQueryExecOffset = some offset →
    ∀ e ∈ s.executed, s.fixedAt ≤ e.startTime + offset

/-- The entry is on its way to its worker or has been popped by it. -/
def Held (s : Replay W) (e : QueryLogData) (w : W) : Prop :=
  (e, w) ∈ s.toDispatch ∨ e ∈ s.queue w ∨ s.current w = some e

section Steps

variable {depth : ℕ} {s s' : Replay W}

/-- A worker that is done with its entry no longer holds it, and nothing else changes. -/
theorem held_release {e' : QueryLogData} {w' : W} (hcurrent : s.current w' = some e')
    (e : QueryLogData) (w : W) :
    Held s e w ↔
      Held { s with current := Function.update s.current w' none } e w ∨ e = e' ∧ w = w' := by
  by_cases hw : w = w'
  · subst hw
    simp only [Held, hcurrent, Function.update_self, Option.some.injEq, reduceCtorEq, or_false,
      and_true, or_assoc, eq_comm]
  · simp only [Held, Function.update_of_ne hw, hw, and_false, or_false]

/-- The dispatcher moves an entry to the queue of its worker. -/
theorem held_dispatch {e' : QueryLogData} {w' : W} {rest : List (QueryLogData × W)}
    (hnext : s.toDispatch = (e', w') :: rest) (e : QueryLogData) (w : W) :
    Held s e w ↔
      Held { s with
        toDispatch := rest
        queue := Function.update s.queue w' (s.queue w' ++ [e']) } e w := by
  by_cases hw : w = w'
  · subst hw
    simp only [Held, hnext, List.mem_cons, Prod.mk.injEq, and_true, Function.update_self,
      List.mem_append]
    tauto
  · simp only [Held, hnext, List.mem_cons, Prod.mk.injEq, hw, and_false, false_or,
      Function.update_of_ne hw]

/-- A worker moves the first entry of its queue into its hands. -/
theorem held_pop {e' : QueryLogData} {w' : W} {rest : List QueryLogData}
    (hidle : s.current w' = none) (hqueue : s.queue w' = e' :: rest) (e : QueryLogData) (w : W) :
    Held s e w ↔
      Held { s with
        queue := Function.update s.queue w' rest
        current := Function.update s.current w' (some e') } e w := by
  by_cases hw : w = w'
  · subst hw
    simp only [Held, hqueue, hidle, List.mem_cons, reduceCtorEq, or_false, Function.update_self,
      Option.some.injEq]
    tauto
  · simp only [Held, Function.update_of_ne hw]

/-- A step brings in no entry, and what it takes away is a quit or has been executed. -/
theorem Step.held_iff (h : Step depth s s') (e : QueryLogData) (w : W) :
    ∃ gone : Prop, (Held s e w ↔ Held s' e w ∨ gone) ∧
      (gone → e.isQuit = true ∨ e ∈ s'.executed) := by
  cases h with
  | dispatch hnext hroom => exact ⟨False, by rw [held_dispatch hnext, or_false], False.elim⟩
  | pop hidle hqueue => exact ⟨False, by rw [held_pop hidle hqueue, or_false], False.elim⟩
  | quit hcurrent hquit =>
      refine ⟨_, held_release hcurrent e w, ?_⟩
      rintro ⟨rfl, rfl⟩
      exact Or.inl hquit
  | execute now now' hcurrent hquit =>
      refine ⟨_, held_release hcurrent e w, ?_⟩
      rintro ⟨rfl, rfl⟩
      exact Or.inr (List.mem_append_right _ List.mem_cons_self)

end Steps

/-- What holds in every state of a replay. -/
structure Inv (depth : ℕ) (assigned : List (QueryLogData × W)) (s : Replay W) : Prop where
  held : ∀ e w, Held s e w → (e, w) ∈ assigned
  executed : ∀ e ∈ s.executed, e.isQuit = false ∧ ∃ w, (e, w) ∈ assigned
  kept : ∀ e w, (e, w) ∈ assigned → Held s e w ∨ e.isQuit = true ∨ e ∈ s.executed
  offset : s.firstQueryExecOffset = s.executed.head?.map fun first => s.fixedAt - first.startTime
  room : depth = 0 → (∀ w, s.queue w = []) ∧ (∀ w, s.current w = none) ∧ s.executed = []

section Runs

variable {depth : ℕ} {assigned : List (QueryLogData × W)} {s s' : Replay W}

omit [DecidableEq W] in
theorem inv_start (depth : ℕ) (assigned : List (QueryLogData × W)) :
    Inv depth assigned (start assigned) where
  held e w h := by simpa [Held, start] using h
  executed e he := by cases he
  kept e w h := Or.inl (Or.inl h)
  offset := rfl
  room _ := ⟨fun _ => rfl, fun _ => rfl, rfl⟩

theorem Step.executed_prefix (h : Step depth s s') : s.executed <+: s'.executed := by
  cases h with
  | execute => exact List.prefix_append _ _
  | _ => exact List.prefix_rfl

theorem Inv.step (hinv : Inv depth assigned s) (h : Step depth s s') :
    Inv depth assigned s' where
  held e w hheld := by
    obtain ⟨gone, hiff, -⟩ := h.held_iff e w
    exact hinv.held e w (hiff.mpr (Or.inl hheld))
  executed := by
    cases h with
    | @execute e w now now' hcurrent hquit =>
        intro e' he'
        rcases List.mem_append.mp he' with he' | he'
        · exact hinv.executed e' he'
        · obtain rfl := List.mem_singleton.mp he'
          exact ⟨hquit, w, hinv.held _ w (Or.inr (Or.inr hcurrent))⟩
    | _ => exact hinv.executed
  kept e w hmem := by
    rcases hinv.kept e w hmem with hheld | hquit | hexecuted
    · obtain ⟨gone, hiff, hgone⟩ := h.held_iff e w
      exact (hiff.mp hheld).imp_right hgone
    · exact Or.inr (Or.inl hquit)
    · exact Or.inr (Or.inr (h.executed_prefix.subset hexecuted))
  offset := by
    cases h with
    | @execute e w now now' hcurrent hquit =>
        have hoffset := hinv.offset
        simp only [Replay.execute, QueryLogData.accurateMode]
        cases hexecuted : s.executed with
        | nil =>
            rw [hexecuted] at hoffset
            simp [hoffset]
        | cons first rest =>
            rw [hexecuted] at hoffset
            simp [hoffset]
    | _ => exact hinv.offset
  room hdepth := by
    obtain ⟨hqueue, hcurrent, hexecuted⟩ := hinv.room hdepth
    cases h with
    | dispatch hnext hroom => omega
    | @pop e w rest hidle hnext =>
        rw [hqueue] at hnext
        cases hnext
    | @quit e w hsome hquit =>
        rw [hcurrent] at hsome
        cases hsome
    | @execute e w now now' hsome hquit =>
        rw [hcurrent] at hsome
        cases hsome

theorem inv_of_runs (h : Runs depth (start assigned) s) : Inv depth assigned s :=
  invariant_of_steps (P := Inv depth assigned) (fun _ _ hinv hstep => hinv.step hstep) h
    (inv_start depth assigned)

theorem executed_prefix_of_runs (h : Runs depth s s') : s.executed <+: s'.executed := by
  induction h with
  | refl => exact List.prefix_rfl
  | tail _ hlast ih => exact ih.trans hlast.executed_prefix

theorem scheduled_iff (fixedAt first start : Int) :
    fixedAt ≤ start + (fixedAt - first) ↔ first ≤ start := by
  omega

omit [DecidableEq W] in
/-- The timeline is the one of the entry that was executed first. -/
theorem Inv.inTime_iff (hinv : Inv depth assigned s) {first : QueryLogData}
    (hfirst : s.executed.head? = some first) :
    InTime s ↔ ∀ e ∈ s.executed, first.startTime ≤ e.startTime := by
  have hoffset := hinv.offset
  rw [hfirst, Option.map_some] at hoffset
  constructor
  · intro h e he
    exact (scheduled_iff ..).mp (h _ hoffset e he)
  · intro h offset hsome e he
    rw [hoffset] at hsome
    obtain rfl := Option.some.inj hsome
    exact (scheduled_iff ..).mpr (h e he)

end Runs

section Completion

variable {depth : ℕ} {s : Replay W}

/-- The worker is not executing and has nothing queued. -/
def Idle (s : Replay W) (w : W) : Prop := s.queue w = [] ∧ s.current w = none

/-- The other workers and the dispatcher have not moved. -/
def OnlyWorker (w : W) (s s' : Replay W) : Prop :=
  s'.toDispatch = s.toDispatch ∧ ∀ v, v ≠ w → s'.queue v = s.queue v ∧ s'.current v = s.current v

omit [DecidableEq W] in
theorem OnlyWorker.refl (w : W) (s : Replay W) : OnlyWorker w s s :=
  ⟨rfl, fun _ _ => ⟨rfl, rfl⟩⟩

omit [DecidableEq W] in
theorem OnlyWorker.trans {w : W} {s₁ s₂ s₃ : Replay W} (h : OnlyWorker w s₁ s₂)
    (h' : OnlyWorker w s₂ s₃) : OnlyWorker w s₁ s₃ :=
  ⟨h'.1.trans h.1, fun v hv => ⟨(h'.2 v hv).1.trans (h.2 v hv).1, (h'.2 v hv).2.trans (h.2 v hv).2⟩⟩

/-- A worker can finish with the entry it has popped. -/
theorem runs_current (s : Replay W) (w : W) :
    ∃ s', Runs depth s s' ∧ s'.current w = none ∧ s'.queue w = s.queue w ∧ OnlyWorker w s s' := by
  cases hcurrent : s.current w with
  | none => exact ⟨s, .refl, hcurrent, rfl, .refl w s⟩
  | some e =>
      have hothers : ∀ v, v ≠ w → Function.update s.current w none v = s.current v :=
        fun v hv => Function.update_of_ne hv _ _
      by_cases hquit : e.isQuit = true
      · exact ⟨_, .single (.quit hcurrent hquit), Function.update_self .., rfl, rfl,
          fun v hv => ⟨rfl, hothers v hv⟩⟩
      · exact ⟨_, .single (.execute 0 0 hcurrent (by simpa using hquit)),
          Function.update_self .., rfl, rfl, fun v hv => ⟨rfl, hothers v hv⟩⟩

/-- A worker can empty its queue. -/
theorem runs_idle (s : Replay W) (w : W) :
    ∃ s', Runs depth s s' ∧ Idle s' w ∧ OnlyWorker w s s' := by
  induction hqueue : s.queue w generalizing s with
  | nil =>
      obtain ⟨s', hruns, hcurrent, hsame, honly⟩ := @runs_current W _ depth s w
      exact ⟨s', hruns, ⟨hsame.trans hqueue, hcurrent⟩, honly⟩
  | cons e rest ih =>
      obtain ⟨s₁, hruns₁, hcurrent, hsame, honly₁⟩ := @runs_current W _ depth s w
      let s₂ : Replay W := { s₁ with
        queue := Function.update s₁.queue w rest
        current := Function.update s₁.current w (some e) }
      have hpop : Step depth s₁ s₂ := .pop hcurrent (hsame.trans hqueue)
      have honly₂ : OnlyWorker w s₁ s₂ :=
        ⟨rfl, fun v hv => ⟨Function.update_of_ne hv _ _, Function.update_of_ne hv _ _⟩⟩
      obtain ⟨s', hruns, hidle, honly⟩ := ih s₂ (Function.update_self ..)
      exact ⟨s', (hruns₁.tail hpop).trans hruns, hidle, (honly₁.trans honly₂).trans honly⟩

/-- Workers can become idle one behind the other. -/
theorem runs_all_idle (s : Replay W) (ws : List W) :
    ∃ s', Runs depth s s' ∧ s'.toDispatch = s.toDispatch ∧ (∀ w ∈ ws, Idle s' w) ∧
      ∀ w, Idle s w → Idle s' w := by
  induction ws generalizing s with
  | nil => exact ⟨s, .refl, rfl, by simp, fun _ h => h⟩
  | cons w ws ih =>
      obtain ⟨s₁, hruns₁, hidle₁, hdispatch₁, hothers⟩ := @runs_idle W _ depth s w
      obtain ⟨s', hruns, hdispatch, hidle, hkept⟩ := ih s₁
      refine ⟨s', hruns₁.trans hruns, hdispatch.trans hdispatch₁, ?_, ?_⟩
      · exact List.forall_mem_cons.mpr ⟨hkept w hidle₁, hidle⟩
      · intro v hv
        apply hkept
        by_cases hw : v = w
        · exact hw ▸ hidle₁
        · exact ⟨(hothers v hw).1.trans hv.1, (hothers v hw).2.trans hv.2⟩

/-- With room in the queues everything can be dispatched. -/
theorem runs_dispatched (hdepth : 0 < depth) (s : Replay W) :
    ∃ s', Runs depth s s' ∧ s'.toDispatch = [] := by
  induction hnext : s.toDispatch generalizing s with
  | nil => exact ⟨s, .refl, hnext⟩
  | cons p rest ih =>
      obtain ⟨e, w⟩ := p
      obtain ⟨s₁, hruns₁, hidle, hdispatch, -⟩ := @runs_idle W _ depth s w
      have hroom : (s₁.queue w).length < depth := by rwa [hidle.1]
      let s₂ : Replay W := { s₁ with
        toDispatch := rest
        queue := Function.update s₁.queue w (s₁.queue w ++ [e]) }
      have hnext₂ : Step depth s₁ s₂ := .dispatch (hdispatch.trans hnext) hroom
      obtain ⟨s', hruns, hdone⟩ := ih s₂ rfl
      exact ⟨s', (hruns₁.tail hnext₂).trans hruns, hdone⟩

/-- Every replay can go on until all entries have been dispatched and handled. -/
theorem runs_to_end {assigned : List (QueryLogData × W)} (hinv : Inv depth assigned s)
    (hdepth : 0 < depth) :
    ∃ s', Runs depth s s' ∧ Inv depth assigned s' ∧ ∀ e w, ¬Held s' e w := by
  obtain ⟨s₁, hruns₁, hdispatched⟩ := runs_dispatched hdepth s
  obtain ⟨s', hruns, hsame, hidle, -⟩ := @runs_all_idle W _ depth s₁ (assigned.map Prod.snd)
  have hruns' : Runs depth s s' := hruns₁.trans hruns
  have hinv' : Inv depth assigned s' := invariant_of_steps
    (P := Inv depth assigned) (fun _ _ hinv hstep => hinv.step hstep) hruns' hinv
  refine ⟨s', hruns', hinv', fun e w hheld => ?_⟩
  have hmem := List.mem_map_of_mem (f := Prod.snd) (hinv'.held e w hheld)
  obtain ⟨hqueue, hcurrent⟩ := hidle w hmem
  rw [Held, hsame, hdispatched, hqueue, hcurrent] at hheld
  simp at hheld

end Completion

/-- The offset is never wrong before an entry has been executed. Afterwards no entry is ever
scheduled before the moment the offset was fixed, if and only if the call that fixed it was
made for an entry with the least start time. -/
theorem accurateMode_inTime_iff {depth : ℕ} {assigned : List (QueryLogData × W)} {s : Replay W}
    (h : Runs depth (start assigned) s) :
    (s.executed = [] → InTime s) ∧
      ∀ first, s.executed.head? = some first →
        ((∀ s', Runs depth s s' → InTime s') ↔
          ∀ p ∈ assigned, p.1.isQuit = false → first.startTime ≤ p.1.startTime) := by
  have hinv := inv_of_runs h
  constructor
  · intro hnone offset _ e he
    rw [hnone] at he
    cases he
  · intro first hfirst
    have hfirst' : ∀ s', Runs depth s s' → s'.executed.head? = some first := by
      intro s' hruns
      obtain ⟨rest, hrest⟩ := executed_prefix_of_runs hruns
      rw [← hrest, List.head?_append, hfirst, Option.some_or]
    constructor
    · intro hintime
      have hdepth : 0 < depth := by
        apply Nat.pos_of_ne_zero
        intro hzero
        rw [(hinv.room hzero).2.2] at hfirst
        cases hfirst
      obtain ⟨s', hruns, hinv', hnothing⟩ := runs_to_end hinv hdepth
      have hle := (hinv'.inTime_iff (hfirst' s' hruns)).mp (hintime s' hruns)
      rintro ⟨e, w⟩ hmem hquit
      rcases hinv'.kept e w hmem with hheld | hquit' | hexecuted
      · exact absurd hheld (hnothing e w)
      · rw [hquit] at hquit'
        cases hquit'
      · exact hle e hexecuted
    · intro hearliest s' hruns
      have hinv' := inv_of_runs (h.trans hruns)
      apply (hinv'.inTime_iff (hfirst' s' hruns)).mpr
      intro e he
      obtain ⟨hquit, w, hmem⟩ := hinv'.executed e he
      exact hearliest (e, w) hmem hquit

section Samples

/-- A query of connection 1 at the beginning of the log. -/
def earlyQuery : QueryLogData :=
  (QueryLogData.new (StringRef.ofBytes (bytes
    "# User@Host: a[a] @ localhost []\n# Thread_id: 1\nSELECT 1;\n")) 0).setStartTime
    1000000000

/-- A query of connection 2, ten seconds later. -/
def lateQuery : QueryLogData :=
  (QueryLogData.new (StringRef.ofBytes (bytes
    "# User@Host: a[a] @ localhost []\n# Thread_id: 2\nSELECT 2;\n")) 0).setStartTime
    11000000000

/-- Each connection has its worker. -/
def sampleAssignment : List (QueryLogData × UInt64) := [(earlyQuery, 1), (lateQuery, 2)]

theorem earlyQuery_isQuit : earlyQuery.isQuit = false := by decide +kernel

theorem lateQuery_isQuit : lateQuery.isQuit = false := by decide +kernel

/-- Both entries have been dispatched to their workers and popped by them. -/
def samplePopped : Replay UInt64 where
  toDispatch := []
  queue := Function.update (Function.update (Function.update (Function.update (fun _ => [])
    1 [earlyQuery]) 1 []) 2 [lateQuery]) 2 []
  current := Function.update (Function.update (fun _ => none) 1 (some earlyQuery))
    2 (some lateQuery)
  firstQueryExecOffset := none
  fixedAt := epoch
  executed := []

theorem runs_samplePopped : Runs 1 (start sampleAssignment) samplePopped :=
  ((((ReflTransGen.refl.tail
    (.dispatch rfl Nat.one_pos)).tail
    (.pop (e := earlyQuery) (w := 1) rfl rfl)).tail
    (.dispatch rfl Nat.one_pos)).tail
    (.pop (e := lateQuery) (w := 2) rfl rfl))

/-- When the worker of the first query executes first, all goes well. -/
theorem accurateMode_inTime_sample :
    Runs 1 (start sampleAssignment) (samplePopped.execute 1 earlyQuery 0 0) ∧
      ∀ s', Runs 1 (samplePopped.execute 1 earlyQuery 0 0) s' → InTime s' := by
  have hruns : Runs 1 (start sampleAssignment) (samplePopped.execute 1 earlyQuery 0 0) :=
    runs_samplePopped.tail (.execute 0 0 rfl earlyQuery_isQuit)
  refine ⟨hruns, ((accurateMode_inTime_iff hruns).2 earlyQuery rfl).mpr ?_⟩
  intro p hp _
  simp only [sampleAssignment, List.mem_cons, List.not_mem_nil, or_false] at hp
  rcases hp with rfl | rfl <;> decide

/-- When the other worker comes first, the first query of the log is scheduled in the past. -/
theorem late_query_executed_first :
    sampleAssignment.Pairwise (fun p q => p.1.startTime ≤ q.1.startTime) ∧
      ¬∀ s, Runs 1 (start sampleAssignment) s → InTime s := by
  constructor
  · apply List.pairwise_pair.mpr
    decide
  · intro hintime
    have hlate := runs_samplePopped.tail
      (.execute (e := lateQuery) (w := 2) 0 0 rfl lateQuery_isQuit)
    have hboth := hlate.tail (.execute (e := earlyQuery) (w := 1) 0 0 rfl earlyQuery_isQuit)
    have hscheduled := hintime _ hboth _ rfl earlyQuery (by decide)
    exact absurd hscheduled (by decide)

end Samples

end AccurateMode

end QueryPlayback
