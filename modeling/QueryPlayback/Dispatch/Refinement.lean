import QueryPlayback.Lib.Replay
import QueryPlayback.Dispatch.Heap
import QueryPlayback.Dispatch.ThreadPerConnection.Safety
import QueryPlayback.Dispatch.ThreadPool.Safety

/-!
# Both dispatchers replay the log

The purpose of a dispatcher is to have the entries of every connection executed
in the order of the log, whatever happens on other connections meanwhile. As
systems of their own, with their queues, workers and tables, both dispatchers
refine the machine that does just this.
-/

namespace QueryPlayback

open QueryEntry QueryEntries Replay Relation

section Scripts

variable {ε A : Type} [QueryEntry ε]

/-- What has been done with the entries of each connection, seen through `view`. -/
def performed (view : ε → A) (handled : List (Handled ε)) (id : UInt64) : List (Handled A) :=
  (handled.filter (getThreadId ·.entry = id)).map (Handled.map view)

/-- What is to be done with the entries of each connection, in the order of the log. -/
def script (view : ε → A) (all : List ε) (id : UInt64) : List (Handled A) :=
  (ofThread id all).map fun e => (Worker.handle e).map view

/-- On every connection the entries have been handled in the order of the log. -/
structure InOrder (all : List ε) (handled : List (Handled ε)) : Prop where
  handle : ∀ h ∈ handled, h = Worker.handle h.entry
  begins : ∀ id, ofThread id (handled.map Handled.entry) <+: ofThread id all

variable {view : ε → A} {all : List ε} {handled handled' : List (Handled ε)}

theorem length_performed (view : ε → A) (handled : List (Handled ε)) (id : UInt64) :
    (performed view handled id).length = handled.countP (getThreadId ·.entry = id) := by
  rw [performed, List.length_map, List.countP_eq_length_filter]

theorem length_script (view : ε → A) (all : List ε) (id : UInt64) :
    (script view all id).length = (ofThread id all).length := List.length_map _

/-- What has been done is what the handled entries ask for. -/
theorem performed_eq_script (h : ∀ x ∈ handled, x = Worker.handle x.entry) :
    performed view handled = script view (handled.map Handled.entry) := by
  funext id
  have hkey : ((getThreadId · = id) : ε → Bool) ∘ Handled.entry =
      ((getThreadId ·.entry = id) : Handled ε → Bool) := rfl
  rw [script, ofThread, List.filter_map, List.map_map, performed]
  apply List.map_congr_left
  intro x hx
  have hself := h x (List.mem_filter.mp hx).1
  rw [Function.comp_apply, ← hself]

theorem InOrder.performed_begins (h : InOrder all handled) (id : UInt64) :
    performed view handled id <+: script view all id := by
  rw [performed_eq_script h.handle]
  exact (h.begins id).map _

/-- When every entry has been handled, the script has been performed. -/
theorem InOrder.performed_eq (h : InOrder all handled)
    (hall : (handled.map Handled.entry).Perm all) : performed view handled = script view all := by
  funext id
  apply (h.performed_begins id).eq_of_length
  rw [performed_eq_script h.handle, length_script, length_script]
  exact (hall.filter _).length_eq

/-- One entry more is an event of its own connection. -/
theorem advances_of_perm (h : handled'.Perm handled ∨ ∃ x, handled'.Perm (x :: handled)) :
    Advances (performed view handled) (performed view handled') := by
  rcases h with hsame | ⟨x, hmore⟩
  · refine Or.inl fun id => ?_
    rw [length_performed, length_performed, hsame.countP_eq]
  · refine Or.inr ⟨getThreadId x.entry, ?_, ?_⟩
    · rw [length_performed, length_performed, hmore.countP_eq]
      simp
    · intro id hid
      rw [length_performed, length_performed, hmore.countP_eq]
      simp [Ne.symm hid]

/-- The entries of a connection have been handled in order when one worker has handled them. -/
theorem begins_of_owner {parts : List (List ε)} {id : UInt64} {j : ℕ}
    (hother : ∀ i p, parts[i]? = some p → i ≠ j → ofThread id p = [])
    (hown : ∀ p, parts[j]? = some p → ofThread id p <+: ofThread id all) :
    ofThread id parts.flatten <+: ofThread id all := by
  induction parts generalizing j with
  | nil => exact List.nil_prefix
  | cons p parts ih =>
      rw [List.flatten_cons, ofThread_append]
      cases j with
      | zero =>
          have hrest : ofThread id parts.flatten = [] := by
            rw [ofThread, List.filter_flatten, List.flatten_eq_nil_iff]
            intro l hl
            obtain ⟨p', hp', rfl⟩ := List.mem_map.mp hl
            obtain ⟨i, hi⟩ := List.mem_iff_getElem?.mp hp'
            exact hother (i + 1) p' hi (Nat.succ_ne_zero i)
          rw [hrest, List.append_nil]
          exact hown p rfl
      | succ j =>
          rw [hother 0 p rfl (Ne.symm (Nat.succ_ne_zero j)), List.nil_append]
          exact ih (fun i p' hi hne => hother (i + 1) p' hi (by omega)) fun p' hp' => hown p' hp'

end Scripts

namespace ThreadPerConnection

variable {σ ε A : Type} [QueryEntry ε] [QueryEntries σ ε] {all : List ε} {s : State σ ε}

theorem Inv.inOrder (h : Inv all s) : InOrder all (handledBy s.workers) where
  handle x hx := by
    obtain ⟨w, hw, hxw⟩ := List.mem_flatMap.mp hx
    exact (h.workers.ok w hw).1 x hxw
  begins id := by
    have hentries : ∀ w ∈ s.workers, ofThread id (w.processed.map Handled.entry) <+:
        ofThread id (ofThread w.threadId all) := by
      intro w hw
      have hprocessed := h.processed_prefix hw
      have hall : ofThread w.threadId s.popped <+: ofThread w.threadId all :=
        List.IsPrefix.filter _ h.popped_prefix
      exact List.IsPrefix.filter _ (hprocessed.trans hall)
    have hforeign : ∀ w ∈ s.workers, w.threadId ≠ id →
        ofThread id (w.processed.map Handled.entry) = [] := by
      intro w hw hne
      have hnone : ofThread id (ofThread w.threadId all) = [] := by
        rw [ofThread, List.filter_eq_nil_iff]
        intro e he heq
        exact hne ((mem_ofThread.mp he).2.symm.trans (of_decide_eq_true heq))
      have hbegins := hentries w hw
      rw [hnone] at hbegins
      exact List.prefix_nil.mp hbegins
    rw [handledBy, List.flatMap_def, List.map_flatten, List.map_map]
    by_cases hexists : ∃ (j : ℕ) (w : Worker ε), s.workers[j]? = some w ∧ w.threadId = id
    · obtain ⟨j, w, hget, rfl⟩ := hexists
      refine begins_of_owner (j := j) ?_ ?_
      · intro i p hi hne
        obtain ⟨v, hv, rfl⟩ := Option.map_eq_some_iff.mp (List.getElem?_map .. ▸ hi)
        exact hforeign v (List.mem_of_getElem? hv) fun hid => hne (h.workers.index_eq hv hget hid)
      · intro p hp
        rw [List.getElem?_map, hget] at hp
        obtain rfl := Option.some.inj hp
        have hown := hentries w (List.mem_of_getElem? hget)
        rwa [ofThread_idem] at hown
    · refine begins_of_owner (j := 0) ?_ ?_
      · intro i p hi _
        obtain ⟨v, hv, rfl⟩ := Option.map_eq_some_iff.mp (List.getElem?_map .. ▸ hi)
        exact hforeign v (List.mem_of_getElem? hv) fun hid => hexists ⟨i, v, hv, hid⟩
      · intro p hp
        obtain ⟨v, hv, rfl⟩ := Option.map_eq_some_iff.mp (List.getElem?_map .. ▸ hp)
        rw [Function.comp_apply,
          hforeign v (List.mem_of_getElem? hv) fun hid => hexists ⟨0, v, hv, hid⟩]
        exact List.nil_prefix

/-- The thread-per-connection dispatcher refines the machine of its log. -/
theorem refines (view : ε → A) (hmarked : LastMarked all) (depth : ℕ) :
    Refines (Step depth) (Inv all) (fun s : State σ ε => performed view (handledBy s.workers))
      (script view all) where
  keeps _ _ hi hstep := hi.step hmarked hstep
  begins _ hi := hi.inOrder.performed_begins
  advances _ _ _ hstep := by
    apply advances_of_perm
    rcases hstep.heapStep.handledBy with hsame | ⟨e, hmore⟩
    · exact Or.inl (List.Perm.of_eq hsame)
    · exact Or.inr ⟨_, hmore⟩

theorem Inv.performed_of_returned (view : ε → A) (hmarked : LastMarked all) (h : Inv all s)
    (hpc : s.pc = .returned) : performed view (handledBy s.workers) = script view all := by
  apply h.inOrder.performed_eq
  rw [handledBy, List.map_flatMap]
  exact h.handled_perm hmarked hpc

end ThreadPerConnection

namespace ThreadPool

variable {σ ε A : Type} [QueryEntry ε]

/-- What has been done with an entry of the log; a `FinishEntry` is none. -/
def query? : Handled (QueueEntry ε) → Option (Handled ε)
  | .execute (.query e) => some (.execute e)
  | .reconnect (.query e) => some (.reconnect e)
  | .execute .finish => none
  | .reconnect .finish => none

omit [QueryEntry ε] in
theorem query?_entry (h : Handled (QueueEntry ε)) :
    (query? h).map Handled.entry = QueueEntry.query? h.entry := by
  rcases h with (_ | _) | (_ | _) <;> rfl

theorem query?_handle (x : QueueEntry ε) :
    query? (Worker.handle x) = (QueueEntry.query? x).map Worker.handle := by
  cases x with
  | finish => rfl
  | query e =>
      unfold Worker.handle
      change query? (if isQuit e then _ else _) = some (if isQuit e then _ else _)
      split <;> rfl

/-- What the workers of the pool have done with the entries of the log. -/
def handledQueries (workers : List (Worker (QueueEntry ε))) : List (Handled ε) :=
  (handledBy workers).filterMap query?

omit [QueryEntry ε] in
theorem map_entry_handledQueries (workers : List (Worker (QueueEntry ε))) :
    (handledQueries workers).map Handled.entry = workers.flatMap handledEntries := by
  rw [handledQueries, handledBy, List.map_filterMap]
  simp only [query?_entry]
  rw [List.filterMap_flatMap]
  apply List.flatMap_congr
  intro w _
  rw [handledEntries, List.filterMap_map]
  rfl

/-- All entries of a connection select one worker. -/
theorem ofThread_assigned (c : Config) (id : UInt64) (entries : List ε) :
    ofThread id (assigned c (c.workerIndex c.threadsCount id) entries) = ofThread id entries := by
  rw [ofThread, assigned, List.filter_filter]
  apply List.filter_congr
  intro e _
  by_cases hid : getThreadId e = id <;> simp [hid]

variable [QueryEntries σ ε] {c : Config} {all : List ε} {s : State σ ε}

/-- A worker has handled the entries that select it, in the order of the log. -/
theorem Inv.handledEntries_begins (hno : ∀ e ∈ all, isShutdown e = false) (h : Inv c all s)
    (hs : s.Cleared) {j : ℕ} {w : Worker (QueueEntry ε)} (hget : s.heap[j]? = some w) :
    handledEntries w <+: assigned c j all ∧
      ∀ x ∈ w.processed, x = Worker.handle x.entry := by
  have hqueries : ∀ l : List ε, ((l.map QueueEntry.query) ++ [QueueEntry.finish]).filterMap
      QueueEntry.query? = l := by
    intro l
    rw [List.filterMap_append, List.filterMap_map]
    simp [QueueEntry.query?, Function.comp_def]
  rcases hs with hretired | ⟨hreturned, hempty⟩
  · rw [State.heap, hretired, List.append_nil] at hget
    have hprocessed := (h.processed_prefix hget).filterMap QueueEntry.query?
    rw [hqueries] at hprocessed
    refine ⟨hprocessed.trans (List.IsPrefix.filter _ h.popped_prefix), ?_⟩
    exact (h.workers.ok w (List.mem_of_getElem? hget)).1
  · rw [State.heap, hempty, List.nil_append] at hget
    have hprocessed := ((h.complete hno hreturned).2.2 j w hget).2.2
    constructor
    · rw [handledEntries, hprocessed, Worker.map_handle_entry, hqueries]
    · rw [hprocessed]
      intro x hx
      obtain ⟨y, -, rfl⟩ := List.mem_map.mp hx
      rw [Worker.handle_entry]

theorem Inv.inOrder (hno : ∀ e ∈ all, isShutdown e = false) (h : Inv c all s) (hs : s.Cleared) :
    InOrder all (handledQueries s.heap) where
  handle x hx := by
    obtain ⟨y, hy, hxy⟩ := List.mem_filterMap.mp hx
    obtain ⟨w, hw, hyw⟩ := List.mem_flatMap.mp hy
    obtain ⟨j, hget⟩ := List.mem_iff_getElem?.mp hw
    have hhandle := (h.handledEntries_begins hno hs hget).2 y hyw
    have hentry := query?_entry y
    rw [hhandle, query?_handle] at hxy
    obtain ⟨e, he, rfl⟩ := Option.map_eq_some_iff.mp hxy
    rw [Worker.handle_entry]
  begins id := by
    have hforeign : ∀ i w, s.heap[i]? = some w → i ≠ c.workerIndex c.threadsCount id →
        ofThread id (handledEntries w) = [] := by
      intro i w hget hne
      have hbegins := (h.handledEntries_begins hno hs hget).1
      rw [ofThread, List.filter_eq_nil_iff]
      intro e he heq
      have hassigned := of_decide_eq_true (List.mem_filter.mp (hbegins.subset he)).2
      rw [of_decide_eq_true heq] at hassigned
      exact hne hassigned.symm
    rw [map_entry_handledQueries, List.flatMap_def]
    refine begins_of_owner (j := c.workerIndex c.threadsCount id) ?_ ?_
    · intro i p hi hne
      obtain ⟨w, hw, rfl⟩ := Option.map_eq_some_iff.mp (List.getElem?_map .. ▸ hi)
      exact hforeign i w hw hne
    · intro p hp
      obtain ⟨w, hw, rfl⟩ := Option.map_eq_some_iff.mp (List.getElem?_map .. ▸ hp)
      have hbegins := List.IsPrefix.filter (getThreadId · = id)
        (h.handledEntries_begins hno hs hw).1
      rwa [← ofThread, ← ofThread, ofThread_assigned] at hbegins

/-- The thread-pool dispatcher refines the machine of its log. -/
theorem refines (view : ε → A) (hpos : all ≠ [] → 0 < c.threadsCount)
    (hno : ∀ e ∈ all, isShutdown e = false) :
    Refines (Step c) (fun s : State σ ε => Inv c all s ∧ s.Cleared)
      (fun s => performed view (handledQueries s.heap)) (script view all) where
  keeps _ _ hi hstep := ⟨hi.1.step hpos hstep, hstep.cleared hi.2⟩
  begins _ hi := (hi.1.inOrder hno hi.2).performed_begins
  advances _ _ hi hstep := by
    apply advances_of_perm
    rcases (hstep.heapStep hi.2).handledBy with hsame | ⟨x, hmore⟩
    · refine Or.inl (List.Perm.of_eq ?_)
      rw [handledQueries, hsame]
      rfl
    · have hqueries := hmore.filterMap query?
      rw [List.filterMap_cons] at hqueries
      cases hx : query? (Worker.handle x) with
      | none =>
          rw [hx] at hqueries
          exact Or.inl hqueries
      | some e =>
          rw [hx] at hqueries
          exact Or.inr ⟨e, hqueries⟩

theorem Inv.performed_of_returned (view : ε → A) (hpos : all ≠ [] → 0 < c.threadsCount)
    (hno : ∀ e ∈ all, isShutdown e = false) (h : Inv c all s) (hs : s.Cleared)
    (hpc : s.pc = .returned) : performed view (handledQueries s.heap) = script view all := by
  apply (h.inOrder hno hs).performed_eq
  have hempty : s.workers = [] := (h.at_pc hpc).1
  rw [map_entry_handledQueries, State.heap, hempty, List.nil_append]
  exact h.handled_perm hpos hno hpc

end ThreadPool

end QueryPlayback
