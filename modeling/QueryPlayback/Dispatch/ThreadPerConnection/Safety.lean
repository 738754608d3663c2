import QueryPlayback.Dispatch.ThreadPerConnection.Invariant
import QueryPlayback.QueryLog.Entries

/-!
# Thread-per-connection playback of a slow log

Nothing is lost, doubled or moved in any interleaving: a worker handles a
prefix of the popped entries of its connection, and all of them when
`finish_all_and_wait` has returned.
-/

namespace QueryPlayback.ThreadPerConnection

open QueryEntry QueryEntries Interleaving Relation

section Consequences

variable {σ ε : Type} [QueryEntry ε] [QueryEntries σ ε] {all : List ε} {s : State σ ε}

theorem Inv.popped_prefix (h : Inv all s) : s.popped <+: all := by
  obtain ⟨rest, -, hall⟩ := h.split
  exact ⟨rest, hall⟩

theorem Inv.processed_prefix (h : Inv all s) {w : Worker ε} (hw : w ∈ s.workers) :
    w.processed.map Handled.entry <+: ofThread w.threadId s.popped := by
  have hstream := w.processed_prefix
  rw [h.workers.stream w hw] at hstream
  rw [State.popped, ofThread_append]
  exact hstream.trans (List.prefix_append _ _)

/-- The worker an entry is pushed to is in the table, at work and not deleted. -/
theorem Inv.push_target (hmarked : LastMarked all) (h : Inv all s) {e : ε} (hpc : s.pc = .push e) :
    ∃ i w, pointer s.executors (getThreadId e) = some i ∧ s.workers[i]? = some w ∧
      w.threadId = getThreadId e ∧ w.pc ≠ .returned ∧ w.destroyed = false := by
  obtain ⟨hundeleted, -, i, hptr⟩ : s.Undeleted ∧ (s.NonNull fun _ => True) ∧
      ∃ i, pointer s.executors (getThreadId e) = some i := h.at_pc hpc
  obtain ⟨w, hget, hid⟩ := h.table.slot _ i hptr
  have hw := List.mem_of_getElem? hget
  refine ⟨i, w, hptr, hget, hid, ?_, hundeleted w hw⟩
  intro hret
  obtain ⟨rest, -, rfl⟩ := h.split
  rw [State.popped, List.append_assoc] at hmarked
  have hnone := (h.workers.returned_spec hmarked hw hret).2
  have hhand : s.inHand = [e] := by simp [State.inHand, hpc]
  exact ofThread_eq_nil_iff.mp hnone (by simp [hhand, hid])

theorem Inv.not_crashed (h : Inv all s) : s.pc ≠ .crashed := fun hpc => h.at_pc hpc

/-- At the end each worker has handled all entries of its connection. -/
theorem Inv.complete (hmarked : LastMarked all) (h : Inv all s) (hpc : s.pc = .returned) :
    s.popped = all ∧ (∀ e ∈ all, ∃ w ∈ s.workers, w.threadId = getThreadId e) ∧
      ∀ w ∈ s.workers, w.pc = .returned ∧ w.queue = [] ∧
        w.processed = (ofThread w.threadId all).map Worker.handle := by
  obtain ⟨hdelivered, hreturned⟩ : s.delivered = all ∧ ∀ w ∈ s.workers, w.pc = .returned :=
    h.at_pc hpc
  refine ⟨by simp [State.popped, State.inHand, hpc, hdelivered], ?_, ?_⟩
  · rw [← hdelivered]
    exact h.workers.owned
  · intro w hw
    have hret := hreturned w hw
    have hmarked' : LastMarked (s.delivered ++ []) := by rwa [List.append_nil, hdelivered]
    have hqueue := (h.workers.returned_spec hmarked' hw hret).1
    have hstream := h.workers.stream w hw
    simp only [Worker.stream, Worker.inHand, hret, hqueue, List.append_nil, hdelivered] at hstream
    exact ⟨hret, hqueue, by rw [Worker.processed_eq (h.workers.ok w hw), hstream]⟩

/-- The workers together have handled every entry exactly once. -/
theorem Inv.handled_perm (hmarked : LastMarked all) (h : Inv all s) (hpc : s.pc = .returned) :
    (s.workers.flatMap fun w => w.processed.map Handled.entry).Perm all := by
  obtain ⟨-, howned, hprocessed⟩ := h.complete hmarked hpc
  have hparts : (s.workers.map fun w => w.processed.map Handled.entry) =
      (s.workers.map Worker.threadId).map fun id => ofThread id all := by
    rw [List.map_map]
    apply List.map_congr_left
    intro w hw
    rw [(hprocessed w hw).2.2, Worker.map_handle_entry]
    rfl
  rw [List.flatMap_def, hparts, ← List.flatMap_def]
  apply (flatMap_filter_perm _ _ h.workers.distinct).trans
  rw [List.filter_eq_self.mpr]
  intro e he
  obtain ⟨w, hw, hid⟩ := howned e he
  exact decide_eq_true (List.mem_map.mpr ⟨w, hw, hid⟩)

end Consequences

/-- A fresh dispatcher that begins to dispatch the entries of `q`. -/
def start (q : QueryLogEntries) : State QueryLogEntries QueryLogEntry := (State.init q).dispatch q

theorem inv_of_reaches {q : QueryLogEntries} (hq : q.Fresh) {depth : Nat}
    {s : State QueryLogEntries QueryLogEntry} (h : Reaches depth (start q) s) :
    Inv q.setShutdownOnLastQueryOfConn.toPop s :=
  (Inv.dispatch (QueryLogEntries.drains_toPop _) rfl rfl).reaches hq.lastMarked h

/-- A statement and a quit command on one connection. -/
def sampleLog : QueryLogEntries where
  entries :=
    [⟨⟨0, bytes "# User@Host: a\nselect 1;\n", []⟩, 7, epoch⟩,
      ⟨⟨25, bytes "# User@Host: a\n# administrator command: Quit;\n", []⟩, 7, epoch⟩]
  lastQueryOfConn := ∅
  numEntries := 2
  numQueries := 2

theorem sampleLog_fresh : sampleLog.Fresh := ⟨rfl, by decide⟩

end QueryPlayback.ThreadPerConnection
