import QueryPlayback.Dispatch.ThreadPool.Invariant
import QueryPlayback.QueryLog.Entries
import Mathlib.Data.List.Basic

/-!
# Thread-pool playback of a slow log

Nothing is lost, doubled or moved in any interleaving. No entry carries a
shutdown flag here, so each worker stops at its own `FinishEntry`, which lies
behind all entries that select the worker.
-/

namespace QueryPlayback.ThreadPool

open QueryEntry QueryEntries Interleaving Relation

/-- The entry of the log in a queue entry. -/
def QueueEntry.query? {ε : Type} : QueueEntry ε → Option ε
  | .query e => some e
  | .finish => none

/-- The entries of the log that a worker has handled. -/
def handledEntries {ε : Type} (w : Worker (QueueEntry ε)) : List ε :=
  (w.processed.map Handled.entry).filterMap QueueEntry.query?

section Lists

variable {α : Type}

/-- Nothing stands behind a last element that occurs nowhere else. -/
theorem eq_nil_of_append_cons_eq {a l r : List α} {x : α} (h : l ++ x :: r = a ++ [x])
    (hx : x ∉ a) : r = [] := by
  rcases List.eq_nil_or_concat' r with rfl | ⟨r', y, rfl⟩
  · rfl
  · have hinit : l ++ x :: r' = a := by
      have h' : (l ++ x :: r') ++ [y] = a ++ [x] := by simpa using h
      exact (List.append_inj' h' rfl).1
    exact absurd (by simp [← hinit]) hx

end Lists

section Consequences

variable {σ ε : Type} [QueryEntry ε] [QueryEntries σ ε]
variable {c : Config} {all : List ε} {s : State σ ε}

theorem Inv.processed_prefix (h : Inv c all s) {j : Nat} {w : Worker (QueueEntry ε)}
    (hget : s.workers[j]? = some w) :
    w.processed.map Handled.entry <+:
      (assigned c j s.popped).map QueueEntry.query ++ [QueueEntry.finish] := by
  have hprefix := w.processed_prefix
  rw [h.workers.stream j w hget] at hprefix
  apply hprefix.trans
  unfold sent
  by_cases hfinish : j < s.pc.finished c
  · -- A `FinishEntry` is sent only once nothing is in the dispatcher's hand.
    have hpopped : s.popped = s.delivered := by
      cases hpc : s.pc with
      | push e => simp [hpc, Pc.finished] at hfinish
      | _ => simp [State.popped, State.inHand, hpc]
    rw [if_pos hfinish, hpopped]
  · rw [if_neg hfinish, List.append_nil, State.popped]
    refine List.IsPrefix.trans (List.IsPrefix.map _ ?_) (List.prefix_append _ _)
    rw [assigned, assigned, List.filter_append]
    exact List.prefix_append _ _

/-- Among entries without flags a worker that has returned has come to its `FinishEntry`. -/
theorem returned_spec (hno : ∀ e ∈ all, isShutdown e = false) {w : Worker (QueueEntry ε)}
    {j : Nat} (hok : w.Ok) (hret : w.pc = .returned) {delivered : List ε}
    {tail : List (QueueEntry ε)}
    (hdelivered : delivered <+: all) (htail : tail = [] ∨ tail = [QueueEntry.finish])
    (hstream : w.stream = (assigned c j delivered).map .query ++ tail) :
    tail = [QueueEntry.finish] ∧ w.queue = [] ∧ w.processed.map Handled.entry = w.stream := by
  obtain ⟨init, x, hprocessed, hshutdown, -⟩ : ∃ init x,
      w.processed.map Handled.entry = init ++ [x] ∧ isShutdown x = true ∧
        ∀ y ∈ init, isShutdown y = false := by
    have hflags := hok.2
    rwa [hret] at hflags
  have hinHand : w.inHand = [] := by simp [Worker.inHand, hret]
  have hsplit : init ++ x :: w.queue = (assigned c j delivered).map .query ++ tail := by
    rw [← hstream, Worker.stream, hprocessed, hinHand]
    simp
  have hquery : ∀ y ∈ (assigned c j delivered).map QueueEntry.query, isShutdown y = false := by
    intro y hy
    obtain ⟨e, he, rfl⟩ := List.mem_map.mp hy
    exact hno e (hdelivered.subset (List.mem_filter.mp he).1)
  have hx : x ∉ (assigned c j delivered).map QueueEntry.query := by
    intro hmem
    rw [hquery x hmem] at hshutdown
    exact absurd hshutdown (by simp)
  have hmem : x ∈ (assigned c j delivered).map QueueEntry.query ++ tail := by
    rw [← hsplit]
    simp
  have hxtail : x ∈ tail := (List.mem_append.mp hmem).resolve_left hx
  rcases htail with rfl | rfl
  · simp at hxtail
  · obtain rfl : x = QueueEntry.finish := by simpa using hxtail
    have hqueue := eq_nil_of_append_cons_eq hsplit hx
    exact ⟨rfl, hqueue, by simp [Worker.stream, hinHand, hqueue]⟩

/-- The worker an entry is pushed to exists, is at work and not deleted. -/
theorem Inv.push_target (hpos : all ≠ [] → 0 < c.threadsCount)
    (hno : ∀ e ∈ all, isShutdown e = false) (h : Inv c all s) {e : ε} (hpc : s.pc = .push e) :
    ∃ w, s.workers[c.workerIndex s.workers.length (getThreadId e)]? = some w ∧
      w.pc ≠ .returned ∧ w.destroyed = false := by
  have hlen : s.workers.length = c.threadsCount := h.at_pc hpc
  have hcount := hpos (h.all_ne_nil hpc)
  have hlt : c.workerIndex s.workers.length (getThreadId e) < s.workers.length :=
    Nat.mod_lt _ (by omega)
  refine ⟨_, List.getElem?_eq_getElem hlt, ?_, h.workers.undeleted _ (List.getElem_mem hlt)⟩
  intro hret
  have hget := List.getElem?_eq_getElem hlt
  have hstream := h.workers.stream _ _ hget
  rw [sent, if_neg (by simp [hpc, Pc.finished])] at hstream
  have hdelivered : s.delivered <+: all :=
    (List.prefix_append _ _).trans h.popped_prefix
  have hspec := returned_spec hno (h.workers.ok _ (List.getElem_mem hlt)) hret hdelivered
    (Or.inl rfl) hstream
  exact absurd hspec.1 (by simp)

theorem Inv.not_crashed (h : Inv c all s) : s.pc ≠ .crashed := fun hpc => h.at_pc hpc

/-- At the end each worker has handled its entries and its `FinishEntry`. -/
theorem Inv.complete (hno : ∀ e ∈ all, isShutdown e = false) (h : Inv c all s)
    (hpc : s.pc = .returned) :
    s.popped = all ∧ s.retired.length = c.threadsCount ∧
      ∀ j w, s.retired[j]? = some w → w.pc = .returned ∧ w.queue = [] ∧
        w.processed = ((assigned c j all).map QueueEntry.query ++ [QueueEntry.finish]).map
          Worker.handle := by
  obtain ⟨-, hdelivered, hlen, hretired⟩ : s.workers = [] ∧ s.delivered = all ∧
      s.retired.length = c.threadsCount ∧ ∀ (j : Nat) (w : Worker (QueueEntry ε)),
        s.retired[j]? = some w → w.pc = .returned ∧ w.Ok ∧
          w.stream = (assigned c j all).map QueueEntry.query ++ [QueueEntry.finish] := h.at_pc hpc
  refine ⟨by simp [State.popped, State.inHand, hpc, hdelivered], hlen, fun j w hget => ?_⟩
  obtain ⟨hret, hok, hstream⟩ := hretired j w hget
  obtain ⟨-, hqueue, hall⟩ := returned_spec hno hok hret List.prefix_rfl (Or.inr rfl) hstream
  exact ⟨hret, hqueue, by rw [Worker.processed_eq hok, hall, hstream]⟩

/-- The workers together have handled every entry exactly once. -/
theorem Inv.handled_perm (hpos : all ≠ [] → 0 < c.threadsCount)
    (hno : ∀ e ∈ all, isShutdown e = false) (h : Inv c all s) (hpc : s.pc = .returned) :
    (s.retired.flatMap handledEntries).Perm all := by
  obtain ⟨-, hlen, hworkers⟩ := h.complete hno hpc
  have hparts : s.retired.map handledEntries =
      (List.range c.threadsCount).map fun j => assigned c j all := by
    apply List.ext_getElem?
    intro j
    rw [List.getElem?_map, List.getElem?_map]
    by_cases hj : j < c.threadsCount
    · have hget := List.getElem?_eq_getElem (hlen ▸ hj : j < s.retired.length)
      have hprocessed := (hworkers j _ hget).2.2
      rw [hget, List.getElem?_range hj, Option.map_some, Option.map_some, handledEntries,
        hprocessed, Worker.map_handle_entry, List.filterMap_append, List.filterMap_map]
      simp [QueueEntry.query?, Function.comp_def]
    · rw [List.getElem?_eq_none (by omega), List.getElem?_eq_none (by simpa using hj)]
      rfl
  rw [List.flatMap_def, hparts, ← List.flatMap_def]
  apply (flatMap_filter_perm _ _ List.nodup_range).trans
  rw [List.filter_eq_self.mpr]
  intro e he
  exact decide_eq_true (List.mem_range.mpr (Nat.mod_lt _ (hpos (List.ne_nil_of_mem he))))

end Consequences

/-- A fresh dispatcher at the beginning of a run over the entries of `q`. -/
def start (q : QueryLogEntries) : State QueryLogEntries QueryLogEntry := (State.init q).run q

/-- A statement and a quit command on different connections. -/
def sampleLog : QueryLogEntries where
  entries :=
    [⟨⟨0, bytes "# User@Host: a\nselect 1;\n", []⟩, 7, epoch⟩,
      ⟨⟨25, bytes "# User@Host: a\n# administrator command: Quit;\n", []⟩, 10, epoch⟩]
  lastQueryOfConn := ∅
  numEntries := 2
  numQueries := 2

/-- Two workers with room for one entry each, and the CRC-32 values of the two thread ids. -/
def sampleConfig : Config := ⟨2, 1, fun id => if id = 7 then 1877464688 else 4108501921⟩

end QueryPlayback.ThreadPool
