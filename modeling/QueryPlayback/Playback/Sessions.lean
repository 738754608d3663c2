import QueryPlayback.MySQL.Sent
import QueryPlayback.Playback.Replay

/-!
# What the server gets of a log

A worker of a dispatcher is a MySQL thread. At any moment of a run it has sent
texts of the log only, in the order of the log and with repetitions only where
attempts have failed, and at the end nothing of its part of the log is missing.

## Implementation notes

A thread that waits for its queue is cut off there, so the calls of a worker so
far begin the calls of a thread that is given the entries the worker has been
given. The answers of the server are any, and so may depend on other workers.
-/

namespace QueryPlayback

open QueryEntry QueryEntries MySQL MySQLDBThread

section Texts

variable (options : QueryLogOptions)

/-- The text that the entry has the database execute. -/
def AnyEntry.query : AnyEntry → Bytes
  | queryLog e => e.data.getQuery (!options.runSetTimestamp)
  | generalLog e => e.query

/-- The text is what the log says. -/
theorem AnyEntry.query_content (e : AnyEntry) : e.content.query options = e.query options := by
  cases e <;> rfl

/-- The entry as a MySQL thread sees it. -/
def AnyEntry.threadEntry (e : AnyEntry) : ThreadEntry :=
  ⟨isQuit e, isShutdown e, some (e.query options)⟩

/-- An entry of the pool's queues as a MySQL thread sees it. -/
def QueueEntry.threadEntry : QueueEntry AnyEntry → ThreadEntry
  | query e => e.threadEntry options
  | finish => finishEntry

/-- The texts of the entries that are no quits. -/
def texts (entries : List AnyEntry) : List Bytes :=
  (entries.filter fun e => !isQuit e).map (·.query options)

theorem texts_begins {entries all : List AnyEntry} (h : entries <+: all) :
    texts options entries <+: texts options all :=
  List.IsPrefix.map _ (List.IsPrefix.filter _ h)

theorem threadEntry_queryText? (e : AnyEntry) :
    (e.threadEntry options).queryText? = if !isQuit e then some (e.query options) else none := by
  rw [ThreadEntry.queryText?, ThreadEntry.treatment, AnyEntry.threadEntry]
  cases isQuit e <;> rfl

theorem filterMap_queryText? (entries : List AnyEntry) :
    (entries.map (·.threadEntry options)).filterMap ThreadEntry.queryText? =
      texts options entries := by
  induction entries with
  | nil => rfl
  | cons e entries ih =>
      rw [List.map_cons, List.filterMap_cons, threadEntry_queryText?, ih, texts, texts,
        List.filter_cons]
      cases isQuit e <;> rfl

/-- The flags of the dispatchers leave the texts of every connection as they are. -/
theorem AnyEntries.Dispatchable.texts_eq {q : AnyEntries} (h : q.Dispatchable) (id : UInt64) :
    texts options (ofThread id (setShutdownOnLastQueryOfConn q).toPop) =
      texts options (ofThread id q.toPop) := by
  have htexts : ∀ l : List AnyEntry, texts options (ofThread id l) =
      ((l.map fun e => (getThreadId e, isQuit e, e.content)).filter
        fun p => !p.2.1 && decide (p.1 = id)).map fun p => p.2.2.query options := by
    intro l
    rw [List.filter_map, List.map_map, texts, ofThread, List.filter_filter]
    exact List.map_congr_left fun e _ => (e.query_content options).symm
  rw [htexts, h.same, ← htexts]

end Texts

section Taken

/-- Entries are taken in their order. -/
theorem processed_begins (queries : List ThreadEntry) : processed queries <+: queries := by
  induction queries with
  | nil => exact List.prefix_rfl
  | cons query queries ih =>
      rw [processed]
      cases query.isShutdown with
      | true => exact ⟨queries, rfl⟩
      | false => exact (List.prefix_cons_inj query).mpr ih

/-- Entries before the first shutdown are all taken. -/
theorem processed_append {init : List ThreadEntry}
    (h : ∀ query ∈ init, query.isShutdown = false) (rest : List ThreadEntry) :
    processed (init ++ rest) = init ++ processed rest := by
  induction init with
  | nil => rfl
  | cons query init ih =>
      obtain ⟨hquery, hinit⟩ := List.forall_mem_cons.mp h
      rw [List.cons_append, processed, hquery, ih hinit]
      rfl

theorem processed_append_singleton {init : List ThreadEntry}
    (h : ∀ query ∈ init, query.isShutdown = false) (last : ThreadEntry) :
    processed (init ++ [last]) = init ++ [last] := by
  rw [processed_append h, processed, processed, ite_self]

theorem processed_of_running {queries : List ThreadEntry}
    (h : ∀ query ∈ queries, query.isShutdown = false) : processed queries = queries := by
  have htaken := processed_append h []
  rwa [processed, List.append_nil] at htaken

end Taken

/-- What a MySQL thread sends that has been given these entries: the texts of its part of the
log, and all of them when it has been given everything. -/
structure SendsTexts (env : Env) (haveConnected : Bool) (given : List ThreadEntry)
    (everything : Prop) (texts : List Bytes) : Prop where
  /-- The order is that of the log, and nothing is attempted too often. -/
  inOrder : ∀ t, RunPrefix env haveConnected given t → Retried 0 (attempts env) texts (sent t)
  /-- A thread that returns has attempted every text, unless `max_retries + 1` wraps around to
  zero. -/
  attempted : everything → ∀ t, Returned env haveConnected given t →
    Retried (min 1 (attempts env)) (attempts env) texts (sent t)
  /-- Without failures it has sent every text once, under the same condition. -/
  once : everything → ∀ t, Returned env haveConnected given t → attempts env ≠ 0 →
    (∀ x ∈ t, x.fails = false) → sent t = texts

theorem sendsTexts_of_queryTexts {env : Env} {haveConnected : Bool} {given : List ThreadEntry}
    {everything : Prop} {texts : List Bytes} (hbegins : queryTexts given <+: texts)
    (hall : everything → queryTexts given = texts) :
    SendsTexts env haveConnected given everything texts where
  inOrder t ht := by
    obtain ⟨more, rfl⟩ := hbegins
    exact ht.retried.append_items more
  attempted heverything t ht := by
    rw [← hall heverything]
    exact ht.sendsAll _ (Or.inl (Nat.le_refl _))
  once heverything t ht hattempts hnone := by
    rw [← hall heverything]
    exact ht.sent_eq hattempts hnone

section Runs

variable {mktime : Tm → Int} {options : QueryLogOptions} {plugin : InputPlugin}
  {accurateMode : Bool} {data : Bytes}

namespace ThreadPerConnection

variable {depth : ℕ} {s : State AnyEntries AnyEntry}

/-- What the worker has been given are the first texts of its connection. -/
theorem queryTexts_begins
    (h : Inv (setShutdownOnLastQueryOfConn
      (parsedEntries mktime options plugin accurateMode data)).toPop s) {w : Worker AnyEntry}
    (hw : w ∈ s.workers) : queryTexts (w.stream.map (·.threadEntry options)) <+:
      texts options (ofThread w.threadId
        (parsedEntries mktime options plugin accurateMode data).toPop) := by
  have hready := plugin.getEntries_dispatchable mktime options accurateMode data
  rw [← hready.texts_eq]
  have htaken := (processed_begins (w.stream.map (·.threadEntry options))).filterMap
    ThreadEntry.queryText?
  rw [filterMap_queryText?, h.workers.stream w hw] at htaken
  rw [queryTexts, h.workers.stream w hw]
  refine htaken.trans (texts_begins options (List.IsPrefix.filter _ ?_))
  exact (List.prefix_append s.delivered s.inHand).trans h.popped_prefix

/-- A worker that has returned has been given all texts of its connection. -/
theorem queryTexts_of_returned
    (h : Inv (setShutdownOnLastQueryOfConn
      (parsedEntries mktime options plugin accurateMode data)).toPop s) (hpc : s.pc = .returned)
    {w : Worker AnyEntry} (hw : w ∈ s.workers) :
    queryTexts (w.stream.map (·.threadEntry options)) = texts options
      (ofThread w.threadId (parsedEntries mktime options plugin accurateMode data).toPop) := by
  have hready := plugin.getEntries_dispatchable mktime options accurateMode data
  obtain ⟨hdelivered, hreturned⟩ : s.delivered = _ ∧ ∀ w ∈ s.workers, w.pc = .returned :=
    h.at_pc hpc
  obtain ⟨init, last, hprocessed, -, hinit⟩ : ∃ init e,
      w.processed.map Handled.entry = init ++ [e] ∧ isShutdown e = true ∧
        ∀ x ∈ init, isShutdown x = false := by
    have hflags := (h.workers.ok w hw).2
    rwa [hreturned w hw] at hflags
  have hstream : w.stream = init ++ [last] := by
    have hqueue := ((h.complete hready.lastMarked hpc).2.2 w hw).2.1
    rw [Worker.stream, Worker.inHand, hreturned w hw, hqueue, List.append_nil, List.append_nil,
      hprocessed]
  have htaken : processed (w.stream.map (·.threadEntry options)) =
      w.stream.map (·.threadEntry options) := by
    rw [hstream, List.map_append, List.map_singleton, processed_append_singleton]
    intro query hquery
    obtain ⟨e, he, rfl⟩ := List.mem_map.mp hquery
    exact hinit e he
  rw [queryTexts, htaken, filterMap_queryText?, h.workers.stream w hw, hdelivered,
    hready.texts_eq]

/-- When the dispatcher has returned, every connection of the log has had a thread. -/
theorem exists_worker_of_returned
    (hinv : Inv (setShutdownOnLastQueryOfConn
      (parsedEntries mktime options plugin accurateMode data)).toPop s) (hpc : s.pc = .returned)
    {e : AnyEntry} (he : e ∈ (parsedEntries mktime options plugin accurateMode data).toPop) :
    ∃ w ∈ s.workers, w.threadId = getThreadId e := by
  have hready := plugin.getEntries_dispatchable mktime options accurateMode data
  have hid : getThreadId e ∈ (setShutdownOnLastQueryOfConn
      (parsedEntries mktime options plugin accurateMode data)).toPop.map getThreadId := by
    rw [hready.map_getThreadId]
    exact List.mem_map_of_mem he
  obtain ⟨e', he', hsame⟩ := List.mem_map.mp hid
  rw [← hsame]
  exact (hinv.complete hready.lastMarked hpc).2.1 e' he'

/-- On every connection the server gets the texts of the log, from one thread, in the order of
the log, and it has got all of them when the dispatcher returns. -/
theorem threadPerConnection_sends_log
    (h : Reaches depth (begin mktime options plugin accurateMode data) s) :
    (s.workers.map Worker.threadId).Nodup ∧
      (s.pc = .returned → ∀ e ∈ (parsedEntries mktime options plugin accurateMode data).toPop,
        ∃ w ∈ s.workers, w.threadId = getThreadId e) ∧
      ∀ w ∈ s.workers, ∀ env haveConnected,
        SendsTexts env haveConnected (w.stream.map (·.threadEntry options)) (s.pc = .returned)
          (texts options (ofThread w.threadId
            (parsedEntries mktime options plugin accurateMode data).toPop)) := by
  have hinv := inv_of_begin h
  refine ⟨hinv.workers.distinct, fun hpc e he => exists_worker_of_returned hinv hpc he,
    fun w hw env haveConnected => ?_⟩
  exact sendsTexts_of_queryTexts (queryTexts_begins hinv hw) fun hpc =>
    queryTexts_of_returned hinv hpc hw

/-- A server that accepts everything gets the two statements of the sample. -/
theorem threadPerConnection_sends_log_sample : ∃ s, Reaches 1
    (begin (fun _ => 0) sampleOptions .generalLog false sampleGeneralLog) s ∧ s.pc = .returned ∧
      ∀ w ∈ s.workers, ∀ t,
        Returned (accepting {} []) false (w.stream.map (·.threadEntry sampleOptions)) t →
          Retried 1 10 (texts sampleOptions (ofThread w.threadId
            (parsedEntries (fun _ => 0) sampleOptions .generalLog false
              sampleGeneralLog).toPop)) (sent t) := by
  obtain ⟨s, hs, hpc⟩ := sampleGeneralLog_run
  refine ⟨s, hs, hpc, fun w hw t ht => ?_⟩
  exact ((threadPerConnection_sends_log hs).2.2 w hw (accepting {} []) false).attempted hpc t ht

end ThreadPerConnection

namespace ThreadPool

variable {c : Config} {s : State AnyEntries AnyEntry}

/-- What a pool thread is given, with or without the last entry, are the texts of the entries. -/
theorem queryTexts_assigned {entries : List AnyEntry} (hno : ∀ e ∈ entries, isShutdown e = false)
    {rest : List (QueueEntry AnyEntry)} (hrest : rest = [] ∨ rest = [.finish]) :
    queryTexts ((entries.map QueueEntry.query ++ rest).map (·.threadEntry options)) =
      texts options entries := by
  have hentries : (entries.map QueueEntry.query).map (·.threadEntry options) =
      entries.map (·.threadEntry options) := List.map_map
  have hflags : ∀ query ∈ entries.map (·.threadEntry options), query.isShutdown = false := by
    intro query hquery
    obtain ⟨e, he, rfl⟩ := List.mem_map.mp hquery
    exact hno e he
  rw [List.map_append, hentries, queryTexts]
  rcases hrest with rfl | rfl
  · rw [List.map_nil, List.append_nil, processed_of_running hflags, filterMap_queryText?]
  · rw [List.map_singleton, processed_append_singleton hflags, List.filterMap_append,
      filterMap_queryText?]
    exact List.append_nil _

variable (options) in
/-- What a worker has been given are first texts of the entries that select it. -/
theorem Inv.queryTexts_begins {all : List AnyEntry} (hno : ∀ e ∈ all, isShutdown e = false)
    (h : Inv c all s) (hs : s.Cleared) {j : ℕ} {w : Worker (QueueEntry AnyEntry)}
    (hget : s.heap[j]? = some w) :
    queryTexts (w.stream.map (·.threadEntry options)) <+: texts options (assigned c j all) ∧
      (s.pc = .returned → queryTexts (w.stream.map (·.threadEntry options)) =
        texts options (assigned c j all)) := by
  have hassigned : ∀ entries, entries <+: all → ∀ e ∈ assigned c j entries, isShutdown e = false :=
    fun entries hentries e he => hno e (hentries.subset (List.mem_filter.mp he).1)
  rcases hs with hretired | ⟨hreturned, hempty⟩
  · rw [State.heap, hretired, List.append_nil] at hget
    have hdelivered : s.delivered <+: all :=
      (List.prefix_append s.delivered s.inHand).trans h.popped_prefix
    have htexts : queryTexts (w.stream.map (·.threadEntry options)) =
        texts options (assigned c j s.delivered) := by
      rw [h.workers.stream j w hget, sent]
      apply queryTexts_assigned (hassigned _ hdelivered)
      split
      · exact Or.inr rfl
      · exact Or.inl rfl
    refine ⟨?_, fun hpc => ?_⟩
    · rw [htexts]
      exact texts_begins options (List.IsPrefix.filter _ hdelivered)
    · have hworkers : s.workers = [] := (h.at_pc hpc).1
      rw [hworkers] at hget
      cases hget
  · rw [State.heap, hempty, List.nil_append] at hget
    obtain ⟨-, -, -, hworkers⟩ : s.workers = [] ∧ s.delivered = all ∧
        s.retired.length = c.threadsCount ∧ ∀ (j : ℕ) (w : Worker (QueueEntry AnyEntry)),
          s.retired[j]? = some w → w.pc = .returned ∧ w.Ok ∧
            w.stream = (assigned c j all).map QueueEntry.query ++ [QueueEntry.finish] :=
      h.at_pc hreturned
    have htexts : queryTexts (w.stream.map (·.threadEntry options)) =
        texts options (assigned c j all) := by
      rw [(hworkers j w hget).2.2]
      exact queryTexts_assigned (hassigned all List.prefix_rfl) (Or.inr rfl)
    refine ⟨?_, fun _ => htexts⟩
    rw [htexts]

/-- The server gets the texts of the log, those of one connection from one thread, in the order
of the log, and it has got all of them when the dispatcher returns. -/
theorem threadPool_sends_log (hpos : 0 < c.threadsCount)
    (h : Reaches c (begin mktime options plugin accurateMode data) s) {j : ℕ}
    {w : Worker (QueueEntry AnyEntry)} (hget : s.heap[j]? = some w) (env : Env)
    (haveConnected : Bool) :
    SendsTexts env haveConnected (w.stream.map (·.threadEntry options)) (s.pc = .returned)
      (texts options (assigned c j
        (parsedEntries mktime options plugin accurateMode data).toPop)) := by
  have hready := plugin.getEntries_dispatchable mktime options accurateMode data
  obtain ⟨hinv, hcleared⟩ := inv_of_begin hpos h
  obtain ⟨hbegins, hall⟩ := hinv.queryTexts_begins options hready.unmarked hcleared hget
  exact sendsTexts_of_queryTexts hbegins hall

/-- The only thread of the sample sends its two statements. -/
theorem threadPool_sends_log_sample : ∃ s, Reaches ⟨1, 1, fun _ => 0⟩
    (begin (fun _ => 0) sampleOptions .generalLog false sampleGeneralLog) s ∧ s.pc = .returned ∧
      ∀ w, s.heap[0]? = some w → ∀ t,
        Returned (accepting {} []) false (w.stream.map (·.threadEntry sampleOptions)) t →
          Retried 1 10 (texts sampleOptions (assigned ⟨1, 1, fun _ => 0⟩ 0
            (parsedEntries (fun _ => 0) sampleOptions .generalLog false
              sampleGeneralLog).toPop)) (MySQL.sent t) := by
  obtain ⟨s, hs, hpc⟩ := sampleGeneralLog_run
  refine ⟨s, hs, hpc, fun w hget t ht => ?_⟩
  exact (threadPool_sends_log (by decide) hs hget (accepting {} []) false).attempted hpc t ht

end ThreadPool

end Runs

end QueryPlayback
