import QueryPlayback.QueryLog.Entries
import QueryPlayback.GeneralLog.Parse

/-!
# The shutdown flags of both logs

The slow log remembers by the address of its bytes which entry is the last one
of its connection and looks that up when the entry is popped. The general log
sets the flag of the entry itself. What they pop carries the same flags, which
are a function of the sequence of the thread ids.
-/

namespace QueryPlayback

open QueryEntry QueryEntries

/-- For every position of a sequence of thread ids whether its id does not occur later. -/
def lastFlags : List UInt64 → List Bool
  | [] => []
  | id :: ids => decide (id ∉ ids) :: lastFlags ids

section Popping

variable {σ ε : Type} [QueryEntries σ ε]

/-- Popping gives one sequence. -/
theorem Drains.unique {q : σ} {l l' : List ε} (h : Drains q l) (h' : Drains q l') : l' = l := by
  induction h generalizing l' with
  | done hnone => exact h'.eq_nil hnone
  | pop hsome _ ih =>
      obtain ⟨rest, rfl, hrest⟩ := h'.eq_cons hsome
      rw [ih hrest]

variable [QueryEntry ε]

/-- The entries that are popped, with the flag on exactly the last one of every connection. -/
structure PopsMarked (q : σ) (ids : List UInt64) (popped : List ε) : Prop where
  drains : Drains q popped
  unique : ∀ l, Drains q l → l = popped
  threadIds : popped.map getThreadId = ids
  flags : popped.map isShutdown = lastFlags ids
  last : ∀ pre e post, popped = pre ++ e :: post →
    (isShutdown e = true ↔ ∀ x ∈ post, getThreadId x ≠ getThreadId e)

omit [QueryEntries σ ε] in
theorem LastMarked.map_isShutdown {l : List ε} (h : LastMarked l) :
    l.map isShutdown = lastFlags (l.map getThreadId) := by
  induction l with
  | nil => rfl
  | cons e rest ih =>
      have hflag : isShutdown e = decide (getThreadId e ∉ rest.map getThreadId) := by
        rw [Bool.eq_iff_iff, decide_eq_true_eq, ← ofThread_eq_nil_iff]
        exact h.1
      rw [List.map_cons, List.map_cons, lastFlags, ih h.2, hflag]

theorem LastMarked.popsMarked {q : σ} {popped : List ε} (h : LastMarked popped)
    (hdrains : Drains q popped) : PopsMarked q (popped.map getThreadId) popped where
  drains := hdrains
  unique _ hl := hdrains.unique hl
  threadIds := rfl
  flags := h.map_isShutdown
  last pre e post hsplit := by
    rw [hsplit] at h
    rw [h.isShutdown_iff, ofThread, List.filter_eq_nil_iff]
    simp only [decide_eq_true_eq, ne_eq]

end Popping

namespace GeneralLogQueryEntries

/-- The ids the loop has seen are those of the entries behind it. -/
theorem mem_foldr_markStep_ids (l : List GeneralLogEntry) (id : UInt64) :
    id ∈ (l.foldr markStep ([], [])).1 ↔ id ∈ l.map getThreadId := by
  induction l with
  | nil => exact Iff.rfl
  | cons e l ih =>
      rw [List.foldr_cons, List.map_cons, List.mem_cons, ← ih, markStep]
      split
      · rename_i hseen
        constructor
        · exact Or.inr
        · rintro (rfl | h)
          · exact hseen
          · exact h
      · exact List.mem_cons

/-- The flag is the only thing the loop changes. -/
theorem foldr_markStep_entries {l : List GeneralLogEntry} (h : ∀ e ∈ l, e.shutdown = false) :
    (l.foldr markStep ([], [])).2.map (fun e => { e with shutdown := false }) = l := by
  induction l with
  | nil => rfl
  | cons e l ih =>
      obtain ⟨he, hl⟩ := List.forall_mem_cons.mp h
      have hself : { e with shutdown := false } = e := by rw [← he]
      rw [List.foldr_cons, markStep]
      split
      · rw [List.map_cons, ih hl, hself]
      · rw [List.map_cons, ih hl, GeneralLogEntry.setShutdown, hself]

theorem foldr_markStep_getThreadId (l : List GeneralLogEntry) :
    (l.foldr markStep ([], [])).2.map getThreadId = l.map getThreadId := by
  induction l with
  | nil => rfl
  | cons e l ih =>
      rw [List.foldr_cons, markStep]
      split
      · rw [List.map_cons, List.map_cons, ih]
      · rw [List.map_cons, List.map_cons, ih]
        rfl

/-- The loop flags exactly the last entry of every connection. -/
theorem foldr_markStep_lastMarked {l : List GeneralLogEntry} (h : ∀ e ∈ l, e.shutdown = false) :
    LastMarked (l.foldr markStep ([], [])).2 := by
  induction l with
  | nil => trivial
  | cons e l ih =>
      obtain ⟨he, hl⟩ := List.forall_mem_cons.mp h
      have hids := foldr_markStep_getThreadId l
      rw [List.foldr_cons, markStep]
      split
      · rename_i hseen
        have hmem : getThreadId e ∈ l.map getThreadId := (mem_foldr_markStep_ids l _).mp hseen
        refine ⟨?_, ih hl⟩
        rw [ofThread_eq_nil_iff, hids]
        constructor
        · intro hflag
          rw [show isShutdown e = false from he] at hflag
          cases hflag
        · exact fun hnot => absurd hmem hnot
      · rename_i hnew
        refine ⟨?_, ih hl⟩
        rw [ofThread_eq_nil_iff, hids]
        constructor
        · exact fun _ hmem => hnew ((mem_foldr_markStep_ids l _).mpr hmem)
        · exact fun _ => rfl

end GeneralLogQueryEntries

/-- No entry of a general log has been flagged by the parser. -/
theorem ParseGeneralLog.getEntries_unmarked (log : Bytes) :
    ∀ e ∈ (getEntries log).entries, e.shutdown = false := by
  rw [getEntries_entries]
  intro e he
  obtain ⟨line, -, hline⟩ := List.mem_filterMap.mp he
  rw [lineEntry] at hline
  split at hline
  · cases hline
  · split at hline
    · cases hline
      rfl
    · cases hline

theorem ParseGeneralLog.getEntries_pos (log : Bytes) : (getEntries log).pos = 0 := by
  unfold getEntries
  split <;> rfl

/-- Setting the flags keeps the views and the start times. -/
theorem QueryLogEntries.toPop_setShutdown_data (q : QueryLogEntries) :
    q.setShutdownOnLastQueryOfConn.toPop.map (fun e => (e.data.data, e.data.startTime)) =
      q.entries.map fun d => (d.data, d.startTime) := by
  rw [toPop, setShutdownOnLastQueryOfConn]
  dsimp only
  rw [foldr_markStep_entries, List.append_nil, List.map_map, List.map_map]
  apply List.map_congr_left
  intro d _
  exact Prod.ext (QueryLogData.parseThreadId_snd_data d)
    (QueryLogData.parseThreadId_snd_startTime d)

/-- Both logs pop every entry once in the order of their lists and flag exactly the last one
of every connection, so equal thread ids are flagged equally. -/
theorem setShutdownOnLastQueryOfConn_popsMarked :
    (∀ (mktime : Tm → Int) (options : QueryLogOptions) (data : StringRef),
      ∃ (q : QueryLogEntries) (accurate : Bool) (popped : List QueryLogEntry),
        getEntries mktime options data = some (q, accurate) ∧
        PopsMarked q.setShutdownOnLastQueryOfConn (q.entries.map (·.getThreadId)) popped ∧
        popped.map (fun e => (e.data.data, e.data.startTime)) =
          q.entries.map fun d => (d.data, d.startTime)) ∧
    (∀ log : Bytes, ∃ popped : List GeneralLogEntry,
      PopsMarked (ParseGeneralLog.getEntries log).setShutdownOnLastQueryOfConn
        ((ParseGeneralLog.getEntries log).entries.map (·.threadId)) popped ∧
      popped.map (fun e => { e with shutdown := false }) =
        (ParseGeneralLog.getEntries log).entries) := by
  constructor
  · intro mktime options data
    obtain ⟨q, accurate, hread⟩ : ∃ q accurate, getEntries mktime options data =
        some (q, accurate) := ⟨_, _, getEntries_eq mktime options data⟩
    set marked := q.setShutdownOnLastQueryOfConn with hmarked
    have hlast : LastMarked marked.toPop := (QueryLogEntries.getEntries_fresh hread).lastMarked
    have hids : marked.toPop.map getThreadId = q.entries.map (·.getThreadId) := by
      have hkept := congrArg (List.map Prod.snd) (QueryLogEntries.toPop_setShutdown q)
      rwa [List.map_map, List.map_map] at hkept
    refine ⟨q, accurate, marked.toPop, hread, ?_, ?_⟩
    · rw [← hids]
      exact hlast.popsMarked marked.drains_toPop
    · exact QueryLogEntries.toPop_setShutdown_data q
  · intro log
    set q := ParseGeneralLog.getEntries log with hq
    have hunmarked : ∀ e ∈ q.entries, e.shutdown = false := ParseGeneralLog.getEntries_unmarked log
    set popped := (q.entries.foldr GeneralLogQueryEntries.markStep ([], [])).2 with hpopped
    have hids : popped.map getThreadId = q.entries.map (·.threadId) :=
      GeneralLogQueryEntries.foldr_markStep_getThreadId q.entries
    have hdrains : Drains q.setShutdownOnLastQueryOfConn popped := by
      have hpos : q.pos = 0 := ParseGeneralLog.getEntries_pos log
      have hall := GeneralLogQueryEntries.drains_entries popped q.numEntries q.numQueries 0
      rwa [List.drop_zero, ← hpos] at hall
    refine ⟨popped, ?_, GeneralLogQueryEntries.foldr_markStep_entries hunmarked⟩
    rw [← hids]
    exact (GeneralLogQueryEntries.foldr_markStep_lastMarked hunmarked).popsMarked hdrains

end QueryPlayback
