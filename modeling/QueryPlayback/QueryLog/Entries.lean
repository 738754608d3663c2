import QueryPlayback.Dispatch.Entry
import QueryPlayback.QueryLog.Blocks

/-!
# The entries of a slow log as dispatchers see them

`popEntry` and `setShutdownOnLastQueryOfConn` of `QueryLogEntries`. Which
entries close their connection is remembered by the address of their bytes,
so it matters that no two entries of one log share it.
-/

namespace QueryPlayback

open QueryEntry QueryEntries

/-- `class QueryLogEntry`. -/
structure QueryLogEntry where
  data : QueryLogData
  shutdown : Bool
  deriving DecidableEq, Repr

instance : QueryEntry QueryLogEntry where
  getThreadId e := e.data.getThreadId
  isQuit e := e.data.isQuit
  isShutdown e := e.shutdown

namespace QueryLogEntries

/-- `popEntry()`. -/
def popEntry (q : QueryLogEntries) : Option (QueryLogEntry × QueryLogEntries) :=
  match q.entries with
  | [] => none
  | data :: entries =>
      some (⟨data, decide (data.data.offset ∈ q.lastQueryOfConn)⟩, { q with entries := entries })

/-- The variables of the loop in `setShutdownOnLastQueryOfConn`. -/
structure Marking where
  threadIds : Finset UInt64
  lastQueryOfConn : Finset Nat
  entries : List QueryLogData

/-- The body of the loop, which goes from the last entry to the first one. -/
def markStep (it : QueryLogData) (m : Marking) : Marking where
  threadIds := insert it.parseThreadId.1 m.threadIds
  lastQueryOfConn :=
    if it.parseThreadId.1 ∈ m.threadIds then m.lastQueryOfConn
    else insert it.data.offset m.lastQueryOfConn
  entries := it.parseThreadId.2 :: m.entries

/-- `setShutdownOnLastQueryOfConn()`. -/
def setShutdownOnLastQueryOfConn (q : QueryLogEntries) : QueryLogEntries :=
  let m := q.entries.foldr markStep ⟨∅, q.lastQueryOfConn, []⟩
  { q with entries := m.entries, lastQueryOfConn := m.lastQueryOfConn }

instance : QueryEntries QueryLogEntries QueryLogEntry where
  popEntry := popEntry
  setShutdownOnLastQueryOfConn := setShutdownOnLastQueryOfConn

/-- The entries as they come out of `popEntry`. -/
def toPop (q : QueryLogEntries) : List QueryLogEntry :=
  q.entries.map fun data => ⟨data, decide (data.data.offset ∈ q.lastQueryOfConn)⟩

theorem drains_toPop (q : QueryLogEntries) : Drains q q.toPop := by
  obtain ⟨entries, last, numEntries, numQueries⟩ := q
  induction entries with
  | nil => exact .done rfl
  | cons data entries ih => exact .pop rfl ih

/-- What `getEntries` returns: no flag has been set, and the entries lie at
different places of the log. -/
structure Fresh (q : QueryLogEntries) : Prop where
  unmarked : q.lastQueryOfConn = ∅
  places : (q.entries.map (·.data.offset)).Nodup

theorem getEntries_fresh {mktime : Tm → Int} {options : QueryLogOptions} {data : StringRef}
    {q : QueryLogEntries} {accurate : Bool}
    (h : getEntries mktime options data = some (q, accurate)) : q.Fresh := by
  have hviews := (getEntries_views mktime h).map StringRef.offset
  rw [List.map_map, List.map_map] at hviews
  have hsorted := (blocks_offsets mktime data.after data.offset epoch
    (Lines.lines newline data.chars)).2
  have hnodup : (((logBlocks mktime data).filter (·.hasSql)).map Block.offset).Nodup := by
    refine List.pairwise_map.mpr ((hsorted.sublist List.filter_sublist).imp ?_)
    intro b b' hlt
    exact hlt.ne
  have hunmarked : q.lastQueryOfConn = ∅ := by
    rw [getEntries_eq, Option.some.injEq, Prod.mk.injEq] at h
    exact h.1 ▸ rfl
  exact ⟨hunmarked, hviews.nodup_iff.mpr hnodup⟩

section Marking

theorem foldr_markStep_entries (l : List QueryLogData) (m : Marking) :
    (l.foldr markStep m).entries = l.map (·.parseThreadId.2) ++ m.entries := by
  induction l with
  | nil => rfl
  | cons d l ih => simp [markStep, ih]

theorem mem_foldr_markStep_threadIds (l : List QueryLogData) (last : Finset Nat) (id : UInt64) :
    id ∈ (l.foldr markStep ⟨∅, last, []⟩).threadIds ↔ id ∈ l.map QueryLogData.getThreadId := by
  induction l with
  | nil => simp
  | cons d l ih =>
      rw [List.foldr_cons, List.map_cons, List.mem_cons, ← ih, markStep, Finset.mem_insert]
      rfl

theorem foldr_markStep_subset {l : List QueryLogData} {offset : Nat}
    (h : offset ∈ (l.foldr markStep ⟨∅, ∅, []⟩).lastQueryOfConn) :
    offset ∈ l.map (·.data.offset) := by
  induction l with
  | nil => simp at h
  | cons d l ih =>
      rw [List.map_cons, List.mem_cons]
      rw [List.foldr_cons, markStep] at h
      dsimp only at h
      split at h
      · exact Or.inr (ih h)
      · exact (Finset.mem_insert.mp h).imp_right ih

/-- The loop flags exactly the last entry of every connection. -/
theorem foldr_markStep_lastMarked {l : List QueryLogData}
    (hplaces : (l.map (·.data.offset)).Nodup) :
    LastMarked ((l.map (·.parseThreadId.2)).map fun data => (⟨data,
      decide (data.data.offset ∈ (l.foldr markStep ⟨∅, ∅, []⟩).lastQueryOfConn)⟩ :
        QueryLogEntry)) := by
  induction l with
  | nil => trivial
  | cons d l ih =>
      obtain ⟨hnew, hplaces⟩ := List.nodup_cons.mp hplaces
      set m := l.foldr markStep ⟨∅, ∅, []⟩ with hm
      have hstep : ((d :: l).foldr markStep ⟨∅, ∅, []⟩) = markStep d m := rfl
      have hrest : ∀ x ∈ l.map (·.parseThreadId.2),
          (x.data.offset ∈ (markStep d m).lastQueryOfConn ↔ x.data.offset ∈ m.lastQueryOfConn) := by
        intro x hx
        obtain ⟨y, hy, rfl⟩ := List.mem_map.mp hx
        have hne : y.data.offset ≠ d.data.offset := by
          intro hsame
          exact hnew (List.mem_map.mpr ⟨y, hy, hsame⟩)
        rw [QueryLogData.parseThreadId_snd_data, markStep]
        dsimp only
        split
        · rfl
        · rw [Finset.mem_insert, or_iff_right hne]
      have hids : ∀ f : QueryLogData → Bool,
          ((l.map (·.parseThreadId.2)).map fun data => (⟨data, f data⟩ : QueryLogEntry)).map
            getThreadId = l.map QueryLogData.getThreadId := by
        intro f
        rw [List.map_map, List.map_map]
        exact List.map_congr_left fun x _ => QueryLogData.getThreadId_parseThreadId_snd x
      have hmap : (l.map (·.parseThreadId.2)).map (fun data => (⟨data,
            decide (data.data.offset ∈ (markStep d m).lastQueryOfConn)⟩ : QueryLogEntry)) =
          (l.map (·.parseThreadId.2)).map fun data => (⟨data,
            decide (data.data.offset ∈ m.lastQueryOfConn)⟩ : QueryLogEntry) := by
        apply List.map_congr_left
        intro x hx
        rw [decide_eq_decide.mpr (hrest x hx)]
      rw [hstep, List.map_cons, List.map_cons, hmap]
      refine ⟨?_, ih hplaces⟩
      rw [ofThread_eq_nil_iff, hids]
      change decide (d.parseThreadId.2.data.offset ∈ (markStep d m).lastQueryOfConn) = true ↔
        d.parseThreadId.2.getThreadId ∉ l.map QueryLogData.getThreadId
      rw [QueryLogData.parseThreadId_snd_data, QueryLogData.getThreadId_parseThreadId_snd,
        ← mem_foldr_markStep_threadIds l ∅, decide_eq_true_eq, markStep]
      dsimp only
      have hnot : d.data.offset ∉ m.lastQueryOfConn := fun hmem => hnew (foldr_markStep_subset hmem)
      by_cases hid : d.parseThreadId.1 ∈ m.threadIds
      · simp only [hid, if_true]
        exact ⟨fun h => absurd h hnot, fun h => absurd hid h⟩
      · simp only [hid, if_false]
        exact ⟨fun _ => hid, fun _ => Finset.mem_insert_self _ _⟩

end Marking

/-- After `setShutdownOnLastQueryOfConn` exactly the last entries of the connections are flagged. -/
theorem Fresh.lastMarked {q : QueryLogEntries} (h : q.Fresh) :
    LastMarked q.setShutdownOnLastQueryOfConn.toPop := by
  have hmarked := foldr_markStep_lastMarked h.places
  rw [toPop, setShutdownOnLastQueryOfConn, h.unmarked]
  dsimp only
  rw [foldr_markStep_entries, List.append_nil]
  exact hmarked

/-- Setting the flags keeps the views and the thread ids. -/
theorem toPop_setShutdown (q : QueryLogEntries) :
    q.setShutdownOnLastQueryOfConn.toPop.map (fun e => (e.data.data, getThreadId e)) =
      q.entries.map fun d => (d.data, d.getThreadId) := by
  rw [toPop, setShutdownOnLastQueryOfConn]
  dsimp only
  rw [foldr_markStep_entries, List.append_nil, List.map_map, List.map_map]
  apply List.map_congr_left
  intro d _
  exact Prod.ext (QueryLogData.parseThreadId_snd_data d)
    (QueryLogData.getThreadId_parseThreadId_snd d)

/-- Without flags no entry stops a worker. -/
theorem Fresh.toPop_not_shutdown {q : QueryLogEntries} (h : q.Fresh) :
    ∀ e ∈ q.toPop, isShutdown e = false := by
  intro e he
  obtain ⟨d, -, rfl⟩ := List.mem_map.mp he
  change decide (d.data.offset ∈ q.lastQueryOfConn) = false
  simp [h.unmarked]

end QueryLogEntries

end QueryPlayback
