import QueryPlayback.Lib.StableSort
import QueryPlayback.QueryLog.Data
import Mathlib.Logic.Function.Basic

/-!
# The sorting stage of `getEntries`

Start times are end times minus query times and can go backwards inside a
connection. A first pass raises each start time to the latest one seen on its
connection, and a stable sort by start time follows.
-/

namespace QueryPlayback

open StableSort

/-- The option flags of the query-log plugin. -/
structure QueryLogOptions where
  runSetTimestamp : Bool
  preserveQueryTime : Bool
  accurateMode : Bool
  disableSorting : Bool
  deriving DecidableEq, Repr

namespace QueryLogData

/-- The loop over the entries with the map `last_timestamp_of_conn`, whose
missing values are the default time point. -/
def adjustStartTimes (lastTimestampOfConn : UInt64 → TimePoint) :
    List QueryLogData → List QueryLogData
  | [] => []
  | d :: rest =>
      let (id, it) := d.parseThreadId
      if it.startTime < lastTimestampOfConn id then
        it.setStartTime (lastTimestampOfConn id) ::
          adjustStartTimes lastTimestampOfConn rest
      else
        it :: adjustStartTimes (Function.update lastTimestampOfConn id it.startTime) rest

/-- `std::stable_sort` with `operator<`. -/
def stableSort (entries : List QueryLogData) : List QueryLogData :=
  entries.mergeSort fun left right => !(right.lt left)

/-- The pass over the entries followed by the sort. -/
def sortEntries (entries : List QueryLogData) : List QueryLogData :=
  stableSort (adjustStartTimes (fun _ => epoch) entries)

/-- What `getEntries` does with the parsed entries. -/
def preprocess (options : QueryLogOptions) (entries : List QueryLogData) : List QueryLogData :=
  if !options.disableSorting || options.accurateMode then sortEntries entries else entries

theorem stableSort_eq_sortBy (entries : List QueryLogData) :
    stableSort entries = sortBy startTime entries := by
  have hle : (fun left right : QueryLogData => !(right.lt left)) =
      fun left right => decide (left.startTime ≤ right.startTime) := by
    funext left right
    rw [lt, ← decide_not, decide_eq_decide]
    exact not_lt
  rw [stableSort, sortBy, hle]

/-- What one iteration of the pass leaves in the list. -/
theorem adjustStartTimes_cons (last : UInt64 → TimePoint) (d : QueryLogData)
    (rest : List QueryLogData) :
    adjustStartTimes last (d :: rest) =
      d.parseThreadId.2.setStartTime (max (last d.getThreadId) d.startTime) ::
        adjustStartTimes
          (Function.update last d.getThreadId (max (last d.getThreadId) d.startTime)) rest := by
  simp only [adjustStartTimes, parseThreadId_snd_startTime]
  change (if d.startTime < last d.getThreadId then _ else _) = _
  by_cases hlt : d.startTime < last d.getThreadId
  · rw [if_pos hlt, max_eq_left hlt.le, Function.update_eq_self]
    rfl
  · rw [if_neg hlt, max_eq_right (not_lt.mp hlt)]
    congr 1
    rw [← parseThreadId_snd_startTime, setStartTime_self]

/-- The pass keeps every entry in place, with its bytes and its thread id. -/
theorem adjustStartTimes_identity (last : UInt64 → TimePoint) (entries : List QueryLogData) :
    (adjustStartTimes last entries).map (fun d => (d.data, d.getThreadId)) =
      entries.map fun d => (d.data, d.getThreadId) := by
  induction entries generalizing last with
  | nil => rfl
  | cons d rest ih => simp [adjustStartTimes_cons, ih]

/-- On one connection the pass leaves the running maxima of the raw start times. -/
theorem adjustStartTimes_startTimes (last : UInt64 → TimePoint) (entries : List QueryLogData)
    (id : UInt64) :
    ((adjustStartTimes last entries).filter (·.getThreadId = id)).map startTime =
      runningMax (last id) ((entries.filter (·.getThreadId = id)).map startTime) := by
  induction entries generalizing last with
  | nil => simp [adjustStartTimes]
  | cons d rest ih =>
      by_cases hid : d.getThreadId = id
      · subst hid
        simp [adjustStartTimes_cons, ih]
      · simp [adjustStartTimes_cons, ih, hid, Function.update_of_ne (Ne.symm hid)]

/-- After the pass no connection goes back in time. -/
theorem adjustStartTimes_pairwise (entries : List QueryLogData) (id : UInt64) :
    ((adjustStartTimes (fun _ => epoch) entries).filter (·.getThreadId = id)).Pairwise
      fun a b => a.startTime ≤ b.startTime := by
  have h := runningMax_pairwise epoch ((entries.filter (·.getThreadId = id)).map startTime)
  rw [← adjustStartTimes_startTimes (fun _ => epoch)] at h
  exact List.pairwise_map.mp h

/-- Sorting keeps each connection as the pass left it. -/
theorem filter_sortEntries (entries : List QueryLogData) (id : UInt64) :
    (sortEntries entries).filter (·.getThreadId = id) =
      (adjustStartTimes (fun _ => epoch) entries).filter (·.getThreadId = id) := by
  rw [sortEntries, stableSort_eq_sortBy]
  exact filter_sortBy startTime _ _ (adjustStartTimes_pairwise entries id)

private theorem filter_map_identity (l : List QueryLogData) (id : UInt64) :
    (l.filter (·.getThreadId = id)).map data =
      ((l.map fun d => (d.data, d.getThreadId)).filter (·.2 = id)).map Prod.fst := by
  rw [List.filter_map, List.map_map]
  rfl

/-- The sorting stage neither adds nor drops an entry. -/
theorem sortEntries_perm (entries : List QueryLogData) :
    ((sortEntries entries).map fun d => (d.data, d.getThreadId)).Perm
      (entries.map fun d => (d.data, d.getThreadId)) := by
  rw [← adjustStartTimes_identity (fun _ => epoch) entries, sortEntries, stableSort_eq_sortBy]
  exact (sortBy_perm startTime _).map _

/-- The preprocessing permutes the views of the entries. -/
theorem preprocess_perm (options : QueryLogOptions) (entries : List QueryLogData) :
    ((preprocess options entries).map data).Perm (entries.map data) := by
  unfold preprocess
  split
  · have h := (sortEntries_perm entries).map Prod.fst
    simpa only [List.map_map, Function.comp_def] using h
  · exact List.Perm.refl _

/-- The sorting stage permutes the entries, orders them by start time, keeps
the log order on every connection, and gives each entry the latest of the
epoch and the raw start times of its connection up to itself. -/
theorem sortEntries_spec (entries : List QueryLogData) :
    ((sortEntries entries).map fun d => (d.data, d.getThreadId)).Perm
        (entries.map fun d => (d.data, d.getThreadId)) ∧
      (sortEntries entries).Pairwise (fun a b => a.startTime ≤ b.startTime) ∧
      (∀ id, ((sortEntries entries).filter (·.getThreadId = id)).map data =
        (entries.filter (·.getThreadId = id)).map data) ∧
      ∀ (id : UInt64) (i : Nat)
        (h : i < ((sortEntries entries).filter (·.getThreadId = id)).length),
        (((sortEntries entries).filter (·.getThreadId = id))[i]).startTime =
          (((entries.filter (·.getThreadId = id)).take (i + 1)).map startTime).foldl max epoch := by
  refine ⟨sortEntries_perm entries, ?_, ?_, ?_⟩
  · rw [sortEntries, stableSort_eq_sortBy]
    exact sortBy_pairwise startTime _
  · intro id
    rw [filter_sortEntries, filter_map_identity, adjustStartTimes_identity,
      ← filter_map_identity]
  · intro id i h
    have htimes : ((sortEntries entries).filter (·.getThreadId = id)).map startTime =
        runningMax epoch ((entries.filter (·.getThreadId = id)).map startTime) := by
      rw [filter_sortEntries, adjustStartTimes_startTimes]
    have hi : i < (((sortEntries entries).filter (·.getThreadId = id)).map startTime).length := by
      simpa using h
    have hi' : i < (runningMax epoch
        ((entries.filter (·.getThreadId = id)).map startTime)).length := by rwa [← htimes]
    calc
      (((sortEntries entries).filter (·.getThreadId = id))[i]).startTime
          = (((sortEntries entries).filter (·.getThreadId = id)).map startTime)[i] := by simp
      _ = (runningMax epoch ((entries.filter (·.getThreadId = id)).map startTime))[i] :=
            List.getElem_of_eq htimes hi
      _ = _ := by rw [runningMax_getElem, List.map_take]

end QueryLogData

end QueryPlayback
