import QueryPlayback.Lib.Updates
import QueryPlayback.MySQL.Client
import Mathlib.Data.Finmap
import Mathlib.Data.UInt
import Mathlib.Algebra.BigOperators.Group.Finset.Basic
import Mathlib.Algebra.BigOperators.Group.Finset.Piecewise

/-!
# The simple report

`query_execution` is called by every worker thread behind every query. It takes
no lock: it performs a sequence of atomic updates of the counters and of the
concurrent map from connections to their number of queries.

## Implementation notes

A call is the list of its atomic updates, since what it does next depends on
its arguments only. The concurrent map is a finite map; its iterators stay
valid, so the count behind an insertion is found by its key.
-/

namespace QueryPlayback

/-- `class QueryResult` with the duration, in the microseconds it is kept in. -/
structure TimedResult extends QueryResult where
  duration : Int64 := 0
  deriving DecidableEq, Repr

/-- The arguments of `query_execution` without the text, which is only printed. -/
structure QueryExecution where
  threadId : UInt64
  expected : TimedResult
  actual : TimedResult
  deriving DecidableEq, Repr

/-- `ConnectionQueryCountMap`. -/
abbrev ConnectionQueryCountMap := Finmap fun _ : UInt64 => UInt64

/-- `class SimpleReportPlugin`: its counters and the map. -/
structure SimpleReportPlugin where
  nrExpectedRowsSent : UInt64 := 0
  nrActualRowsSent : UInt64 := 0
  nrQueriesRowsDiffer : UInt64 := 0
  nrQueriesExecuted : UInt64 := 0
  nrErrorQueries : UInt64 := 0
  totalExecutionTimeMs : UInt64 := 0
  expectedTotalExecutionTimeMs : UInt64 := 0
  nrQuickerQueries : UInt64 := 0
  nrSlowerQueries : UInt64 := 0
  connectionQueryCounts : ConnectionQueryCountMap := ∅
  deriving DecidableEq

namespace SimpleReportPlugin

/-- The atomic updates of the members of the plugin. -/
inductive Update where
  | nrErrorQueries
  | insertConnection (threadId : UInt64)
  | countConnection (threadId : UInt64)
  | nrQueriesRowsDiffer
  | nrQueriesExecuted
  | nrExpectedRowsSent (rows : ℕ)
  | nrActualRowsSent (rows : ℕ)
  | totalExecutionTimeMs (time : Int64)
  | expectedTotalExecutionTimeMs (time : Int64)
  | nrQuickerQueries
  | nrSlowerQueries
  deriving DecidableEq, Repr

/-- `insert` of the concurrent map: a connection that is there keeps its count. -/
def insertOrFind (m : ConnectionQueryCountMap) (threadId : UInt64) :
    ConnectionQueryCountMap :=
  if threadId ∈ m then m else m.insert threadId 0

/-- The increment through the iterator that the insertion has returned. -/
def increment (m : ConnectionQueryCountMap) (threadId : UInt64) :
    ConnectionQueryCountMap :=
  match m.lookup threadId with
  | some count => m.insert threadId (count + 1)
  | none => m

/-- What an update does. Increments and `fetch_and_add` wrap around. -/
def Update.apply : Update → SimpleReportPlugin → SimpleReportPlugin
  | .nrErrorQueries, r => { r with nrErrorQueries := r.nrErrorQueries + 1 }
  | .insertConnection threadId, r =>
      { r with connectionQueryCounts := insertOrFind r.connectionQueryCounts threadId }
  | .countConnection threadId, r =>
      { r with connectionQueryCounts := increment r.connectionQueryCounts threadId }
  | .nrQueriesRowsDiffer, r => { r with nrQueriesRowsDiffer := r.nrQueriesRowsDiffer + 1 }
  | .nrQueriesExecuted, r => { r with nrQueriesExecuted := r.nrQueriesExecuted + 1 }
  | .nrExpectedRowsSent rows, r =>
      { r with nrExpectedRowsSent := r.nrExpectedRowsSent + UInt64.ofNat rows }
  | .nrActualRowsSent rows, r =>
      { r with nrActualRowsSent := r.nrActualRowsSent + UInt64.ofNat rows }
  | .totalExecutionTimeMs time, r =>
      { r with totalExecutionTimeMs := r.totalExecutionTimeMs + time.toUInt64 }
  | .expectedTotalExecutionTimeMs time, r =>
      { r with expectedTotalExecutionTimeMs := r.expectedTotalExecutionTimeMs + time.toUInt64 }
  | .nrQuickerQueries, r => { r with nrQuickerQueries := r.nrQuickerQueries + 1 }
  | .nrSlowerQueries, r => { r with nrSlowerQueries := r.nrSlowerQueries + 1 }

/-- `query_execution`: the updates of a call in their order. -/
def queryExecution (ignoreRowResultDiffs : Bool) (c : QueryExecution) : List Update :=
  (if c.actual.error ≠ 0 then [.nrErrorQueries] else []) ++
  [.insertConnection c.threadId, .countConnection c.threadId] ++
  (if !ignoreRowResultDiffs && c.actual.rowsSent ≠ c.expected.rowsSent then
    [.nrQueriesRowsDiffer] else []) ++
  [.nrQueriesExecuted, .nrExpectedRowsSent c.expected.rowsSent,
    .nrActualRowsSent c.actual.rowsSent, .totalExecutionTimeMs c.actual.duration] ++
  (if c.expected.duration ≠ 0 then
    [.expectedTotalExecutionTimeMs c.expected.duration,
      if c.actual.duration < c.expected.duration then .nrQuickerQueries else .nrSlowerQueries]
  else [])

/-- The sum of the counts of the connections, as `print_report` computes it. -/
def totalQueries (m : ConnectionQueryCountMap) : UInt64 :=
  ∑ threadId ∈ m.keys, (m.lookup threadId).getD 0

/-- The count of a connection, zero when it is not in the map. -/
def countOf (m : ConnectionQueryCountMap) (threadId : UInt64) : UInt64 :=
  (m.lookup threadId).getD 0

section Map

variable (m : ConnectionQueryCountMap) (id id' : UInt64)

@[simp] theorem countOf_empty : countOf ∅ id = 0 := rfl

@[simp] theorem totalQueries_empty : totalQueries ∅ = 0 := rfl

@[simp] theorem countOf_insertOrFind :
    countOf (insertOrFind m id') id = countOf m id := by
  unfold insertOrFind
  split
  · rfl
  · rename_i hmem
    by_cases hid : id = id'
    · subst hid
      rw [countOf, countOf, Finmap.lookup_insert, Finmap.lookup_eq_none.mpr hmem]
      rfl
    · rw [countOf, countOf, Finmap.lookup_insert_of_ne m hid]

@[simp] theorem mem_insertOrFind : id ∈ insertOrFind m id' ↔ id = id' ∨ id ∈ m := by
  unfold insertOrFind
  split
  · rename_i hmem
    constructor
    · exact Or.inr
    · rintro (rfl | h)
      · exact hmem
      · exact h
  · exact Finmap.mem_insert

@[simp] theorem mem_increment : id ∈ increment m id' ↔ id ∈ m := by
  unfold increment
  split
  · rename_i count hlookup
    rw [Finmap.mem_insert]
    constructor
    · rintro (rfl | h)
      · exact Finmap.mem_of_lookup_eq_some hlookup
      · exact h
    · exact Or.inr
  · rfl

theorem countOf_increment (h : id' ∈ m) :
    countOf (increment m id') id = countOf m id + if id' = id then 1 else 0 := by
  obtain ⟨count, hlookup⟩ := Finmap.mem_iff.mp h
  unfold increment
  rw [hlookup]
  by_cases hid : id' = id
  · subst hid
    simp [countOf, hlookup]
  · simp [countOf, hid, Finmap.lookup_insert_of_ne m (Ne.symm hid)]

@[simp] theorem totalQueries_insertOrFind :
    totalQueries (insertOrFind m id) = totalQueries m := by
  have hkeys : (insertOrFind m id).keys = insert id m.keys := by
    ext k
    simp [Finmap.mem_keys]
  calc
    totalQueries (insertOrFind m id) =
        ∑ k ∈ insert id m.keys, countOf (insertOrFind m id) k := by rw [← hkeys]; rfl
    _ = ∑ k ∈ insert id m.keys, countOf m k := by simp
    _ = ∑ k ∈ m.keys, countOf m k := by
      apply Finset.sum_insert_of_eq_zero_if_notMem
      intro hmem
      rw [Finmap.mem_keys, ← Finmap.lookup_eq_none] at hmem
      rw [countOf, hmem, Option.getD_none]

theorem totalQueries_increment (h : id ∈ m) :
    totalQueries (increment m id) = totalQueries m + 1 := by
  have hkeys : (increment m id).keys = m.keys := by
    ext k
    simp [Finmap.mem_keys]
  calc
    totalQueries (increment m id) =
        ∑ k ∈ m.keys, countOf (increment m id) k := by rw [← hkeys]; rfl
    _ = ∑ k ∈ m.keys, (countOf m k + if id = k then 1 else 0) :=
      Finset.sum_congr rfl fun k _ => countOf_increment m k id h
    _ = (∑ k ∈ m.keys, countOf m k) + ∑ k ∈ m.keys, (if id = k then 1 else 0) :=
      Finset.sum_add_distrib
    _ = totalQueries m + 1 := by
      rw [Finset.sum_ite_eq, if_pos (Finmap.mem_keys.mpr h)]
      rfl

end Map

end SimpleReportPlugin

end QueryPlayback
