import QueryPlayback.Report.Replayed
import Mathlib.Data.Finset.Card

/-!
# What is printed at the end

`print_report` of the simple report goes through the hash map of the connections
in whatever order the map has, adds up their counts and puts them into a map
that is ordered by the connections. The order of the hash map leaves no trace.

## Implementation notes

A report is printed as its numbers, without the texts around them. The average
is the quotient of two of the numbers. The durations are in microseconds.
-/

namespace QueryPlayback

open Updates Relation QueryEntry QueryEntries SimpleReportPlugin

/-- The numbers that the simple report prints, in their order. -/
structure SimpleReportText where
  executed : UInt64
  executionTime : UInt64
  expectedExecutionTime : UInt64
  quicker : UInt64
  slower : UInt64
  errors : UInt64
  expectedRows : UInt64
  rows : UInt64
  difference : Int64
  rowsDiffer : UInt64
  /-- The average is the number of these queries by the number of connections. -/
  totalQueries : UInt64
  connections : UInt64
  /-- The lines of the connections, if they are shown. -/
  perThread : Option (List (UInt64 × UInt64))
  deriving DecidableEq, Repr

/-- `SortedConnectionQueryCountMap`. -/
abbrev SortedConnectionQueryCountMap := Std.TreeMap UInt64 UInt64

/-- `llabs`. -/
def llabs (n : Int64) : Int64 := if n < 0 then -n else n

namespace SimpleReportPlugin

/-- The body of the loop over the connections: `sorted_conn_count` and `total_queries`. -/
def collectConnection (st : SortedConnectionQueryCountMap × UInt64) (connCount : UInt64 × UInt64) :
    SortedConnectionQueryCountMap × UInt64 :=
  (st.1.insertIfNew connCount.1 connCount.2, st.2 + connCount.2)

/-- `print_report`, with the elements of the map in the order in which the loop gets them. -/
def printReport (showConnectionQueryCount : Bool) (elements : List (UInt64 × UInt64))
    (r : SimpleReportPlugin) : SimpleReportText :=
  let (sortedConnCount, totalQueries) := elements.foldl collectConnection (∅, 0)
  { executed := r.nrQueriesExecuted
    executionTime := r.totalExecutionTimeMs
    expectedExecutionTime := r.expectedTotalExecutionTimeMs
    quicker := r.nrQuickerQueries
    slower := r.nrSlowerQueries
    errors := r.nrErrorQueries
    expectedRows := r.nrExpectedRowsSent
    rows := r.nrActualRowsSent
    difference := llabs (r.nrExpectedRowsSent.toInt64 - r.nrActualRowsSent.toInt64)
    rowsDiffer := r.nrQueriesRowsDiffer
    totalQueries := totalQueries
    connections := UInt64.ofNat r.connectionQueryCounts.keys.card
    perThread := if showConnectionQueryCount then some sortedConnCount.toList else none }

/-- The loop gets every element of the map once, in some order. -/
structure Iterates (m : ConnectionQueryCountMap) (elements : List (UInt64 × UInt64)) : Prop where
  distinct : (elements.map Prod.fst).Nodup
  mem_iff : ∀ id n, (id, n) ∈ elements ↔ m.lookup id = some n

/-- What the report of a list of calls prints. -/
structure Printed (showConnectionQueryCount : Bool) (calls : List QueryExecution)
    (p : SimpleReportText) : Prop where
  executed : p.executed = UInt64.ofNat calls.length
  /-- The queries of all connections are the executed ones. -/
  total : p.totalQueries = p.executed
  connections : p.connections = UInt64.ofNat (calls.map (·.threadId)).toFinset.card
  shown : p.perThread.isSome = showConnectionQueryCount
  ascending : ∀ table ∈ p.perThread, table.Pairwise fun a b => a.1 < b.1
  lines : ∀ table ∈ p.perThread, ∀ id n, (id, n) ∈ table ↔
    (∃ c ∈ calls, c.threadId = id) ∧ n = UInt64.ofNat (calls.countP (·.threadId = id))
  /-- As long as the numbers of rows have no more than 63 bits. -/
  difference : (calls.map (·.expected.rowsSent)).sum < 2 ^ 63 →
    (calls.map (·.actual.rowsSent)).sum < 2 ^ 63 →
    p.difference.toInt = |(((calls.map (·.expected.rowsSent)).sum : ℕ) : ℤ) -
      ((calls.map (·.actual.rowsSent)).sum : ℕ)|

section Connections

variable {m : ConnectionQueryCountMap} {elements : List (UInt64 × UInt64)}

theorem snd_foldl_collectConnection (elements : List (UInt64 × UInt64))
    (st : SortedConnectionQueryCountMap × UInt64) :
    (elements.foldl collectConnection st).2 = st.2 + (elements.map Prod.snd).sum := by
  induction elements generalizing st with
  | nil => exact (UInt64.add_zero _).symm
  | cons a elements ih =>
      rw [List.foldl_cons, ih, collectConnection, List.map_cons, List.sum_cons, add_assoc]

/-- The first count of a connection that is not in the map yet is the one that is kept. -/
theorem getElem?_foldl_collectConnection (elements : List (UInt64 × UInt64))
    (st : SortedConnectionQueryCountMap × UInt64) (id : UInt64) :
    (elements.foldl collectConnection st).1[id]? =
      st.1[id]?.or ((elements.find? (·.1 = id)).map Prod.snd) := by
  induction elements generalizing st with
  | nil => simp
  | cons a elements ih =>
      have hinsert : (collectConnection st a).1[id]? =
          st.1[id]?.or (if a.1 = id then some a.2 else none) := by
        rw [collectConnection, Std.TreeMap.getElem?_insertIfNew]
        by_cases hid : a.1 = id
        · subst hid
          cases hget : st.1[a.1]? with
          | none => simp [Std.TreeMap.mem_iff_isSome_getElem?, hget]
          | some n => simp [Std.TreeMap.mem_iff_isSome_getElem?, hget]
        · simp [hid]
      rw [List.foldl_cons, ih, hinsert, List.find?_cons, Option.or_assoc]
      by_cases hid : a.1 = id <;> simp [hid]

theorem find?_of_iterates (h : Iterates m elements) (id : UInt64) :
    (elements.find? (·.1 = id)).map Prod.snd = m.lookup id := by
  cases hfind : elements.find? (·.1 = id) with
  | none =>
      cases hlookup : m.lookup id with
      | none => rfl
      | some n =>
          have hnone := List.find?_eq_none.mp hfind (id, n) ((h.mem_iff id n).mpr hlookup)
          simp at hnone
  | some a =>
      obtain rfl : a.1 = id := by simpa using List.find?_some hfind
      exact ((h.mem_iff a.1 a.2).mp (List.mem_of_find?_eq_some hfind)).symm

/-- The ordered map has the counts of the hash map. -/
theorem getElem?_collected (h : Iterates m elements) (id : UInt64) :
    (elements.foldl collectConnection (∅, 0)).1[id]? = m.lookup id := by
  rw [getElem?_foldl_collectConnection, find?_of_iterates h, Std.TreeMap.getElem?_emptyc,
    Option.none_or]

/-- The loop adds up all counts of the hash map. -/
theorem total_collected (h : Iterates m elements) :
    (elements.foldl collectConnection (∅, 0)).2 = totalQueries m := by
  have hkeys : m.keys = (elements.map Prod.fst).toFinset := by
    ext id
    rw [Finmap.mem_keys, Finmap.mem_iff, List.mem_toFinset, List.mem_map]
    constructor
    · rintro ⟨n, hn⟩
      exact ⟨(id, n), (h.mem_iff id n).mpr hn, rfl⟩
    · rintro ⟨⟨id, n⟩, hmem, rfl⟩
      exact ⟨n, (h.mem_iff id n).mp hmem⟩
  rw [snd_foldl_collectConnection, UInt64.zero_add, totalQueries, hkeys,
    List.sum_toFinset _ h.distinct, List.map_map]
  congr 1
  refine List.map_congr_left fun a ha => ?_
  rw [Function.comp_apply, (h.mem_iff a.1 a.2).mp ha, Option.getD_some]

end Connections

section Difference

theorem sum_ofNat {A : Type} (f : A → ℕ) (as : List A) :
    (as.map fun a => UInt64.ofNat (f a)).sum = UInt64.ofNat (as.map f).sum := by
  induction as with
  | nil => rfl
  | cons a as ih => rw [List.map_cons, List.sum_cons, ih, List.map_cons, List.sum_cons,
      UInt64.ofNat_add]

theorem toInt_toInt64 {n : ℕ} (h : n < 2 ^ 63) : (UInt64.ofNat n).toInt64.toInt = n := by
  rw [UInt64.toInt64_ofNat', Int64.toInt_ofNat_of_lt h]

/-- Numbers with 63 bits have a difference with 64 bits. -/
theorem llabs_sub {a b : ℕ} (ha : a < 2 ^ 63) (hb : b < 2 ^ 63) :
    (llabs ((UInt64.ofNat a).toInt64 - (UInt64.ofNat b).toInt64)).toInt = |(a : ℤ) - b| := by
  have hsub : ((UInt64.ofNat a).toInt64 - (UInt64.ofNat b).toInt64).toInt = (a : ℤ) - b := by
    rw [Int64.toInt_sub, toInt_toInt64 ha, toInt_toInt64 hb]
    exact Int.bmod_eq_of_le (by omega) (by omega)
  rw [llabs]
  split_ifs with hneg
  · rw [Int64.lt_iff_toInt_lt, hsub] at hneg
    have hneg : (a : ℤ) - b < 0 := hneg
    rw [Int64.toInt_neg, hsub, abs_of_neg hneg]
    exact Int.bmod_eq_of_le (by omega) (by omega)
  · rw [Int64.lt_iff_toInt_lt, hsub] at hneg
    rw [hsub, abs_of_nonneg (not_lt.mp hneg)]

end Difference

/-- The report of a list of calls is printed, whatever the order of the hash map. -/
theorem Totals.printed {ignoreRowResultDiffs : Bool} {calls : List QueryExecution}
    {r : SimpleReportPlugin} (h : Totals ignoreRowResultDiffs calls r)
    (showConnectionQueryCount : Bool) {elements : List (UInt64 × UInt64)}
    (helements : Iterates r.connectionQueryCounts elements) :
    Printed showConnectionQueryCount calls
      (printReport showConnectionQueryCount elements r) := by
  have htable : ∀ table ∈ (printReport showConnectionQueryCount elements r).perThread,
      table = (elements.foldl collectConnection (∅, 0)).1.toList := by
    intro table htable
    rw [printReport] at htable
    cases showConnectionQueryCount with
    | false => cases htable
    | true => exact (Option.some.inj htable).symm
  constructor
  case executed => exact h.executed
  case total => exact (total_collected helements).trans (h.connections.trans h.executed.symm)
  case connections =>
    have hkeys : r.connectionQueryCounts.keys = (calls.map (·.threadId)).toFinset := by
      ext id
      rw [Finmap.mem_keys, ← not_iff_not, ← Finmap.lookup_eq_none, h.connection, List.mem_toFinset,
        List.mem_map]
      split_ifs with hcall <;> simp [hcall]
    rw [printReport, hkeys]
  case shown => cases showConnectionQueryCount <;> rfl
  case ascending =>
    intro table hmem
    rw [htable table hmem]
    refine Std.TreeMap.ordered_keys_toList.imp fun hlt => ?_
    exact Std.compare_eq_lt.mp hlt
  case lines =>
    intro table hmem id n
    rw [htable table hmem, Std.TreeMap.mem_toList_iff_getElem?_eq_some,
      getElem?_collected helements, h.connection]
    split_ifs with hcall
    · rw [Option.some.injEq, eq_comm]
      exact (and_iff_right hcall).symm
    · exact iff_of_false (by simp) fun h => hcall h.1
  case difference =>
    intro hexpected hactual
    change (llabs (r.nrExpectedRowsSent.toInt64 - r.nrActualRowsSent.toInt64)).toInt = _
    rw [h.expectedRowsSent, h.actualRowsSent, sum_ofNat, sum_ofNat]
    exact llabs_sub hexpected hactual

/-- A hash map has an order of its elements. -/
theorem exists_iterates (m : ConnectionQueryCountMap) : ∃ elements, Iterates m elements := by
  induction m using Finmap.induction_on with
  | H l =>
      refine ⟨l.entries.map fun a => (a.1, a.2), ?_, fun id n => ?_⟩
      · rw [List.map_map]
        exact l.keys_nodup
      · rw [Finmap.lookup_toFinmap, ← Option.mem_def, AList.mem_lookup_iff, List.mem_map]
        constructor
        · rintro ⟨⟨id', n'⟩, hmem, heq⟩
          cases heq
          exact hmem
        · exact fun hmem => ⟨⟨id, n⟩, hmem, rfl⟩

end SimpleReportPlugin

section Log

/-- The connections of a log in ascending order, with the numbers of their statements. -/
def perThreadResults (entries : List AnyEntry) : List (UInt64 × UInt64) :=
  (((entries.filter fun e => !isQuit e).map getThreadId).dedup.mergeSort (· ≤ ·)).map fun id =>
    (id, UInt64.ofNat ((ofThread id entries).countP fun e => !isQuit e))

theorem mem_perThreadResults {entries : List AnyEntry} {id n : UInt64} :
    (id, n) ∈ perThreadResults entries ↔
      (∃ e ∈ entries, isQuit e = false ∧ getThreadId e = id) ∧
        n = UInt64.ofNat ((ofThread id entries).countP fun e => !isQuit e) := by
  simp only [perThreadResults, List.mem_map, List.mem_mergeSort, List.mem_dedup, List.mem_filter,
    Bool.not_eq_true', Prod.mk.injEq, and_assoc]
  constructor
  · rintro ⟨_, he, rfl, rfl⟩
    exact ⟨he, rfl⟩
  · rintro ⟨he, rfl⟩
    exact ⟨id, he, rfl, rfl⟩

theorem pairwise_perThreadResults (entries : List AnyEntry) :
    (perThreadResults entries).Pairwise fun a b => a.1 < b.1 := by
  rw [perThreadResults, List.pairwise_map]
  generalize (entries.filter fun e => !isQuit e).map getThreadId = ids
  have hsorted : (ids.dedup.mergeSort (· ≤ ·)).Pairwise fun a b => decide (a ≤ b) := by
    refine List.pairwise_mergeSort (fun a b c hab hbc => ?_) (fun a b => ?_) _
    · exact decide_eq_true (UInt64.le_trans (of_decide_eq_true hab) (of_decide_eq_true hbc))
    · simpa using UInt64.le_total a b
  have hnodup : (ids.dedup.mergeSort (· ≤ ·)).Nodup :=
    (List.mergeSort_perm _ _).nodup_iff.mpr ids.nodup_dedup
  refine (hsorted.and hnodup).imp fun h => ?_
  exact UInt64.lt_of_le_of_ne (of_decide_eq_true h.1) h.2

/-- Ascending tables with the same lines are equal. -/
theorem eq_of_ascending {table table' : List (UInt64 × UInt64)}
    (h : table.Pairwise fun a b => a.1 < b.1) (h' : table'.Pairwise fun a b => a.1 < b.1)
    (hmem : ∀ a, a ∈ table ↔ a ∈ table') : table = table' := by
  have hnodup : ∀ {t : List (UInt64 × UInt64)}, t.Pairwise (fun a b => a.1 < b.1) → t.Nodup := by
    intro t ht
    refine ht.imp ?_
    rintro a _ hlt rfl
    exact UInt64.lt_irrefl _ hlt
  refine List.Perm.eq_of_pairwise (fun a b _ _ hab hba => ?_) h h'
    ((List.perm_ext_iff_of_nodup (hnodup h) (hnodup h')).mpr hmem)
  exact absurd hba (UInt64.lt_asymm hab)

variable {options : QueryLogOptions} {client : Client}

/-- What is printed of a log: a table that the log alone decides, and the numbers of one call
for each entry that is no quit. -/
structure PrintsLog (options : QueryLogOptions) (client : Client)
    (showConnectionQueryCount : Bool) (entries : List AnyEntry) (p : SimpleReportText) :
    Prop where
  calls : ∃ calls, List.Forall₂ (Call options client) (entries.filter fun e => !isQuit e) calls ∧
    Printed showConnectionQueryCount calls p
  perThread : p.perThread =
    if showConnectionQueryCount then some (perThreadResults entries) else none

/-- The report of a log is printed, whatever the order of the hash map. -/
theorem ReportsLog.printsLog {ignoreRowResultDiffs : Bool} {entries : List AnyEntry}
    {r : SimpleReportPlugin} (h : ReportsLog options client ignoreRowResultDiffs entries r)
    (showConnectionQueryCount : Bool) {elements : List (UInt64 × UInt64)}
    (helements : Iterates r.connectionQueryCounts elements) :
    PrintsLog options client showConnectionQueryCount entries
      (printReport showConnectionQueryCount elements r) := by
  obtain ⟨calls, hcalls, htotals⟩ := h
  have hprinted := htotals.printed showConnectionQueryCount helements
  refine ⟨⟨calls, hcalls, hprinted⟩, ?_⟩
  have hids := threadIds_of_calls hcalls
  cases htable : (printReport showConnectionQueryCount elements r).perThread with
  | none =>
      have hshown := hprinted.shown
      rw [htable] at hshown
      rw [← hshown]
      rfl
  | some table =>
      have hshown := hprinted.shown
      rw [htable] at hshown
      rw [← hshown, Option.isSome_some, if_pos rfl]
      refine congrArg some (eq_of_ascending (hprinted.ascending table htable)
        (pairwise_perThreadResults entries) fun a => ?_)
      rw [hprinted.lines table htable, mem_perThreadResults, mem_threadIds_of_calls hcalls,
        countP_of_calls hcalls]

end Log

section Runs

variable {mktime : Tm → Int} {options : QueryLogOptions} {plugin : InputPlugin}
  {accurateMode : Bool} {data : Bytes} {client : Client} {ignoreRowResultDiffs : Bool}

/-- Both dispatchers print the log: the same table of connections in every run, with every
client, and for every order of the hash map. -/
theorem simpleReport_prints_log (mktime : Tm → Int) (options : QueryLogOptions)
    (plugin : InputPlugin) (accurateMode : Bool) (data : Bytes) (client : Client)
    (ignoreRowResultDiffs showConnectionQueryCount : Bool) :
    (∀ depth s elements, ReflTransGen
        (ThreadPerConnection.reporters depth options client ignoreRowResultDiffs).Step
        ⟨ThreadPerConnection.begin mktime options plugin accurateMode data, {}, []⟩ s →
      s.dispatcher.pc = .returned →
      Iterates s.reports.shared.report.connectionQueryCounts elements →
      PrintsLog options client showConnectionQueryCount
        (parsedEntries mktime options plugin accurateMode data).toPop
        (s.reports.shared.report.printReport showConnectionQueryCount elements)) ∧
    (∀ c s elements, 0 < c.threadsCount → ReflTransGen
        (ThreadPool.reporters c options client ignoreRowResultDiffs).Step
        ⟨ThreadPool.begin mktime options plugin accurateMode data, {}, []⟩ s →
      s.dispatcher.pc = .returned →
      Iterates s.reports.shared.report.connectionQueryCounts elements →
      PrintsLog options client showConnectionQueryCount
        (parsedEntries mktime options plugin accurateMode data).toPop
        (s.reports.shared.report.printReport showConnectionQueryCount elements)) := by
  constructor
  · intro depth s elements h hpc helements
    have hreports := Reporters.inv_of_reaches rfl h
    have hrun := ThreadPerConnection.inv_of_begin (Reporters.reaches_dispatcher h)
    exact (ThreadPerConnection.reportsLog_of_returned hrun hreports hpc).2.printsLog _ helements
  · intro c s elements hpos h hpc helements
    have hreports := Reporters.inv_of_reaches rfl h
    have hrun := ThreadPool.inv_of_begin hpos (Reporters.reaches_dispatcher h)
    exact (ThreadPool.reportsLog_of_returned hpos hrun hreports hpc).2.printsLog _ helements

/-- The table of the sample has one line. -/
theorem simpleReport_prints_log_sample : ∃ s : Reporters.State
      (ThreadPerConnection.State AnyEntries AnyEntry) Reporting Action, ∃ elements,
    s.dispatcher.pc = .returned ∧
      (s.reports.shared.report.printReport true elements).perThread = some [(7, 2)] := by
  obtain ⟨s, hs, hpc⟩ := ThreadPerConnection.sampleReport_run
  obtain ⟨elements, helements⟩ :=
    exists_iterates s.reports.shared.report.connectionQueryCounts
  have hprints := (simpleReport_prints_log (fun _ => 0) sampleOptions .generalLog false
    sampleGeneralLog nullClient false true).1 1 s elements hs hpc helements
  have hids : ((sampleGeneralEntries.toPop.filter fun e => !isQuit e).map getThreadId).dedup =
      [7] := by decide
  rw [parsedEntries_sample] at hprints
  refine ⟨s, elements, hpc, hprints.perThread.trans ?_⟩
  rw [if_pos rfl, perThreadResults, hids, List.mergeSort_singleton]
  rfl

end Runs

end QueryPlayback
