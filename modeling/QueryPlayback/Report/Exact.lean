import QueryPlayback.Report.SimpleReport

/-!
# The simple report under any interleaving

Worker threads call `query_execution`, and their atomic updates interleave in
any order. Every counter is a measure to which each update adds its own amount,
so behind the last call it holds the sum over all calls. The order of the
updates inside a call gives the inequalities between the counters while calls
are under way.

## Implementation notes

The counters have 64 bits. The inequalities between them are about their values
as numbers and need fewer than 2^64 started calls.
-/

namespace QueryPlayback.SimpleReportPlugin

open Updates

/-- The report, and how many calls have been started. -/
structure Reporting where
  report : SimpleReportPlugin := {}
  started : ℕ := 0

/-- What a thread does one at a time: it enters a call or performs an update of it. -/
inductive Action where
  | enter
  | update (u : Update)
  deriving DecidableEq, Repr

/-- What an action does. -/
def Action.perform : Action → Reporting → Reporting
  | .enter, s => { s with started := s.started + 1 }
  | .update u, s => { s with report := u.apply s.report }

variable (ignoreRowResultDiffs : Bool)

/-- The actions of one call. -/
def program (c : QueryExecution) : List Action :=
  .enter :: (queryExecution ignoreRowResultDiffs c).map .update

/-- Nothing has been reported, and each thread has its calls before it. -/
def initial (threads : List (List QueryExecution)) : System Reporting Action :=
  ⟨{}, threads.map (·.flatMap (program ignoreRowResultDiffs))⟩

/-- Each count is behind the insertion of its connection. -/
def Guarded : (known : List UInt64) → List Action → Prop
  | _, [] => True
  | known, .update (.insertConnection id) :: as => Guarded (id :: known) as
  | known, .update (.countConnection id) :: as => id ∈ known ∧ Guarded known as
  | known, _ :: as => Guarded known as

/-- The connections that a program counts on are in the map. -/
def Ok (s : Reporting) (as : List Action) : Prop :=
  ∃ known, (∀ id ∈ known, id ∈ s.report.connectionQueryCounts) ∧ Guarded known as

section Guards

theorem mem_perform {id : UInt64} {s : Reporting} (a : Action)
    (h : id ∈ s.report.connectionQueryCounts) :
    id ∈ (a.perform s).report.connectionQueryCounts := by
  cases a with
  | enter => exact h
  | update u => cases u <;> simp [Action.perform, Update.apply, h]

theorem stable : Stable Action.perform Ok where
  others s a as h := by
    obtain ⟨known, hknown, hguarded⟩ := h
    exact ⟨known, fun id hid => mem_perform a (hknown id hid), hguarded⟩
  next s a as h := by
    obtain ⟨known, hknown, hguarded⟩ := h
    have hkept : ∀ id ∈ known, id ∈ (a.perform s).report.connectionQueryCounts :=
      fun id hid => mem_perform a (hknown id hid)
    cases a with
    | enter => exact ⟨known, hkept, hguarded⟩
    | update u =>
        cases u with
        | insertConnection id =>
            refine ⟨id :: known, List.forall_mem_cons.mpr ⟨?_, hkept⟩, hguarded⟩
            simp [Action.perform, Update.apply]
        | countConnection id => exact ⟨known, hkept, hguarded.2⟩
        | _ => exact ⟨known, hkept, hguarded⟩

theorem ok_countConnection {s : Reporting} {id : UInt64} {as : List Action}
    (h : Ok s (.update (.countConnection id) :: as)) : id ∈ s.report.connectionQueryCounts := by
  obtain ⟨known, hknown, hid, -⟩ := h
  exact hknown id hid

/-- The programs of the calls look after themselves. -/
theorem guarded_flatMap (known : List UInt64) (calls : List QueryExecution) :
    Guarded known (calls.flatMap (program ignoreRowResultDiffs)) := by
  induction calls generalizing known with
  | nil => trivial
  | cons c calls ih =>
      rw [List.flatMap_cons, program, queryExecution]
      split <;> split <;> split <;> simp [Guarded, ih]
      all_goals split <;> exact ih _

theorem ok_initial (threads : List (List QueryExecution)) :
    ∀ as ∈ (initial ignoreRowResultDiffs threads).programs,
      Ok (initial ignoreRowResultDiffs threads).shared as := by
  intro as has
  obtain ⟨calls, -, rfl⟩ := List.mem_map.mp has
  exact ⟨[], by simp, guarded_flatMap ignoreRowResultDiffs [] calls⟩

end Guards

section Counters

/-- The counters, the count of a connection and the sum of these counts. -/
inductive Counter where
  | expectedRowsSent
  | actualRowsSent
  | rowsDiffer
  | executed
  | errors
  | executionTime
  | expectedExecutionTime
  | quicker
  | slower
  | connection (id : UInt64)
  | connections
  deriving DecidableEq

/-- What a counter holds. -/
def Counter.value : Counter → SimpleReportPlugin → UInt64
  | expectedRowsSent, r => r.nrExpectedRowsSent
  | actualRowsSent, r => r.nrActualRowsSent
  | rowsDiffer, r => r.nrQueriesRowsDiffer
  | executed, r => r.nrQueriesExecuted
  | errors, r => r.nrErrorQueries
  | executionTime, r => r.totalExecutionTimeMs
  | expectedExecutionTime, r => r.expectedTotalExecutionTimeMs
  | quicker, r => r.nrQuickerQueries
  | slower, r => r.nrSlowerQueries
  | connection id, r => countOf r.connectionQueryCounts id
  | connections, r => totalQueries r.connectionQueryCounts

/-- What an update adds to a counter. -/
def Counter.addsUpdate : Counter → Update → UInt64
  | expectedRowsSent => fun
    | .nrExpectedRowsSent rows => UInt64.ofNat rows
    | _ => 0
  | actualRowsSent => fun
    | .nrActualRowsSent rows => UInt64.ofNat rows
    | _ => 0
  | rowsDiffer => fun u => if u = .nrQueriesRowsDiffer then 1 else 0
  | executed => fun u => if u = .nrQueriesExecuted then 1 else 0
  | errors => fun u => if u = .nrErrorQueries then 1 else 0
  | executionTime => fun
    | .totalExecutionTimeMs time => time.toUInt64
    | _ => 0
  | expectedExecutionTime => fun
    | .expectedTotalExecutionTimeMs time => time.toUInt64
    | _ => 0
  | quicker => fun u => if u = .nrQuickerQueries then 1 else 0
  | slower => fun u => if u = .nrSlowerQueries then 1 else 0
  | connection id => fun
    | .countConnection threadId => if threadId = id then 1 else 0
    | _ => 0
  | connections => fun
    | .countConnection _ => 1
    | _ => 0

/-- What an action adds to a counter. -/
def Counter.adds (k : Counter) : Action → UInt64
  | .enter => 0
  | .update u => k.addsUpdate u

/-- What a call adds to a counter. -/
def Counter.ofCall : Counter → QueryExecution → UInt64
  | expectedRowsSent, c => UInt64.ofNat c.expected.rowsSent
  | actualRowsSent, c => UInt64.ofNat c.actual.rowsSent
  | rowsDiffer, c =>
      if !ignoreRowResultDiffs && c.actual.rowsSent ≠ c.expected.rowsSent then 1 else 0
  | executed, _ => 1
  | errors, c => if c.actual.error ≠ 0 then 1 else 0
  | executionTime, c => c.actual.duration.toUInt64
  | expectedExecutionTime, c => c.expected.duration.toUInt64
  | quicker, c =>
      if c.expected.duration ≠ 0 ∧ c.actual.duration < c.expected.duration then 1 else 0
  | slower, c =>
      if c.expected.duration ≠ 0 ∧ ¬c.actual.duration < c.expected.duration then 1 else 0
  | connection id, c => if c.threadId = id then 1 else 0
  | connections, _ => 1

/-- An action adds its amount to every counter. -/
theorem Counter.measures (k : Counter) :
    Measures Action.perform Ok (fun s => k.value s.report) k.adds := by
  intro s a as hok
  cases a with
  | enter =>
      have hzero : k.adds .enter = 0 := by cases k <;> rfl
      rw [hzero, UInt64.add_zero]
      rfl
  | update u =>
      cases u with
      | countConnection id =>
          have hmem := ok_countConnection hok
          cases k with
          | connection id' => exact countOf_increment _ _ _ hmem
          | connections => exact totalQueries_increment _ _ hmem
          | _ => exact (UInt64.add_zero _).symm
      | insertConnection id =>
          have hzero : k.adds (.update (.insertConnection id)) = 0 := by cases k <;> rfl
          rw [hzero, UInt64.add_zero]
          cases k with
          | connection id' => exact countOf_insertOrFind _ _ _
          | connections => exact totalQueries_insertOrFind _ _
          | _ => rfl
      | _ => cases k <;> first | rfl | exact (UInt64.add_zero _).symm

/-- The amount of a call, one term for each of its updates. -/
theorem amount_program (w : Action → UInt64) (c : QueryExecution) :
    amount w (program ignoreRowResultDiffs c) =
      w .enter + (if c.actual.error ≠ 0 then w (.update .nrErrorQueries) else 0) +
      w (.update (.insertConnection c.threadId)) + w (.update (.countConnection c.threadId)) +
      (if !ignoreRowResultDiffs && c.actual.rowsSent ≠ c.expected.rowsSent then
        w (.update .nrQueriesRowsDiffer) else 0) +
      w (.update .nrQueriesExecuted) +
      w (.update (.nrExpectedRowsSent c.expected.rowsSent)) +
      w (.update (.nrActualRowsSent c.actual.rowsSent)) +
      w (.update (.totalExecutionTimeMs c.actual.duration)) +
      (if c.expected.duration ≠ 0 then
        w (.update (.expectedTotalExecutionTimeMs c.expected.duration)) +
          w (.update (if c.actual.duration < c.expected.duration then .nrQuickerQueries
            else .nrSlowerQueries))
      else 0) := by
  rw [program, queryExecution]
  split <;> split <;> split <;>
    simp only [List.map_append, List.map_cons, List.map_nil, amount_cons, amount_append,
      amount_nil, add_zero, zero_add, add_assoc]

/-- The actions of a call add up to what the call adds. -/
theorem Counter.amount_program (k : Counter) (c : QueryExecution) :
    amount k.adds (program ignoreRowResultDiffs c) = k.ofCall ignoreRowResultDiffs c := by
  rw [SimpleReportPlugin.amount_program]
  cases k with
  | expectedExecutionTime =>
      by_cases hexpected : c.expected.duration = 0
      · have hzero : Int64.toUInt64 0 = 0 := rfl
        simp [Counter.adds, Counter.addsUpdate, Counter.ofCall, hexpected, hzero]
      · by_cases hquicker : c.actual.duration < c.expected.duration <;>
          simp [Counter.adds, Counter.addsUpdate, Counter.ofCall, hexpected, hquicker]
  | _ =>
      by_cases hquicker : c.actual.duration < c.expected.duration <;>
        simp [Counter.adds, Counter.addsUpdate, Counter.ofCall, hquicker]

end Counters

section Order

/-- One for each update of a kind. -/
def Action.weight (kind : Update → Bool) : Action → ℕ
  | .enter => 0
  | .update u => if kind u then 1 else 0

/-- One for each call that is entered. -/
def Action.entered : Action → ℕ
  | .enter => 1
  | .update _ => 0

/-- The increments behind the comparison of the durations. -/
def isComparison : Update → Bool
  | .nrQuickerQueries => true
  | .nrSlowerQueries => true
  | _ => false

/-- The increments of the counts of the connections. -/
def isConnectionCount : Update → Bool
  | .countConnection _ => true
  | _ => false

theorem entered_measures : Measures Action.perform Ok (·.started) Action.entered := by
  intro s a as _
  cases a <;> rfl

/-- In every call the count of the connection is behind the entry. -/
theorem covered_entered (c : QueryExecution) :
    Covered (Action.weight isConnectionCount) Action.entered 0
      (program ignoreRowResultDiffs c) := by
  rw [program, queryExecution]
  split <;> split <;> split <;>
    simp [Covered, Action.weight, Action.entered, isConnectionCount]
  all_goals split <;> simp

/-- In every call the count of the executed queries is behind the count of the connection. -/
theorem covered_executed (c : QueryExecution) :
    Covered (Action.weight (· = .nrQueriesExecuted)) (Action.weight isConnectionCount) 0
      (program ignoreRowResultDiffs c) := by
  rw [program, queryExecution]
  split <;> split <;> split <;> simp [Covered, Action.weight, isConnectionCount]
  all_goals split <;> simp

/-- In every call the comparison is behind the count of the executed queries. -/
theorem covered_comparison (c : QueryExecution) :
    Covered (Action.weight isComparison) (Action.weight (· = .nrQueriesExecuted)) 0
      (program ignoreRowResultDiffs c) := by
  rw [program, queryExecution]
  split <;> split <;> split <;> simp [Covered, Action.weight, isComparison]
  all_goals split <;> simp

/-- A counter of updates of a kind holds their number, as far as 64 bits go. -/
theorem amount_ofNat {A : Type} {w : A → UInt64} {v : A → ℕ} (h : ∀ a, w a = UInt64.ofNat (v a))
    (as : List A) : amount w as = UInt64.ofNat (amount v as) := by
  induction as with
  | nil => rfl
  | cons a as ih => rw [amount_cons, amount_cons, ih, h, UInt64.ofNat_add]

end Order

section Runs

variable {ignoreRowResultDiffs : Bool} {threads : List (List QueryExecution)}
  {sys : System Reporting Action}

/-- The inequalities between the counters while calls are under way. -/
structure Ordered (s : Reporting) : Prop where
  comparisons_le : s.report.nrQuickerQueries.toNat + s.report.nrSlowerQueries.toNat ≤
    s.report.nrQueriesExecuted.toNat
  executed_le : s.report.nrQueriesExecuted.toNat ≤
    (totalQueries s.report.connectionQueryCounts).toNat
  connections_le : (totalQueries s.report.connectionQueryCounts).toNat ≤ s.started

/-- What holds in each call of a program holds in all of them one behind the other. -/
theorem covered_initial {v w : Action → ℕ}
    (h : ∀ c, Covered v w 0 (program ignoreRowResultDiffs c)) :
    ∀ as ∈ (initial ignoreRowResultDiffs threads).programs, Covered v w 0 as := by
  intro as has
  obtain ⟨calls, -, rfl⟩ := List.mem_map.mp has
  exact covered_flatMap fun c _ => h c

/-- A counter holds what the actions done so far have added. -/
theorem Counter.value_of_done {s : Reporting} {actions : List Action}
    (hdone : Done Action.perform Ok {} s actions) (k : Counter) :
    k.value s.report = amount k.adds actions := by
  have hzero : k.value {} = 0 := by cases k <;> rfl
  have hmeasure := hdone.measure _ _ k.measures
  rwa [hzero, zero_add] at hmeasure

/-- A counter of updates of a kind holds their number modulo 2^64. -/
theorem Counter.toNat_value {s : Reporting} {actions : List Action}
    (hdone : Done Action.perform Ok {} s actions) (k : Counter) (kind : Update → Bool)
    (henter : k.adds .enter = 0) (hkind : ∀ u, k.adds (.update u) = if kind u then 1 else 0) :
    (k.value s.report).toNat = amount (Action.weight kind) actions % 2 ^ 64 := by
  have hweight : ∀ a, k.adds a = UInt64.ofNat (Action.weight kind a) := by
    intro a
    cases a with
    | enter => exact henter
    | update u =>
        rw [hkind, Action.weight]
        split <;> rfl
  rw [k.value_of_done hdone, amount_ofNat hweight, UInt64.toNat_ofNat']

/-- In every state with fewer than 2^64 started calls the counters are in order. -/
theorem ordered_of_runs (h : Runs Action.perform (initial ignoreRowResultDiffs threads) sys)
    (hstarted : sys.shared.started < 2 ^ 64) : Ordered sys.shared := by
  obtain ⟨done, hdivided, hdone⟩ := h.done stable (ok_initial ignoreRowResultDiffs threads)
  have hconnections := hdivided.amount_le (covered_initial (covered_entered ignoreRowResultDiffs))
  have hexecuted := hdivided.amount_le (covered_initial (covered_executed ignoreRowResultDiffs))
  have hcomparisons :=
    hdivided.amount_le (covered_initial (covered_comparison ignoreRowResultDiffs))
  have hentered : sys.shared.started = amount Action.entered done.flatten := by
    rw [hdone.measure _ _ entered_measures]
    exact Nat.zero_add _
  have hsplit : amount (Action.weight isComparison) done.flatten =
      amount (Action.weight (· = .nrQuickerQueries)) done.flatten +
        amount (Action.weight (· = .nrSlowerQueries)) done.flatten := by
    apply amount_add
    rintro (_ | u)
    · rfl
    · cases u <;> rfl
  have hquicker := Counter.quicker.toNat_value hdone (· = .nrQuickerQueries) rfl fun u => by
    cases u <;> rfl
  have hslower := Counter.slower.toNat_value hdone (· = .nrSlowerQueries) rfl fun u => by
    cases u <;> rfl
  have hexecutedValue := Counter.executed.toNat_value hdone (· = .nrQueriesExecuted) rfl fun u => by
    cases u <;> rfl
  have hconnectionsValue := Counter.connections.toNat_value hdone isConnectionCount rfl fun u => by
    cases u <;> rfl
  simp only [Counter.value] at hquicker hslower hexecutedValue hconnectionsValue
  constructor <;> omega

/-- The report of a list of calls. -/
structure Totals (ignoreRowResultDiffs : Bool) (calls : List QueryExecution)
    (r : SimpleReportPlugin) : Prop where
  executed : r.nrQueriesExecuted = UInt64.ofNat calls.length
  connections : totalQueries r.connectionQueryCounts = UInt64.ofNat calls.length
  connection : ∀ id, r.connectionQueryCounts.lookup id =
    if ∃ c ∈ calls, c.threadId = id then some (UInt64.ofNat (calls.countP (·.threadId = id)))
    else none
  comparisons : r.nrQuickerQueries + r.nrSlowerQueries =
    UInt64.ofNat (calls.countP (·.expected.duration ≠ 0))
  quicker : r.nrQuickerQueries = UInt64.ofNat (calls.countP fun c =>
    c.expected.duration ≠ 0 ∧ c.actual.duration < c.expected.duration)
  errors : r.nrErrorQueries = UInt64.ofNat (calls.countP (·.actual.error ≠ 0))
  rowsDiffer : r.nrQueriesRowsDiffer = UInt64.ofNat (calls.countP fun c =>
    !ignoreRowResultDiffs && c.actual.rowsSent ≠ c.expected.rowsSent)
  expectedRowsSent : r.nrExpectedRowsSent =
    (calls.map fun c => UInt64.ofNat c.expected.rowsSent).sum
  actualRowsSent : r.nrActualRowsSent = (calls.map fun c => UInt64.ofNat c.actual.rowsSent).sum
  executionTime : r.totalExecutionTimeMs = (calls.map (·.actual.duration.toUInt64)).sum
  expectedExecutionTime : r.expectedTotalExecutionTimeMs =
    (calls.map (·.expected.duration.toUInt64)).sum

/-- There is one report of a list of calls. -/
theorem Totals.unique {calls : List QueryExecution} {r r' : SimpleReportPlugin}
    (h : Totals ignoreRowResultDiffs calls r) (h' : Totals ignoreRowResultDiffs calls r') :
    r = r' := by
  have hslower : r.nrSlowerQueries = r'.nrSlowerQueries := by
    have hsum := h.comparisons.trans h'.comparisons.symm
    rw [h.quicker, ← h'.quicker] at hsum
    exact (UInt64.add_right_inj _).mp hsum
  have hmap : r.connectionQueryCounts = r'.connectionQueryCounts :=
    Finmap.ext_lookup fun id => (h.connection id).trans (h'.connection id).symm
  cases r
  cases r'
  simp only [SimpleReportPlugin.mk.injEq]
  exact ⟨h.expectedRowsSent.trans h'.expectedRowsSent.symm,
    h.actualRowsSent.trans h'.actualRowsSent.symm, h.rowsDiffer.trans h'.rowsDiffer.symm,
    h.executed.trans h'.executed.symm, h.errors.trans h'.errors.symm,
    h.executionTime.trans h'.executionTime.symm,
    h.expectedExecutionTime.trans h'.expectedExecutionTime.symm,
    h.quicker.trans h'.quicker.symm, hslower, hmap⟩

theorem sum_ite (calls : List QueryExecution) (p : QueryExecution → Prop) [DecidablePred p] :
    (calls.map fun c => if p c then (1 : UInt64) else 0).sum =
      UInt64.ofNat (calls.countP fun c => p c) := by
  induction calls with
  | nil => rfl
  | cons c calls ih =>
      rw [List.map_cons, List.sum_cons, ih, List.countP_cons, UInt64.ofNat_add, add_comm]
      by_cases hc : p c <;> simp [hc]

theorem initial_flatten (threads : List (List QueryExecution)) :
    (initial ignoreRowResultDiffs threads).programs.flatten =
      threads.flatten.flatMap (program ignoreRowResultDiffs) := by
  unfold initial
  induction threads with
  | nil => rfl
  | cons calls threads ih =>
      rw [List.map_cons, List.flatten_cons, ih, List.flatten_cons, List.flatMap_append]

theorem mem_program {c : QueryExecution} {id : UInt64} :
    .update (.insertConnection id) ∈ program ignoreRowResultDiffs c ↔ c.threadId = id := by
  rw [program, queryExecution]
  split <;> split <;> split <;> simp [eq_comm]
  all_goals split <;> simp

/-- A connection is in the map from its first insertion on. -/
theorem marks_insertConnection (id : UInt64) :
    Marks Action.perform (fun s => id ∈ s.report.connectionQueryCounts)
      (· = .update (.insertConnection id)) := by
  intro s a
  cases a with
  | enter => simp [Action.perform]
  | update u => cases u <;> simp [Action.perform, Update.apply, or_comm, eq_comm]

/-- When all calls have returned, a counter holds what the calls add. -/
theorem Counter.value_of_calls {s : Reporting} {calls : List QueryExecution}
    (hdone : Done Action.perform Ok {} s (calls.flatMap (program ignoreRowResultDiffs)))
    (k : Counter) :
    k.value s.report = (calls.map (k.ofCall ignoreRowResultDiffs)).sum := by
  rw [k.value_of_done hdone, amount_flatMap]
  simp only [k.amount_program]

/-- A counter of calls of a kind holds their number. -/
theorem Counter.value_of_countP {s : Reporting} {calls : List QueryExecution}
    (hdone : Done Action.perform Ok {} s (calls.flatMap (program ignoreRowResultDiffs)))
    (k : Counter) (p : QueryExecution → Prop) [DecidablePred p]
    (hp : ∀ c, k.ofCall ignoreRowResultDiffs c = if p c then 1 else 0) :
    k.value s.report = UInt64.ofNat (calls.countP fun c => p c) := by
  have hfun : k.ofCall ignoreRowResultDiffs = fun c => if p c then 1 else 0 := funext hp
  rw [k.value_of_calls hdone, hfun, sum_ite]

/-- The connections in the map are those of the calls. -/
theorem mem_connections_of_calls {s : Reporting} {calls : List QueryExecution}
    (hdone : Done Action.perform Ok {} s (calls.flatMap (program ignoreRowResultDiffs)))
    (id : UInt64) :
    id ∈ s.report.connectionQueryCounts ↔ ∃ c ∈ calls, c.threadId = id := by
  rw [hdone.mark _ _ (marks_insertConnection id)]
  have hempty : id ∉ (∅ : ConnectionQueryCountMap) := Finmap.notMem_empty
  simp [List.mem_flatMap, mem_program, hempty]

/-- Every comparison counts as quicker or as slower. -/
theorem ofCall_quicker_add_slower (c : QueryExecution) :
    Counter.quicker.ofCall ignoreRowResultDiffs c + Counter.slower.ofCall ignoreRowResultDiffs c =
      if c.expected.duration ≠ 0 then 1 else 0 := by
  by_cases hexpected : c.expected.duration = 0 <;>
    by_cases hquicker : c.actual.duration < c.expected.duration <;>
    simp [Counter.ofCall, hexpected, hquicker]

/-- When all calls have returned, the report is the report of the calls. -/
theorem totals_of_finished (h : Runs Action.perform (initial ignoreRowResultDiffs threads) sys)
    (hfinished : sys.Finished) :
    Totals ignoreRowResultDiffs threads.flatten sys.shared.report := by
  have hdone := h.done_of_finished stable (ok_initial ignoreRowResultDiffs threads) hfinished
  rw [initial_flatten] at hdone
  have hall : threads.flatten.countP (fun _ => True) = threads.flatten.length := by simp
  constructor
  case executed =>
    have hcount := Counter.executed.value_of_countP hdone (fun _ => True) fun _ => rfl
    rwa [hall] at hcount
  case connections =>
    have hcount := Counter.connections.value_of_countP hdone (fun _ => True) fun _ => rfl
    rwa [hall] at hcount
  case connection =>
    intro id
    have hmem := mem_connections_of_calls hdone id
    have hcount := (Counter.connection id).value_of_countP hdone (·.threadId = id) fun _ => rfl
    split
    · rename_i hcall
      obtain ⟨count, hlookup⟩ := Finmap.mem_iff.mp (hmem.mpr hcall)
      rw [hlookup, ← hcount, Counter.value, countOf, hlookup, Option.getD_some]
    · rename_i hcall
      exact Finmap.lookup_eq_none.mpr (mt hmem.mp hcall)
  case comparisons =>
    calc Counter.quicker.value sys.shared.report + Counter.slower.value sys.shared.report
        = (threads.flatten.map fun c => Counter.quicker.ofCall ignoreRowResultDiffs c +
            Counter.slower.ofCall ignoreRowResultDiffs c).sum := by
          rw [Counter.quicker.value_of_calls hdone, Counter.slower.value_of_calls hdone,
            List.sum_map_add]
      _ = (threads.flatten.map fun c =>
            if c.expected.duration ≠ 0 then (1 : UInt64) else 0).sum := by
          simp only [ofCall_quicker_add_slower]
      _ = UInt64.ofNat (threads.flatten.countP (·.expected.duration ≠ 0)) := sum_ite _ _
  case quicker => exact Counter.quicker.value_of_countP hdone _ fun _ => rfl
  case errors => exact Counter.errors.value_of_countP hdone _ fun _ => rfl
  case rowsDiffer =>
    apply (Counter.rowsDiffer.value_of_countP hdone _ fun _ => rfl).trans
    simp only [Bool.decide_eq_true]
  case expectedRowsSent => exact Counter.expectedRowsSent.value_of_calls hdone
  case actualRowsSent => exact Counter.actualRowsSent.value_of_calls hdone
  case executionTime => exact Counter.executionTime.value_of_calls hdone
  case expectedExecutionTime => exact Counter.expectedExecutionTime.value_of_calls hdone

/-- The report under every interleaving: the counters are in order while fewer than 2^64
calls have been started, they are exact modulo 2^64 when all calls have returned, and the
order of the updates leaves no trace. -/
theorem simpleReport_exact (ignoreRowResultDiffs : Bool) (threads : List (List QueryExecution))
    (sys : System Reporting Action)
    (h : Runs Action.perform (initial ignoreRowResultDiffs threads) sys) :
    (sys.shared.started < 2 ^ 64 → Ordered sys.shared) ∧
      (sys.Finished → Totals ignoreRowResultDiffs threads.flatten sys.shared.report) ∧
      ∀ sys', Runs Action.perform (initial ignoreRowResultDiffs threads) sys' →
        sys.Finished → sys'.Finished → sys'.shared.report = sys.shared.report := by
  refine ⟨ordered_of_runs h, totals_of_finished h, ?_⟩
  intro sys' h' hfinished hfinished'
  exact (totals_of_finished h' hfinished').unique (totals_of_finished h hfinished)

/-- A query of connection 3 that is quicker than expected and fails. -/
def quickFailure : QueryExecution := ⟨3, { duration := 900 }, { error := 1, duration := 200 }⟩

/-- A query of connection 3 that returns rows nobody expects. -/
def slowSurplus : QueryExecution := ⟨3, { duration := 100 }, { rowsSent := 7, duration := 200 }⟩

theorem simpleReport_exact_sample :
    ∃ sys, Runs Action.perform (initial false [[quickFailure], [slowSurplus]]) sys ∧
      sys.Finished ∧ sys.shared.report.nrQueriesExecuted = 2 ∧
      sys.shared.report.connectionQueryCounts.lookup 3 = some 2 ∧
      sys.shared.report.nrErrorQueries = 1 ∧ sys.shared.report.totalExecutionTimeMs = 400 := by
  obtain ⟨sys, hruns, hfinished⟩ := @runs_to_end _ _ Action.perform {}
    (initial false [[quickFailure], [slowSurplus]]).programs
  have htotals := (simpleReport_exact false _ sys hruns).2.1 hfinished
  exact ⟨sys, hruns, hfinished, htotals.executed, htotals.connection 3, htotals.errors,
    htotals.executionTime⟩

/-- Calls on one thread, as many as one likes. -/
theorem executed_replicate (n : ℕ) (c : QueryExecution) :
    ∃ sys, Runs Action.perform (initial false [List.replicate n c]) sys ∧ sys.Finished ∧
      sys.shared.report.nrQueriesExecuted.toNat = n % 2 ^ 64 := by
  obtain ⟨sys, hruns, hfinished⟩ := @runs_to_end _ _ Action.perform {}
    (initial false [List.replicate n c]).programs
  refine ⟨sys, hruns, hfinished, ?_⟩
  rw [(totals_of_finished hruns hfinished).executed, List.flatten_singleton,
    List.length_replicate, UInt64.toNat_ofNat']

/-- With 2^64 calls the number of executed queries is not the number of calls. -/
theorem executed_wraps_around :
    ¬∀ sys, Runs Action.perform (initial false [List.replicate (2 ^ 64) quickFailure]) sys →
      sys.Finished → sys.shared.report.nrQueriesExecuted.toNat =
        [List.replicate (2 ^ 64) quickFailure].flatten.length := by
  intro hexact
  obtain ⟨sys, hruns, hfinished, hexecuted⟩ := executed_replicate (2 ^ 64) quickFailure
  have hequal := hexact sys hruns hfinished
  rw [hexecuted, List.flatten_singleton, List.length_replicate] at hequal
  exact absurd hequal (by decide)

end Runs

end QueryPlayback.SimpleReportPlugin
