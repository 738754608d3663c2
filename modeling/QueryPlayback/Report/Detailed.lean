import QueryPlayback.Lib.Updates
import QueryPlayback.Report.Exact
import QueryPlayback.Report.FullReport

/-!
# The detailed report under any interleaving

The calls of the detailed report take no lock either. Each of their updates adds
an amount to one counter, so the updates of calls under way at the same time
leave the counters as if the calls had been made one behind the other.

## Implementation notes

What a call adds depends on its arguments only, and every counter is added to
once in a call at most.
-/

namespace QueryPlayback

attribute [ext] StatementCount

namespace FullReportPlugin

open Updates

/-- The counters of the plugin. -/
inductive Counter where
  | nr (k : Category)
  | nrFaster (k : Category)
  | nrSlower (k : Category)
  | totalExecutionTimeMs
  | expectedTotalExecutionTimeMs
  deriving DecidableEq, Repr

@[simp] theorem totalExecutionTimeMs_modifyCount (r : FullReportPlugin)
    (f : StatementCount → StatementCount) (k : Category) :
    (r.modifyCount f k).totalExecutionTimeMs = r.totalExecutionTimeMs := by
  cases k <;> rfl

@[simp] theorem expectedTotalExecutionTimeMs_modifyCount (r : FullReportPlugin)
    (f : StatementCount → StatementCount) (k : Category) :
    (r.modifyCount f k).expectedTotalExecutionTimeMs = r.expectedTotalExecutionTimeMs := by
  cases k <;> rfl

namespace Counter

/-- What a counter holds. -/
def value : Counter → FullReportPlugin → UInt64
  | nr k, r => (r.count k).nr
  | nrFaster k, r => (r.count k).nrFaster
  | nrSlower k, r => (r.count k).nrSlower
  | totalExecutionTimeMs, r => r.totalExecutionTimeMs
  | expectedTotalExecutionTimeMs, r => r.expectedTotalExecutionTimeMs

/-- The atomic addition to a counter. -/
def add (n : UInt64) : Counter → FullReportPlugin → FullReportPlugin
  | nr k, r => r.modifyCount (fun c => { c with nr := c.nr + n }) k
  | nrFaster k, r => r.modifyCount (fun c => { c with nrFaster := c.nrFaster + n }) k
  | nrSlower k, r => r.modifyCount (fun c => { c with nrSlower := c.nrSlower + n }) k
  | totalExecutionTimeMs, r => { r with totalExecutionTimeMs := r.totalExecutionTimeMs + n }
  | expectedTotalExecutionTimeMs, r =>
      { r with expectedTotalExecutionTimeMs := r.expectedTotalExecutionTimeMs + n }

/-- The plugin is its counters. -/
theorem ext_value {r r' : FullReportPlugin} (h : ∀ k : Counter, k.value r = k.value r') :
    r = r' := by
  have hcount : ∀ k, r.count k = r'.count k := fun k =>
    StatementCount.ext (h (nr k)) (h (nrFaster k)) (h (nrSlower k))
  cases r
  cases r'
  congr
  · exact hcount .select
  · exact hcount .update
  · exact hcount .insert
  · exact hcount .delete
  · exact hcount .replace
  · exact hcount .drop
  · exact h totalExecutionTimeMs
  · exact h expectedTotalExecutionTimeMs

/-- An addition changes its own counter and no other. -/
theorem value_add (k k' : Counter) (n : UInt64) (r : FullReportPlugin) :
    k'.value (k.add n r) = k'.value r + if k = k' then n else 0 := by
  cases k <;> cases k' <;>
    simp only [value, add, count_modifyCount, totalExecutionTimeMs_modifyCount,
      expectedTotalExecutionTimeMs_modifyCount, reduceCtorEq, nr.injEq, nrFaster.injEq,
      nrSlower.injEq, if_true, if_false, UInt64.add_zero]
  all_goals first | rfl | (split_ifs <;> simp)

end Counter

/-- An atomic update: what is added to which counter. -/
structure Update where
  counter : Counter
  amount : UInt64
  deriving DecidableEq, Repr

def Update.apply (u : Update) (r : FullReportPlugin) : FullReportPlugin := u.counter.add u.amount r

/-- The updates of `query_execution` in their order. -/
def updates (c : StatementExecution) : List Update :=
  let expected := c.expected.duration
  let actual := c.actual.duration
  let (faster, slower) := compareDurations expected actual
  ⟨.totalExecutionTimeMs, actual.toUInt64⟩ ::
    ((if expected ≠ 0 then [⟨.expectedTotalExecutionTimeMs, expected.toUInt64⟩] else []) ++
      match category (toUpperCopy c.query) with
      | some k => [⟨.nr k, 1⟩, ⟨.nrFaster k, faster⟩, ⟨.nrSlower k, slower⟩]
      | none => [])

/-- A call that nobody interrupts. -/
theorem foldl_updates (r : FullReportPlugin) (c : StatementExecution) :
    (updates c).foldl (fun r u => u.apply r) r = r.queryExecution c := by
  rw [queryExecution, updates]
  by_cases hexpected : c.expected.duration = 0 <;>
    cases category (toUpperCopy c.query) with
    | none => simp [hexpected, Update.apply, Counter.add]
    | some k =>
        cases k <;> simp [hexpected, Update.apply, Counter.add, modifyCount, StatementCount.add]

/-- `print_report`: the counters in the order of the lines. -/
def printReport (r : FullReportPlugin) : List StatementCount :=
  [r.select, r.insert, r.update, r.delete, r.replace, r.drop]

/-- Nothing has been counted, and each thread has its calls before it. -/
def initial (threads : List (List StatementExecution)) : System FullReportPlugin Update :=
  ⟨{}, threads.map (·.flatMap updates)⟩

section Counters

/-- What an update adds to a counter. -/
def Counter.adds (k : Counter) (u : Update) : UInt64 := if u.counter = k then u.amount else 0

theorem Counter.measures (k : Counter) :
    Measures Update.apply (fun _ _ => True) k.value k.adds :=
  fun r u _ _ => u.counter.value_add k u.amount r

theorem stable : Stable Update.apply fun _ _ => True :=
  ⟨fun _ _ _ _ => trivial, fun _ _ _ _ => trivial⟩

/-- The updates of a list add up. -/
theorem Counter.value_foldl (k : Counter) (us : List Update) (r : FullReportPlugin) :
    k.value (us.foldl (fun r u => u.apply r) r) = k.value r + amount k.adds us := by
  induction us generalizing r with
  | nil => rw [List.foldl_nil, amount_nil, UInt64.add_zero]
  | cons u us ih =>
      rw [List.foldl_cons, ih, k.measures r u us trivial, amount_cons, UInt64.add_assoc]

theorem foldl_flatMap_updates (calls : List StatementExecution) (r : FullReportPlugin) :
    (calls.flatMap updates).foldl (fun r u => u.apply r) r = calls.foldl queryExecution r := by
  induction calls generalizing r with
  | nil => rfl
  | cons c calls ih =>
      rw [List.flatMap_cons, List.foldl_append, foldl_updates, ih, List.foldl_cons]

/-- Behind calls that are made one behind the other a counter holds what they add. -/
theorem Counter.value_after (k : Counter) (calls : List StatementExecution) :
    k.value (after calls) = amount k.adds (calls.flatMap updates) := by
  have hzero : k.value {} = 0 := by
    cases k with
    | nr k => cases k <;> rfl
    | nrFaster k => cases k <;> rfl
    | nrSlower k => cases k <;> rfl
    | totalExecutionTimeMs => rfl
    | expectedTotalExecutionTimeMs => rfl
  rw [after, ← foldl_flatMap_updates, k.value_foldl, hzero, UInt64.zero_add]

theorem after_perm {calls calls' : List StatementExecution} (h : calls.Perm calls') :
    after calls = after calls' := by
  apply Counter.ext_value
  intro k
  rw [k.value_after, k.value_after]
  exact amount_perm _ (h.flatMap_right updates)

end Counters

section Runs

variable {threads : List (List StatementExecution)} {sys : System FullReportPlugin Update}

/-- When all calls have returned, the counters are as if the calls had been made one behind the
other. -/
theorem eq_after_of_finished (h : Runs Update.apply (initial threads) sys)
    (hfinished : sys.Finished) : sys.shared = after threads.flatten := by
  have hdone := h.done_of_finished stable (fun _ _ => trivial) hfinished
  rw [flatten_programs] at hdone
  apply Counter.ext_value
  intro k
  rw [hdone.measure _ _ k.measures, ← k.value_foldl, foldl_flatMap_updates]
  rfl

/-- What an update adds to a counter, as a number. -/
def Counter.weight (k : Counter) (u : Update) : ℕ := if u.counter = k then u.amount.toNat else 0

/-- A counter holds the sum of the updates made so far, as far as 64 bits go. -/
theorem Counter.toNat_value {us : List Update}
    (hdone : Done Update.apply (fun _ _ => True) {} sys.shared us) (k : Counter) :
    (k.value sys.shared).toNat = amount k.weight us % 2 ^ 64 := by
  have hadds : ∀ u, k.adds u = UInt64.ofNat (k.weight u) := by
    intro u
    rw [adds, weight]
    split_ifs
    · exact (UInt64.ofNat_toNat).symm
    · rfl
  have hempty : k.value {} = 0 := k.value_after []
  rw [hdone.measure _ _ k.measures, hempty, UInt64.zero_add,
    SimpleReportPlugin.amount_ofNat hadds, UInt64.toNat_ofNat']

/-- In a call the comparison of a statement is behind its counter. -/
theorem covered_updates (k : Category) (c : StatementExecution) :
    Covered (fun u => (Counter.nrFaster k).weight u + (Counter.nrSlower k).weight u)
      (Counter.nr k).weight 0 (updates c) := by
  have hsum := compareDurations_sum c.expected.duration c.actual.duration
  have hone : (if c.expected.duration ≠ 0 then 1 else 0) ≤ 1 := by split_ifs <;> omega
  rw [← hsum] at hone
  rw [updates]
  cases category (toUpperCopy c.query) with
  | none => split_ifs <;> simp [Covered, Counter.weight]
  | some found =>
      by_cases hk : found = k
      · subst hk
        split_ifs <;> simp [Covered, Counter.weight] <;> omega
      · split_ifs <;> simp [Covered, Counter.weight, hk]

/-- A call counts its statement once at most. -/
theorem amount_weight_le (k : Category) (c : StatementExecution) :
    amount (Counter.nr k).weight (updates c) ≤ 1 := by
  rw [updates]
  cases category (toUpperCopy c.query) with
  | none => split_ifs <;> simp [Counter.weight]
  | some found =>
      by_cases hk : found = k <;> split_ifs <;> simp [Counter.weight, hk]

/-- While calls are under way, no more statements of a kind have been compared than counted. -/
theorem compared_le_of_runs (hcalls : threads.flatten.length < 2 ^ 64)
    (h : Runs Update.apply (initial threads) sys) (k : Category) :
    (sys.shared.count k).nrFaster.toNat + (sys.shared.count k).nrSlower.toNat ≤
      (sys.shared.count k).nr.toNat := by
  obtain ⟨done, hdivided, hdone⟩ := h.done stable fun _ _ => trivial
  have hcompared := hdivided.amount_le fun l hl => by
    obtain ⟨calls, -, rfl⟩ := List.mem_map.mp hl
    exact covered_flatMap fun c _ => covered_updates k c
  rw [amount_add _ fun _ => rfl] at hcompared
  have hcounted : amount (Counter.nr k).weight done.flatten < 2 ^ 64 := by
    refine lt_of_le_of_lt ?_ hcalls
    have hwhole := hdivided.amount_eq (Counter.nr k).weight
    rw [flatten_programs, amount_flatMap] at hwhole
    have hle := amount_le_length (amount_weight_le k) threads.flatten
    rw [amount] at hle
    omega
  have hfaster := (Counter.nrFaster k).toNat_value hdone
  have hslower := (Counter.nrSlower k).toNat_value hdone
  have hnr := (Counter.nr k).toNat_value hdone
  simp only [Counter.value] at hfaster hslower hnr
  omega

/-- The report under every interleaving: while calls are under way no kind has more comparisons
than statements, and when all calls have returned the report is as if they had been made one
behind the other, in any order. -/
theorem fullReport_exact (h : Runs Update.apply (initial threads) sys) :
    (threads.flatten.length < 2 ^ 64 → ∀ k,
      (sys.shared.count k).nrFaster.toNat + (sys.shared.count k).nrSlower.toNat ≤
        (sys.shared.count k).nr.toNat) ∧
      (sys.Finished → ∀ calls, calls.Perm threads.flatten → sys.shared = after calls) :=
  ⟨fun hcalls => compared_le_of_runs hcalls h, fun hfinished _ hperm =>
    (eq_after_of_finished h hfinished).trans (after_perm hperm.symm)⟩

/-- A statement that takes longer than in the log. -/
def slowUpdate : StatementExecution :=
  ⟨bytes "update t set a = 1", { duration := 100 }, { duration := 500 }⟩

theorem fullReport_exact_sample :
    ∃ sys, Runs Update.apply (initial [[insertSelect], [slowUpdate]]) sys ∧ sys.Finished ∧
      sys.shared.select = ⟨1, 1, 0⟩ ∧ sys.shared.update = ⟨1, 0, 1⟩ ∧
      sys.shared.totalExecutionTimeMs = 1000 := by
  obtain ⟨sys, hruns, hfinished⟩ := @runs_to_end _ _ Update.apply {}
    (initial [[insertSelect], [slowUpdate]]).programs
  have hshared := (fullReport_exact hruns).2 hfinished [slowUpdate, insertSelect]
    (List.Perm.swap _ _ _)
  refine ⟨sys, hruns, hfinished, ?_⟩
  rw [hshared]
  decide +kernel

end Runs

end FullReportPlugin

end QueryPlayback
