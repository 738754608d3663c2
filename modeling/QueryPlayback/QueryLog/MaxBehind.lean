import QueryPlayback.Lib.RetryLoops

/-!
# How far the playback is behind

In accurate mode `execute` raises `g_max_behind_ns` to the time its entry is behind.
Many threads do so at once, each with a loop around `compare_exchange_weak`.

## Implementation notes

The counts of nanoseconds are of 64 bits. Only the loads and the exchanges of the
global are atomic steps, what lies between them is local to a thread.
-/

namespace QueryPlayback.MaxBehind

open RetryLoops

/-- The local variables of the update in one call of `execute`. -/
structure Update where
  currentVal : Int64
  newValue : Int64
  deriving DecidableEq, Repr

/-- The declarations in front of the loop, where `timeDiff` is `time_diff.count()`. -/
def load (maxBehindNs timeDiff : Int64) : Update := ⟨maxBehindNs, -timeDiff⟩

/-- One evaluation of the condition of the `while` loop: the new value of the global,
and the local variables if the loop goes on. -/
def whileCondition (spurious : Bool) (maxBehindNs : Int64) (u : Update) :
    Int64 × Option Update :=
  if u.currentVal < u.newValue then
    match compareExchangeWeak spurious maxBehindNs u.currentVal u.newValue with
    | (true, stored, _) => (stored, none)
    | (false, stored, currentVal) => (stored, some { u with currentVal })
  else (maxBehindNs, none)

/-- The update of `g_max_behind_ns`. -/
def maxUpdate : RetryLoop Int64 Int64 Int64 Update Bool := ⟨load, Update.newValue, whileCondition⟩

/-- The threads that execute entries, with the global as their common cell. -/
abbrev Threads (ι : Type*) := System ι Int64 Int64 Update

/-- A stale local copy is never above the global. -/
def NotAbove (maxBehindNs : Int64) (u : Update) : Prop := u.currentVal ≤ maxBehindNs

/-- A copy that is large enough shows that the global is. -/
theorem raise_eq_of_not_lt {maxBehindNs : Int64} {u : Update} (h : NotAbove maxBehindNs u)
    (hlarge : ¬u.currentVal < u.newValue) : raise maxBehindNs u.newValue = maxBehindNs := by
  have hle : u.newValue ≤ maxBehindNs := Int64.le_trans (Int64.not_lt.mp hlarge) h
  rw [raise, if_neg (Int64.not_lt.mpr hle)]

/-- One evaluation of the condition raises the global or leaves it with a fresh copy. -/
theorem whileCondition_attempted (spurious : Bool) {maxBehindNs : Int64} {u : Update}
    (h : NotAbove maxBehindNs u) :
    Attempted maxUpdate raise NotAbove maxBehindNs u (whileCondition spurious maxBehindNs u) := by
  by_cases hlt : u.currentVal < u.newValue
  · by_cases hexchange : maxBehindNs = u.currentVal ∧ spurious = false
    · obtain ⟨rfl, rfl⟩ := hexchange
      rw [whileCondition, if_pos hlt, compareExchangeWeak, if_pos ⟨rfl, rfl⟩]
      constructor
      · intro _
        exact (if_pos hlt).symm
      · intro u' hnone
        cases hnone
    · rw [whileCondition, if_pos hlt, compareExchangeWeak, if_neg hexchange]
      constructor
      · intro hsome
        cases hsome
      · rintro u' hu'
        obtain rfl := Option.some.inj hu'
        exact ⟨rfl, Int64.le_refl maxBehindNs, rfl⟩
  · rw [whileCondition, if_neg hlt]
    constructor
    · intro _
      exact (raise_eq_of_not_lt h hlt).symm
    · intro u' hnone
      cases hnone

/-- The loop performs the maximum, whatever the other threads do in between. -/
theorem maxUpdate_performs : Performs maxUpdate raise NotAbove where
  enter maxBehindNs _ := Int64.le_refl maxBehindNs
  others maxBehindNs v _ h := Int64.le_trans h (le_raise maxBehindNs v)
  attempt spurious _ _ h := whileCondition_attempted spurious h

/-- An exchange that is neither disturbed nor spurious ends the loop at the second
evaluation of its condition at the latest. -/
theorem whileCondition_ends {maxBehindNs : Int64} {u u' : Update}
    (h : (whileCondition false maxBehindNs u).2 = some u') :
    (whileCondition false maxBehindNs u').2 = none := by
  by_cases hlt : u.currentVal < u.newValue
  · by_cases hexchange : maxBehindNs = u.currentVal
    · simp [whileCondition, compareExchangeWeak, hexchange, hlt] at h
    · obtain rfl : ⟨maxBehindNs, u.newValue⟩ = u' := by
        simpa [whileCondition, compareExchangeWeak, hexchange, hlt] using h
      by_cases hlt' : maxBehindNs < u.newValue
      · simp [whileCondition, compareExchangeWeak, hlt']
      · simp [whileCondition, hlt']
  · simp [whileCondition, hlt] at h

section Runs

variable {ι : Type*} [DecidableEq ι]

/-- The global never decreases, and whenever no update is in progress it is the greatest
of its initial value and the values offered so far. -/
theorem maxBehindNs_isGreatest (initial : Int64) {s : Threads ι}
    (hreach : Runs maxUpdate (.start initial) s) :
    (∀ s', Runs maxUpdate s s' → s.cell ≤ s'.cell) ∧
      (s.Quiet → IsGreatest (insert initial {v | v ∈ s.offered}) s.cell) := by
  constructor
  · intro s' hrun
    exact Runs.relates maxUpdate_performs Int64.le_refl (fun _ _ _ => Int64.le_trans) le_raise
      hreach hrun
  · intro hquiet
    obtain ⟨performed, h⟩ := Runs.account maxUpdate_performs hreach
    have hvalues : {v | v ∈ s.offered} = {v | v ∈ performed} := by
      ext v
      exact (h.mem_iff_of_quiet hquiet v).symm
    rw [hvalues, h.cell_eq]
    exact isGreatest_foldl_raise initial performed

end Runs

/-- Two threads read the same value, the one with more to offer is first to exchange. -/
theorem race_runs : ∃ s : Threads (Fin 2), Runs maxUpdate (.start 0) s ∧ s.Quiet ∧
    s.offered = [5, 7] ∧ s.cell = 7 := by
  refine ⟨_, ((((Relation.ReflTransGen.single (.enter (-5) (i := 0) rfl)).tail
    (.enter (-7) (i := 1) rfl)).tail
    (.attempt false (i := 1) rfl)).tail
    (.attempt false (i := 0) rfl)).tail
    (.attempt false (i := 0) rfl), ?_, ?_, ?_⟩
  · exact Fin.forall_fin_two.mpr ⟨rfl, rfl⟩
  · rfl
  · rfl

/-- The smaller offer does not undo the larger one. -/
theorem maxBehindNs_isGreatest_race : ∃ s : Threads (Fin 2), Runs maxUpdate (.start 0) s ∧
    s.Quiet ∧ s.offered = [5, 7] ∧ s.cell = 7 ∧ (∀ s', Runs maxUpdate s s' → 7 ≤ s'.cell) ∧
      IsGreatest (insert 0 {v | v ∈ s.offered}) s.cell := by
  obtain ⟨s, hreach, hquiet, hoffered, hcell⟩ := race_runs
  obtain ⟨hgrows, hgreatest⟩ := maxBehindNs_isGreatest 0 hreach
  rw [hcell] at hgrows
  exact ⟨s, hreach, hquiet, hoffered, hcell, hgrows, hgreatest hquiet⟩

end QueryPlayback.MaxBehind
