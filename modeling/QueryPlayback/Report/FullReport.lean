import QueryPlayback.Report.SimpleReport
import QueryPlayback.Text.ScanLine

/-!
# The detailed report

`query_execution` counts a statement under the first keyword of its list that it
finds, with a space behind it, anywhere in the text. The first word of the text
may be another keyword.

## Implementation notes

The six triples of counters are fields of one type. The thread id and the other
parts of the results are not used. The locale is the one of the program's start,
where the letters are those of ASCII.
-/

namespace QueryPlayback

/-- The kinds of statements that are counted. -/
inductive Category
  | select
  | update
  | insert
  | delete
  | replace
  | drop
  deriving DecidableEq, Repr

namespace Category

def keyword : Category → Bytes
  | select => bytes "SELECT"
  | update => bytes "UPDATE"
  | insert => bytes "INSERT"
  | delete => bytes "DELETE"
  | replace => bytes "REPLACE"
  | drop => bytes "DROP"

/-- The place in the list of keywords. -/
def rank : Category → ℕ
  | select => 0
  | update => 1
  | insert => 2
  | delete => 3
  | replace => 4
  | drop => 5

theorem rank_injective : Function.Injective rank := by
  intro k k' h
  cases k <;> cases k' <;> first | rfl | cases h

end Category

/-- `nr_select`, `nr_select_faster` and `nr_select_slower`, and so on for the other kinds. -/
structure StatementCount where
  nr : UInt64 := 0
  nrFaster : UInt64 := 0
  nrSlower : UInt64 := 0
  deriving DecidableEq, Repr

/-- `class FullReportPlugin`. -/
structure FullReportPlugin where
  select : StatementCount := {}
  update : StatementCount := {}
  insert : StatementCount := {}
  delete : StatementCount := {}
  replace : StatementCount := {}
  drop : StatementCount := {}
  totalExecutionTimeMs : UInt64 := 0
  expectedTotalExecutionTimeMs : UInt64 := 0
  deriving DecidableEq, Repr

/-- The arguments of `query_execution` that are used. -/
structure StatementExecution where
  query : Bytes
  expected : TimedResult
  actual : TimedResult
  deriving DecidableEq, Repr

/-- `boost::to_upper` for one character. -/
def toUpper (c : Byte) : Byte := if 97 ≤ c && c ≤ 122 then c - 32 else c

/-- `boost::to_upper_copy`. -/
def toUpperCopy (s : Bytes) : Bytes := s.map toUpper

/-- The ordered tests of `query_execution`. -/
def category (newQuery : Bytes) : Option Category :=
  if (search (bytes "SELECT ") newQuery).isSome then some .select
  else if (search (bytes "UPDATE ") newQuery).isSome then some .update
  else if (search (bytes "INSERT ") newQuery).isSome then some .insert
  else if (search (bytes "DELETE ") newQuery).isSome then some .delete
  else if (search (bytes "REPLACE ") newQuery).isSome then some .replace
  else if (search (bytes "DROP ") newQuery).isSome then some .drop
  else none

/-- The increments of a triple. -/
def StatementCount.add (n : StatementCount) (faster slower : UInt64) : StatementCount :=
  ⟨n.nr + 1, n.nrFaster + faster, n.nrSlower + slower⟩

/-- `faster` and `slower`. -/
def compareDurations (expected actual : Int64) : UInt64 × UInt64 :=
  if expected ≠ 0 then if actual < expected then (1, 0) else (0, 1) else (0, 0)

namespace FullReportPlugin

def count (r : FullReportPlugin) : Category → StatementCount
  | .select => r.select
  | .update => r.update
  | .insert => r.insert
  | .delete => r.delete
  | .replace => r.replace
  | .drop => r.drop

def modifyCount (r : FullReportPlugin) (f : StatementCount → StatementCount) :
    Category → FullReportPlugin
  | .select => { r with select := f r.select }
  | .update => { r with update := f r.update }
  | .insert => { r with insert := f r.insert }
  | .delete => { r with delete := f r.delete }
  | .replace => { r with replace := f r.replace }
  | .drop => { r with drop := f r.drop }

@[simp] theorem count_modifyCount (r : FullReportPlugin) (f : StatementCount → StatementCount)
    (k k' : Category) :
    (r.modifyCount f k).count k' = if k = k' then f (r.count k') else r.count k' := by
  cases k <;> cases k' <;> rfl

/-- `query_execution`. -/
def queryExecution (r : FullReportPlugin) (c : StatementExecution) : FullReportPlugin :=
  let expected := c.expected.duration
  let actual := c.actual.duration
  let (faster, slower) := compareDurations expected actual
  let r := { r with
    totalExecutionTimeMs := r.totalExecutionTimeMs + actual.toUInt64
    expectedTotalExecutionTimeMs :=
      if expected ≠ 0 then r.expectedTotalExecutionTimeMs + expected.toUInt64
      else r.expectedTotalExecutionTimeMs }
  match category (toUpperCopy c.query) with
  | some k => r.modifyCount (·.add faster slower) k
  | none => r

/-- The plugin after a sequence of calls. -/
def after (calls : List StatementExecution) : FullReportPlugin :=
  calls.foldl queryExecution {}

end FullReportPlugin

/-- The bytes of an identifier that is not quoted. -/
def isWordByte (c : Byte) : Bool :=
  (48 ≤ c && c ≤ 57) || (65 ≤ c && c ≤ 90) || (97 ≤ c && c ≤ 122) || c == 95 || c == 36 || 128 ≤ c

/-- The first word of a text. -/
def firstWord (query : Bytes) : Bytes := (query.dropWhile Scan.isSpace).takeWhile isWordByte

/-- The keyword is the first word of the text, in any letter case. -/
def BeginsWith (query : Bytes) (k : Category) : Prop := toUpperCopy (firstWord query) = k.keyword

instance (query : Bytes) (k : Category) : Decidable (BeginsWith query k) :=
  inferInstanceAs (Decidable (_ = _))

/-- The keyword occurs in the text with a space behind it, in any letter case. -/
def Mentions (query : Bytes) (k : Category) : Prop :=
  k.keyword ++ bytes " " <:+: toUpperCopy query

/-- The keyword is the first one of the list that the text mentions. -/
def MentionsFirst (query : Bytes) (k : Category) : Prop :=
  Mentions query k ∧ ∀ k' : Category, k'.rank < k.rank → ¬Mentions query k'

/-- The number of statements that begin with a keyword. -/
def beginning (calls : List StatementExecution) (k : Category) : ℕ :=
  calls.countP fun c => decide (BeginsWith c.query k)

/-- The number of those of them with an expected duration. -/
def compared (calls : List StatementExecution) (k : Category) : ℕ :=
  calls.countP fun c => decide (BeginsWith c.query k) && decide (c.expected.duration ≠ 0)

/-- Each counter is the number of the statements that begin with its keyword, and those of them
with an expected duration are the faster and the slower ones. -/
def CountsByKind (calls : List StatementExecution) (r : FullReportPlugin) : Prop :=
  ∀ k, (r.count k).nr.toNat = beginning calls k ∧
    (r.count k).nrFaster.toNat + (r.count k).nrSlower.toNat = compared calls k

section Category

variable {query : Bytes} {k k' : Category}

theorem MentionsFirst.unique (h : MentionsFirst query k) (h' : MentionsFirst query k') :
    k = k' := by
  apply Category.rank_injective
  rcases Nat.lt_trichotomy k.rank k'.rank with hlt | heq | hgt
  · exact absurd h.1 (h'.2 k hlt)
  · exact heq
  · exact absurd h'.1 (h.2 k' hgt)

theorem BeginsWith.unique (h : BeginsWith query k) (h' : BeginsWith query k') : k = k' := by
  have hkeywords : k.keyword = k'.keyword := h.symm.trans h'
  revert hkeywords
  cases k <;> cases k' <;> decide

/-- The first category of the list that a test selects. -/
def firstCategory (test : Category → Bool) : Option Category :=
  if test .select then some .select
  else if test .update then some .update
  else if test .insert then some .insert
  else if test .delete then some .delete
  else if test .replace then some .replace
  else if test .drop then some .drop
  else none

/-- The categories in the order of the tests. -/
def categories : List Category := [.select, .update, .insert, .delete, .replace, .drop]

theorem firstCategory_eq_find? (test : Category → Bool) :
    firstCategory test = categories.find? test := by
  unfold firstCategory categories
  split_ifs <;> simp [*]

theorem firstCategory_spec (test : Category → Bool) :
    match firstCategory test with
    | some k => test k = true ∧ ∀ k' : Category, k'.rank < k.rank → ¬test k' = true
    | none => ∀ k, ¬test k = true := by
  have hall : ∀ k, k ∈ categories := by
    intro k
    cases k <;> decide
  rw [firstCategory_eq_find?]
  cases h : categories.find? test with
  | none => exact fun k => List.find?_eq_none.mp h k (hall k)
  | some k =>
      obtain ⟨hk, front, rest, hsplit, hfront⟩ := List.find?_eq_some_iff_append.mp h
      refine ⟨hk, fun k' hlt => ?_⟩
      have hsorted : categories.Pairwise fun a b => a.rank < b.rank := by decide
      have hmem := hall k'
      rw [hsplit] at hsorted hmem
      rcases List.mem_append.mp hmem with hmem | hmem
      · simpa using hfront k' hmem
      · -- the others stand behind the one found
        have hbehind := (List.pairwise_append.mp hsorted).2.1
        rcases List.mem_cons.mp hmem with rfl | hmem
        · exact absurd hlt (lt_irrefl _)
        · exact absurd hlt (lt_asymm (List.rel_of_pairwise_cons hbehind hmem))

theorem category_eq (newQuery : Bytes) :
    category newQuery =
      firstCategory fun k => (search (k.keyword ++ bytes " ") newQuery).isSome := by
  have hselect : bytes "SELECT " = Category.select.keyword ++ bytes " " := by decide
  have hupdate : bytes "UPDATE " = Category.update.keyword ++ bytes " " := by decide
  have hinsert : bytes "INSERT " = Category.insert.keyword ++ bytes " " := by decide
  have hdelete : bytes "DELETE " = Category.delete.keyword ++ bytes " " := by decide
  have hreplace : bytes "REPLACE " = Category.replace.keyword ++ bytes " " := by decide
  have hdrop : bytes "DROP " = Category.drop.keyword ++ bytes " " := by decide
  rw [category, hselect, hupdate, hinsert, hdelete, hreplace, hdrop, firstCategory]

/-- The chain of tests finds the first keyword of the list that is mentioned. -/
theorem category_spec (query : Bytes) :
    match category (toUpperCopy query) with
    | some k => MentionsFirst query k
    | none => ∀ k, ¬Mentions query k := by
  have hmentions : ∀ k : Category,
      (search (k.keyword ++ bytes " ") (toUpperCopy query)).isSome = true ↔ Mentions query k :=
    fun k => search_isSome_iff (by cases k <;> decide)
  have hspec := firstCategory_spec fun k =>
    (search (k.keyword ++ bytes " ") (toUpperCopy query)).isSome
  rw [← category_eq] at hspec
  cases hcategory : category (toUpperCopy query) with
  | some k =>
      rw [hcategory] at hspec
      exact ⟨(hmentions k).mp hspec.1, fun k' hk' => mt (hmentions k').mpr (hspec.2 k' hk')⟩
  | none =>
      rw [hcategory] at hspec
      exact fun k => mt (hmentions k).mpr (hspec k)

theorem category_eq_some_iff : category (toUpperCopy query) = some k ↔ MentionsFirst query k := by
  have hspec := category_spec query
  cases hcategory : category (toUpperCopy query) with
  | some found =>
      rw [hcategory] at hspec
      constructor
      · intro h
        rwa [← Option.some.inj h]
      · intro h
        rw [MentionsFirst.unique hspec h]
  | none =>
      rw [hcategory] at hspec
      exact iff_of_false (Option.some_ne_none k).symm fun h => hspec k h.1

end Category

section Counting

/-- What a call does to the counters of a kind. -/
theorem count_queryExecution (r : FullReportPlugin) (c : StatementExecution) (k : Category) :
    (r.queryExecution c).count k =
      if category (toUpperCopy c.query) = some k then
        (r.count k).add (compareDurations c.expected.duration c.actual.duration).1
          (compareDurations c.expected.duration c.actual.duration).2
      else r.count k := by
  rw [FullReportPlugin.queryExecution]
  cases category (toUpperCopy c.query) with
  | none => cases k <;> rfl
  | some found =>
      dsimp only
      rw [FullReportPlugin.count_modifyCount]
      simp only [Option.some.injEq]
      cases k <;> rfl

/-- With an expected duration the statement is faster or slower, and not both. -/
theorem compareDurations_sum (expected actual : Int64) :
    (compareDurations expected actual).1.toNat + (compareDurations expected actual).2.toNat =
      if expected ≠ 0 then 1 else 0 := by
  unfold compareDurations
  split_ifs <;> rfl

theorem toNat_add_of_lt {a b : UInt64} (h : a.toNat + b.toNat < 2 ^ 64) :
    (a + b).toNat = a.toNat + b.toNat := by
  rw [UInt64.toNat_add]
  exact Nat.mod_eq_of_lt h

/-- The increments of counters that do not wrap around. -/
theorem StatementCount.add_toNat {n : StatementCount} {faster slower : UInt64}
    (hnr : n.nr.toNat + 1 < 2 ^ 64)
    (hsum : n.nrFaster.toNat + n.nrSlower.toNat + (faster.toNat + slower.toNat) < 2 ^ 64) :
    (n.add faster slower).nr.toNat = n.nr.toNat + 1 ∧
      (n.add faster slower).nrFaster.toNat + (n.add faster slower).nrSlower.toNat =
        n.nrFaster.toNat + n.nrSlower.toNat + (faster.toNat + slower.toNat) := by
  have hfaster := toNat_add_of_lt (show n.nrFaster.toNat + faster.toNat < 2 ^ 64 by omega)
  have hslower := toNat_add_of_lt (show n.nrSlower.toNat + slower.toNat < 2 ^ 64 by omega)
  refine ⟨toNat_add_of_lt hnr, ?_⟩
  calc (n.add faster slower).nrFaster.toNat + (n.add faster slower).nrSlower.toNat =
      n.nrFaster.toNat + faster.toNat + (n.nrSlower.toNat + slower.toNat) :=
        congrArg₂ (· + ·) hfaster hslower
    _ = n.nrFaster.toNat + n.nrSlower.toNat + (faster.toNat + slower.toNat) := by omega

theorem after_append (calls : List StatementExecution) (c : StatementExecution) :
    FullReportPlugin.after (calls ++ [c]) = (FullReportPlugin.after calls).queryExecution c := by
  rw [FullReportPlugin.after, List.foldl_append]
  rfl

theorem beginning_append (calls : List StatementExecution) (c : StatementExecution)
    (k : Category) :
    beginning (calls ++ [c]) k = beginning calls k + if BeginsWith c.query k then 1 else 0 := by
  simp [beginning, List.countP_append, List.countP_singleton]

theorem compared_append (calls : List StatementExecution) (c : StatementExecution)
    (k : Category) :
    compared (calls ++ [c]) k = compared calls k +
      if BeginsWith c.query k then (if c.expected.duration ≠ 0 then 1 else 0) else 0 := by
  rw [compared, List.countP_append, List.countP_singleton]
  by_cases hbegins : BeginsWith c.query k <;> simp [compared, hbegins]

theorem compared_le (calls : List StatementExecution) (k : Category) :
    compared calls k ≤ beginning calls k :=
  List.countP_mono_left fun _ _ h => (Bool.and_eq_true_iff.mp h).1

/-- The first word of the text decides what the statement is counted as. -/
def CountedByFirstWord (query : Bytes) : Prop := ∀ k, BeginsWith query k ↔ MentionsFirst query k

/-- One call in which the first word decides. -/
theorem CountsByKind.append {calls : List StatementExecution} {c : StatementExecution}
    (h : CountsByKind calls (.after calls)) (hc : CountedByFirstWord c.query)
    (hbound : ∀ k, beginning (calls ++ [c]) k < 2 ^ 64) :
    CountsByKind (calls ++ [c]) (.after (calls ++ [c])) := by
  intro k
  obtain ⟨hnr, hsum⟩ := h k
  have hcategory : category (toUpperCopy c.query) = some k ↔ BeginsWith c.query k :=
    category_eq_some_iff.trans (hc k).symm
  have hlt := hbound k
  rw [beginning_append] at hlt
  rw [after_append, count_queryExecution, beginning_append, compared_append]
  by_cases hbegins : BeginsWith c.query k
  · have hdurations := compareDurations_sum c.expected.duration c.actual.duration
    have hle := compared_le calls k
    have hone : (if c.expected.duration ≠ 0 then 1 else 0) ≤ 1 := by split_ifs <;> omega
    rw [if_pos hbegins] at hlt
    rw [if_pos (hcategory.mpr hbegins), if_pos hbegins, if_pos hbegins, ← hnr, ← hsum,
      ← hdurations]
    apply StatementCount.add_toNat <;> omega
  · rw [if_neg (mt hcategory.mp hbegins), if_neg hbegins, if_neg hbegins]
    exact ⟨hnr, hsum⟩

/-- Two counts that differ by a call show how it was counted. -/
theorem CountsByKind.countedByFirstWord {calls : List StatementExecution} {c : StatementExecution}
    (h : CountsByKind calls (.after calls))
    (h' : CountsByKind (calls ++ [c]) (.after (calls ++ [c]))) :
    CountedByFirstWord c.query := by
  intro k
  have hnr := (h k).1
  have hnr' := (h' k).1
  rw [after_append, count_queryExecution, beginning_append, ← hnr] at hnr'
  rw [← category_eq_some_iff]
  by_cases hcategory : category (toUpperCopy c.query) = some k
  · refine iff_of_true ?_ hcategory
    by_contra hbegins
    rw [if_pos hcategory, if_neg hbegins, Nat.add_zero, StatementCount.add,
      UInt64.toNat_add] at hnr'
    have hlt := ((FullReportPlugin.after calls).count k).nr.toNat_lt
    change (_ + 1) % 2 ^ 64 = _ at hnr'
    omega
  · refine iff_of_false ?_ hcategory
    intro hbegins
    rw [if_neg hcategory, if_pos hbegins] at hnr'
    omega

/-- The report counts the statements of every sequence of calls by their kind, at every time, just
when in each of them a keyword is the first word if and only if it is the first one of the list
that occurs with a space behind it, and no counter wraps around. -/
theorem after_countsByKind_iff (calls : List StatementExecution) :
    (∀ past, past <+: calls → CountsByKind past (.after past)) ↔
      (∀ c ∈ calls, CountedByFirstWord c.query) ∧ ∀ k, beginning calls k < 2 ^ 64 := by
  constructor
  · intro h
    constructor
    · intro c hc
      obtain ⟨before, rest, rfl⟩ := List.append_of_mem hc
      apply (h before ⟨c :: rest, rfl⟩).countedByFirstWord
      exact h (before ++ [c]) ⟨rest, by simp⟩
    · intro k
      rw [← (h calls (List.prefix_refl calls) k).1]
      exact UInt64.toNat_lt _
  · rintro ⟨hcounted, hbound⟩ past hpast
    induction past using List.reverseRecOn with
    | nil => exact fun k => by cases k <;> exact ⟨rfl, rfl⟩
    | append_singleton past c ih =>
        apply (ih ((List.prefix_append past [c]).trans hpast)).append
        · exact hcounted c (hpast.subset (by simp))
        · exact fun k => Nat.lt_of_le_of_lt hpast.sublist.countP_le (hbound k)

/-- A statement that inserts what it selects. -/
def insertSelect : StatementExecution :=
  ⟨bytes "INSERT INTO t SELECT * FROM u", { duration := 1000 }, { duration := 500 }⟩

/-- It is counted as a selection. -/
theorem insertSelect_counted_as_select :
    (FullReportPlugin.after [insertSelect]).select = ⟨1, 1, 0⟩ ∧
      (FullReportPlugin.after [insertSelect]).insert = ⟨0, 0, 0⟩ ∧
      ¬CountsByKind [insertSelect] (.after [insertSelect]) := by
  have hinsert : (FullReportPlugin.after [insertSelect]).insert = ⟨0, 0, 0⟩ := by decide +kernel
  have hbegins : beginning [insertSelect] .insert = 1 := by decide +kernel
  refine ⟨by decide +kernel, hinsert, fun h => ?_⟩
  have hnr := (h .insert).1
  rw [FullReportPlugin.count, hinsert, hbegins] at hnr
  cases hnr

end Counting

end QueryPlayback
