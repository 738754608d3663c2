import QueryPlayback.Text.StringRef
import Mathlib.Data.List.Basic

/-!
# The calls of `readline`

`getEntries` and `getQuery` call `readline` with one position until it returns
an empty line. The calls are numbered here from zero.
-/

namespace QueryPlayback

open Lines

/-- The position after the given number of calls, the first of them at position zero. -/
def posAfter (data : StringRef) : ℕ → Option Nat
  | 0 => some 0
  | n + 1 => (readline data (posAfter data n)).2

/-- The line that the call with the given number returns. -/
def nthLine (data : StringRef) (n : ℕ) : StringRef := (readline data (posAfter data n)).1

/-- After some calls the lines behind them are unread. -/
theorem lines_remaining_posAfter (data : StringRef) (n : ℕ) :
    lines newline (remaining data (posAfter data n)) = (lines newline data.chars).drop n := by
  induction n with
  | zero => rfl
  | succ n ih =>
      rw [posAfter, (readline_spec data (posAfter data n)).2]
      by_cases hend : remaining data (posAfter data n) = []
      · rw [hend, lines_nil] at ih
        rw [hend, dropLine_nil, lines_nil, ← List.drop_drop, ← ih, List.drop_nil]
      · rw [lines_eq_cons newline hend] at ih
        rw [← List.drop_drop, ← ih, List.drop_one, List.tail_cons]

/-- The calls return the lines of the text one by one. -/
theorem nthLine_chars {data : StringRef} {n : ℕ} (h : n < (lines newline data.chars).length) :
    (nthLine data n).chars = (lines newline data.chars)[n] := by
  have hunread := lines_remaining_posAfter data n
  rw [List.drop_eq_getElem_cons h] at hunread
  rw [nthLine, (readline_spec data (posAfter data n)).1]
  exact (takeLine_dropLine_of_lines newline hunread).1

/-- Behind the last line every call returns the empty line. -/
theorem nthLine_of_length_le {data : StringRef} {n : ℕ}
    (h : (lines newline data.chars).length ≤ n) : nthLine data n = StringRef.empty := by
  have hunread := lines_remaining_posAfter data n
  rw [List.drop_eq_nil_of_le h] at hunread
  have hend : remaining data (posAfter data n) = [] := by
    rw [← flatten_lines newline (remaining data (posAfter data n)), hunread, List.flatten_nil]
  rw [nthLine, readline_of_remaining_nil hend]

/-- The lines that the calls return in front of the first empty one. -/
theorem map_nthLine (data : StringRef) :
    (List.range (lines newline data.chars).length).map (fun m => (nthLine data m).chars) =
      lines newline data.chars := by
  apply List.ext_getElem
  · simp
  · intro m hm hm'
    rw [List.getElem_map, List.getElem_range]
    exact nthLine_chars hm'

/-- Each call in front of the end returns a line, and its line feed is its last byte. -/
theorem nthLine_line {data : StringRef} {m : ℕ} (hm : m < (lines newline data.chars).length) :
    (nthLine data m).chars ≠ [] ∧ newline ∉ (nthLine data m).chars.dropLast ∧
      (newline ∉ (nthLine data m).chars → m + 1 = (lines newline data.chars).length) := by
  have hline := nthLine_chars hm
  have hunread := lines_remaining_posAfter data m
  rw [List.drop_eq_getElem_cons hm] at hunread
  obtain ⟨htake, -⟩ := takeLine_dropLine_of_lines newline hunread
  refine ⟨?_, ?_, ?_⟩
  · rw [hline, ← htake, Ne, takeLine_eq_nil_iff]
    intro hend
    rw [hend] at hunread
    cases hunread
  · rw [hline, ← htake]
    exact not_mem_dropLast_takeLine newline _
  · intro hno
    rw [hline] at hno
    exact last_of_not_mem newline hm hno

/-- The calls return non-empty lines that make up the text, and then empty lines for ever. -/
theorem readline_partitions (data : StringRef) :
    ∃ n, (∀ m < n, (nthLine data m).chars ≠ [] ∧ newline ∉ (nthLine data m).chars.dropLast ∧
        (newline ∉ (nthLine data m).chars → m + 1 = n)) ∧
      (∀ m, n ≤ m → nthLine data m = StringRef.empty) ∧
      ((List.range n).map fun m => (nthLine data m).chars).flatten = data.chars := by
  refine ⟨(lines newline data.chars).length, ?_, ?_, ?_⟩
  · intro m hm
    exact nthLine_line hm
  · intro m hm
    exact nthLine_of_length_le hm
  · rw [map_nthLine]
    exact flatten_lines newline data.chars

end QueryPlayback
