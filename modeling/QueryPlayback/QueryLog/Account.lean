import QueryPlayback.QueryLog.Records
import Mathlib.Data.List.TakeWhile

/-!
# An account of the lines of a log

The parse loop on arbitrary bytes. Every line of the log lies in one of the runs
of lines that the loop measures, is a time line, or stands before the first
`#`-line behind a time line or the start of the log. A run that has a statement
becomes an entry; the others are only counted.
-/

namespace QueryPlayback

open Lines

/-- Consecutive lines of a log by the number of the first one. -/
structure Run where
  first : ℕ
  count : ℕ
  deriving DecidableEq, Repr

namespace Run

/-- The number of the line behind the last one. -/
def stop (r : Run) : ℕ := r.first + r.count

def Covers (r : Run) (n : ℕ) : Prop := r.first ≤ n ∧ n < r.stop

/-- The lines themselves. -/
def lines (r : Run) (ls : List Bytes) : List Bytes := (ls.drop r.first).take r.count

/-- The lines as one view of the log. -/
def view (r : Run) (data : StringRef) : StringRef :=
  let ls := Lines.lines newline data.chars
  ⟨data.offset + (ls.take r.first).flatten.length, (r.lines ls).flatten,
    (ls.drop r.stop).flatten ++ data.after⟩

/-- Whether a line of the run lies outside of comments. -/
def hasSql (r : Run) (ls : List Bytes) : Bool := (r.lines ls).any (!isComment ·)

end Run

/-- The log has an `n`-th line, and the line has the property. -/
def lineIs (p : Bytes → Bool) (ls : List Bytes) (n : ℕ) : Bool := (ls[n]?).any p

/-- A `#`-line that is no time line. -/
def opensRecord (l : Bytes) : Bool := isComment l && !isTimeLine l

/-- A line outside of comments with no `#`-line between itself and the time line before it. -/
def Loose (ls : List Bytes) (n : ℕ) : Prop :=
  lineIs (!isComment ·) ls n = true ∧
    ∀ m < n, lineIs opensRecord ls m = true → ∃ j, m < j ∧ j < n ∧ lineIs isTimeLine ls j = true

/-- Lines from a `#`-line on without a header among the later ones. -/
structure IsRecord (ls : List Bytes) (r : Run) : Prop where
  nonempty : 0 < r.count
  bounded : r.stop ≤ ls.length
  opened : lineIs opensRecord ls r.first = true
  inside : ∀ n, r.first < n → n < r.stop → lineIs isHeader ls n = false

/-- The lines of an entry. -/
structure IsSlice (ls : List Bytes) (r : Run) : Prop extends IsRecord ls r where
  statement : ∃ n, r.Covers n ∧ lineIs (!isComment ·) ls n = true

/-- A run cannot be prolonged on either side. -/
structure Maximal (ls : List Bytes) (r : Run) : Prop where
  right : r.stop = ls.length ∨ lineIs isHeader ls r.stop = true
  left : r.first = 0 ∨ lineIs opensRecord ls (r.first - 1) = false ∨
    lineIs isHeader ls r.first = true

/-- A maximal block of `#`-lines. -/
structure IsHashBlock (ls : List Bytes) (r : Run) : Prop
    extends IsRecord ls r, Maximal ls r where
  comments : ∀ n, r.Covers n → lineIs isComment ls n = true

/-- The runs of the lines `ls`, the first of which has the number `n`. -/
def runs (n : ℕ) : List Bytes → List Run
  | [] => []
  | l :: rest =>
      if !opensRecord l then runs (n + 1) rest
      else
        let count := (rest.takeWhile (!isHeader ·)).length + 1
        ⟨n, count⟩ :: runs (n + count) (rest.dropWhile (!isHeader ·))
  termination_by ls => ls.length
  decreasing_by
    · simp
    · exact Nat.lt_succ_of_le (List.dropWhile_sublist _).length_le

section Positions

variable {ls xs ys rest : List Bytes} {l : Bytes} {n : ℕ}

theorem getElem?_of_drop (h : ls.drop n = xs ++ ys) {i : ℕ} (hi : i < xs.length) :
    ls[n + i]? = xs[i]? := by
  rw [← List.getElem?_drop, h, List.getElem?_append_left hi]

theorem drop_of_drop (h : ls.drop n = xs ++ ys) : ls.drop (n + xs.length) = ys := by
  rw [← List.drop_drop, h, List.drop_left]

theorem lineIs_of_drop (h : ls.drop n = l :: rest) (p : Bytes → Bool) : lineIs p ls n = p l := by
  have hget : ls[n]? = some l := by simpa using @getElem?_of_drop ls [l] rest n h 0 Nat.one_pos
  rw [lineIs, hget]
  rfl

theorem lt_length_of_lineIs {p : Bytes → Bool} (h : lineIs p ls n = true) : n < ls.length := by
  by_contra hn
  rw [lineIs, List.getElem?_eq_none (Nat.not_lt.mp hn)] at h
  cases h

end Positions

/-- No record is open in front of the `n`-th line. -/
def Idle (ls : List Bytes) (n : ℕ) : Prop :=
  ∀ m < n, lineIs opensRecord ls m = true → ∃ j, m < j ∧ j < n ∧ lineIs isTimeLine ls j = true

/-- What the runs say about the lines from the `n`-th one on. -/
structure Accounts (ls : List Bytes) (n : ℕ) (rs : List Run) : Prop where
  above : ∀ r ∈ rs, n ≤ r.first
  ordered : rs.Pairwise fun r r' => r.stop ≤ r'.first
  record : ∀ r ∈ rs, IsRecord ls r ∧ Maximal ls r
  uncovered : ∀ m, n ≤ m → m < ls.length → (∀ r ∈ rs, ¬r.Covers m) →
    lineIs isTimeLine ls m = true ∨ Loose ls m

section Accounting

variable {ls rest : List Bytes} {l : Bytes} {n : ℕ}

/-- One more run in front. -/
theorem Accounts.cons {count : ℕ} {rs : List Run} (h : Accounts ls (n + count) rs)
    (hrecord : IsRecord ls ⟨n, count⟩) (hmaximal : Maximal ls ⟨n, count⟩) :
    Accounts ls n (⟨n, count⟩ :: rs) where
  above := by
    intro r hr
    cases hr with
    | head => exact Nat.le_refl n
    | tail _ hr => exact (Nat.le_add_right n count).trans (h.above r hr)
  ordered := List.pairwise_cons.mpr ⟨fun r hr => h.above r hr, h.ordered⟩
  record := List.forall_mem_cons.mpr ⟨⟨hrecord, hmaximal⟩, h.record⟩
  uncovered := by
    intro m hm hlt huncovered
    obtain ⟨hfirst, hothers⟩ := List.forall_mem_cons.mp huncovered
    apply h.uncovered m ?_ hlt hothers
    by_contra hcovered
    exact hfirst ⟨hm, Nat.not_le.mp hcovered⟩

/-- Behind a line that opens no record none is open. -/
theorem idle_succ (h : ls.drop n = l :: rest) (hskip : opensRecord l = false)
    (hentry : Idle ls n ∨ lineIs isHeader ls n = true) : Idle ls (n + 1) := by
  intro m hm hopens
  have hne : m ≠ n := by
    rintro rfl
    rw [lineIs_of_drop h, hskip] at hopens
    cases hopens
  have hlt : m < n := by omega
  by_cases htime : isTimeLine l = true
  · exact ⟨n, hlt, Nat.lt_succ_self n, by rw [lineIs_of_drop h, htime]⟩
  · have hcomment : isComment l = false := by
      simpa [opensRecord, htime] using hskip
    have hidle : Idle ls n := by
      apply hentry.resolve_right
      rw [lineIs_of_drop h, isHeader_of_not_isComment hcomment]
      exact Bool.false_ne_true
    obtain ⟨j, hmj, hjn, hj⟩ := hidle m hlt hopens
    exact ⟨j, hmj, by omega, hj⟩

/-- A skipped line is a time line or a loose one. -/
theorem skipped_line (h : ls.drop n = l :: rest) (hskip : opensRecord l = false)
    (hentry : Idle ls n ∨ lineIs isHeader ls n = true) :
    lineIs isTimeLine ls n = true ∨ Loose ls n := by
  by_cases htime : isTimeLine l = true
  · exact Or.inl (by rw [lineIs_of_drop h, htime])
  · have hcomment : isComment l = false := by
      simpa [opensRecord, htime] using hskip
    refine Or.inr ⟨by rw [lineIs_of_drop h, hcomment]; rfl, ?_⟩
    apply hentry.resolve_right
    rw [lineIs_of_drop h, isHeader_of_not_isComment hcomment]
    exact Bool.false_ne_true

/-- The run of a line that opens a record. -/
theorem isRecord_of_drop {body others : List Bytes} (h : ls.drop n = (l :: body) ++ others)
    (hopens : opensRecord l = true) (hbody : ∀ x ∈ body, isHeader x = false) :
    IsRecord ls ⟨n, body.length + 1⟩ where
  nonempty := Nat.succ_pos _
  bounded := by
    have hlength := congrArg List.length h
    simp only [List.length_drop, List.length_append, List.length_cons] at hlength
    simp only [Run.stop]
    omega
  opened := by rw [lineIs_of_drop h, hopens]
  inside m hm hstop := by
    obtain ⟨i, rfl⟩ : ∃ i, m = n + (i + 1) := ⟨m - n - 1, by simp only at hm; omega⟩
    have hi : i < body.length := by
      simp only [Run.stop] at hstop
      omega
    have hget : ls[n + (i + 1)]? = some body[i] := by
      rw [getElem?_of_drop h (by simpa using hi)]
      simp [hi]
    rw [lineIs, hget]
    exact hbody _ (List.getElem_mem hi)

/-- It ends at a header or with the log, and what comes before it does not belong to it. -/
theorem maximal_of_drop {body others : List Bytes} (h : ls.drop n = (l :: body) ++ others)
    (hothers : ∀ x, others.head? = some x → isHeader x = true)
    (hentry : Idle ls n ∨ lineIs isHeader ls n = true) : Maximal ls ⟨n, body.length + 1⟩ where
  right := by
    have hdrop : ls.drop (n + (body.length + 1)) = others := drop_of_drop h
    cases others with
    | nil =>
        left
        have hlength := congrArg List.length h
        simp only [List.length_drop, List.length_append, List.length_cons,
          List.length_nil] at hlength
        simp only [Run.stop]
        omega
    | cons x others =>
        right
        rw [Run.stop, lineIs_of_drop hdrop]
        exact hothers x rfl
  left := by
    by_cases hzero : n = 0
    · exact Or.inl hzero
    · right
      apply hentry.imp_left
      intro hidle
      by_contra hopens
      obtain ⟨j, hj, hjn, -⟩ := hidle (n - 1) (by omega) (by simpa using hopens)
      omega

/-- Induction on the runs, from the first line of each to the line behind it. -/
theorem runs_accounts (n : ℕ) (suf : List Bytes) (h : ls.drop n = suf)
    (hentry : Idle ls n ∨ lineIs isHeader ls n = true ∨ ls.length ≤ n) :
    Accounts ls n (runs n suf) := by
  induction n, suf using runs.induct with
  | case1 n =>
      have hlength : ls.length ≤ n := List.drop_eq_nil_iff.mp h
      rw [runs]
      exact ⟨by simp, List.Pairwise.nil, by simp, fun m hm hm' => absurd hm' (by omega)⟩
  | case2 n l rest hskip ih =>
      have hskip : opensRecord l = false := by simpa using hskip
      have hlt : n < ls.length := by
        by_contra hle
        rw [List.drop_eq_nil_iff.mpr (Nat.not_lt.mp hle)] at h
        cases h
      have hentry : Idle ls n ∨ lineIs isHeader ls n = true :=
        hentry.imp_right fun hor => hor.resolve_right (Nat.not_le.mpr hlt)
      have hnext : ls.drop (n + 1) = rest := drop_of_drop (show ls.drop n = [l] ++ rest from h)
      have hrest := ih hnext (Or.inl (idle_succ h hskip hentry))
      rw [runs, hskip]
      refine ⟨fun r hr => (hrest.above r hr).trans' (Nat.le_succ n), hrest.ordered, hrest.record,
        fun m hm hm' huncovered => ?_⟩
      rcases Nat.eq_or_lt_of_le hm with rfl | hlt'
      · exact skipped_line h hskip hentry
      · exact hrest.uncovered m hlt' hm' huncovered
  | case3 n l rest hopens count ih =>
      have hopens : opensRecord l = true := by simpa using hopens
      have hlt : n < ls.length := by
        by_contra hle
        rw [List.drop_eq_nil_iff.mpr (Nat.not_lt.mp hle)] at h
        cases h
      have hentry : Idle ls n ∨ lineIs isHeader ls n = true :=
        hentry.imp_right fun hor => hor.resolve_right (Nat.not_le.mpr hlt)
      have hcut : ls.drop n =
          (l :: rest.takeWhile (!isHeader ·)) ++ rest.dropWhile (!isHeader ·) := by
        rw [h, List.cons_append, List.takeWhile_append_dropWhile]
      have hbody : ∀ x ∈ rest.takeWhile (!isHeader ·), isHeader x = false := by
        intro x hx
        simpa using List.mem_takeWhile_imp hx
      have hothers : ∀ x, (rest.dropWhile (!isHeader ·)).head? = some x → isHeader x = true := by
        intro x hx
        have hnot := List.head?_dropWhile_not (!isHeader ·) rest
        rw [hx] at hnot
        simpa using hnot
      have hrecord := isRecord_of_drop hcut hopens hbody
      have hmaximal := maximal_of_drop hcut hothers hentry
      have hnext : lineIs isHeader ls (n + count) = true ∨ ls.length ≤ n + count :=
        hmaximal.right.symm.imp_right fun hstop => Nat.le_of_eq hstop.symm
      have hrest := ih (drop_of_drop hcut) (Or.inr hnext)
      rw [runs, if_neg (by simp [hopens])]
      exact hrest.cons hrecord hmaximal

end Accounting

section Views

variable {data : StringRef} {ls : List Bytes} {n : ℕ}

/-- The bytes in front of the line behind a run. -/
theorem length_take_of_drop {xs ys : List Bytes} (h : ls.drop n = xs ++ ys) :
    (ls.take (n + xs.length)).flatten.length =
      (ls.take n).flatten.length + xs.flatten.length := by
  rw [List.take_add, h, List.take_left, List.flatten_append, List.length_append]

/-- The blocks of the lines are the runs, as views of the log. -/
theorem blocks_eq_runs (mktime : Tm → Int) (hls : ls = lines newline data.chars) (n : ℕ)
    (time : TimePoint) (suf : List Bytes) (h : ls.drop n = suf) :
    (blocks mktime data.after (data.offset + (ls.take n).flatten.length) time suf).map
        (fun b => (b.view, b.lines)) =
      (runs n suf).map fun r => (r.view data, r.lines ls) := by
  induction n, suf using runs.induct generalizing time with
  | case1 n => simp [blocks, runs]
  | case2 n l rest hskip ih =>
      have hcut : ls.drop n = [l] ++ rest := h
      have hoffset := length_take_of_drop hcut
      have hnext := drop_of_drop hcut
      simp only [List.length_singleton, List.flatten_singleton] at hoffset hnext
      rw [runs, if_pos hskip]
      by_cases hcomment : isComment l = true
      · have htime : isTimeLine l = true := by simpa [opensRecord, hcomment] using hskip
        rw [blocks, if_neg (by simp [hcomment]), if_pos htime, Nat.add_assoc, ← hoffset]
        exact ih _ hnext
      · rw [blocks, if_pos (by simpa using hcomment), Nat.add_assoc, ← hoffset]
        exact ih _ hnext
  | case3 n l rest hopens count ih =>
      obtain ⟨hcomment, htime⟩ : isComment l = true ∧ isTimeLine l = false := by
        simpa [opensRecord] using hopens
      have hcut : ls.drop n =
          (l :: rest.takeWhile (!isHeader ·)) ++ rest.dropWhile (!isHeader ·) := by
        rw [h, List.cons_append, List.takeWhile_append_dropWhile]
      have hoffset := length_take_of_drop hcut
      have hnext := drop_of_drop hcut
      have hlines : Run.lines ⟨n, count⟩ ls = l :: rest.takeWhile (!isHeader ·) := by
        rw [Run.lines, hcut, List.take_left']
        rfl
      rw [runs, if_neg hopens, blocks, if_neg (by simp [hcomment]), if_neg (by simp [htime])]
      simp only [List.map_cons]
      congr 1
      · have hstop : ls.drop (Run.stop ⟨n, count⟩) = rest.dropWhile (!isHeader ·) := hnext
        change (_, _) = (Run.view ⟨n, count⟩ data, Run.lines ⟨n, count⟩ ls)
        simp only [Run.view, ← hls, hlines, hstop, Block.view]
      · rw [Nat.add_assoc, ← hoffset]
        exact ih _ hnext

/-- All runs of a log. -/
def logRuns (data : StringRef) : List Run := runs 0 (lines newline data.chars)

/-- The lines of the log's runs are those of its blocks. -/
theorem logBlocks_eq_logRuns (mktime : Tm → Int) (data : StringRef) :
    (logBlocks mktime data).map (fun b => (b.view, b.lines)) =
      (logRuns data).map fun r => (r.view data, r.lines (lines newline data.chars)) :=
  blocks_eq_runs mktime rfl 0 epoch _ rfl

/-- The blocks with a statement are the runs with one, and so are the others. -/
theorem logBlocks_filter (mktime : Tm → Int) (data : StringRef) (p : List Bytes → Bool) :
    ((logBlocks mktime data).filter fun b => p b.lines).map Block.view =
      ((logRuns data).filter fun r => p (r.lines (lines newline data.chars))).map
        fun r => r.view data := by
  have hfilter := congrArg
    (fun l => (l.filter fun x : StringRef × List Bytes => p x.2).map Prod.fst)
    (logBlocks_eq_logRuns mktime data)
  simp only [List.filter_map, List.map_map] at hfilter
  exact hfilter

end Views

section Conservation

variable {ls : List Bytes}

theorem getElem?_lines {r : Run} {i : ℕ} (hi : i < r.count) :
    (r.lines ls)[i]? = ls[r.first + i]? := by
  rw [Run.lines, List.getElem?_take_of_lt hi, List.getElem?_drop]

theorem hasSql_iff {r : Run} :
    r.hasSql ls = true ↔ ∃ n, r.Covers n ∧ lineIs (!isComment ·) ls n = true := by
  rw [Run.hasSql, List.any_eq_true]
  constructor
  · rintro ⟨l, hl, hsql⟩
    obtain ⟨i, hget⟩ := List.mem_iff_getElem?.mp hl
    have hlength : i < (r.lines ls).length := (List.getElem?_eq_some_iff.mp hget).1
    have hi : i < r.count := hlength.trans_le (List.length_take_le _ _)
    refine ⟨r.first + i, ⟨Nat.le_add_right _ _, Nat.add_lt_add_left hi _⟩, ?_⟩
    rw [getElem?_lines hi] at hget
    rw [lineIs, hget]
    exact hsql
  · rintro ⟨n, ⟨hfirst, hstop⟩, hline⟩
    obtain ⟨i, rfl⟩ := Nat.exists_eq_add_of_le hfirst
    have hi : i < r.count := Nat.lt_of_add_lt_add_left hstop
    obtain ⟨l, hget, hsql⟩ := (Option.any_eq_true _ _).mp hline
    refine ⟨l, List.mem_iff_getElem?.mpr ⟨i, ?_⟩, hsql⟩
    rw [getElem?_lines hi, hget]

/-- A record without a statement has only `#`-lines. -/
theorem isComment_of_not_hasSql {r : Run} (hrecord : IsRecord ls r) (h : r.hasSql ls = false)
    {n : ℕ} (hn : r.Covers n) : lineIs isComment ls n = true := by
  by_contra hcomment
  have hlt : n < ls.length := hn.2.trans_le hrecord.bounded
  have hsql : lineIs (!isComment ·) ls n = true := by
    rw [lineIs, List.getElem?_eq_getElem hlt] at hcomment ⊢
    simpa using hcomment
  rw [hasSql_iff.mpr ⟨n, hn, hsql⟩] at h
  cases h

/-- The slices are the entries, the blocks of `#`-lines outside of them are only counted,
and nothing but time lines and loose lines lies elsewhere. -/
structure Conserves (ls : List Bytes) (slices hashBlocks : List Run) : Prop where
  ordered : slices.Pairwise fun r r' => r.stop ≤ r'.first
  slice : ∀ r ∈ slices, IsSlice ls r
  distinct : hashBlocks.Nodup
  hashBlock : ∀ r, r ∈ hashBlocks ↔ IsHashBlock ls r ∧ ∀ s ∈ slices, ¬s.Covers r.first
  uncovered : ∀ n < ls.length, (∀ r ∈ slices, ¬r.Covers n) →
    lineIs isTimeLine ls n = true ∨ Loose ls n ∨ ∃ r ∈ hashBlocks, r.Covers n

/-- In a block of `#`-lines every line could open a record. -/
theorem IsHashBlock.opensRecord {r : Run} (h : IsHashBlock ls r) {n : ℕ} (hn : r.Covers n) :
    lineIs opensRecord ls n = true := by
  rcases Nat.eq_or_lt_of_le hn.1 with rfl | hlt
  · exact h.opened
  · have hcomment := h.comments n hn
    have hheader := h.inside n hlt hn.2
    have hlength : n < ls.length := hn.2.trans_le h.bounded
    rw [lineIs, List.getElem?_eq_getElem hlength] at hcomment hheader ⊢
    have htime : isTimeLine ls[n] = false := by
      by_contra htime
      have hhead : isHeader ls[n] = true := isHeader_of_isTimeLine (by simpa using htime)
      rw [Option.any_some, hhead] at hheader
      cases hheader
    have hcomment : isComment ls[n] = true := hcomment
    simp [QueryPlayback.opensRecord, hcomment, htime]

/-- Two maximal blocks of `#`-lines that meet are the same. -/
theorem IsHashBlock.eq_of_covers {r r' : Run} (h : IsHashBlock ls r) (h' : IsHashBlock ls r')
    (hcovers : r.Covers r'.first) : r = r' := by
  have hfirst : r.first = r'.first := by
    by_contra hne
    have hlt : r.first < r'.first := lt_of_le_of_ne hcovers.1 hne
    have hprevious : r.Covers (r'.first - 1) := by
      constructor
      · omega
      · exact (Nat.sub_le _ _).trans_lt hcovers.2
    rcases h'.left with hzero | hleft | hleft
    · omega
    · rw [h.opensRecord hprevious] at hleft
      cases hleft
    · rw [h.inside _ hlt hcovers.2] at hleft
      cases hleft
  have hle : ∀ {r r' : Run}, IsHashBlock ls r → IsHashBlock ls r' → r.first = r'.first →
      r'.count ≤ r.count := by
    intro r r' h h' hfirst
    by_contra hlt
    have hinside := h'.inside r.stop (by have := h.nonempty; simp only [Run.stop]; omega)
      (by simp only [Run.stop]; omega)
    rcases h.right with hright | hright
    · have hbounded := h'.bounded
      simp only [Run.stop] at hright hbounded
      omega
    · rw [hinside] at hright
      cases hright
  have hcount : r.count = r'.count := Nat.le_antisymm (hle h' h hfirst.symm) (hle h h' hfirst)
  cases r
  cases r'
  simp_all

/-- A line lies in one run at most. -/
theorem Accounts.eq_of_covers {n : ℕ} {rs : List Run} (h : Accounts ls n rs) :
    ∀ r ∈ rs, ∀ r' ∈ rs, ∀ m, r.Covers m → r'.Covers m → r = r' := by
  intro r hr r' hr'
  apply List.Pairwise.forall_of_forall_of_flip
    (R := fun r r' : Run => ∀ m, r.Covers m → r'.Covers m → r = r') ?_ ?_ ?_ hr hr'
  · exact fun _ _ _ _ _ => rfl
  · refine h.ordered.imp fun hle m hm hm' => ?_
    exact absurd (hm.2.trans_le (hle.trans hm'.1)) (Nat.lt_irrefl m)
  · refine h.ordered.imp fun hle m hm hm' => ?_
    exact absurd (hm'.2.trans_le (hle.trans hm.1)) (Nat.lt_irrefl m)

/-- What lies in no run with a statement. -/
theorem Accounts.uncovered_slices {rs : List Run} (h : Accounts ls 0 rs) {n : ℕ}
    (hn : n < ls.length) (hnone : ∀ r ∈ rs.filter (·.hasSql ls), ¬r.Covers n) :
    lineIs isTimeLine ls n = true ∨ Loose ls n ∨
      ∃ r ∈ rs.filter (!·.hasSql ls), r.Covers n := by
  by_cases hcovered : ∃ r ∈ rs, r.Covers n
  · obtain ⟨r, hr, hcovers⟩ := hcovered
    cases hsql : r.hasSql ls with
    | true => exact absurd hcovers (hnone r (List.mem_filter.mpr ⟨hr, hsql⟩))
    | false => exact Or.inr (Or.inr ⟨r, List.mem_filter.mpr ⟨hr, by simp [hsql]⟩, hcovers⟩)
  · have hline := h.uncovered n (Nat.zero_le n) hn fun r hr hcovers => hcovered ⟨r, hr, hcovers⟩
    exact hline.imp_right Or.inl

/-- A line that opens a record is neither a time line nor a loose one. -/
theorem not_loose_of_opensRecord {n : ℕ} (h : lineIs opensRecord ls n = true) :
    lineIs isTimeLine ls n = false ∧ ¬Loose ls n := by
  have hn := lt_length_of_lineIs h
  rw [lineIs, List.getElem?_eq_getElem hn] at h
  obtain ⟨hcomment, htime⟩ : isComment ls[n] = true ∧ isTimeLine ls[n] = false := by
    simpa [opensRecord] using h
  constructor
  · rw [lineIs, List.getElem?_eq_getElem hn]
    exact htime
  · rintro ⟨hloose, -⟩
    rw [lineIs, List.getElem?_eq_getElem hn, Option.any_some, hcomment] at hloose
    cases hloose

theorem IsRecord.covers_first {r : Run} (h : IsRecord ls r) : r.Covers r.first :=
  ⟨Nat.le_refl _, Nat.lt_add_of_pos_right h.nonempty⟩

/-- The runs with a statement and the others, as slices and blocks of `#`-lines. -/
theorem Accounts.conserves {rs : List Run} (h : Accounts ls 0 rs) :
    Conserves ls (rs.filter (·.hasSql ls)) (rs.filter (!·.hasSql ls)) := by
  have hblock : ∀ r ∈ rs.filter (!·.hasSql ls), IsHashBlock ls r := by
    intro r hr
    obtain ⟨hr, hsql⟩ := List.mem_filter.mp hr
    obtain ⟨hrecord, hmaximal⟩ := h.record r hr
    exact ⟨hrecord, hmaximal, fun n => isComment_of_not_hasSql hrecord (by simpa using hsql)⟩
  constructor
  case ordered => exact h.ordered.filter _
  case slice =>
    intro r hr
    obtain ⟨hr, hsql⟩ := List.mem_filter.mp hr
    exact ⟨(h.record r hr).1, hasSql_iff.mp hsql⟩
  case distinct =>
    apply List.Nodup.filter
    refine h.ordered.imp_of_mem fun {r r'} hr hr' hle => ?_
    rintro rfl
    exact absurd ((h.record r hr).1.covers_first.2.trans_le hle) (Nat.lt_irrefl _)
  case uncovered => exact fun n hn hnone => h.uncovered_slices hn hnone
  case hashBlock =>
    intro r
    constructor
    · intro hr
      have hhash := hblock r hr
      refine ⟨hhash, fun s hs hcovers => ?_⟩
      obtain ⟨hs, hsql⟩ := List.mem_filter.mp hs
      obtain ⟨hr, hnosql⟩ := List.mem_filter.mp hr
      obtain rfl := h.eq_of_covers s hs r hr _ hcovers hhash.covers_first
      rw [hsql] at hnosql
      cases hnosql
    · rintro ⟨hr, hnone⟩
      obtain ⟨htime, hloose⟩ := not_loose_of_opensRecord hr.opened
      rcases h.uncovered_slices (lt_length_of_lineIs hr.opened) hnone with hcase | hcase | hcase
      · rw [htime] at hcase
        cases hcase
      · exact absurd hcase hloose
      · obtain ⟨s, hs, hcovers⟩ := hcase
        rwa [(hblock s hs).eq_of_covers hr hcovers] at hs

end Conservation

theorem logRuns_accounts (data : StringRef) :
    Accounts (lines newline data.chars) 0 (logRuns data) :=
  runs_accounts 0 _ rfl (Or.inl fun m hm => absurd hm (Nat.not_lt_zero m))

/-- The variables of `getEntries` before its first line. -/
def parseStart (options : QueryLogOptions) : ParseState :=
  ⟨some 0, StringRef.empty, epoch, options.accurateMode, .empty⟩

/-- On any bytes the parse loop ends, every line is accounted for, and the two counters
tell the slices and the blocks of `#`-lines apart. Preprocessing permutes the slices. -/
theorem parseLoop_conserves_lines (mktime : Tm → Int) (options : QueryLogOptions)
    (data : StringRef) :
    ∃ st slices hashBlocks,
      parseLoop mktime data (data.size + 1) (data.size + 1) (parseStart options) = some st ∧
      Conserves (lines newline data.chars) slices hashBlocks ∧
      st.entries.entries.map (·.data) = slices.map (·.view data) ∧
      st.entries.numQueries = slices.length ∧
      st.entries.numEntries = st.entries.numQueries + hashBlocks.length ∧
      ∃ entries, getEntries mktime options data = some (entries, st.accurateMode) ∧
        (entries.entries.map (·.data)).Perm (slices.map (·.view data)) ∧
        entries.numQueries = st.entries.numQueries ∧
        entries.numEntries = st.entries.numEntries := by
  have hread : Reading data StringRef.empty (some 0) data.chars := Or.inl ⟨rfl, rfl⟩
  obtain ⟨st, hloop, hentries, -⟩ :=
    @parseLoop_eq mktime data (data.size + 1) (data.size + 1) (parseStart options) data.chars
      hread le_rfl (Nat.lt_succ_self _) (Nat.le_succ _)
  have hoffset : data.offset + (data.size - data.chars.length) = data.offset := by
    simp [StringRef.size]
  change st.entries = (blocks mktime data.after _ epoch _).foldl _ QueryLogEntries.empty at hentries
  rw [hoffset, ← logBlocks, foldl_addBlock] at hentries
  have hslices : ((logBlocks mktime data).filter (·.hasSql)).map Block.view =
      ((logRuns data).filter (·.hasSql (lines newline data.chars))).map (·.view data) :=
    logBlocks_filter mktime data fun ls => ls.any (!isComment ·)
  have hcount : (logBlocks mktime data).length = (logRuns data).length := by
    simpa using congrArg List.length (logBlocks_eq_logRuns mktime data)
  have hsplit := List.length_eq_length_filter_add (l := logRuns data)
    (·.hasSql (lines newline data.chars))
  have hdata : st.entries.entries.map (·.data) =
      ((logRuns data).filter (·.hasSql (lines newline data.chars))).map (·.view data) := by
    rw [hentries, ← hslices]
    simp [QueryLogEntries.empty, Function.comp_def, Block.entry]
  have hqueries : st.entries.numQueries =
      ((logRuns data).filter (·.hasSql (lines newline data.chars))).length := by
    rw [hentries]
    simpa [QueryLogEntries.empty] using congrArg List.length hslices
  refine ⟨st, _, _, hloop, (logRuns_accounts data).conserves, hdata, hqueries, ?_, ?_⟩
  · rw [hqueries, ← hsplit, ← hcount, hentries]
    simp [QueryLogEntries.empty]
  · refine ⟨{ st.entries with
      entries := QueryLogData.preprocess { options with accurateMode := st.accurateMode }
        st.entries.entries }, ?_, ?_, rfl, rfl⟩
    · change (parseLoop mktime data _ _ (parseStart options)).map _ = _
      rw [hloop]
      rfl
    · rw [← hdata]
      exact QueryLogData.preprocess_perm _ _

end QueryPlayback
