import QueryPlayback.Lib.Calendar
import QueryPlayback.QueryLog.Parse
import QueryPlayback.Text.Fields

/-!
# Time lines

The server writes `# Time: ` with the date in six digits and the time of day, the
hour padded with a blank. A fraction of six digits may follow. `parse_time` reads
such a line with `sscanf`, and gets the instant back.

## Implementation notes

`mktime` is a parameter. With `tm_isdst` zero it is taken to count the seconds of
the calendar from a fixed instant.
-/

namespace QueryPlayback

open Calendar

namespace Scan

/-- The last decimal digit of a number. -/
def digit (n : ℕ) : Byte := (48 + n % 10).toUInt8

/-- `%0<width>d`: the last digits of a number, with leading zeros. -/
def padded : ℕ → ℕ → Bytes
  | 0, _ => []
  | width + 1, n => padded width (n / 10) ++ [digit n]

/-- `%2d` for a number of two digits at most. -/
def paddedWithBlank (n : ℕ) : Bytes := if n < 10 then [32, digit n] else padded 2 n

theorem digit_spec (n : ℕ) : isDigit (digit n) = true ∧ hexValue (digit n) = some (n % 10) := by
  have hdigits : ∀ k < 10,
      isDigit (48 + k).toUInt8 = true ∧ hexValue (48 + k).toUInt8 = some k := by decide
  exact hdigits (n % 10) (Nat.mod_lt n (by decide))

@[simp] theorem length_padded (width n : ℕ) : (padded width n).length = width := by
  induction width generalizing n with
  | zero => rfl
  | succ width ih => rw [padded, List.length_append, ih, List.length_singleton]

theorem isDigit_padded (width n : ℕ) : ∀ c ∈ padded width n, isDigit c = true := by
  induction width generalizing n with
  | zero => simp [padded]
  | succ width ih =>
      intro c hc
      rcases List.mem_append.mp hc with hc | hc
      · exact ih (n / 10) c hc
      · obtain rfl := List.mem_singleton.mp hc
        exact (digit_spec n).1

/-- Digits stand for a number modulo a power of ten. -/
theorem number_padded (width n : ℕ) : number 10 (padded width n) = n % 10 ^ width := by
  induction width generalizing n with
  | zero => rw [pow_zero, Nat.mod_one]; rfl
  | succ width ih =>
      have hprevious := ih (n / 10)
      rw [number] at hprevious ⊢
      rw [padded, List.foldl_append, hprevious, List.foldl_cons, List.foldl_nil,
        (digit_spec n).2, Option.getD_some, pow_succ', Nat.mod_mul, Nat.add_comm]

/-- A conversion reads digits up to its width or to a byte that is none. -/
theorem scanInt_digits {width : ℕ} {ds rest : Bytes} (hds : ∀ c ∈ ds, isDigit c = true)
    (hne : ds ≠ []) (hlength : ds.length ≤ width)
    (hend : ds.length = width ∨ ∀ c ∈ rest.head?, isDigit c = false) :
    scanInt width (ds ++ rest) = some ((number 10 ds : Int), rest) := by
  have htake : (ds ++ rest).take width = ds ++ rest.take (width - ds.length) := by
    rw [List.take_append, List.take_of_length_le hlength]
  have hstop : ∀ c ∈ (rest.take (width - ds.length)).head?, isDigit c = false := by
    rcases hend with heq | hend
    · simp [heq]
    · intro c hc
      cases rest with
      | nil => simp at hc
      | cons a rest =>
          cases hwidth : width - ds.length with
          | zero => simp [hwidth] at hc
          | succ k =>
              rw [hwidth, List.take_succ_cons] at hc
              exact hend c hc
  obtain ⟨hskip, -⟩ := skip_digits hds hne rest
  obtain ⟨-, hsign⟩ := skip_digits hds hne (rest.take (width - ds.length))
  have hsome : ds.isEmpty = false := by simpa using hne
  simp only [scanInt, hskip, htake, hsign, takeWhile_digits hds hstop, hsome,
    Bool.false_eq_true, if_false, Nat.sub_self, Nat.zero_add, List.drop_left]

/-- A number in exactly the width of the conversion. -/
theorem scanInt_padded {width n : ℕ} (hwidth : 0 < width) (hn : n < 10 ^ width) (rest : Bytes) :
    scanInt width (padded width n ++ rest) = some ((n : Int), rest) := by
  have hlength := length_padded width n
  have hne : padded width n ≠ [] := by
    rw [← List.length_pos_iff, hlength]
    exact hwidth
  rw [scanInt_digits (isDigit_padded width n) hne hlength.le (Or.inl hlength), number_padded,
    Nat.mod_eq_of_lt hn]

/-- The padding of an hour is skipped, and a colon ends it. -/
theorem scanInt_paddedWithBlank {n : ℕ} (hn : n < 100) (rest : Bytes) :
    scanInt 2 ((paddedWithBlank n ++ 58 :: rest).dropWhile isSpace) =
      some ((n : Int), 58 :: rest) := by
  by_cases hsmall : n < 10
  · have hdigit : ∀ c ∈ [digit n], isDigit c = true :=
      List.forall_mem_singleton.mpr (digit_spec n).1
    have hnumber : number 10 [digit n] = n := by
      have hvalue := number_padded 1 n
      rwa [pow_one, Nat.mod_eq_of_lt hsmall] at hvalue
    have hskip : (paddedWithBlank n ++ 58 :: rest).dropWhile isSpace =
        [digit n] ++ 58 :: rest := by
      rw [paddedWithBlank, if_pos hsmall, List.cons_append, List.dropWhile_cons_of_pos (by decide)]
      exact (skip_digits hdigit (by simp) _).1
    rw [hskip, scanInt_digits hdigit (by simp) (Nat.le_succ 1)
      (Or.inr (by simpa using by decide)), hnumber]
  · have hne : padded 2 n ≠ [] := by simp [padded]
    rw [paddedWithBlank, if_neg hsmall, (skip_digits (isDigit_padded 2 n) hne _).1,
      scanInt_padded (by decide) hn]

section Directives

variable {ds : List Directive} {s rest : Bytes}

theorem sscanf_literal (c : Byte) (ds : List Directive) (s : Bytes) :
    sscanf (.literal c :: ds) (c :: s) = sscanf ds s := by
  rw [sscanf, if_pos rfl]

theorem sscanf_int {width : ℕ} {v : Int} (h : scanInt width s = some (v, rest)) :
    sscanf (.int width :: ds) s = v :: sscanf ds rest := by
  rw [sscanf, h]

theorem sscanf_padded {width n : ℕ} (hwidth : 0 < width) (hn : n < 10 ^ width) :
    sscanf (.int width :: ds) (padded width n ++ s) = (n : Int) :: sscanf ds s :=
  sscanf_int (scanInt_padded hwidth hn s)

end Directives

end Scan

/-- The broken-down time of an instant: the years since 1900 and the months from zero. -/
def brokenDown (i : Instant) : Tm where
  year := (i.year : Int) - 1900
  mon := (i.month : Int) - 1
  mday := i.day
  hour := i.hour
  min := i.minute
  sec := i.second

/-- The time zone is at a fixed offset, in seconds, from the calendar. -/
def FixedOffset (mktime : Tm → Int) (offset : Int) : Prop :=
  ∀ i : Instant, mktime (brokenDown i) = i.seconds + offset

/-- The date and the time of day as the server writes them. -/
def writeInstant (i : Instant) : Bytes :=
  Scan.padded 2 (i.year % 100) ++ (Scan.padded 2 i.month ++ (Scan.padded 2 i.day ++
    (32 :: (Scan.paddedWithBlank i.hour ++ (58 :: (Scan.padded 2 i.minute ++
      (58 :: Scan.padded 2 i.second)))))))

/-- A fraction of the second, in microseconds. -/
def writeFraction : Option ℕ → Bytes
  | none => []
  | some us => 46 :: Scan.padded 6 us

/-- A time line, without the line feed behind it. -/
def writeTime (i : Instant) (fraction : Option ℕ) : Bytes :=
  bytes "# Time: " ++ (writeInstant i ++ writeFraction fraction)

/-- What may stand behind a time line: without a fraction it is not a point. -/
def Follows (fraction : Option ℕ) (tail : Bytes) : Prop :=
  fraction = none → tail.head? ≠ some 46

/-- The first eight directives read the marker. -/
theorem sscanf_marker (s : Bytes) :
    Scan.sscanf timeFormat (bytes "# Time: " ++ s) =
      Scan.sscanf (timeFormat.drop 8) (s.dropWhile Scan.isSpace) := by
  rfl

theorem month_lt (i : Instant) : i.month < 10 ^ 2 := by
  have hmonth := i.month_valid
  omega

theorem day_lt (i : Instant) : i.day < 10 ^ 2 := by
  have hlength : monthLength i.year i.month ≤ 31 := by
    rw [monthLength]
    split
    · split <;> decide
    · split <;> decide
  have hday := i.day_valid
  omega

/-- A fraction is read when there is one. -/
theorem sscanf_fraction {fraction : Option ℕ} (hus : ∀ us ∈ fraction, us < 1000000)
    {tail : Bytes} (htail : Follows fraction tail) :
    Scan.sscanf [.literal 46, .int 6] (writeFraction fraction ++ tail) =
      fraction.toList.map (fun us => (us : Int)) := by
  cases fraction with
  | none =>
      cases tail with
      | nil => rfl
      | cons a tail =>
          have ha : a ≠ 46 := by simpa using htail rfl
          rw [writeFraction, List.nil_append, Scan.sscanf, if_neg ha]
          rfl
  | some us =>
      have hlt : us < 10 ^ 6 := hus us rfl
      rw [writeFraction, List.cons_append, Scan.sscanf_literal, Scan.sscanf_padded (by decide) hlt]
      rfl

/-- The conversions give back what was written. -/
theorem sscanf_writeTime (i : Instant) {fraction : Option ℕ}
    (hus : ∀ us ∈ fraction, us < 1000000) {tail : Bytes} (htail : Follows fraction tail) :
    Scan.sscanf timeFormat (writeTime i fraction ++ tail) =
      [((i.year % 100 : ℕ) : Int), i.month, i.day, i.hour, i.minute, i.second] ++
        fraction.toList.map (fun us => (us : Int)) := by
  obtain ⟨hhour, hminute, hsecond⟩ := i.time_valid
  have hyear : i.year % 100 < 10 ^ 2 := Nat.mod_lt _ (by decide)
  have hdigits : ∀ s, (Scan.padded 2 (i.year % 100) ++ s).dropWhile Scan.isSpace =
      Scan.padded 2 (i.year % 100) ++ s := fun s =>
    (Scan.skip_digits (Scan.isDigit_padded 2 _) (by simp [Scan.padded]) s).1
  have hblank : ∀ s, (32 :: s : Bytes).dropWhile Scan.isSpace = s.dropWhile Scan.isSpace :=
    fun s => List.dropWhile_cons_of_pos (by decide)
  simp only [writeTime, writeInstant, List.append_assoc, List.cons_append]
  rw [sscanf_marker, hdigits]
  simp only [timeFormat, List.drop_succ_cons, List.drop_zero]
  rw [Scan.sscanf_padded (by decide) hyear, Scan.sscanf_padded (by decide) (month_lt i),
    Scan.sscanf_padded (by decide) (day_lt i), Scan.sscanf, hblank,
    Scan.sscanf_int (Scan.scanInt_paddedWithBlank (by omega) _), Scan.sscanf_literal,
    Scan.sscanf_padded (by decide) (by omega), Scan.sscanf_literal,
    Scan.sscanf_padded (by decide) (by omega), sscanf_fraction hus htail]
  rfl

/-- A time line is a C string. -/
theorem ne_zero_of_mem_writeTime {i : Instant} {fraction : Option ℕ} :
    ∀ c ∈ writeTime i fraction, c ≠ 0 := by
  have hdigits : ∀ width n, ∀ c ∈ Scan.padded width n, c ≠ 0 := by
    rintro width n c hc rfl
    cases Scan.isDigit_padded width n 0 hc
  have hhour : ∀ c ∈ Scan.paddedWithBlank i.hour, c ≠ 0 := by
    rw [Scan.paddedWithBlank]
    split
    · rintro c hc rfl
      have hdigit : (0 : Byte) = Scan.digit i.hour := by simpa using hc
      have hisDigit := (Scan.digit_spec i.hour).1
      rw [← hdigit] at hisDigit
      cases hisDigit
    · exact hdigits 2 i.hour
  have hmarker : ∀ c ∈ bytes "# Time: ", c ≠ 0 := by
    have hnot : (0 : Byte) ∉ bytes "# Time: " := by decide
    exact fun c hc hzero => hnot (hzero ▸ hc)
  have hfraction : ∀ c ∈ writeFraction fraction, c ≠ 0 := by
    cases fraction with
    | none => simp [writeFraction]
    | some us => exact List.forall_mem_cons.mpr ⟨by decide, hdigits 6 us⟩
  have hblank : (32 : Byte) ≠ 0 := by decide
  have hcolon : (58 : Byte) ≠ 0 := by decide
  simp only [writeTime, writeInstant, List.forall_mem_append, List.forall_mem_cons]
  exact ⟨hmarker, ⟨hdigits _ _, hdigits _ _, hdigits _ _, hblank, hhour, hcolon, hdigits _ _,
    hcolon, hdigits _ _⟩, hfraction⟩

/-- The end of a C string does not put a point behind the line. -/
theorem Follows.takeWhile {fraction : Option ℕ} {tail : Bytes} (h : Follows fraction tail)
    (p : Byte → Bool) : Follows fraction (tail.takeWhile p) := by
  intro hnone
  have hhead := h hnone
  cases tail with
  | nil => exact hhead
  | cons a tail =>
      rw [List.takeWhile_cons]
      split
      · exact hhead
      · simp

/-- The year of a window of a hundred years from its last two digits. -/
theorem year_of_digits {year : ℕ} (hfirst : 1970 ≤ year) (hlast : year ≤ 2069) :
    ((year % 100 : ℕ) : Int) + (if ((year % 100 : ℕ) : Int) < 70 then 100 else 0) =
      (year : Int) - 1900 := by
  split <;> omega

/-- A line of the log that tells the time: an instant of the window of two-digit years,
its microseconds if they are written, and what stands behind, such as a line feed. -/
structure TimeLine where
  instant : Instant
  fraction : Option ℕ
  tail : Bytes
  year_le : instant.year ≤ 2069
  fraction_lt : ∀ us ∈ fraction, us < 1000000
  tail_follows : Follows fraction tail

namespace TimeLine

def text (l : TimeLine) : Bytes := writeTime l.instant l.fraction ++ l.tail

/-- What the line tells, from the year to the microsecond. -/
def components (l : TimeLine) : List ℕ := l.instant.components ++ [l.fraction.getD 0]

/-- The nanoseconds between the epoch and the time the line tells. -/
def time (offset : Int) (l : TimeLine) : TimePoint :=
  (l.instant.seconds + offset) * 1000000000 + (l.fraction.getD 0 : ℕ) * 1000

variable {mktime : Tm → Int} {offset : Int}

/-- A time line is decoded to its instant. -/
theorem parseTime_text (hmktime : FixedOffset mktime offset) (l : TimeLine)
    (startTime : TimePoint) : parseTime mktime l.text startTime = (true, l.time offset) := by
  obtain ⟨i, fraction, tail, hyear, hus, htail⟩ := l
  have hcut : (writeTime i fraction ++ tail).takeWhile (· ≠ 0) =
      writeTime i fraction ++ tail.takeWhile (· ≠ 0) :=
    List.takeWhile_append_of_pos fun c hc => decide_eq_true (ne_zero_of_mem_writeTime c hc)
  have htm := hmktime i
  rw [brokenDown, ← year_of_digits i.year_valid hyear] at htm
  rw [parseTime, text, hcut, sscanf_writeTime i hus (htail.takeWhile _)]
  cases fraction with
  | none =>
      rw [if_neg (by simp)]
      exact congrArg (fun t => (true, t * 1000000000 + 0 * 1000)) htm
  | some us =>
      rw [if_neg (by simp)]
      exact congrArg (fun t => (true, t * 1000000000 + (us : Int) * 1000)) htm

/-- The microseconds belong to the second. -/
theorem microseconds_lt (l : TimeLine) : l.fraction.getD 0 < 1000000 := by
  cases hfraction : l.fraction with
  | none => decide
  | some us => exact l.fraction_lt us hfraction

/-- Time points respect the order of the calendar, fractions included. -/
theorem time_lt (offset : Int) {l l' : TimeLine} (h : l.components < l'.components) :
    l.time offset < l'.time offset := by
  have hus := l.microseconds_lt
  have horder : l.instant.components < l'.instant.components ∨
      l.instant.components = l'.instant.components ∧
        l.fraction.getD 0 < l'.fraction.getD 0 := by
    simp only [components, Instant.components, List.cons_append, List.nil_append,
      List.cons_lt_cons_iff, List.not_lt_nil, List.cons.injEq, and_false, or_false,
      and_true] at h ⊢
    omega
  change ((l.instant.seconds : Int) + offset) * 1000000000 + (l.fraction.getD 0 : ℕ) * 1000 <
    ((l'.instant.seconds : Int) + offset) * 1000000000 + (l'.fraction.getD 0 : ℕ) * 1000
  rcases horder with hlt | ⟨heq, hlt⟩
  · have hseconds := Instant.seconds_lt hlt
    omega
  · have hseconds := Instant.seconds_eq heq
    omega

end TimeLine

/-- Time lines decode to the instants they tell, later ones to later time points, and a
line with fewer than six fields changes nothing. -/
theorem parseTime_decodes {mktime : Tm → Int} {offset : Int}
    (hmktime : FixedOffset mktime offset) :
    (∀ (l : TimeLine) (startTime : TimePoint),
        parseTime mktime l.text startTime = (true, l.time offset)) ∧
      (∀ (l l' : TimeLine) (startTime startTime' : TimePoint), l.components < l'.components →
        (parseTime mktime l.text startTime).2 < (parseTime mktime l'.text startTime').2) ∧
      ∀ (s : Bytes) (startTime : TimePoint),
        (Scan.sscanf timeFormat (s.takeWhile (· ≠ 0))).length < 6 →
          parseTime mktime s startTime = (false, startTime) := by
  refine ⟨TimeLine.parseTime_text hmktime, ?_, ?_⟩
  · intro l l' startTime startTime' h
    rw [TimeLine.parseTime_text hmktime, TimeLine.parseTime_text hmktime]
    exact TimeLine.time_lt offset h
  · intro s startTime hfew
    rw [parseTime, if_pos hfew]

/-- `mktime` in a time zone without an offset. -/
def utcMktime (td : Tm) : Int :=
  let year := (td.year + 1900).toNat
  let days := before (fun k => yearLength (1970 + k)) (year - 1970) +
    (before (fun k => monthLength year (k + 1)) td.mon.toNat + (td.mday.toNat - 1))
  (((days * 24 + td.hour.toNat) * 60 + td.min.toNat) * 60 + td.sec.toNat : ℕ)

theorem utcMktime_fixedOffset : FixedOffset utcMktime 0 := by
  intro i
  have hyear : ((i.year : Int) - 1900 + 1900).toNat = i.year := by omega
  have hmonth : ((i.month : Int) - 1).toNat = i.month - 1 := by omega
  simp only [utcMktime, brokenDown, hyear, hmonth, Int.toNat_natCast, Int.add_zero]
  rfl

/-- A time line with a padded hour, a fraction and its line feed. -/
def timeLineSample : TimeLine where
  instant := ⟨2009, 4, 2, 9, 23, 36, by decide, by decide, by decide, by decide⟩
  fraction := some 123456
  tail := [newline]
  year_le := by decide
  fraction_lt := by decide
  tail_follows := by
    intro hnone
    cases hnone

theorem parseTime_decodes_sample :
    parseTime utcMktime (bytes "# Time: 090402  9:23:36.123456\n") epoch =
      (true, 1238664216123456000) :=
  (parseTime_decodes utcMktime_fixedOffset).1 timeLineSample epoch

end QueryPlayback
