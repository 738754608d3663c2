import QueryPlayback.Lib.Scanner
import QueryPlayback.Text.ScanLine

/-!
# How far the number scans read

`strtoull` and `strtod` get a pointer and no length. They read on until a byte
cannot continue the number, so a text that ends before such a byte sends them
beyond its end. The texts that do so are those that end inside a number or in
front of it.

## Implementation notes

The states are those of the C library's grammar in the C locale: decimal and
hexadecimal numbers with an exponent, `inf`, `infinity` and `nan` with a
payload in parentheses. Letters are compared without regard to case.
-/

namespace QueryPlayback.Scan

/-- An optional sign. -/
def isSign (c : Byte) : Bool := c == 45 || c == 43

/-- Where `strtoull` stands: in front of the sign, or behind it. -/
inductive IntegerState where
  | blank
  | digits
  deriving DecidableEq, Repr

/-- What `strtoull(s, NULL, 10)` makes of the next byte. -/
def strtoullStep : IntegerState → Byte → Option IntegerState
  | .blank, c =>
      if isSpace c then some .blank
      else if isSign c || isDigit c then some .digits else none
  | .digits, c => if isDigit c then some .digits else none

/-- The bytes `strtoull` looks at. -/
def strtoullScanner : Scanner IntegerState Byte := ⟨.blank, strtoullStep⟩

/-- Where `strtod` stands. `hex` tells whether the digits are hexadecimal, and
`left` is what is missing of a word. -/
inductive FloatState where
  | blank
  | signed
  | zero
  | mantissa (hex : Bool)
  | whole (hex : Bool)
  | point (hex : Bool)
  | fraction (hex : Bool)
  | exponent
  | exponentDigits
  | infinity (left : Bytes)
  | nan (left : Bytes)
  | payload
  deriving DecidableEq, Repr

/-- A digit of the mantissa. -/
def isMantissaDigit (hex : Bool) (c : Byte) : Bool :=
  if hex then (hexValue c).isSome else isDigit c

/-- The letter in front of the exponent, `p` or `e`. -/
def exponentLetter (hex : Bool) : Byte := if hex then 112 else 101

/-- A byte of the payload of `nan`: a letter, a digit or an underscore. -/
def isPayload (c : Byte) : Bool := isDigit c || (97 ≤ toLower c && toLower c ≤ 122) || c == 95

/-- The first byte of a mantissa. -/
def beginMantissa (hex : Bool) (c : Byte) : Option FloatState :=
  if isMantissaDigit hex c then some (.whole hex)
  else if c = 46 then some (.point hex) else none

/-- The first byte behind white space and the sign. -/
def beginFloat (c : Byte) : Option FloatState :=
  if c = 48 then some .zero
  else if toLower c = 105 then some (.infinity (bytes "nfinity"))
  else if toLower c = 110 then some (.nan (bytes "an"))
  else beginMantissa false c

/-- A byte behind the digits in front of the point. -/
def wholeStep (hex : Bool) (c : Byte) : Option FloatState :=
  if isMantissaDigit hex c then some (.whole hex)
  else if c = 46 then some (.fraction hex)
  else if toLower c = exponentLetter hex then some .exponent else none

/-- What `strtod(s, NULL)` makes of the next byte. Behind the last letter of
`infinity` and the parenthesis that ends a payload it reads no further. -/
def strtodStep : FloatState → Byte → Option FloatState
  | .blank, c =>
      if isSpace c then some .blank
      else if isSign c then some .signed else beginFloat c
  | .signed, c => beginFloat c
  | .zero, c => if toLower c = 120 then some (.mantissa true) else wholeStep false c
  | .mantissa hex, c => beginMantissa hex c
  | .whole hex, c => wholeStep hex c
  | .point hex, c => if isMantissaDigit hex c then some (.fraction hex) else none
  | .fraction hex, c =>
      if isMantissaDigit hex c then some (.fraction hex)
      else if toLower c = exponentLetter hex then some .exponent else none
  | .exponent, c => if isSign c || isDigit c then some .exponentDigits else none
  | .exponentDigits, c => if isDigit c then some .exponentDigits else none
  | .infinity [], _ => none
  | .infinity (l :: left), c =>
      if toLower c = l && !left.isEmpty then some (.infinity left) else none
  | .nan [], c => if c = 40 then some .payload else none
  | .nan (l :: left), c => if toLower c = l then some (.nan left) else none
  | .payload, c => if isPayload c then some .payload else none

/-- The bytes `strtod` looks at. -/
def strtodScanner : Scanner FloatState Byte := ⟨.blank, strtodStep⟩

/-- White space, an optional sign and digits up to the end of the text. -/
def unfinishedInteger (s : Bytes) : Bool := (takeSign (s.dropWhile isSpace)).2.all isDigit

/-- Nothing, or the letter of an exponent, an optional sign and digits up to the end of the text. -/
def unfinishedExponent (letter : Byte) : Bytes → Bool
  | [] => true
  | c :: rest => toLower c == letter && (takeSign rest).2.all isDigit

/-- A mantissa, which may have an exponent when it has a digit, up to the end of the text. -/
def unfinishedMantissa (hex : Bool) (s : Bytes) : Bool :=
  let m := takeMantissa (isMantissaDigit hex) s
  m.2.2.isEmpty || (!(m.1 ++ m.2.1).isEmpty && unfinishedExponent (exponentLetter hex) m.2.2)

/-- The beginning of a word for an infinity or for no number, up to the end of the text. -/
def unfinishedWord (s : Bytes) : Bool :=
  let lower := s.map toLower
  (lower.isPrefixOf (bytes "infinity") && lower.length < (bytes "infinity").length) ||
    lower.isPrefixOf (bytes "nan") ||
      ((bytes "nan(").isPrefixOf lower && (s.drop (bytes "nan(").length).all isPayload)

/-- The mark of a hexadecimal number, and its mantissa up to the end of the text. -/
def unfinishedHex (s : Bytes) : Bool :=
  (bytes "0x").isPrefixOf (s.map toLower) && unfinishedMantissa true (s.drop 2)

/-- White space, an optional sign and the beginning of a floating-point number
up to the end of the text. -/
def unfinishedFloat (s : Bytes) : Bool :=
  let rest := (takeSign (s.dropWhile isSpace)).2
  unfinishedWord rest || (unfinishedMantissa false rest || unfinishedHex rest)

/-- What is dropped ends in front of a byte that would not be dropped. -/
theorem eq_false_of_dropWhile {p : Byte → Bool} {s rest : Bytes} {c : Byte}
    (h : s.dropWhile p = c :: rest) : p c = false := by
  have hhead := List.head?_dropWhile_not p s
  rw [h] at hhead
  exact hhead

theorem takeSign_cons (c : Byte) (rest : Bytes) :
    (takeSign (c :: rest)).2 = if isSign c then rest else c :: rest := by
  by_cases hminus : c = 45
  · simp [takeSign, isSign, hminus]
  · by_cases hplus : c = 43 <;> simp [takeSign, isSign, hminus, hplus]

theorem isSpace_of_isSign {c : Byte} (h : isSign c = true) : isSpace c = false := by
  rcases (by simpa [isSign] using h) with rfl | rfl <;> rfl

theorem toLower_toNat (c : Byte) :
    (toLower c).toNat = if 65 ≤ c.toNat ∧ c.toNat ≤ 90 then c.toNat + 32 else c.toNat := by
  have h : (65 ≤ c && c ≤ 90) = decide (65 ≤ c.toNat ∧ c.toNat ≤ 90) := by
    simp only [UInt8.le_iff_toNat_le, Bool.decide_and]
    rfl
  rw [toLower, h]
  by_cases hc : 65 ≤ c.toNat ∧ c.toNat ≤ 90
  · simp only [hc, and_self, decide_true, if_true, UInt8.toNat_add]
    change (c.toNat + 32) % 256 = _
    omega
  · simp only [hc, decide_false, Bool.false_eq_true, if_false]

theorem toLower_eq_iff {c b : Byte} (hb : b < 65) : toLower c = b ↔ c = b := by
  rw [← UInt8.toNat_inj, ← UInt8.toNat_inj, toLower_toNat]
  have hlt : b.toNat < 65 := UInt8.lt_iff_toNat_lt.mp hb
  split <;> omega

theorem isDigit_iff (c : Byte) : isDigit c = true ↔ 48 ≤ c.toNat ∧ c.toNat ≤ 57 := by
  simp only [isDigit, Bool.and_eq_true, decide_eq_true_eq, UInt8.le_iff_toNat_le]
  rfl

theorem isDigit_of_toLower {c b : Byte} (h : toLower c = b) (hb : 97 ≤ b) : isDigit c = false := by
  rw [← Bool.not_eq_true, isDigit_iff]
  have hle : 97 ≤ b.toNat := UInt8.le_iff_toNat_le.mp hb
  rw [← h, toLower_toNat] at hle
  split at hle <;> omega
/-- A state behind which a sign and digits may stand. -/
theorem overrunsFrom_signed {σ : Type*} {scan : Scanner σ Byte} {state : σ} (digits : σ)
    (hbegin : ∀ c, isSign c = true ∨ isDigit c = true → scan.step state c = some digits)
    (hloop : ∀ c, isDigit c = true → scan.step digits c = some digits)
    (hend : ∀ c, isDigit c = false → scan.step digits c = none) {s : Bytes}
    (hstop : ∀ c ∈ s.head?, isSign c = false → isDigit c = false → scan.step state c = none) :
    scan.overrunsFrom state s = (takeSign s).2.all isDigit := by
  have hdigits := Scanner.overrunsFrom_eq_all hloop hend
  cases s with
  | nil => rfl
  | cons c rest =>
      rw [takeSign_cons]
      by_cases hsign : isSign c = true
      · rw [if_pos hsign, Scanner.overrunsFrom_of_step (hbegin c (Or.inl hsign)), hdigits]
      · rw [if_neg hsign]
        cases hdigit : isDigit c with
        | true =>
            rw [Scanner.overrunsFrom_of_step (hbegin c (Or.inr hdigit)), hdigits,
              List.all_cons, hdigit, Bool.true_and]
        | false =>
            rw [Scanner.overrunsFrom_of_stop (hstop c rfl (by simpa using hsign) hdigit),
              List.all_cons, hdigit, Bool.false_and]

/-- `strtoull` reads beyond a text exactly if the text ends inside an integer or in front of it. -/
theorem strtoullScanner_overruns (s : Bytes) :
    strtoullScanner.overruns s = unfinishedInteger s := by
  have hspace : ∀ c, isSpace c = true → strtoullScanner.step .blank c = some .blank := by
    intro c hc
    simp [strtoullScanner, strtoullStep, hc]
  calc strtoullScanner.overruns s
      = strtoullScanner.overrunsFrom .blank (s.dropWhile isSpace) :=
        Scanner.overrunsFrom_dropWhile hspace s
    _ = unfinishedInteger s := by
        refine overrunsFrom_signed .digits ?_ ?_ ?_ ?_
        · rintro c (hc | hc)
          · simp [strtoullScanner, strtoullStep, hc, isSpace_of_isSign hc]
          · simp [strtoullScanner, strtoullStep, hc, isSpace_of_isDigit hc]
        · intro c hc
          simp [strtoullScanner, strtoullStep, hc]
        · intro c hc
          simp [strtoullScanner, strtoullStep, hc]
        · intro c hhead hsign hdigit
          obtain ⟨rest, hrest⟩ := List.head?_eq_some_iff.mp hhead
          simp [strtoullScanner, strtoullStep, hsign, hdigit, eq_false_of_dropWhile hrest]

section Float

theorem strtod_exponent (s : Bytes) :
    strtodScanner.overrunsFrom .exponent s = (takeSign s).2.all isDigit := by
  refine overrunsFrom_signed .exponentDigits ?_ ?_ ?_ ?_
  · rintro c (hc | hc) <;> simp [strtodScanner, strtodStep, hc]
  · intro c hc
    simp [strtodScanner, strtodStep, hc]
  · intro c hc
    simp [strtodScanner, strtodStep, hc]
  · intro c _ hsign hdigit
    simp [strtodScanner, strtodStep, hsign, hdigit]

theorem strtod_fraction (hex : Bool) (s : Bytes) :
    strtodScanner.overrunsFrom (.fraction hex) s =
      unfinishedExponent (exponentLetter hex) (s.dropWhile (isMantissaDigit hex)) := by
  have hloop : ∀ c, isMantissaDigit hex c = true →
      strtodScanner.step (.fraction hex) c = some (.fraction hex) := by
    intro c hc
    simp [strtodScanner, strtodStep, hc]
  rw [Scanner.overrunsFrom_dropWhile hloop]
  cases hrest : s.dropWhile (isMantissaDigit hex) with
  | nil => rfl
  | cons c rest =>
      have hc := eq_false_of_dropWhile hrest
      by_cases hletter : toLower c = exponentLetter hex
      · have hstep : strtodScanner.step (.fraction hex) c = some .exponent := by
          simp [strtodScanner, strtodStep, hc, hletter]
        rw [Scanner.overrunsFrom_of_step hstep, strtod_exponent, unfinishedExponent]
        simp [hletter]
      · have hstep : strtodScanner.step (.fraction hex) c = none := by
          simp [strtodScanner, strtodStep, hc, hletter]
        rw [Scanner.overrunsFrom_of_stop hstep, unfinishedExponent]
        simp [hletter]

theorem takeMantissa_cons_of_digit {digit : Byte → Bool} {c : Byte} (hc : digit c = true)
    (rest : Bytes) :
    takeMantissa digit (c :: rest) =
      (c :: (takeMantissa digit rest).1, (takeMantissa digit rest).2) := by
  simp only [takeMantissa, List.dropWhile_cons_of_pos hc, List.takeWhile_cons_of_pos hc]
  split <;> rfl

theorem takeMantissa_point {digit : Byte → Bool} (hpoint : digit 46 = false) (rest : Bytes) :
    takeMantissa digit (46 :: rest) = ([], rest.takeWhile digit, rest.dropWhile digit) := by
  simp [takeMantissa, hpoint]

theorem takeMantissa_of_other {digit : Byte → Bool} {c : Byte} (hc : digit c = false)
    (hpoint : c ≠ 46) (rest : Bytes) :
    takeMantissa digit (c :: rest) = ([], [], c :: rest) := by
  simp [takeMantissa, hc, hpoint]

theorem isMantissaDigit_point (hex : Bool) : isMantissaDigit hex 46 = false := by
  cases hex <;> rfl

theorem strtod_whole (hex : Bool) (s : Bytes) :
    strtodScanner.overrunsFrom (.whole hex) s =
      unfinishedExponent (exponentLetter hex) (takeMantissa (isMantissaDigit hex) s).2.2 := by
  induction s with
  | nil => rfl
  | cons c rest ih =>
      cases hc : isMantissaDigit hex c with
      | true =>
          have hstep : strtodScanner.step (.whole hex) c = some (.whole hex) := by
            simp [strtodScanner, strtodStep, wholeStep, hc]
          rw [Scanner.overrunsFrom_of_step hstep, ih, takeMantissa_cons_of_digit hc]
      | false =>
          by_cases hpoint : c = 46
          · subst hpoint
            have hstep : strtodScanner.step (.whole hex) 46 = some (.fraction hex) := by
              simp [strtodScanner, strtodStep, wholeStep, hc]
            rw [Scanner.overrunsFrom_of_step hstep, strtod_fraction, takeMantissa_point hc]
          · rw [takeMantissa_of_other hc hpoint, unfinishedExponent]
            by_cases hletter : toLower c = exponentLetter hex
            · have hstep : strtodScanner.step (.whole hex) c = some .exponent := by
                simp [strtodScanner, strtodStep, wholeStep, hc, hpoint, hletter]
              rw [Scanner.overrunsFrom_of_step hstep, strtod_exponent]
              simp [hletter]
            · have hstep : strtodScanner.step (.whole hex) c = none := by
                simp [strtodScanner, strtodStep, wholeStep, hc, hpoint, hletter]
              rw [Scanner.overrunsFrom_of_stop hstep]
              simp [hletter]

/-- With a digit in the mantissa only the exponent decides. -/
theorem unfinishedMantissa_of_digit {hex : Bool} {s : Bytes}
    (h : (takeMantissa (isMantissaDigit hex) s).1 ++
      (takeMantissa (isMantissaDigit hex) s).2.1 ≠ []) :
    unfinishedMantissa hex s =
      unfinishedExponent (exponentLetter hex) (takeMantissa (isMantissaDigit hex) s).2.2 := by
  have hdigits : ((takeMantissa (isMantissaDigit hex) s).1 ++
      (takeMantissa (isMantissaDigit hex) s).2.1).isEmpty = false := by
    simpa only [List.isEmpty_eq_false_iff] using h
  rw [unfinishedMantissa, hdigits]
  cases (takeMantissa (isMantissaDigit hex) s).2.2 with
  | nil => rfl
  | cons c rest => rfl

theorem strtod_point (hex : Bool) (s : Bytes) :
    strtodScanner.overrunsFrom (.point hex) s = unfinishedMantissa hex (46 :: s) := by
  have hpoint := takeMantissa_point (isMantissaDigit_point hex) s
  cases s with
  | nil => cases hex <;> rfl
  | cons c rest =>
      cases hc : isMantissaDigit hex c with
      | true =>
          have hstep : strtodScanner.step (.point hex) c = some (.fraction hex) := by
            simp [strtodScanner, strtodStep, hc]
          rw [Scanner.overrunsFrom_of_step hstep, strtod_fraction,
            unfinishedMantissa_of_digit (by simp [hpoint, hc]), hpoint,
            List.dropWhile_cons_of_pos hc]
      | false =>
          have hstep : strtodScanner.step (.point hex) c = none := by
            simp [strtodScanner, strtodStep, hc]
          rw [Scanner.overrunsFrom_of_stop hstep, unfinishedMantissa, hpoint]
          simp [hc]

/-- A state in which a mantissa may begin. -/
theorem strtod_beginMantissa {state : FloatState} {hex : Bool} {c : Byte}
    (h : strtodScanner.step state c = beginMantissa hex c) (rest : Bytes) :
    strtodScanner.overrunsFrom state (c :: rest) = unfinishedMantissa hex (c :: rest) := by
  cases hc : isMantissaDigit hex c with
  | true =>
      have hstep : strtodScanner.step state c = some (.whole hex) := by
        rw [h, beginMantissa, if_pos hc]
      have hdigit := takeMantissa_cons_of_digit hc rest
      rw [Scanner.overrunsFrom_of_step hstep, strtod_whole,
        unfinishedMantissa_of_digit (by simp [hdigit]), hdigit]
  | false =>
      by_cases hpoint : c = 46
      · subst hpoint
        have hstep : strtodScanner.step state 46 = some (.point hex) := by
          simp [h, beginMantissa, hc]
        rw [Scanner.overrunsFrom_of_step hstep, strtod_point]
      · have hstep : strtodScanner.step state c = none := by
          simp [h, beginMantissa, hc, hpoint]
        rw [Scanner.overrunsFrom_of_stop hstep, unfinishedMantissa,
          takeMantissa_of_other hc hpoint]
        rfl

theorem strtod_mantissa (hex : Bool) (s : Bytes) :
    strtodScanner.overrunsFrom (.mantissa hex) s = unfinishedMantissa hex s := by
  cases s with
  | nil => cases hex <;> rfl
  | cons c rest => exact strtod_beginMantissa rfl rest

theorem strtod_infinity {left : Bytes} (hleft : left ≠ []) (s : Bytes) :
    strtodScanner.overrunsFrom (.infinity left) s =
      ((s.map toLower).isPrefixOf left && decide (s.length < left.length)) := by
  induction s generalizing left with
  | nil => simp [List.length_pos_iff.mpr hleft]
  | cons c rest ih =>
      obtain ⟨l, left, rfl⟩ := List.exists_cons_of_ne_nil hleft
      by_cases hl : toLower c = l
      · by_cases hlast : left = []
        · subst hlast
          have hstep : strtodScanner.step (.infinity [l]) c = none := by
            simp [strtodScanner, strtodStep]
          rw [Scanner.overrunsFrom_of_stop hstep]
          simp
        · have hstep : strtodScanner.step (.infinity (l :: left)) c = some (.infinity left) := by
            simp [strtodScanner, strtodStep, hl, hlast]
          rw [Scanner.overrunsFrom_of_step hstep, ih hlast]
          simp [hl]
      · have hstep : strtodScanner.step (.infinity (l :: left)) c = none := by
          simp [strtodScanner, strtodStep, hl]
        rw [Scanner.overrunsFrom_of_stop hstep]
        simp [List.isPrefixOf, hl]

theorem strtod_payload (s : Bytes) :
    strtodScanner.overrunsFrom .payload s = s.all isPayload :=
  Scanner.overrunsFrom_eq_all (fun c hc => by simp [strtodScanner, strtodStep, hc])
    (fun c hc => by simp [strtodScanner, strtodStep, hc]) s

theorem strtod_nan (left s : Bytes) :
    strtodScanner.overrunsFrom (.nan left) s =
      ((s.map toLower).isPrefixOf left ||
        ((left ++ [40]).isPrefixOf (s.map toLower) &&
          (s.drop (left.length + 1)).all isPayload)) := by
  induction left generalizing s with
  | nil =>
      cases s with
      | nil => rfl
      | cons c rest =>
          by_cases hc : c = 40
          · subst hc
            have hstep : strtodScanner.step (.nan []) 40 = some .payload := rfl
            rw [Scanner.overrunsFrom_of_step hstep, strtod_payload]
            simp [List.isPrefixOf, show toLower 40 = 40 from rfl]
          · have hstep : strtodScanner.step (.nan []) c = none := by
              simp [strtodScanner, strtodStep, hc]
            rw [Scanner.overrunsFrom_of_stop hstep]
            have hlower : toLower c ≠ 40 := fun h => hc ((toLower_eq_iff (by decide)).mp h)
            simp [List.isPrefixOf, Ne.symm hlower]
  | cons l left ih =>
      cases s with
      | nil => rfl
      | cons c rest =>
          by_cases hl : toLower c = l
          · have hstep : strtodScanner.step (.nan (l :: left)) c = some (.nan left) := by
              simp [strtodScanner, strtodStep, hl]
            rw [Scanner.overrunsFrom_of_step hstep, ih]
            simp [hl]
          · have hstep : strtodScanner.step (.nan (l :: left)) c = none := by
              simp [strtodScanner, strtodStep, hl]
            rw [Scanner.overrunsFrom_of_stop hstep]
            simp [List.isPrefixOf, hl, Ne.symm hl]

theorem strtod_zero (s : Bytes) :
    strtodScanner.overrunsFrom .zero s =
      (unfinishedMantissa false (48 :: s) || unfinishedHex (48 :: s)) := by
  have hzero : isMantissaDigit false 48 = true := rfl
  cases s with
  | nil => rfl
  | cons c rest =>
      have hdigit := takeMantissa_cons_of_digit hzero (c :: rest)
      by_cases hx : toLower c = 120
      · have hstep : strtodScanner.step .zero c = some (.mantissa true) := by
          simp [strtodScanner, strtodStep, hx]
        have hother : takeMantissa (isMantissaDigit false) (c :: rest) = ([], [], c :: rest) := by
          apply takeMantissa_of_other (isDigit_of_toLower hx (by decide))
          rintro rfl
          cases hx
        have hdecimal : unfinishedMantissa false (48 :: c :: rest) = false := by
          rw [unfinishedMantissa_of_digit (by simp [hdigit]), hdigit, hother, unfinishedExponent,
            hx]
          rfl
        have hmark : (bytes "0x").isPrefixOf ((48 :: c :: rest).map toLower) = true := by
          simp [bytes, List.isPrefixOf, hx, show toLower 48 = 48 from rfl]
        rw [Scanner.overrunsFrom_of_step hstep, strtod_mantissa, hdecimal, unfinishedHex, hmark]
        rfl
      · have hstep : strtodScanner.step .zero c = strtodScanner.step (.whole false) c := by
          simp [strtodScanner, strtodStep, hx]
        have hmark : (bytes "0x").isPrefixOf ((48 :: c :: rest).map toLower) = false := by
          simp [bytes, List.isPrefixOf, Ne.symm hx, show toLower 48 = 48 from rfl]
        rw [Scanner.overrunsFrom_congr hstep, strtod_whole,
          unfinishedMantissa_of_digit (by simp [hdigit]), hdigit, unfinishedHex, hmark,
          Bool.false_and, Bool.or_false]

theorem strtod_signed (s : Bytes) :
    strtodScanner.overrunsFrom .signed s =
      (unfinishedWord s || (unfinishedMantissa false s || unfinishedHex s)) := by
  cases s with
  | nil => rfl
  | cons c rest =>
      have hnumber : toLower c ≠ 105 → toLower c ≠ 110 → unfinishedWord (c :: rest) = false := by
        intro hi hn
        simp [unfinishedWord, bytes, List.isPrefixOf, hi, hn, Ne.symm hn]
      have hdecimal : c ≠ 48 → unfinishedHex (c :: rest) = false := by
        intro hc
        have hlower : toLower c ≠ 48 := fun h => hc ((toLower_eq_iff (by decide)).mp h)
        simp [unfinishedHex, bytes, List.isPrefixOf, Ne.symm hlower]
      have hword : ∀ {b : Byte}, 97 ≤ b → toLower c = b →
          unfinishedMantissa false (c :: rest) = false ∧ unfinishedHex (c :: rest) = false := by
        intro b hb hc
        have hdigit : isMantissaDigit false c = false := isDigit_of_toLower hc hb
        have hpoint : c ≠ 46 := by
          rintro rfl
          exact absurd hb (by rw [← hc]; decide)
        have hzero : c ≠ 48 := by
          rintro rfl
          exact absurd hdigit (by decide)
        rw [unfinishedMantissa, takeMantissa_of_other hdigit hpoint]
        exact ⟨rfl, hdecimal hzero⟩
      by_cases hzero : c = 48
      · subst hzero
        have hstep : strtodScanner.step .signed 48 = some .zero := rfl
        rw [Scanner.overrunsFrom_of_step hstep, strtod_zero,
          hnumber (by decide) (by decide), Bool.false_or]
      · by_cases hi : toLower c = 105
        · have hstep : strtodScanner.step .signed c = some (.infinity (bytes "nfinity")) := by
            simp [strtodScanner, strtodStep, beginFloat, hzero, hi]
          obtain ⟨hmantissa, hhex⟩ := hword (by decide) hi
          rw [Scanner.overrunsFrom_of_step hstep, strtod_infinity (by decide), hmantissa, hhex]
          have hlength : rest.length + 1 < 8 ↔ rest.length < 7 := Nat.succ_lt_succ_iff
          simp [unfinishedWord, bytes, List.isPrefixOf, hi, hlength]
        · by_cases hn : toLower c = 110
          · have hstep : strtodScanner.step .signed c = some (.nan (bytes "an")) := by
              simp [strtodScanner, strtodStep, beginFloat, hzero, hn]
            obtain ⟨hmantissa, hhex⟩ := hword (by decide) hn
            rw [Scanner.overrunsFrom_of_step hstep, strtod_nan, hmantissa, hhex]
            simp [unfinishedWord, bytes, List.isPrefixOf, hn]
          · have hstep : strtodScanner.step .signed c = beginMantissa false c := by
              simp [strtodScanner, strtodStep, beginFloat, hzero, hi, hn]
            rw [strtod_beginMantissa hstep, hnumber hi hn, hdecimal hzero, Bool.false_or,
              Bool.or_false]

/-- `strtod` reads beyond a text exactly if the text ends inside a floating-point
number or in front of it. -/
theorem strtodScanner_overruns (s : Bytes) : strtodScanner.overruns s = unfinishedFloat s := by
  have hspace : ∀ c, isSpace c = true → strtodScanner.step .blank c = some .blank := by
    intro c hc
    simp [strtodScanner, strtodStep, hc]
  calc strtodScanner.overruns s
      = strtodScanner.overrunsFrom .blank (s.dropWhile isSpace) :=
        Scanner.overrunsFrom_dropWhile hspace s
    _ = strtodScanner.overrunsFrom .signed (takeSign (s.dropWhile isSpace)).2 := by
        cases h : s.dropWhile isSpace with
        | nil => rfl
        | cons c rest =>
            have hc := eq_false_of_dropWhile h
            rw [takeSign_cons]
            by_cases hsign : isSign c = true
            · rw [if_pos hsign]
              exact Scanner.overrunsFrom_of_step (by simp [strtodScanner, strtodStep, hc, hsign]) _
            · rw [if_neg hsign]
              exact Scanner.overrunsFrom_congr (by simp [strtodScanner, strtodStep, hc, hsign]) _
    _ = unfinishedFloat s := strtod_signed _

end Float

end QueryPlayback.Scan
