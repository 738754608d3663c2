import QueryPlayback.Text.StringRef
import Mathlib.Algebra.Group.Int.Defs
import Mathlib.Algebra.Group.Nat.Defs

/-!
# Number scanning of the C library

`strtoull`, `strtod` and the part of `sscanf` the program uses, on the bytes
that start at a pointer. A scan ends at the first byte that cannot continue
the number; the end of the list acts as the terminating zero byte.

## Implementation notes

A double is a sign, an integer mantissa and a binary exponent. Rounding is to
nearest, ties to even, with 53 bits and the subnormal range.
-/

namespace QueryPlayback.Scan

/-- `isspace` in the C locale. -/
def isSpace (c : Byte) : Bool := c == 32 || (9 ≤ c && c ≤ 13)

/-- `isdigit`. -/
def isDigit (c : Byte) : Bool := 48 ≤ c && c ≤ 57

/-- `tolower` in the C locale. -/
def toLower (c : Byte) : Byte := if 65 ≤ c && c ≤ 90 then c + 32 else c

/-- The value of a hexadecimal digit. -/
def hexValue (c : Byte) : Option Nat :=
  let l := toLower c
  if isDigit c then some (c.toNat - 48)
  else if 97 ≤ l && l ≤ 102 then some (l.toNat - 87) else none

/-- Digits as a number in the given base. -/
def number (base : Nat) (digits : Bytes) : Nat :=
  digits.foldl (fun n c => base * n + (hexValue c).getD 0) 0

/-- An optional sign: whether it was a minus, and what follows. -/
def takeSign : Bytes → Bool × Bytes
  | [] => (false, [])
  | c :: rest =>
      if c = 45 then (true, rest) else if c = 43 then (false, rest) else (false, c :: rest)

/-- `strtoull(s, NULL, 10)`: overflow saturates, a minus sign negates modulo 2^64. -/
def strtoull (s : Bytes) : UInt64 :=
  let (neg, rest) := takeSign (s.dropWhile isSpace)
  let n := number 10 (rest.takeWhile isDigit)
  if 2 ^ 64 ≤ n then UInt64.ofNat (2 ^ 64 - 1)
  else if neg then 0 - UInt64.ofNat n else UInt64.ofNat n

/-- A binary64 value: `±mant * 2^exp`, an infinity or not a number. -/
inductive Double where
  | finite (neg : Bool) (mant : Nat) (exp : Int)
  | inf (neg : Bool)
  | nan
  deriving DecidableEq, Repr

namespace Double

/-- The quotient rounded to nearest, ties to even. -/
def roundQuotient (n d : Nat) : Nat :=
  let q := n / d
  let r := n % d
  if 2 * r < d then q else if d < 2 * r then q + 1 else if q % 2 = 0 then q else q + 1

/-- The ratio `n / (d * 2^e)` as a numerator and a denominator. -/
def scale (n d : Nat) (e : Int) : Nat × Nat :=
  if 0 ≤ e then (n, d * 2 ^ e.toNat) else (n * 2 ^ (-e).toNat, d)

/-- The double nearest to `±n / d`. -/
def ofRatio (neg : Bool) (n d : Nat) : Double :=
  if n = 0 then finite neg 0 0
  else
    let guess : Int := (Nat.log2 n : Int) - Nat.log2 d - 52
    let wide := scale n d guess
    let e := max (if wide.1 / wide.2 < 2 ^ 52 then guess - 1 else guess) (-1074)
    let exact := scale n d e
    let m := roundQuotient exact.1 exact.2
    if 0 ≤ e && 2 ^ 1024 ≤ m * 2 ^ e.toNat then inf neg else finite neg m e

/-- The product with a positive integer that is itself a double. -/
def mulNat (k : Nat) : Double → Double
  | finite neg m e =>
      if 0 ≤ e then ofRatio neg (m * k * 2 ^ e.toNat) 1 else ofRatio neg (m * k) (2 ^ (-e).toNat)
  | inf neg => inf neg
  | nan => nan

/-- The conversion to `long`, which truncates. Out of range the C++ standard
gives no value; this is what the x86-64 instruction returns. -/
def toLong : Double → Int
  | finite neg m e =>
      let mag : Nat := if 0 ≤ e then m * 2 ^ e.toNat else m / 2 ^ (-e).toNat
      let v : Int := if neg then -mag else mag
      if -(2 ^ 63) ≤ v && v < 2 ^ 63 then v else -(2 ^ 63)
  | inf _ => -(2 ^ 63)
  | nan => -(2 ^ 63)

end Double

/-- Digits before and after an optional point, and what follows them. -/
def takeMantissa (digit : Byte → Bool) (s : Bytes) : Bytes × Bytes × Bytes :=
  let whole := s.takeWhile digit
  match s.dropWhile digit with
  | 46 :: rest => (whole, rest.takeWhile digit, rest.dropWhile digit)
  | rest => (whole, [], rest)

/-- An optional exponent behind the given letter, zero when it is malformed. -/
def takeExponent (letter : Byte) : Bytes → Int
  | [] => 0
  | c :: rest =>
      let (neg, digits) := takeSign rest
      let n : Int := number 10 (digits.takeWhile isDigit)
      if toLower c = letter then (if neg then -n else n) else 0

/-- `±n * base^x` rounded to a double. -/
def scaled (neg : Bool) (n base : Nat) (x : Int) : Double :=
  if 0 ≤ x then Double.ofRatio neg (n * base ^ x.toNat) 1
  else Double.ofRatio neg n (base ^ (-x).toNat)

/-- `strtod(s, NULL)` in the C locale. -/
def strtod (s : Bytes) : Double :=
  let (neg, rest) := takeSign (s.dropWhile isSpace)
  let lower := rest.map toLower
  let hex := takeMantissa (fun c => (hexValue c).isSome) (rest.drop 2)
  let dec := takeMantissa isDigit rest
  if (bytes "inf").isPrefixOf lower then .inf neg
  else if (bytes "nan").isPrefixOf lower then .nan
  else if (bytes "0x").isPrefixOf lower && !(hex.1 ++ hex.2.1).isEmpty then
    scaled neg (number 16 (hex.1 ++ hex.2.1)) 2
      (takeExponent 112 hex.2.2 - 4 * hex.2.1.length)
  else if (dec.1 ++ dec.2.1).isEmpty then .finite false 0 0
  else
    scaled neg (number 10 (dec.1 ++ dec.2.1)) 10 (takeExponent 101 dec.2.2 - dec.2.1.length)

/-- A directive of a `sscanf` format. -/
inductive Directive where
  | space
  | literal (c : Byte)
  | int (width : Nat)
  deriving DecidableEq, Repr

/-- A decimal conversion `%<width>d`: blanks are skipped and not counted, a sign is. -/
def scanInt (width : Nat) (s : Bytes) : Option (Int × Bytes) :=
  let s := s.dropWhile isSpace
  let (neg, rest) := takeSign (s.take width)
  let digits := rest.takeWhile isDigit
  let used := (s.take width).length - rest.length + digits.length
  if digits.isEmpty then none
  else some (if neg then -(number 10 digits : Int) else number 10 digits, s.drop used)

/-- `sscanf` up to the first directive that fails: the converted values in order. -/
def sscanf : List Directive → Bytes → List Int
  | [], _ => []
  | .space :: ds, s => sscanf ds (s.dropWhile isSpace)
  | .literal c :: ds, s =>
      match s with
      | [] => []
      | a :: rest => if a = c then sscanf ds rest else []
  | .int width :: ds, s =>
      match scanInt width s with
      | none => []
      | some (v, rest) => v :: sscanf ds rest

example : strtoull (bytes " 42 Schema") = 42 := by decide

end QueryPlayback.Scan
