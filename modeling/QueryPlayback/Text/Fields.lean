import QueryPlayback.Text.ScanLine
import Mathlib.Data.List.TakeWhile

/-!
# Fields of a line

A field is a marker with a decimal number behind it. A reader looks for the
first occurrence of the marker and reads the number that stands there.
-/

namespace QueryPlayback

/-- What stands behind the first occurrence of a marker. -/
def behind (marker : Bytes) : Bytes → Option Bytes
  | [] => none
  | c :: rest =>
      if marker.isPrefixOf (c :: rest) then some ((c :: rest).drop marker.length)
      else behind marker rest

/-- A number in decimal digits, as `printf` writes it. -/
def decimal (n : ℕ) : Bytes := bytes n.repr

section Behind

variable {marker : Bytes}

theorem search_map_drop (marker text : Bytes) :
    (search marker text).map (fun k => text.drop (k + marker.length)) = behind marker text := by
  induction text with
  | nil => rfl
  | cons c rest ih =>
      rw [search, behind]
      split
      · rw [Option.map_some, Nat.zero_add]
      · rw [← ih, Option.map_map]
        congr 1
        funext k
        change (c :: rest).drop (k + 1 + marker.length) = rest.drop (k + marker.length)
        rw [Nat.add_right_comm, List.drop_succ_cons]

theorem behind_self (hne : marker ≠ []) (x : Bytes) : behind marker (marker ++ x) = some x := by
  rw [← search_map_drop, search_self hne, Option.map_some, Nat.zero_add, List.drop_left]

theorem behind_cons_of_not_isPrefixOf {c : Byte} {rest : Bytes}
    (h : marker.isPrefixOf (c :: rest) = false) :
    behind marker (c :: rest) = behind marker rest := by
  rw [behind, h]
  rfl

/-- No occurrence begins in a text without the first byte of the marker. -/
theorem behind_append_of_not_mem {c : Byte} (hc : marker.head? = some c) {m : Bytes} (h : c ∉ m)
    (x : Bytes) : behind marker (m ++ x) = behind marker x := by
  obtain ⟨tail, rfl⟩ := List.head?_eq_some_iff.mp hc
  induction m with
  | nil => rfl
  | cons b m ih =>
      obtain ⟨hb, hm⟩ : c ≠ b ∧ c ∉ m := by simpa using h
      have hfirst : (c :: tail).isPrefixOf (b :: (m ++ x)) = false := by
        simp [List.isPrefixOf, hb]
      rw [List.cons_append, behind_cons_of_not_isPrefixOf hfirst, ih hm]

/-- Another marker with the same first byte is passed over. -/
theorem behind_append_of_other {c : Byte} (hc : marker.head? = some c) {other : Bytes}
    (hother : c ∉ other) {x : Bytes} (h : marker.isPrefixOf (c :: (other ++ x)) = false) :
    behind marker (c :: other ++ x) = behind marker x := by
  rw [List.cons_append, behind_cons_of_not_isPrefixOf h, behind_append_of_not_mem hc hother]

/-- An occurrence of a marker without a line break is in front of a line break or behind it. -/
theorem behind_append_newline (hmarker : newline ∉ marker) (hne : marker ≠ []) (m x : Bytes) :
    behind marker (m ++ newline :: x) =
      ((behind marker m).map (· ++ newline :: x)).or (behind marker x) := by
  simp only [← search_map_drop, search_append_newline hmarker hne]
  cases hk : search marker m with
  | none =>
      rw [Option.none_or, Option.map_none, Option.map_none, Option.none_or, Option.map_map]
      congr 1
      funext k
      have hdrop : k + (m.length + 1) + marker.length = m.length + (k + marker.length + 1) := by
        omega
      change (m ++ newline :: x).drop (k + (m.length + 1) + marker.length) = _
      rw [hdrop, List.drop_length_add_append, List.drop_succ_cons]
  | some k =>
      rw [Option.some_or, Option.map_some, Option.map_some, Option.map_some, Option.some_or,
        List.drop_append_of_le_length (search_add_length_le hk)]

end Behind

namespace Scan

theorem digit_toUInt8 {c : Char} (h : c.isDigit = true) :
    isDigit c.toNat.toUInt8 = true ∧ hexValue c.toNat.toUInt8 = some (c.toNat - '0'.toNat) := by
  have hbytes : ∀ n < 58, 48 ≤ n →
      isDigit n.toUInt8 = true ∧ hexValue n.toUInt8 = some (n - '0'.toNat) := by
    decide
  rw [Char.isDigit, Bool.and_eq_true, decide_eq_true_eq, decide_eq_true_eq] at h
  exact hbytes c.toNat (Nat.lt_succ_of_le (UInt32.le_iff_toNat_le.mp h.2))
    (UInt32.le_iff_toNat_le.mp h.1)

theorem isDigit_decimal (n : ℕ) : ∀ c ∈ decimal n, isDigit c = true := by
  intro c hc
  obtain ⟨d, hd, rfl⟩ := List.mem_map.mp hc
  rw [Nat.toList_repr] at hd
  exact (digit_toUInt8 (Nat.isDigit_of_mem_toDigits (by decide) (by decide) hd)).1

theorem decimal_ne_nil (n : ℕ) : decimal n ≠ [] := by
  intro hnil
  rw [decimal, bytes, List.map_eq_nil_iff, Nat.toList_repr] at hnil
  exact Nat.toDigits_ne_nil hnil

/-- The digits of a number are read back as the number. -/
theorem number_decimal (n : ℕ) : number 10 (decimal n) = n := by
  have hfold : ∀ (cs : List Char) (m : ℕ), (∀ c ∈ cs, c.isDigit = true) →
      (cs.map fun c => c.toNat.toUInt8).foldl (fun n c => 10 * n + (hexValue c).getD 0) m =
        Nat.ofDigitChars 10 cs m := by
    intro cs
    induction cs with
    | nil => exact fun m _ => rfl
    | cons c cs ih =>
        intro m hcs
        obtain ⟨hc, hcs⟩ := List.forall_mem_cons.mp hcs
        rw [List.map_cons, List.foldl_cons, (digit_toUInt8 hc).2, ih _ hcs]
        rfl
  have hdigits : ∀ c ∈ Nat.toDigits 10 n, c.isDigit = true := fun c hc =>
    Nat.isDigit_of_mem_toDigits (by decide) (by decide) hc
  calc number 10 (decimal n) = Nat.ofDigitChars 10 (Nat.toDigits 10 n) 0 := by
        rw [number, decimal, bytes, Nat.toList_repr, hfold _ 0 hdigits]
    _ = n := Nat.ofDigitChars_ten_toDigits

/-- Neither blanks nor a sign stand in front of digits. -/
theorem skip_digits {ds : Bytes} (hds : ∀ c ∈ ds, isDigit c = true) (hne : ds ≠ []) (rest : Bytes) :
    (ds ++ rest).dropWhile isSpace = ds ++ rest ∧ takeSign (ds ++ rest) = (false, ds ++ rest) := by
  obtain ⟨d, ds, rfl⟩ := List.exists_cons_of_ne_nil hne
  have hfirst : isDigit d = true := hds d List.mem_cons_self
  constructor
  · rw [List.cons_append, List.dropWhile_cons_of_neg (by simp [isSpace_of_isDigit hfirst])]
  · rw [List.cons_append, takeSign, if_neg, if_neg]
    · rintro rfl
      cases hfirst
    · rintro rfl
      cases hfirst

/-- Digits end in front of a byte that is none. -/
theorem takeWhile_digits {ds : Bytes} (hds : ∀ c ∈ ds, isDigit c = true) {rest : Bytes}
    (hrest : ∀ c ∈ rest.head?, isDigit c = false) : (ds ++ rest).takeWhile isDigit = ds := by
  rw [List.takeWhile_append_of_pos hds]
  cases rest with
  | nil => simp
  | cons c rest => simp [hrest c rfl]

/-- A number followed by something other than a digit is read to its end. -/
theorem strtoull_decimal (n : UInt64) {rest : Bytes} (hrest : ∀ c ∈ rest.head?, isDigit c = false) :
    strtoull (decimal n.toNat ++ rest) = n := by
  have hdigits := isDigit_decimal n.toNat
  obtain ⟨hskip, hsign⟩ := skip_digits hdigits (decimal_ne_nil n.toNat) rest
  have hlt : ¬2 ^ 64 ≤ n.toNat := by
    have hlt := n.toNat_lt
    omega
  simp only [strtoull, hskip, hsign, takeWhile_digits hdigits hrest, number_decimal, if_neg hlt,
    Bool.false_eq_true, if_false, UInt64.ofNat_toNat]

/-- A line of metadata below ends a number, and if there is none nothing is read from it. -/
theorem strtoull_append_comment (u rest : Bytes) :
    strtoull (u ++ newline :: hash :: rest) = strtoull u := by
  by_cases hspace : ∃ c ∈ u, isSpace c = false
  · exact strtoull_stopsAtNewline.read_append hspace _
  · have hall : ∀ c ∈ u, isSpace c = true := by
      intro c hc
      by_contra hnot
      exact hspace ⟨c, hc, by simpa using hnot⟩
    calc strtoull (u ++ newline :: hash :: rest) = strtoull (newline :: hash :: rest) :=
          strtoull_stopsAtNewline.skip_all hall _
      _ = strtoull (hash :: rest) := strtoull_stopsAtNewline.skip newline _ rfl
      _ = strtoull [] := rfl
      _ = strtoull (u ++ []) := (strtoull_stopsAtNewline.skip_all hall []).symm
      _ = strtoull u := by rw [List.append_nil]

end Scan

end QueryPlayback
