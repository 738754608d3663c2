import QueryPlayback.Text.ScanExtent

/-!
# Numbers that end inside their text

A byte that belongs to no number ends every number in front of it. When a
number has ended, its value does not depend on the memory behind the text, so
it is the text alone that decides what `strtoull` and `strtod` return.
-/

namespace QueryPlayback.Scan

section Foreign

/-- A byte that stands neither in a number nor in front of one. -/
def isForeign (c : Byte) : Bool := !(isSpace c || isSign c || isPayload c || c == 46 || c == 40)

theorem isForeign_iff (c : Byte) : isForeign c = true ↔
    isSpace c = false ∧ isSign c = false ∧ isPayload c = false ∧ c ≠ 46 ∧ c ≠ 40 := by
  simp [isForeign, and_assoc]

theorem mem_dropWhile_of_neg {p : Byte → Bool} {c : Byte} (hc : p c = false) {s : Bytes}
    (h : c ∈ s) : c ∈ s.dropWhile p := by
  rw [← List.takeWhile_append_dropWhile (p := p) (l := s)] at h
  refine (List.mem_append.mp h).resolve_left fun ht => ?_
  rw [List.mem_takeWhile_imp ht] at hc
  cases hc

theorem mem_takeSign {c : Byte} (hc : isSign c = false) {s : Bytes} (h : c ∈ s) :
    c ∈ (takeSign s).2 := by
  cases s with
  | nil => cases h
  | cons b rest =>
      rw [takeSign_cons]
      by_cases hb : isSign b = true
      · rw [if_pos hb]
        refine (List.mem_cons.mp h).resolve_left ?_
        rintro rfl
        rw [hb] at hc
        cases hc
      · rwa [if_neg hb]

theorem all_eq_false_of_mem {p : Byte → Bool} {c : Byte} (hc : p c = false) {s : Bytes}
    (h : c ∈ s) : s.all p = false :=
  List.all_eq_false.mpr ⟨c, h, by simp [hc]⟩

theorem mem_takeMantissa {digit : Byte → Bool} {c : Byte} (hc : digit c = false) (hpoint : c ≠ 46)
    {s : Bytes} (h : c ∈ s) : c ∈ (takeMantissa digit s).2.2 := by
  have hrest := mem_dropWhile_of_neg hc h
  rw [takeMantissa]
  split
  · rename_i rest heq
    rw [heq] at hrest
    exact mem_dropWhile_of_neg hc ((List.mem_cons.mp hrest).resolve_left hpoint)
  · exact hrest

theorem isDigit_of_isPayload {c : Byte} (h : isPayload c = false) : isDigit c = false := by
  simp only [isPayload, Bool.or_eq_false_iff] at h
  exact h.1.1

theorem toLower_of_isPayload {c b : Byte} (h : isPayload c = false) (hlow : 97 ≤ b)
    (hhigh : b ≤ 122) : toLower c ≠ b := by
  rintro rfl
  simp [isPayload, hlow, hhigh] at h

theorem isMantissaDigit_of_isPayload {hex : Bool} {c : Byte} (h : isPayload c = false) :
    isMantissaDigit hex c = false := by
  have hdigit := isDigit_of_isPayload h
  cases hex with
  | false => exact hdigit
  | true =>
      have hletter : ¬(97 ≤ toLower c && toLower c ≤ 102) = true := by
        intro hhex
        obtain ⟨hlow, hhigh⟩ : 97 ≤ toLower c ∧ toLower c ≤ 102 := by simpa using hhex
        exact toLower_of_isPayload h hlow (UInt8.le_trans hhigh (by decide)) rfl
      simp only [isMantissaDigit, hexValue, hdigit, Bool.false_eq_true, if_false, if_neg hletter,
        if_true, Option.isSome_none]

theorem unfinishedInteger_of_foreign {c : Byte} (hc : isForeign c = true) {s : Bytes} (h : c ∈ s) :
    unfinishedInteger s = false := by
  obtain ⟨hspace, hsign, hpayload, -, -⟩ := (isForeign_iff c).mp hc
  exact all_eq_false_of_mem (isDigit_of_isPayload hpayload)
    (mem_takeSign hsign (mem_dropWhile_of_neg hspace h))

theorem unfinishedExponent_of_foreign {letter : Byte} (hlow : 97 ≤ letter) (hhigh : letter ≤ 122)
    {c : Byte} (hc : isForeign c = true) {s : Bytes} (h : c ∈ s) :
    unfinishedExponent letter s = false := by
  obtain ⟨-, hsign, hpayload, -, -⟩ := (isForeign_iff c).mp hc
  cases s with
  | nil => cases h
  | cons b rest =>
      rw [unfinishedExponent, Bool.and_eq_false_iff]
      rcases List.mem_cons.mp h with rfl | h
      · exact Or.inl (by simpa using toLower_of_isPayload hpayload hlow hhigh)
      · exact Or.inr (all_eq_false_of_mem (isDigit_of_isPayload hpayload) (mem_takeSign hsign h))

theorem unfinishedMantissa_of_foreign (hex : Bool) {c : Byte} (hc : isForeign c = true) {s : Bytes}
    (h : c ∈ s) : unfinishedMantissa hex s = false := by
  obtain ⟨-, -, hpayload, hpoint, -⟩ := (isForeign_iff c).mp hc
  have hdigit : isMantissaDigit hex c = false := isMantissaDigit_of_isPayload hpayload
  have htail := mem_takeMantissa hdigit hpoint h
  have hexponent : unfinishedExponent (exponentLetter hex)
      (takeMantissa (isMantissaDigit hex) s).2.2 = false := by
    apply unfinishedExponent_of_foreign _ _ hc htail <;> cases hex <;> decide
  rw [unfinishedMantissa, hexponent, Bool.and_false, Bool.or_false,
    List.isEmpty_eq_false_iff]
  exact List.ne_nil_of_mem htail

/-- A prefix of a word has its bytes. -/
theorem not_isPrefixOf_of_mem {word s : Bytes} {b : Byte} (hword : b ∉ word) (h : b ∈ s) :
    s.isPrefixOf word = false := by
  by_contra hbegins
  exact hword ((List.isPrefixOf_iff_prefix.mp (by simpa using hbegins)).subset h)

/-- A byte that is not in a word at the beginning stands behind it. -/
theorem mem_drop_of_isPrefixOf {word s : Bytes} (hword : word.isPrefixOf (s.map toLower) = true)
    {c : Byte} (hc : toLower c ∉ word) (h : c ∈ s) : c ∈ s.drop word.length := by
  rw [List.isPrefixOf_iff_prefix, List.prefix_iff_eq_take, ← List.map_take] at hword
  rw [← List.take_append_drop word.length s] at h
  refine (List.mem_append.mp h).resolve_left fun htake => hc ?_
  rw [hword]
  exact List.mem_map_of_mem htake

theorem unfinishedWord_of_foreign {c : Byte} (hc : isForeign c = true) {s : Bytes} (h : c ∈ s) :
    unfinishedWord s = false := by
  obtain ⟨-, -, hpayload, -, hopen⟩ := (isForeign_iff c).mp hc
  have hlower : toLower c ∈ s.map toLower := List.mem_map_of_mem h
  have hword : ∀ word : Bytes, word.all (fun l => 97 ≤ l && l ≤ 122) = true →
      toLower c ∉ word := by
    intro word hletters hmem
    obtain ⟨hlow, hhigh⟩ : 97 ≤ toLower c ∧ toLower c ≤ 122 := by
      simpa using List.all_eq_true.mp hletters _ hmem
    exact toLower_of_isPayload hpayload hlow hhigh rfl
  have hinfinity := not_isPrefixOf_of_mem (hword (bytes "infinity") (by decide)) hlower
  have hnan := not_isPrefixOf_of_mem (hword (bytes "nan") (by decide)) hlower
  have hpayloads : ((bytes "nan(").isPrefixOf (s.map toLower) &&
      (s.drop (bytes "nan(").length).all isPayload) = false := by
    by_contra hnot
    obtain ⟨hopened, hall⟩ : (bytes "nan(").isPrefixOf (s.map toLower) = true ∧
        (s.drop (bytes "nan(").length).all isPayload = true := by
      simpa only [Bool.not_eq_false, Bool.and_eq_true] using hnot
    have houtside : toLower c ∉ bytes "nan" ++ [40] := by
      intro hmem
      rcases List.mem_append.mp hmem with hmem | hmem
      · exact hword (bytes "nan") (by decide) hmem
      · exact hopen ((toLower_eq_iff (by decide)).mp (List.mem_singleton.mp hmem))
    rw [all_eq_false_of_mem hpayload (mem_drop_of_isPrefixOf hopened houtside h)] at hall
    cases hall
  simp only [unfinishedWord, hinfinity, hnan, hpayloads, Bool.false_and, Bool.or_false]

theorem unfinishedHex_of_foreign {c : Byte} (hc : isForeign c = true) {s : Bytes} (h : c ∈ s) :
    unfinishedHex s = false := by
  obtain ⟨-, -, hpayload, -, -⟩ := (isForeign_iff c).mp hc
  cases hmark : (bytes "0x").isPrefixOf (s.map toLower) with
  | false => rw [unfinishedHex, hmark, Bool.false_and]
  | true =>
      have houtside : toLower c ∉ [48, 120] := by
        intro hmem
        rcases List.mem_pair.mp hmem with hzero | hx
        · obtain rfl : c = 48 := (toLower_eq_iff (by decide)).mp hzero
          exact absurd hpayload (by decide)
        · exact toLower_of_isPayload hpayload (by decide) (by decide) hx
      have hbehind : c ∈ s.drop 2 := mem_drop_of_isPrefixOf hmark houtside h
      rw [unfinishedHex, unfinishedMantissa_of_foreign true hc hbehind, Bool.and_false]

/-- A foreign byte ends every number in front of it. -/
theorem unfinishedFloat_of_foreign {c : Byte} (hc : isForeign c = true) {s : Bytes} (h : c ∈ s) :
    unfinishedFloat s = false := by
  obtain ⟨hspace, hsign, -, -, -⟩ := (isForeign_iff c).mp hc
  have hrest : c ∈ (takeSign (s.dropWhile isSpace)).2 :=
    mem_takeSign hsign (mem_dropWhile_of_neg hspace h)
  simp only [unfinishedFloat, unfinishedWord_of_foreign hc hrest,
    unfinishedMantissa_of_foreign false hc hrest, Bool.false_or]
  exact unfinishedHex_of_foreign hc hrest

end Foreign

section Values

theorem takeWhile_append_of_not_all {p : Byte → Bool} {s : Bytes} (h : s.all p = false)
    (x : Bytes) : (s ++ x).takeWhile p = s.takeWhile p := by
  rw [List.takeWhile_append, if_neg]
  intro hlength
  have hself := (List.takeWhile_prefix p).eq_of_length hlength
  rw [List.all_eq_true.mpr (List.takeWhile_eq_self_iff.mp hself)] at h
  cases h

theorem dropWhile_append_of_ne_nil {p : Byte → Bool} {s : Bytes} (h : s.dropWhile p ≠ [])
    (x : Bytes) : (s ++ x).dropWhile p = s.dropWhile p ++ x := by
  rw [List.dropWhile_append, if_neg (by simpa using h)]

theorem takeSign_append {s : Bytes} (h : s ≠ []) (x : Bytes) :
    takeSign (s ++ x) = ((takeSign s).1, (takeSign s).2 ++ x) := by
  obtain ⟨c, rest, rfl⟩ := List.exists_cons_of_ne_nil h
  simp only [List.cons_append, takeSign]
  split
  · rfl
  · split <;> rfl

/-- The value of a finished integer does not depend on what stands behind the text. -/
theorem strtoull_append {s : Bytes} (h : unfinishedInteger s = false) (x : Bytes) :
    strtoull (s ++ x) = strtoull s := by
  have hne : s.dropWhile isSpace ≠ [] := by
    intro hnil
    rw [unfinishedInteger, hnil] at h
    cases h
  simp only [strtoull, dropWhile_append_of_ne_nil hne, takeSign_append hne,
    takeWhile_append_of_not_all h]

theorem takeMantissa_append {digit : Byte → Bool} {s : Bytes}
    (h : (takeMantissa digit s).2.2 ≠ []) (x : Bytes) :
    takeMantissa digit (s ++ x) =
      ((takeMantissa digit s).1, (takeMantissa digit s).2.1, (takeMantissa digit s).2.2 ++ x) := by
  induction s with
  | nil => exact absurd rfl h
  | cons c rest ih =>
      cases hc : digit c with
      | true =>
          rw [takeMantissa_cons_of_digit hc] at h
          rw [List.cons_append, takeMantissa_cons_of_digit hc, takeMantissa_cons_of_digit hc, ih h]
      | false =>
          by_cases hpoint : c = 46
          · subst hpoint
            rw [takeMantissa_point hc] at h
            have hall : rest.all digit = false := by
              rw [← Bool.not_eq_true, List.all_eq_true]
              exact fun hall => h (List.dropWhile_eq_nil_iff.mpr hall)
            rw [List.cons_append, takeMantissa_point hc, takeMantissa_point hc,
              takeWhile_append_of_not_all hall, dropWhile_append_of_ne_nil h]
          · rw [List.cons_append, takeMantissa_of_other hc hpoint, takeMantissa_of_other hc hpoint,
              List.cons_append]

theorem takeExponent_append {letter : Byte} {s : Bytes} (hne : s ≠ [])
    (h : unfinishedExponent letter s = false) (x : Bytes) :
    takeExponent letter (s ++ x) = takeExponent letter s := by
  obtain ⟨c, rest, rfl⟩ := List.exists_cons_of_ne_nil hne
  by_cases hletter : toLower c = letter
  · have hall : (takeSign rest).2.all isDigit = false := by
      simpa [unfinishedExponent, hletter] using h
    have hrest : rest ≠ [] := by
      rintro rfl
      cases hall
    simp only [List.cons_append, takeExponent, takeSign_append hrest,
      takeWhile_append_of_not_all hall]
  · simp only [List.cons_append, takeExponent, if_neg hletter]

/-- The digits of a mantissa. -/
def mantissaDigits (hex : Bool) (s : Bytes) : Bytes :=
  (takeMantissa (isMantissaDigit hex) s).1 ++ (takeMantissa (isMantissaDigit hex) s).2.1

/-- The value of a mantissa with its exponent. -/
def mantissaValue (hex neg : Bool) (s : Bytes) : Double :=
  let m := takeMantissa (isMantissaDigit hex) s
  if hex then
    scaled neg (number 16 (m.1 ++ m.2.1)) 2 (takeExponent 112 m.2.2 - 4 * m.2.1.length)
  else scaled neg (number 10 (m.1 ++ m.2.1)) 10 (takeExponent 101 m.2.2 - m.2.1.length)

/-- A finished mantissa keeps its digits, and its value when it has digits. -/
theorem mantissa_append {hex : Bool} {s : Bytes} (h : unfinishedMantissa hex s = false)
    (x : Bytes) :
    mantissaDigits hex (s ++ x) = mantissaDigits hex s ∧
      ((mantissaDigits hex s).isEmpty = false →
        ∀ neg, mantissaValue hex neg (s ++ x) = mantissaValue hex neg s) := by
  obtain ⟨hend, hexponent⟩ := Bool.or_eq_false_iff.mp h
  have htail : (takeMantissa (isMantissaDigit hex) s).2.2 ≠ [] := by simpa using hend
  have happend := takeMantissa_append htail x
  refine ⟨by rw [mantissaDigits, happend, mantissaDigits], fun hdigits neg => ?_⟩
  change (!(mantissaDigits hex s).isEmpty && _) = false at hexponent
  rw [hdigits, Bool.not_false, Bool.true_and] at hexponent
  have hvalue := takeExponent_append htail hexponent x
  cases hex with
  | false =>
      change takeExponent 101 _ = takeExponent 101 _ at hvalue
      simp only [mantissaValue, happend, hvalue, Bool.false_eq_true, if_false]
  | true =>
      change takeExponent 112 _ = takeExponent 112 _ at hvalue
      simp only [mantissaValue, happend, hvalue, if_true]

/-- `strtod` behind white space and the sign. -/
def strtodUnsigned (neg : Bool) (s : Bytes) : Double :=
  if (bytes "inf").isPrefixOf (s.map toLower) then .inf neg
  else if (bytes "nan").isPrefixOf (s.map toLower) then .nan
  else if (bytes "0x").isPrefixOf (s.map toLower) && !(mantissaDigits true (s.drop 2)).isEmpty then
    mantissaValue true neg (s.drop 2)
  else if (mantissaDigits false s).isEmpty then .finite false 0 0
  else mantissaValue false neg s

theorem strtod_eq (s : Bytes) :
    strtod s = strtodUnsigned (takeSign (s.dropWhile isSpace)).1
      (takeSign (s.dropWhile isSpace)).2 := rfl

theorem isPrefixOf_append {word s : Bytes}
    (h : (s.isPrefixOf word && decide (s.length < word.length)) = false) (x : Bytes) :
    word.isPrefixOf (s ++ x) = word.isPrefixOf s := by
  rw [Bool.eq_iff_iff, List.isPrefixOf_iff_prefix, List.isPrefixOf_iff_prefix]
  refine ⟨fun hword => ?_, fun hword => hword.trans (List.prefix_append s x)⟩
  by_cases hlt : s.length < word.length
  · have hs : s <+: word := List.prefix_of_prefix_length_le (List.prefix_append s x) hword hlt.le
    rw [List.isPrefixOf_iff_prefix.mpr hs, decide_eq_true hlt] at h
    cases h
  · exact List.prefix_of_prefix_length_le hword (List.prefix_append s x) (not_lt.mp hlt)

/-- A text that ends in front of a word's last byte or differs from it decides about the word. -/
theorem unfinishedFloat_words {s : Bytes} (hword : unfinishedWord s = false)
    (hdecimal : unfinishedMantissa false s = false) {word : Bytes}
    (h : word ∈ [bytes "inf", bytes "nan", bytes "0x"]) :
    ((s.map toLower).isPrefixOf word && decide ((s.map toLower).length < word.length)) = false := by
  obtain ⟨hwords, -⟩ := Bool.or_eq_false_iff.mp hword
  obtain ⟨hinfinity, hnan⟩ := Bool.or_eq_false_iff.mp hwords
  rcases List.mem_cons.mp h with rfl | h
  · by_contra hnot
    obtain ⟨hbegins, hlt⟩ : s.map toLower <+: bytes "inf" ∧ (s.map toLower).length < 3 := by
      simpa [bytes] using hnot
    have hlonger : (s.map toLower).isPrefixOf (bytes "infinity") = true :=
      List.isPrefixOf_iff_prefix.mpr (hbegins.trans (List.isPrefixOf_iff_prefix.mp (by decide)))
    have hshorter : (s.map toLower).length < (bytes "infinity").length :=
      hlt.trans (by decide)
    rw [hlonger, decide_eq_true hshorter] at hinfinity
    cases hinfinity
  · rcases List.mem_pair.mp h with rfl | rfl
    · rw [hnan, Bool.false_and]
    · cases s with
      | nil => cases hdecimal
      | cons c s =>
          cases s with
          | nil =>
              by_cases hzero : c = 48
              · subst hzero
                cases hdecimal
              · have hlower : toLower c ≠ 48 := fun h => hzero ((toLower_eq_iff (by decide)).mp h)
                simp [bytes, List.isPrefixOf, hlower]
          | cons d s => simp [bytes]

theorem strtodUnsigned_append {s : Bytes} (hword : unfinishedWord s = false)
    (hdecimal : unfinishedMantissa false s = false) (hhex : unfinishedHex s = false)
    (neg : Bool) (x : Bytes) : strtodUnsigned neg (s ++ x) = strtodUnsigned neg s := by
  have hwords : ∀ word ∈ [bytes "inf", bytes "nan", bytes "0x"],
      word.isPrefixOf ((s ++ x).map toLower) = word.isPrefixOf (s.map toLower) := by
    intro word hmem
    rw [List.map_append, isPrefixOf_append (unfinishedFloat_words hword hdecimal hmem)]
  have hhexadecimal : (bytes "0x").isPrefixOf (s.map toLower) = true →
      mantissaDigits true ((s ++ x).drop 2) = mantissaDigits true (s.drop 2) ∧
        ((mantissaDigits true (s.drop 2)).isEmpty = false →
          mantissaValue true neg ((s ++ x).drop 2) = mantissaValue true neg (s.drop 2)) := by
    intro hmark
    have hlength : 2 ≤ s.length := by
      have hle := (List.isPrefixOf_iff_prefix.mp hmark).length_le
      rwa [List.length_map] at hle
    rw [unfinishedHex, hmark, Bool.true_and] at hhex
    rw [List.drop_append_of_le_length hlength]
    obtain ⟨hdigits, hvalue⟩ := mantissa_append hhex x
    exact ⟨hdigits, fun h => hvalue h neg⟩
  obtain ⟨hdigits, hvalue⟩ := mantissa_append hdecimal x
  rw [strtodUnsigned, strtodUnsigned, hwords _ (by simp), hwords _ (by simp), hwords _ (by simp),
    hdigits]
  refine ite_congr rfl (fun _ => rfl) fun _ => ite_congr rfl (fun _ => rfl) fun _ =>
    ite_congr ?_ (fun hmark => ?_) fun _ => ite_congr rfl (fun _ => rfl) fun hne => ?_
  · cases hmark : (bytes "0x").isPrefixOf (s.map toLower) with
    | false => rfl
    | true => rw [(hhexadecimal hmark).1]
  · obtain ⟨hmark, hne⟩ := Bool.and_eq_true_iff.mp hmark
    exact (hhexadecimal hmark).2 (by simpa using hne)
  · exact hvalue (by simpa using hne) neg

/-- The value of a finished floating-point number does not depend on what stands behind the text. -/
theorem strtod_append {s : Bytes} (h : unfinishedFloat s = false) (x : Bytes) :
    strtod (s ++ x) = strtod s := by
  have hne : s.dropWhile isSpace ≠ [] := by
    intro hnil
    rw [unfinishedFloat, hnil] at h
    cases h
  obtain ⟨hword, hnumber⟩ := Bool.or_eq_false_iff.mp h
  obtain ⟨hdecimal, hhex⟩ := Bool.or_eq_false_iff.mp hnumber
  rw [strtod_eq, strtod_eq, dropWhile_append_of_ne_nil hne, takeSign_append hne]
  exact strtodUnsigned_append hword hdecimal hhex _ x

end Values

end QueryPlayback.Scan
