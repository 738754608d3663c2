import QueryPlayback.GeneralLog.Parse
import QueryPlayback.Text.ScanLine

/-!
# What the regular expression of the general log matches

A match is white space, digits, white space, the word `Query`, white space and
at least one more character. In a line whose columns are in order the first
match captures the id and what follows the word.
-/

namespace QueryPlayback.GeneralLogEntry

open Pattern

/-- White space and nothing else, but some. -/
def IsGap (gap : Bytes) : Prop := gap ≠ [] ∧ ∀ c ∈ gap, Scan.isSpace c = true

/-- Digits and nothing else, but some. -/
def IsDigits (digits : Bytes) : Prop := digits ≠ [] ∧ ∀ c ∈ digits, Scan.isDigit c = true

theorem IsGap.not_mem {gap : Bytes} {b : Byte} (h : IsGap gap) (hb : Scan.isSpace b = false) :
    b ∉ gap :=
  fun hmem => Bool.noConfusion (hb.symm.trans (h.2 b hmem))

theorem IsGap.head_append {gap : Bytes} (h : IsGap gap) (rest : Bytes) :
    ∀ c ∈ (gap ++ rest).head?, Scan.isSpace c = true := by
  rw [List.head?_append_of_ne_nil _ h.1]
  exact fun c hc => h.2 c (List.mem_of_mem_head? hc)

theorem IsDigits.not_mem {digits : Bytes} {b : Byte} (h : IsDigits digits)
    (hb : Scan.isDigit b = false) : b ∉ digits :=
  fun hmem => Bool.noConfusion (hb.symm.trans (h.2 b hmem))

/-- What the expression captures behind the word. -/
def textItems : List (Item Byte) := [.run Scan.isSpace, .group fun _ => true]

theorem regex_eq : regex = [.run Scan.isSpace, .group Scan.isDigit, .run Scan.isSpace] ++
    (literal (bytes "Query") ++ textItems) := rfl

section Columns

/-- The columns of a match that starts with the first character. -/
theorem matchItems_regex_spec {s : Bytes} {g : List Bytes} (h : matchItems regex s = some g) :
    ∃ gap id gap' w g', s = gap ++ (id ++ (gap' ++ (bytes "Query" ++ w))) ∧ IsGap gap ∧
      IsDigits id ∧ IsGap gap' ∧ matchItems textItems w = some g' ∧ g = id :: g' := by
  rw [regex_eq] at h
  obtain ⟨gap, s₁, rfl, hgap, hgapSpace, h₁⟩ := matchItems_run h
  obtain ⟨id, s₂, g', rfl, hid, hidDigits, h₂, rfl⟩ := matchItems_group h₁
  obtain ⟨gap', s₃, rfl, hgap', hgapSpace', h₃⟩ := matchItems_run h₂
  obtain ⟨w, rfl, h₄⟩ := matchItems_literal.mp h₃
  exact ⟨gap, id, gap', w, g', rfl, ⟨hgap, hgapSpace⟩, ⟨hid, hidDigits⟩, ⟨hgap', hgapSpace'⟩,
    h₄, rfl⟩

/-- The last item captures everything. -/
theorem matchItems_all {s : Bytes} (hne : s ≠ []) :
    matchItems [.group fun _ => true] s = some [s] := by
  have hall := @matchItems_group_append _ (fun _ => true) [] s [] [] hne (fun _ _ => rfl)
    (by simp) rfl
  rwa [List.append_nil] at hall

/-- What is captured behind the word is the rest behind some white space. -/
theorem matchItems_text_spec {w : Bytes} {g : List Bytes} (h : matchItems textItems w = some g) :
    ∃ gap ns, w = gap ++ ns ∧ IsGap gap ∧ ns ≠ [] ∧ g = [ns] := by
  obtain ⟨gap, ns, rfl, hgap, hgapSpace, h₁⟩ := matchItems_run h
  have hne : ns ≠ [] := by
    rintro rfl
    cases h₁
  rw [matchItems_all hne] at h₁
  exact ⟨gap, ns, rfl, ⟨hgap, hgapSpace⟩, hne, (Option.some.inj h₁).symm⟩

/-- Where the expression is found, and what it captures there. -/
theorem search_regex_spec {s : Bytes} {g : List Bytes} (h : Pattern.search regex s = some g) :
    ∃ pre gap id gap' gap'' ns,
      s = pre ++ (gap ++ (id ++ (gap' ++ (bytes "Query" ++ (gap'' ++ ns))))) ∧
        IsGap gap ∧ IsDigits id ∧ IsGap gap' ∧ IsGap gap'' ∧ ns ≠ [] ∧ g = [id, ns] := by
  obtain ⟨pre, suf, rfl, hmatch⟩ := search_spec h
  obtain ⟨gap, id, gap', w, g', rfl, hgap, hid, hgap', htext, rfl⟩ := matchItems_regex_spec hmatch
  obtain ⟨gap'', ns, rfl, hgap'', hns, rfl⟩ := matchItems_text_spec htext
  exact ⟨pre, gap, id, gap', gap'', ns, rfl, hgap, hid, hgap', hgap'', hns, rfl⟩

/-- Columns in order match. -/
theorem matchItems_regex {gap id gap' w : Bytes} {g : List Bytes} (hgap : IsGap gap)
    (hid : IsDigits id) (hgap' : IsGap gap') (hw : matchItems textItems w = some g) :
    matchItems regex (gap ++ (id ++ (gap' ++ (bytes "Query" ++ w)))) = some (id :: g) := by
  obtain ⟨d, id', rfl⟩ := List.exists_cons_of_ne_nil hid.1
  obtain ⟨c, gap'', rfl⟩ := List.exists_cons_of_ne_nil hgap'.1
  rw [regex_eq]
  apply matchItems_run_append hgap.1 hgap.2
  · intro a ha
    obtain rfl : d = a := Option.some.inj ha
    exact Scan.isSpace_of_isDigit (hid.2 d List.mem_cons_self)
  apply matchItems_group_append hid.1 hid.2
  · intro a ha
    obtain rfl : c = a := Option.some.inj ha
    exact Scan.isDigit_of_isSpace (hgap'.2 c List.mem_cons_self)
  apply matchItems_run_append hgap'.1 hgap'.2
  · intro a ha
    obtain rfl : 81 = a := Option.some.inj ha
    rfl
  exact matchItems_literal.mpr ⟨w, rfl, hw⟩

/-- Two divisions of a line into columns agree when the same text is in front of the word. -/
theorem columns_unique {pre gap id gap' pre' id' gap'' : Bytes} (hgap : IsGap gap)
    (hid : IsDigits id) (hgap' : IsGap gap') (hpre' : IsGap pre') (hid' : IsDigits id')
    (hgap'' : IsGap gap'') (h : pre ++ (gap ++ (id ++ gap')) = pre' ++ (id' ++ gap'')) :
    id = id' := by
  have hlast : ∀ {u digits : Bytes}, IsDigits digits →
      ∀ a ∈ (u ++ digits).getLast?, Scan.isSpace a = false := by
    intro u digits hdigits a ha
    rw [List.getLast?_append_of_ne_nil u hdigits.1] at ha
    exact Scan.isSpace_of_isDigit (hdigits.2 a (List.mem_of_getLast? ha))
  have hgapLast : ∀ {u gap : Bytes}, IsGap gap →
      ∀ a ∈ (u ++ gap).getLast?, Scan.isDigit a = false := by
    intro u gap hgap a ha
    rw [List.getLast?_append_of_ne_nil u hgap.1] at ha
    exact Scan.isDigit_of_isSpace (hgap.2 a (List.mem_of_getLast? ha))
  have h₁ : (pre ++ gap ++ id) ++ gap' = (pre' ++ id') ++ gap'' := by simpa using h
  obtain ⟨h₂, -⟩ := append_inj_of_stop_reverse hgap'.2 (hlast hid) hgap''.2 (hlast hid') h₁
  obtain ⟨-, h₃⟩ := append_inj_of_stop_reverse hid.2 (hgapLast hgap) hid'.2
    (hgapLast (u := []) hpre') h₂
  exact h₃

/-- Columns up to the word stand somewhere in the text, and the word ends there. -/
def QueryColumns (s : Bytes) : Prop :=
  ∃ u gap id gap' v, s = u ++ (gap ++ (id ++ (gap' ++ (bytes "Query" ++ v)))) ∧ IsGap gap ∧
    IsDigits id ∧ IsGap gap' ∧ ∀ c ∈ v.head?, Scan.isSpace c = true

theorem not_queryColumns_of_not_mem {s : Bytes} (h : 81 ∉ s) : ¬QueryColumns s := by
  rintro ⟨u, gap, id, gap', v, rfl, -⟩
  apply h
  simp [bytes]

/-- The columns in front of the word are white space and digits. -/
theorem not_mem_of_columns {gap id gap' : Bytes} {b : Byte} (hgap : IsGap gap) (hid : IsDigits id)
    (hgap' : IsGap gap') (hspace : Scan.isSpace b = false) (hdigit : Scan.isDigit b = false) :
    b ∉ gap ++ (id ++ gap') := by
  simp only [List.mem_append, not_or]
  exact ⟨hgap.not_mem hspace, hid.not_mem hdigit, hgap'.not_mem hspace⟩

/-- The byte of `'Q'` ends the columns in front of the word. -/
theorem ne_Q_of_columns {gap id gap' : Bytes} (hgap : IsGap gap) (hid : IsDigits id)
    (hgap' : IsGap gap') : ∀ c ∈ gap ++ (id ++ gap'), (c != 81) = true := by
  intro c hc
  rw [bne_iff_ne]
  rintro rfl
  exact not_mem_of_columns hgap hid hgap' rfl rfl hc

/-- What the expression captures begins with white space. -/
theorem head_of_matchItems_text {w : Bytes} {g : List Bytes} (h : matchItems textItems w = some g) :
    ∀ c ∈ w.head?, Scan.isSpace c = true := by
  obtain ⟨gap, ns, rfl, hgap, -⟩ := matchItems_text_spec h
  exact hgap.head_append ns

theorem isSpace_word : ∀ c ∈ bytes "Query", Scan.isSpace c = false := by
  have hletters : (bytes "Query").all (fun c => !Scan.isSpace c) = true := by decide
  intro c hc
  simpa using List.all_eq_true.mp hletters c hc

/-- White space does not begin inside the word. -/
theorem eq_nil_of_word_cut {m m' w : Bytes} (hword : bytes "Query" = m ++ m')
    (hw : ∀ c ∈ (m' ++ w).head?, Scan.isSpace c = true) : m' = [] := by
  cases m' with
  | nil => rfl
  | cons c m' =>
      have hnot := isSpace_word c (hword ▸ List.mem_append_right m List.mem_cons_self)
      rw [hw c rfl] at hnot
      cases hnot

/-- Behind a text without columns of its own a match has the columns of the line. -/
theorem columns_eq {v gap id gap' w gap₁ id₁ gap₂ w₁ : Bytes} {g : List Bytes}
    (hv : ¬QueryColumns v) (hgap : IsGap gap) (hid : IsDigits id) (hgap' : IsGap gap')
    (hgap₁ : IsGap gap₁) (hid₁ : IsDigits id₁) (hgap₂ : IsGap gap₂)
    (hw₁ : matchItems textItems w₁ = some g)
    (heq : v ++ (gap ++ (id ++ (gap' ++ (bytes "Query" ++ w)))) =
      gap₁ ++ (id₁ ++ (gap₂ ++ (bytes "Query" ++ w₁)))) : id = id₁ ∧ w = w₁ := by
  have hstop : ∀ rest : Bytes, ∀ a ∈ (bytes "Query" ++ rest).head?, (a != 81) = false := by
    intro rest a ha
    obtain rfl : 81 = a := Option.some.inj ha
    rfl
  have hfront₁ := ne_Q_of_columns hgap₁ hid₁ hgap₂
  have heq' : v ++ (gap ++ (id ++ (gap' ++ (bytes "Query" ++ w)))) =
      (gap₁ ++ (id₁ ++ gap₂)) ++ (bytes "Query" ++ w₁) := by
    rw [heq]
    simp only [List.append_assoc]
  rcases List.append_eq_append_iff.mp heq' with ⟨m, hm, -⟩ | ⟨m, rfl, hm⟩
  · -- the word of the match does not begin in front of the line's own columns
    have hfront : ∀ c ∈ v ++ (gap ++ (id ++ gap')), (c != 81) = true := by
      intro c hc
      rcases List.mem_append.mp hc with hc | hc
      · exact hfront₁ c (hm ▸ List.mem_append_left m hc)
      · exact ne_Q_of_columns hgap hid hgap' c hc
    have hsplit : (v ++ (gap ++ (id ++ gap'))) ++ (bytes "Query" ++ w) =
        (gap₁ ++ (id₁ ++ gap₂)) ++ (bytes "Query" ++ w₁) := by
      rw [← heq']
      simp only [List.append_assoc]
    obtain ⟨hcolumns, hrest⟩ := append_inj_of_stop hfront (hstop w) hfront₁ (hstop w₁) hsplit
    exact ⟨columns_unique hgap hid hgap' hgap₁ hid₁ hgap₂ hcolumns,
      List.append_cancel_left hrest⟩
  · refine absurd ?_ hv
    rcases List.append_eq_append_iff.mp hm with ⟨m', rfl, rfl⟩ | ⟨m', hword, hrest⟩
    · refine ⟨[], gap₁, id₁, gap₂, m', by simp only [List.append_assoc, List.nil_append], hgap₁,
        hid₁, hgap₂, fun c hc => ?_⟩
      apply head_of_matchItems_text hw₁ c
      rw [List.head?_append, hc]
      rfl
    · -- a word that is cut by the white space of the columns is whole
      have hnil : m' = [] := by
        apply eq_nil_of_word_cut hword (w := w₁)
        rw [← hrest]
        exact hgap.head_append _
      rw [hnil, List.append_nil] at hword
      rw [← hword]
      refine ⟨[], gap₁, id₁, gap₂, [], by simp only [List.append_assoc, List.nil_append,
        List.append_nil], hgap₁, hid₁, hgap₂, fun c hc => by cases hc⟩

/-- The first word stands no later than any other one. -/
theorem suffix_of_first_word {front w front' w' : Bytes} (hfront : ∀ c ∈ front, (c != 81) = true)
    (heq : front ++ (bytes "Query" ++ w) = front' ++ (bytes "Query" ++ w')) : w' <:+ w := by
  have hw : ∀ rest : Bytes, rest <:+ bytes "Query" ++ rest := fun rest => ⟨_, rfl⟩
  rcases List.append_eq_append_iff.mp heq with ⟨m, -, hm⟩ | ⟨m, rfl, hm⟩
  · -- what follows the later word is a part of what follows the first one
    have hsuffix : w' <:+ bytes "Query" ++ w := by
      rw [hm]
      exact (hw w').trans (List.suffix_append m _)
    apply List.suffix_of_suffix_length_le hsuffix (hw w)
    have hlength := congrArg List.length hm
    simp only [List.length_append] at hlength
    omega
  · cases m with
    | nil => exact List.append_cancel_left hm ▸ List.suffix_rfl
    | cons c m =>
        obtain rfl : 81 = c := (List.cons.inj hm).1
        have hnot := hfront 81 (List.mem_append_right _ List.mem_cons_self)
        cases hnot

/-- In a line with columns the first match captures the id and what is behind the word. -/
theorem search_regex {pre gap id gap' w : Bytes} {g : List Bytes} (hpre : ¬QueryColumns pre)
    (hgap : IsGap gap) (hid : IsDigits id) (hgap' : IsGap gap')
    (hw : matchItems textItems w = some g) :
    Pattern.search regex (pre ++ (gap ++ (id ++ (gap' ++ (bytes "Query" ++ w))))) =
      some (id :: g) := by
  apply search_append (matchItems_regex hgap hid hgap' hw)
  intro u v g' huv hmatch
  obtain ⟨gap₁, id₁, gap₂, w₁, g₁, heq, hgap₁, hid₁, hgap₂, hw₁, rfl⟩ :=
    matchItems_regex_spec hmatch
  have hv : ¬QueryColumns v := by
    rintro ⟨u', gap, id, gap', v', rfl, hcolumns⟩
    exact hpre ⟨u ++ u', gap, id, gap', v', by rw [huv, List.append_assoc], hcolumns⟩
  obtain ⟨rfl, rfl⟩ := columns_eq hv hgap hid hgap' hgap₁ hid₁ hgap₂ hw₁ heq
  rw [hw] at hw₁
  rw [Option.some.inj hw₁]

/-- The id as a number. -/
theorem strtoull_of_isDigits {id : Bytes} {n : UInt64} (hid : IsDigits id)
    (hvalue : Scan.number 10 id = n.toNat) : Scan.strtoull id = n := by
  obtain ⟨d, rest, hcons⟩ := List.exists_cons_of_ne_nil hid.1
  have hd : Scan.isDigit d = true := hid.2 d (hcons ▸ List.mem_cons_self)
  have hspace : id.dropWhile Scan.isSpace = id := by
    rw [hcons, List.dropWhile_cons_of_neg (by simp [Scan.isSpace_of_isDigit hd])]
  have hsign : Scan.takeSign id = (false, id) := by
    have hminus : d ≠ 45 := by
      rintro rfl
      cases hd
    have hplus : d ≠ 43 := by
      rintro rfl
      cases hd
    rw [hcons, Scan.takeSign, if_neg hminus, if_neg hplus]
  have hdigits : id.takeWhile Scan.isDigit = id := List.takeWhile_eq_self_iff.mpr hid.2
  have hlt := n.toNat_lt
  rw [Scan.strtoull, hspace, hsign]
  simp only [hdigits, hvalue, if_neg (Nat.not_le.mpr hlt), Bool.false_eq_true, if_false,
    UInt64.ofNat_toNat]

end Columns

section Text

/-- White space in front of the text is not captured. -/
theorem matchItems_text {gap ns : Bytes} (hgap : IsGap gap) (hns : ns ≠ [])
    (hstop : ∀ c ∈ ns.head?, Scan.isSpace c = false) :
    matchItems textItems (gap ++ ns) = some [ns] := by
  exact matchItems_run_append hgap.1 hgap.2 hstop (matchItems_all hns)

/-- When there is nothing but white space, its last character is captured. -/
theorem matchItems_text_blank {gap : Bytes} {c : Byte} (hgap : IsGap gap)
    (hc : Scan.isSpace c = true) : matchItems textItems (gap ++ [c]) = some [[c]] := by
  apply matchItems_run_giveBack hgap.1
  · intro b hb
    rcases List.mem_append.mp hb with hb | hb
    · exact hgap.2 b hb
    · exact List.mem_singleton.mp hb ▸ hc
  · rfl
  · rfl

/-- What is captured reaches back to every character that is not white space. -/
theorem suffix_of_matchItems_text {w s ns : Bytes} {c : Byte} (hc : Scan.isSpace c = false)
    (hsuffix : c :: s <:+ w) (h : matchItems textItems w = some [ns]) : c :: s <:+ ns := by
  obtain ⟨gap, ns', rfl, hgap, -, hns⟩ := matchItems_text_spec h
  obtain rfl := List.singleton_inj.mp hns
  obtain ⟨front, hfront⟩ := hsuffix
  rcases List.append_eq_append_iff.mp hfront with ⟨m, rfl, hm⟩ | ⟨m, -, hm⟩
  · cases m with
    | nil => exact hm ▸ List.suffix_rfl
    | cons b m =>
        obtain rfl : c = b := (List.cons.inj hm).1
        have hspace := hgap.2 c (List.mem_append_right front List.mem_cons_self)
        rw [hc] at hspace
        cases hspace
  · exact hm ▸ List.suffix_append m _

/-- Behind the word there is white space and a further character. -/
def HasText (w : Bytes) : Prop := ∃ gap rest, w = gap ++ rest ∧ IsGap gap ∧ rest ≠ []

/-- The text is captured from its first character on that is not white space, or its last
character. -/
theorem matchItems_text_cases {gap rest : Bytes} (hgap : IsGap gap) (hrest : rest ≠ []) :
    (∃ c t, matchItems textItems (gap ++ rest) = some [c :: t] ∧ Scan.isSpace c = false ∧
      rest.dropWhile Scan.isSpace = c :: t) ∨
    ∃ c, matchItems textItems (gap ++ rest) = some [[c]] ∧
      ∀ b ∈ rest, Scan.isSpace b = true := by
  have hsplit := List.takeWhile_append_dropWhile (p := Scan.isSpace) (l := rest)
  have hws : ∀ c ∈ rest.takeWhile Scan.isSpace, Scan.isSpace c = true :=
    fun c hc => List.mem_takeWhile_imp hc
  cases hdrop : rest.dropWhile Scan.isSpace with
  | nil =>
      rw [hdrop, List.append_nil] at hsplit
      rw [hsplit] at hws
      obtain ⟨init, last, rfl⟩ := (List.eq_nil_or_concat' rest).resolve_left hrest
      obtain ⟨hinit, hlast⟩ := List.forall_mem_append.mp hws
      refine Or.inr ⟨last, ?_, hws⟩
      rw [← List.append_assoc]
      apply matchItems_text_blank
      · exact ⟨fun hnil => hgap.1 (List.append_eq_nil_iff.mp hnil).1,
          List.forall_mem_append.mpr ⟨hgap.2, hinit⟩⟩
      · exact hlast last (List.mem_singleton_self last)
  | cons c t =>
      rw [hdrop] at hsplit
      have hc : Scan.isSpace c = false := by
        have hhead := List.head?_dropWhile_not Scan.isSpace rest
        rw [hdrop, List.head?_cons] at hhead
        simpa using hhead
      refine Or.inl ⟨c, t, ?_, hc, rfl⟩
      conv_lhs => rw [← hsplit, ← List.append_assoc]
      apply matchItems_text
      · exact ⟨fun hnil => hgap.1 (List.append_eq_nil_iff.mp hnil).1,
          List.forall_mem_append.mpr ⟨hgap.2, hws⟩⟩
      · exact List.cons_ne_nil c t
      · intro b hb
        obtain rfl : c = b := Option.some.inj hb
        exact hc

theorem hasText_append {v w : Bytes} (hv : ∀ c ∈ v.head?, Scan.isSpace c = true)
    (hw : HasText w) : HasText (v ++ w) := by
  cases v with
  | nil => exact hw
  | cons c v =>
      obtain ⟨gap, rest, rfl, hgap, -⟩ := hw
      refine ⟨[c], v ++ (gap ++ rest), rfl, ⟨List.cons_ne_nil c [], ?_⟩, ?_⟩
      · exact List.forall_mem_singleton.mpr (hv c rfl)
      · exact List.append_ne_nil_of_right_ne_nil v (List.append_ne_nil_of_left_ne_nil hgap.1 rest)

/-- Some text is captured, if there is any. -/
theorem matchItems_text_of_hasText {w : Bytes} (h : HasText w) :
    ∃ ns, matchItems textItems w = some [ns] := by
  obtain ⟨gap, rest, rfl, hgap, hrest⟩ := h
  rcases matchItems_text_cases hgap hrest with ⟨c, t, hmatch, -⟩ | ⟨c, hmatch, -⟩
  · exact ⟨c :: t, hmatch⟩
  · exact ⟨[c], hmatch⟩

/-- What is captured begins with white space only when it is one character. -/
theorem head_of_captured {w ns : Bytes} (h : matchItems textItems w = some [ns])
    (hlong : 2 ≤ ns.length) : ∀ c ∈ ns.head?, Scan.isSpace c = false := by
  obtain ⟨gap, ns', rfl, hgap, hne, hns⟩ := matchItems_text_spec h
  obtain rfl := List.singleton_inj.mp hns
  rcases matchItems_text_cases hgap hne with ⟨c, t, hmatch, hc, -⟩ | ⟨c, hmatch, -⟩
  · rw [h] at hmatch
    obtain rfl : ns = c :: t := by simpa using hmatch
    intro b hb
    obtain rfl : c = b := Option.some.inj hb
    exact hc
  · rw [h] at hmatch
    obtain rfl : ns = [c] := by simpa using hmatch
    simp at hlong

/-- The last character at least is dropped. -/
theorem withoutTerminator_isPrefix (ns : Bytes) : withoutTerminator ns <+: ns.dropLast := by
  unfold withoutTerminator
  split
  · exact List.dropLast_prefix _
  · exact List.prefix_rfl

/-- Two characters at most are dropped. -/
theorem length_le_withoutTerminator (ns : Bytes) :
    ns.length ≤ (withoutTerminator ns).length + 2 := by
  unfold withoutTerminator
  split <;> simp only [List.length_dropLast] <;> omega

end Text

section Found

/-- Somewhere in the text there are columns with the word and a text behind it. -/
def HasColumns (s : Bytes) : Prop :=
  ∃ u gap id gap' w, s = u ++ (gap ++ (id ++ (gap' ++ (bytes "Query" ++ w)))) ∧ IsGap gap ∧
    IsDigits id ∧ IsGap gap' ∧ HasText w

/-- What is found, and that there are no columns in front of it. -/
theorem search_regex_iff {s id ns : Bytes} : Pattern.search regex s = some [id, ns] ↔
    ∃ pre gap gap' w, s = pre ++ (gap ++ (id ++ (gap' ++ (bytes "Query" ++ w)))) ∧
      ¬QueryColumns pre ∧ IsGap gap ∧ IsDigits id ∧ IsGap gap' ∧
      matchItems textItems w = some [ns] := by
  constructor
  · intro h
    obtain ⟨pre, suf, rfl, hmatch, hearlier⟩ := search_first h
    obtain ⟨gap, id', gap', w, g', rfl, hgap, hid, hgap', hw, hg⟩ := matchItems_regex_spec hmatch
    obtain ⟨rfl, rfl⟩ := List.cons.inj hg
    refine ⟨pre, gap, gap', w, rfl, ?_, hgap, hid, hgap', hw⟩
    rintro ⟨u, gap₀, id₀, gap₁, v, rfl, hgap₀, hid₀, hgap₁, hv⟩
    -- the columns in front would have been found
    have htext : HasText (gap ++ (id ++ (gap' ++ (bytes "Query" ++ w)))) :=
      ⟨gap, _, rfl, hgap, List.append_ne_nil_of_left_ne_nil hid.1 _⟩
    obtain ⟨ns', hns'⟩ := matchItems_text_of_hasText (hasText_append hv htext)
    have hnone := hearlier u _ rfl (List.append_ne_nil_of_left_ne_nil hgap₀.1 _)
    simp only [List.append_assoc] at hnone
    rw [matchItems_regex hgap₀ hid₀ hgap₁ hns'] at hnone
    cases hnone
  · rintro ⟨pre, gap, gap', w, rfl, hpre, hgap, hid, hgap', hw⟩
    exact search_regex hpre hgap hid hgap' hw

/-- The expression is found exactly in a text with columns. -/
theorem search_regex_isSome_iff {s : Bytes} :
    (Pattern.search regex s).isSome = true ↔ HasColumns s := by
  constructor
  · intro h
    obtain ⟨g, hg⟩ := Option.isSome_iff_exists.mp h
    obtain ⟨u, gap, id, gap', gap'', ns, hs, hgap, hid, hgap', hgap'', hns, -⟩ :=
      search_regex_spec hg
    exact ⟨u, gap, id, gap', _, hs, hgap, hid, hgap', gap'', ns, rfl, hgap'', hns⟩
  · rintro ⟨u, gap, id, gap', w, rfl, hgap, hid, hgap', htext⟩
    obtain ⟨ns, hns⟩ := matchItems_text_of_hasText htext
    exact search_isSome_of_match u (matchItems_regex hgap hid hgap' hns)

end Found

end QueryPlayback.GeneralLogEntry
