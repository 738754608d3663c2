import QueryPlayback.Text.Scan

/-!
# Searches and scans within a line

A marker without a line break is found in the lines it stands in, and a number
that has begun ends with its line at the latest: what follows the line break
changes neither.
-/

namespace QueryPlayback

section Prefixes

/-- What has no line break reaches over none. -/
theorem isPrefixOf_append_newline {p : Bytes} (hp : newline ∉ p) (x v : Bytes) :
    p.isPrefixOf (x ++ newline :: v) = p.isPrefixOf x := by
  induction p generalizing x with
  | nil => simp
  | cons a p ih =>
      obtain ⟨ha, hp⟩ : newline ≠ a ∧ newline ∉ p := by simpa using hp
      cases x with
      | nil => simp [List.isPrefixOf, Ne.symm ha]
      | cons b x => simp [List.isPrefixOf, ih hp]

theorem takeWhile_append_newline {p : Byte → Bool} (hp : p newline = false) (x v : Bytes) :
    (x ++ newline :: v).takeWhile p = x.takeWhile p := by
  induction x with
  | nil => simp [hp]
  | cons a x ih => by_cases ha : p a = true <;> simp [ha, ih]

theorem dropWhile_append_newline {p : Byte → Bool} (hp : p newline = false) (x v : Bytes) :
    (x ++ newline :: v).dropWhile p = x.dropWhile p ++ newline :: v := by
  induction x with
  | nil => simp [hp]
  | cons a x ih => by_cases ha : p a = true <;> simp [ha, ih]

end Prefixes

section Search

variable {sub : Bytes}

/-- A marker is found in front of a line break or behind it. -/
theorem search_append_newline (hsub : newline ∉ sub) (hne : sub ≠ []) (m x : Bytes) :
    search sub (m ++ newline :: x) =
      (search sub m).or ((search sub x).map (· + (m.length + 1))) := by
  induction m with
  | nil =>
      have hfirst : sub.isPrefixOf (newline :: x) = false := by
        have hempty : sub.isPrefixOf [] = false := by
          cases sub with
          | nil => exact absurd rfl hne
          | cons a sub => rfl
        exact (isPrefixOf_append_newline hsub [] x).trans hempty
      simp [search, hfirst]
  | cons a m ih =>
      have hfirst := isPrefixOf_append_newline hsub (a :: m) x
      rw [List.cons_append] at hfirst ⊢
      rw [search, search, hfirst, ih]
      split
      · rfl
      · cases search sub m with
        | some k => rfl
        | none =>
            simp only [Option.none_or, Option.map_none, Option.map_map, List.length_cons]
            congr 1

/-- An occurrence lies within the text. -/
theorem search_add_length_le {m : Bytes} {k : ℕ} (h : search sub m = some k) :
    k + sub.length ≤ m.length := by
  induction m generalizing k with
  | nil => cases h
  | cons a m ih =>
      rw [search] at h
      split at h
      · rename_i hfirst
        obtain rfl : 0 = k := Option.some.inj h
        have hle := (List.isPrefixOf_iff_prefix.mp hfirst).length_le
        omega
      · obtain ⟨j, hj, rfl⟩ := Option.map_eq_some_iff.mp h
        have hle := ih hj
        rw [List.length_cons]
        omega

/-- The text up to an occurrence, the occurrence and the rest. -/
theorem search_split {m : Bytes} {k : ℕ} (h : search sub m = some k) :
    m = m.take k ++ sub ++ m.drop (k + sub.length) := by
  induction m generalizing k with
  | nil => cases h
  | cons a m ih =>
      rw [search] at h
      split at h
      · rename_i hfirst
        obtain rfl : 0 = k := Option.some.inj h
        obtain ⟨rest, hrest⟩ := List.isPrefixOf_iff_prefix.mp hfirst
        rw [← hrest, Nat.zero_add, List.take_zero, List.drop_left, List.nil_append]
      · obtain ⟨j, hj, rfl⟩ := Option.map_eq_some_iff.mp h
        rw [Nat.add_right_comm, List.take_succ_cons, List.drop_succ_cons, List.cons_append,
          List.cons_append, ← ih hj]

/-- What is found is a part of the text. -/
theorem search_isSome_iff (hne : sub ≠ []) {m : Bytes} :
    (search sub m).isSome = true ↔ sub <:+: m := by
  induction m with
  | nil =>
      rw [List.infix_nil]
      exact iff_of_false Bool.false_ne_true hne
  | cons a m ih =>
      rw [search, List.infix_cons_iff, ← ih, ← List.isPrefixOf_iff_prefix]
      split
      · rename_i hfirst
        simp [hfirst]
      · rename_i hfirst
        simp [hfirst]

theorem search_self (hne : sub ≠ []) (x : Bytes) : search sub (sub ++ x) = some 0 := by
  cases sub with
  | nil => exact absurd rfl hne
  | cons a sub =>
      rw [List.cons_append, search, if_pos]
      exact List.isPrefixOf_iff_prefix.mpr (List.prefix_append (a :: sub) x)

end Search

namespace Scan

theorem isDigit_of_isSpace {c : Byte} (h : isSpace c = true) : isDigit c = false := by
  simp only [isSpace, Bool.or_eq_true, Bool.and_eq_true, beq_iff_eq, decide_eq_true_eq,
    UInt8.le_iff_toNat_le] at h
  rcases h with rfl | ⟨-, hle⟩
  · rfl
  · have hlt : ¬48 ≤ c := by
      rw [UInt8.le_iff_toNat_le]
      exact Nat.not_le.mpr (Nat.lt_of_le_of_lt hle (by decide))
    rw [isDigit, decide_eq_false hlt, Bool.false_and]

theorem isSpace_of_isDigit {c : Byte} (h : isDigit c = true) : isSpace c = false := by
  by_contra hspace
  rw [isDigit_of_isSpace (by simpa using hspace)] at h
  cases h

theorem isDigit_newline : isDigit newline = false := by decide

/-- A sign is looked for at the first byte only. -/
theorem takeSign_append_newline (x v : Bytes) :
    takeSign (x ++ newline :: v) = ((takeSign x).1, (takeSign x).2 ++ newline :: v) := by
  cases x with
  | nil => rfl
  | cons c x =>
      simp only [List.cons_append, takeSign]
      split
      · rfl
      · split <;> rfl

theorem takeMantissa_append_newline {digit : Byte → Bool} (hdigit : digit newline = false)
    (x v : Bytes) :
    takeMantissa digit (x ++ newline :: v) =
      ((takeMantissa digit x).1, (takeMantissa digit x).2.1,
        (takeMantissa digit x).2.2 ++ newline :: v) := by
  unfold takeMantissa
  rw [takeWhile_append_newline hdigit, dropWhile_append_newline hdigit]
  cases hrest : x.dropWhile digit with
  | nil => rfl
  | cons c rest =>
      by_cases hpoint : c = 46
      · subst hpoint
        simp only [List.cons_append, takeWhile_append_newline hdigit,
          dropWhile_append_newline hdigit]
      · simp [hpoint]

theorem takeExponent_append_newline {letter : Byte} (hletter : toLower newline ≠ letter)
    (x v : Bytes) : takeExponent letter (x ++ newline :: v) = takeExponent letter x := by
  cases x with
  | nil => simp [takeExponent, hletter]
  | cons c x =>
      simp only [List.cons_append, takeExponent, takeSign_append_newline,
        takeWhile_append_newline isDigit_newline]

/-- A reader of numbers: white space is skipped, and the line break ends the number. -/
structure StopsAtNewline {A : Type} (read : Bytes → A) : Prop where
  skip : ∀ c s, isSpace c = true → read (c :: s) = read s
  stop : ∀ c x v, isSpace c = false → read (c :: x ++ newline :: v) = read (c :: x)

theorem strtoull_stopsAtNewline : StopsAtNewline strtoull where
  skip c s hc := by simp only [strtoull, List.dropWhile_cons_of_pos hc]
  stop c x v hc := by
    have hskip : ∀ t : Bytes, (c :: t).dropWhile isSpace = c :: t := fun t => by simp [hc]
    simp only [strtoull, List.cons_append, hskip]
    rw [← List.cons_append, takeSign_append_newline]
    simp only [takeWhile_append_newline isDigit_newline]

theorem strtod_stopsAtNewline : StopsAtNewline strtod where
  skip c s hc := by simp only [strtod, List.dropWhile_cons_of_pos hc]
  stop c x v hc := by
    have hskip : ∀ t : Bytes, (c :: t).dropWhile isSpace = c :: t := fun t => by simp [hc]
    have hlower : toLower newline = newline := rfl
    simp only [strtod, List.cons_append, hskip]
    rw [← List.cons_append, takeSign_append_newline]
    generalize takeSign (c :: x) = signed
    obtain ⟨neg, rest⟩ := signed
    simp only [List.map_append, List.map_cons, hlower,
      isPrefixOf_append_newline (show newline ∉ bytes "inf" by decide),
      isPrefixOf_append_newline (show newline ∉ bytes "nan" by decide),
      isPrefixOf_append_newline (show newline ∉ bytes "0x" by decide),
      takeMantissa_append_newline isDigit_newline,
      takeExponent_append_newline (show toLower newline ≠ 101 by decide)]
    by_cases hhex : (bytes "0x").isPrefixOf (rest.map toLower) = true
    · -- behind the two bytes of the hexadecimal mark the rest ends with the line, too
      have hlength : 2 ≤ rest.length := by
        have hle := (List.isPrefixOf_iff_prefix.mp hhex).length_le
        rwa [List.length_map] at hle
      have hmantissa := @takeMantissa_append_newline (fun c => (hexValue c).isSome) rfl
      rw [List.drop_append_of_le_length hlength]
      simp only [hmantissa, takeExponent_append_newline (show toLower newline ≠ 112 by decide)]
    · simp only [hhex, Bool.false_and, Bool.false_eq_true, if_false]

variable {A : Type} {read : Bytes → A}

/-- White space in front of a number makes no difference. -/
theorem StopsAtNewline.skip_all (h : StopsAtNewline read) {u : Bytes}
    (hu : ∀ c ∈ u, isSpace c = true) (v : Bytes) : read (u ++ v) = read v := by
  induction u with
  | nil => rfl
  | cons c u ih =>
      obtain ⟨hc, hu⟩ := List.forall_mem_cons.mp hu
      exact (h.skip c (u ++ v) hc).trans (ih hu)

/-- A number that has begun in front of a line break does not depend on what follows. -/
theorem StopsAtNewline.read_append (h : StopsAtNewline read) {u : Bytes}
    (hu : ∃ c ∈ u, isSpace c = false) (v : Bytes) :
    read (u ++ newline :: v) = read u := by
  induction u with
  | nil => simp at hu
  | cons c u ih =>
      by_cases hc : isSpace c = true
      · rw [List.cons_append, h.skip c _ hc, h.skip c _ hc]
        apply ih
        obtain ⟨b, hb, hspace⟩ := hu
        rcases List.mem_cons.mp hb with rfl | hb
        · rw [hc] at hspace
          cases hspace
        · exact ⟨b, hb, hspace⟩
      · exact h.stop c u v (by simpa using hc)

end Scan

end QueryPlayback
