import Mathlib.Data.List.Basic

/-!
# SQL text at token level

A statement is read byte by byte. Quoted literals are kept with all their bytes,
comments are dropped, and every other run of bytes between white space is a word.
A backslash escapes the next byte, except between backticks, and a doubled quote
stands for itself. The comment from a double dash needs a space, a control character
or the end of the text behind it. The text behind `/*!` is read as statement text.

## Implementation notes

Words are not cut into identifiers and operators: where two texts have the same words
and literals, every finer cut agrees too.
-/

namespace QueryPlayback.SqlText

/-- The byte that ends a line. -/
def lineEnd : UInt8 := 10

/-- White space between words. -/
def isSpace (c : UInt8) : Bool := c == 32 || (9 ≤ c && c ≤ 13)

/-- What may stand behind a double dash to make it a comment. -/
def isSpaceOrControl (c : UInt8) : Bool := c ≤ 32 || c == 127

/-- The quotes that open a literal. -/
inductive Quote where
  | single
  | double
  | backtick
  deriving DecidableEq, Repr

namespace Quote

def byte : Quote → UInt8
  | single => 39
  | double => 34
  | backtick => 96

/-- The quote a byte is. -/
def ofByte (c : UInt8) : Option Quote :=
  if c = 39 then some single else if c = 34 then some double
  else if c = 96 then some backtick else none

/-- Whether a backslash escapes the next byte. -/
def escapes : Quote → Bool
  | backtick => false
  | _ => true

theorem isSpace_byte (q : Quote) : isSpace q.byte = false := by
  cases q <;> decide

end Quote

/-- What stands outside of comments. -/
inductive Token where
  | word (bytes : List UInt8)
  | literal (bytes : List UInt8)
  deriving DecidableEq, Repr

def Token.bytes : Token → List UInt8
  | word bs => bs
  | literal bs => bs

/-- Where the reader is. `closing` has read a quote that ends the literal unless it is doubled,
and `opening` has read the two bytes that open a comment unless an exclamation mark follows. -/
inductive Mode where
  | plain (word : List UInt8)
  | quoted (quote : Quote) (literal : List UInt8) (escaped : Bool)
  | closing (quote : Quote) (literal : List UInt8)
  | opening (word : List UInt8)
  | blockComment (star : Bool)
  | lineComment
  deriving DecidableEq, Repr

/-- A word is a token unless it is empty. -/
def emit (word : List UInt8) : List Token := if word = [] then [] else [.word word]

/-- The word ends in a double dash. -/
def dashes (word : List UInt8) : Bool := [45, 45].isSuffixOf word

/-- The word in front of a double dash. -/
def beforeDashes (word : List UInt8) : List UInt8 := word.dropLast.dropLast

/-- A byte outside of literals and comments, behind a part of a word. -/
def stepPlain (word : List UInt8) (c : UInt8) : List Token × Mode :=
  if dashes word && isSpaceOrControl c then
    (emit (beforeDashes word), if c = lineEnd then .plain [] else .lineComment)
  else if isSpace c then (emit word, .plain [])
  else
    match Quote.ofByte c with
    | some q => (emit word, .quoted q [c] false)
    | none =>
        if c = 35 then (emit word, .lineComment)
        else if c = 42 && word.getLast? == some 47 then ([], .opening word.dropLast)
        else ([], .plain (word ++ [c]))

namespace Mode

/-- One byte: the tokens it completes and the next mode. -/
def step (c : UInt8) : Mode → List Token × Mode
  | plain word => stepPlain word c
  | quoted q literal escaped =>
      if escaped then ([], .quoted q (literal ++ [c]) false)
      else if c = 92 && q.escapes then ([], .quoted q (literal ++ [c]) true)
      else if c = q.byte then ([], .closing q (literal ++ [c]))
      else ([], .quoted q (literal ++ [c]) false)
  | closing q literal =>
      if c = q.byte then ([], .quoted q (literal ++ [c]) false)
      else (.literal literal :: (stepPlain [] c).1, (stepPlain [] c).2)
  | opening word =>
      if c = 33 then ([], .plain (word ++ [47, 42, c]))
      else (emit word, .blockComment (c == 42))
  | blockComment star =>
      if star && c == 47 then ([], .plain []) else ([], .blockComment (c == 42))
  | lineComment => ([], if c = lineEnd then .plain [] else .lineComment)

/-- The tokens the end of the text completes. -/
def finish : Mode → List Token
  | plain word => emit (if dashes word then beforeDashes word else word)
  | quoted _ literal _ => [.literal literal]
  | closing _ literal => [.literal literal]
  | opening word => emit word
  | blockComment _ => []
  | lineComment => []

/-- The bytes read that no token has been made of yet. -/
def pending : Mode → List UInt8
  | plain word => word
  | quoted _ literal _ => literal
  | closing _ literal => literal
  | opening word => word ++ [47, 42]
  | blockComment _ => []
  | lineComment => []

/-- White space here belongs to a literal. -/
def inLiteral : Mode → Bool
  | quoted .. => true
  | _ => false

/-- White space here belongs to a comment that the end of the line ends. -/
def inLineComment : Mode → Bool
  | plain word => dashes word
  | lineComment => true
  | _ => false

/-- White space here does nothing but complete a token. -/
def Open (m : Mode) : Prop := m.inLiteral = false ∧ m.inLineComment = false

/-- The mode behind white space. -/
def rest : Mode → Mode
  | opening _ => blockComment false
  | blockComment _ => blockComment false
  | _ => plain []

end Mode

/-- The tokens of a text read from a mode on. -/
def tokensFrom : Mode → List UInt8 → List Token
  | m, [] => m.finish
  | m, c :: cs => (m.step c).1 ++ tokensFrom (m.step c).2 cs

/-- The tokens of a text. -/
def tokens (text : List UInt8) : List Token := tokensFrom (.plain []) text

/-- The mode behind a text. -/
def after (m : Mode) (text : List UInt8) : Mode := text.foldl (fun m c => (m.step c).2) m

/-- The tokens that a text completes. -/
def completed : Mode → List UInt8 → List Token
  | _, [] => []
  | m, c :: cs => (m.step c).1 ++ completed (m.step c).2 cs

@[simp] theorem tokensFrom_nil (m : Mode) : tokensFrom m [] = m.finish := rfl

@[simp] theorem after_nil (m : Mode) : after m [] = m := rfl

theorem tokensFrom_cons (m : Mode) (c : UInt8) (cs : List UInt8) :
    tokensFrom m (c :: cs) = (m.step c).1 ++ tokensFrom (m.step c).2 cs := rfl

theorem after_append (m : Mode) (xs ys : List UInt8) :
    after m (xs ++ ys) = after (after m xs) ys := List.foldl_append ..

theorem tokensFrom_append (m : Mode) (xs ys : List UInt8) :
    tokensFrom m (xs ++ ys) = completed m xs ++ tokensFrom (after m xs) ys := by
  induction xs generalizing m with
  | nil => rfl
  | cons c cs ih =>
      rw [List.cons_append, tokensFrom_cons, ih, ← List.append_assoc]
      rfl

/-! ### White space outside of literals -/

theorem isSpaceOrControl_of_isSpace {c : UInt8} (h : isSpace c = true) :
    isSpaceOrControl c = true := by
  simp only [isSpace, isSpaceOrControl, Bool.or_eq_true, beq_iff_eq, Bool.and_eq_true,
    decide_eq_true_eq, UInt8.le_iff_toNat_le] at h ⊢
  rcases h with rfl | ⟨-, h⟩
  · exact Or.inl (by decide)
  · exact Or.inl (Nat.le_trans h (by decide))

/-- White space completes the pending token and nothing else. -/
theorem step_space {m : Mode} (hopen : m.Open) {c : UInt8} (hc : isSpace c = true) :
    m.step c = (m.finish, m.rest) := by
  have hbang : c ≠ 33 := by
    rintro rfl
    exact absurd hc (by decide)
  have hstar : (c == 42) = false := by
    rw [beq_eq_false_iff_ne]
    rintro rfl
    exact absurd hc (by decide)
  have hslash : (c == 47) = false := by
    rw [beq_eq_false_iff_ne]
    rintro rfl
    exact absurd hc (by decide)
  cases m with
  | plain word =>
      have hdashes : dashes word = false := hopen.2
      simp [Mode.step, stepPlain, Mode.finish, Mode.rest, hdashes, hc]
  | quoted q literal escaped => exact absurd hopen.1 (by simp [Mode.inLiteral])
  | closing q literal =>
      have hquote : c ≠ q.byte := by
        rintro rfl
        rw [q.isSpace_byte] at hc
        cases hc
      have hempty : dashes [] = false := by decide
      simp [Mode.step, stepPlain, Mode.finish, Mode.rest, emit, hempty, hc, hquote]
  | «opening» word => simp [Mode.step, Mode.finish, Mode.rest, hbang, hstar]
  | blockComment star => simp [Mode.step, Mode.finish, Mode.rest, hstar, hslash]
  | lineComment => exact absurd hopen.2 (by simp [Mode.inLineComment])

@[simp] theorem finish_rest (m : Mode) : m.rest.finish = [] := by
  cases m <;> rfl

@[simp] theorem rest_rest (m : Mode) : m.rest.rest = m.rest := by
  cases m <;> rfl

theorem open_rest (m : Mode) : m.rest.Open := by
  cases m <;> exact ⟨rfl, rfl⟩

@[simp] theorem pending_rest (m : Mode) : m.rest.pending = [] := by
  cases m <;> rfl

/-- Behind white space, white space does nothing. -/
theorem tokensFrom_rest_spaces (m : Mode) {spaces : List UInt8}
    (h : ∀ c ∈ spaces, isSpace c = true) (text : List UInt8) :
    tokensFrom m.rest (spaces ++ text) = tokensFrom m.rest text := by
  induction spaces with
  | nil => rfl
  | cons c spaces ih =>
      obtain ⟨hc, hspaces⟩ := List.forall_mem_cons.mp h
      rw [List.cons_append, tokensFrom_cons, step_space (open_rest m) hc, finish_rest, rest_rest,
        List.nil_append, ih hspaces]

theorem after_rest_spaces (m : Mode) {spaces : List UInt8} (h : ∀ c ∈ spaces, isSpace c = true) :
    after m.rest spaces = m.rest := by
  induction spaces with
  | nil => rfl
  | cons c spaces ih =>
      obtain ⟨hc, hspaces⟩ := List.forall_mem_cons.mp h
      change after (m.rest.step c).2 spaces = _
      rw [step_space (open_rest m) hc, rest_rest, ih hspaces]

/-- White space between two texts completes the pending token, however much of it there is. -/
theorem tokensFrom_spaces {m : Mode} (hopen : m.Open) {spaces : List UInt8} (hne : spaces ≠ [])
    (h : ∀ c ∈ spaces, isSpace c = true) (text : List UInt8) :
    tokensFrom m (spaces ++ text) = m.finish ++ tokensFrom m.rest text := by
  obtain ⟨c, spaces, rfl⟩ := List.exists_cons_of_ne_nil hne
  obtain ⟨hc, hspaces⟩ := List.forall_mem_cons.mp h
  rw [List.cons_append, tokensFrom_cons, step_space hopen hc, tokensFrom_rest_spaces m hspaces]

theorem after_spaces {m : Mode} (hopen : m.Open) {spaces : List UInt8} (hne : spaces ≠ [])
    (h : ∀ c ∈ spaces, isSpace c = true) : after m spaces = m.rest := by
  obtain ⟨c, spaces, rfl⟩ := List.exists_cons_of_ne_nil hne
  obtain ⟨hc, hspaces⟩ := List.forall_mem_cons.mp h
  change after (m.step c).2 spaces = _
  rw [step_space hopen hc, after_rest_spaces m hspaces]

/-! ### Comments that the end of the line ends -/

theorem tokensFrom_lineComment {text : List UInt8} (h : lineEnd ∉ text) :
    tokensFrom .lineComment text = [] := by
  induction text with
  | nil => rfl
  | cons c text ih =>
      obtain ⟨hc, htext⟩ : lineEnd ≠ c ∧ lineEnd ∉ text := by simpa using h
      rw [tokensFrom_cons]
      simp only [Mode.step, if_neg (Ne.symm hc), List.nil_append, ih htext]

theorem tokensFrom_lineComment_lineEnd {text : List UInt8} (h : lineEnd ∉ text)
    (below : List UInt8) :
    tokensFrom .lineComment (text ++ lineEnd :: below) = tokens below := by
  induction text with
  | nil => rfl
  | cons c text ih =>
      obtain ⟨hc, htext⟩ : lineEnd ≠ c ∧ lineEnd ∉ text := by simpa using h
      rw [List.cons_append, tokensFrom_cons]
      simp only [Mode.step, if_neg (Ne.symm hc), List.nil_append, ih htext]

/-- White space behind a double dash makes it a comment. -/
theorem step_inLineComment {m : Mode} (h : m.inLineComment = true) {c : UInt8}
    (hc : isSpace c = true) :
    m.step c = (m.finish, if c = lineEnd then .plain [] else .lineComment) := by
  cases m with
  | plain word =>
      have hdashes : dashes word = true := h
      have hcontrol := isSpaceOrControl_of_isSpace hc
      simp [Mode.step, stepPlain, Mode.finish, hdashes, hcontrol]
  | quoted q literal escaped => cases h
  | closing q literal => cases h
  | «opening» word => cases h
  | blockComment star => cases h
  | lineComment => rfl

/-- On the same line everything behind white space is lost. -/
theorem tokensFrom_inLineComment {m : Mode} (h : m.inLineComment = true) {c : UInt8}
    (hc : isSpace c = true) {text : List UInt8} (hline : lineEnd ∉ c :: text) :
    tokensFrom m (c :: text) = m.finish := by
  obtain ⟨hne, htext⟩ : lineEnd ≠ c ∧ lineEnd ∉ text := by simpa using hline
  rw [tokensFrom_cons, step_inLineComment h hc, if_neg (Ne.symm hne), tokensFrom_lineComment htext,
    List.append_nil]

/-- Below the line of the comment the text is read from its beginning. -/
theorem tokensFrom_inLineComment_lineEnd {m : Mode} (h : m.inLineComment = true)
    {spaces : List UInt8} (hspaces : ∀ c ∈ spaces, isSpace c = true) (hline : lineEnd ∉ spaces)
    (below : List UInt8) :
    tokensFrom m (spaces ++ lineEnd :: below) = m.finish ++ tokens below := by
  cases spaces with
  | nil =>
      rw [List.nil_append, tokensFrom_cons, step_inLineComment h (by decide), if_pos rfl]
      rfl
  | cons c spaces =>
      obtain ⟨hc, hrest⟩ : lineEnd ≠ c ∧ lineEnd ∉ spaces := by simpa using hline
      rw [List.cons_append, tokensFrom_cons, step_inLineComment h (hspaces c (by simp)),
        if_neg (Ne.symm hc), tokensFrom_lineComment_lineEnd hrest]

/-! ### Literals and the bytes of tokens -/

/-- White space in a literal becomes a part of it. -/
theorem tokensFrom_quoted_spaces (q : Quote) (literal : List UInt8) (escaped : Bool)
    {spaces : List UInt8} (h : ∀ c ∈ spaces, isSpace c = true) (text : List UInt8) :
    ∃ e, tokensFrom (.quoted q literal escaped) (spaces ++ text) =
      tokensFrom (.quoted q (literal ++ spaces) e) text := by
  induction spaces generalizing literal escaped with
  | nil => exact ⟨escaped, by rw [List.append_nil, List.nil_append]⟩
  | cons c spaces ih =>
      obtain ⟨hc, hspaces⟩ := List.forall_mem_cons.mp h
      have hescape : c ≠ 92 := by
        rintro rfl
        exact absurd hc (by decide)
      have hquote : c ≠ q.byte := by
        rintro rfl
        rw [q.isSpace_byte] at hc
        cases hc
      have hstep : (Mode.quoted q literal escaped).step c =
          ([], .quoted q (literal ++ [c]) false) := by
        simp [Mode.step, hescape, hquote]
      obtain ⟨e, he⟩ := ih (literal ++ [c]) false hspaces
      refine ⟨e, ?_⟩
      rw [List.cons_append, tokensFrom_cons, hstep, List.nil_append, he, List.append_assoc,
        List.singleton_append]

/-- The first token from inside a literal on begins with what has been read of the literal. -/
theorem tokensFrom_literal (text : List UInt8) :
    (∀ q literal escaped, ∃ more ts,
        tokensFrom (.quoted q literal escaped) text = .literal (literal ++ more) :: ts) ∧
      ∀ q literal, ∃ more ts,
        tokensFrom (.closing q literal) text = .literal (literal ++ more) :: ts := by
  induction text with
  | nil =>
      constructor
      · intro q literal escaped
        exact ⟨[], [], by simp [Mode.finish]⟩
      · intro q literal
        exact ⟨[], [], by simp [Mode.finish]⟩
  | cons c text ih =>
      obtain ⟨hquoted, hclosing⟩ := ih
      constructor
      · intro q literal escaped
        have hnext : ∃ next : Mode, (Mode.quoted q literal escaped).step c = ([], next) ∧
            ((∃ e, next = .quoted q (literal ++ [c]) e) ∨ next = .closing q (literal ++ [c])) := by
          simp only [Mode.step]
          split
          · exact ⟨_, rfl, Or.inl ⟨false, rfl⟩⟩
          · split
            · exact ⟨_, rfl, Or.inl ⟨true, rfl⟩⟩
            · split
              · exact ⟨_, rfl, Or.inr rfl⟩
              · exact ⟨_, rfl, Or.inl ⟨false, rfl⟩⟩
        obtain ⟨next, hstep, ⟨e, rfl⟩ | rfl⟩ := hnext
        · obtain ⟨more, ts, h⟩ := hquoted q (literal ++ [c]) e
          exact ⟨c :: more, ts, by simp [tokensFrom_cons, hstep, h]⟩
        · obtain ⟨more, ts, h⟩ := hclosing q (literal ++ [c])
          exact ⟨c :: more, ts, by simp [tokensFrom_cons, hstep, h]⟩
      · intro q literal
        by_cases hc : c = q.byte
        · obtain ⟨more, ts, h⟩ := hquoted q (literal ++ [c]) false
          exact ⟨c :: more, ts, by simp [tokensFrom_cons, Mode.step, if_pos hc, h]⟩
        · refine ⟨[], (stepPlain [] c).1 ++ tokensFrom (stepPlain [] c).2 text, ?_⟩
          simp [tokensFrom_cons, Mode.step, if_neg hc]

theorem mem_emit {word : List UInt8} {t : Token} (h : t ∈ emit word) : t.bytes = word := by
  unfold emit at h
  split at h
  · cases h
  · rw [List.mem_singleton] at h
    rw [h]
    rfl

theorem beforeDashes_subset (word : List UInt8) : beforeDashes word ⊆ word :=
  List.Subset.trans (List.dropLast_subset _) (List.dropLast_subset _)

/-- The bytes of a step's tokens and of what is pending behind it have been read. -/
theorem stepPlain_bytes (word : List UInt8) (c : UInt8) :
    (∀ t ∈ (stepPlain word c).1, t.bytes ⊆ word) ∧
      (stepPlain word c).2.pending ⊆ word ++ [c] := by
  have hemit : ∀ t ∈ emit word, t.bytes ⊆ word := fun t ht => by rw [mem_emit ht]; simp
  unfold stepPlain
  split
  · refine ⟨fun t ht => by rw [mem_emit ht]; exact beforeDashes_subset word, ?_⟩
    split <;> simp [Mode.pending]
  · split
    · exact ⟨hemit, by simp [Mode.pending]⟩
    · split
      · exact ⟨hemit, by simp [Mode.pending]⟩
      · split
        · exact ⟨hemit, by simp [Mode.pending]⟩
        · split
          · next hslash =>
              simp only [Bool.and_eq_true, decide_eq_true_eq, beq_iff_eq] at hslash
              obtain ⟨hc, hlast⟩ := hslash
              have hword : word.dropLast ++ [47] = word := List.dropLast_append_getLast? 47 hlast
              refine ⟨by simp, ?_⟩
              have hpending : word.dropLast ++ [47, 42] = word ++ [c] := by
                rw [hc, ← List.singleton_append, ← List.append_assoc, hword]
              rw [Mode.pending, hpending]
              exact List.Subset.refl _
          · exact ⟨by simp, by simp [Mode.pending]⟩

theorem step_bytes (m : Mode) (c : UInt8) :
    (∀ t ∈ (m.step c).1, t.bytes ⊆ m.pending ++ [c]) ∧
      (m.step c).2.pending ⊆ m.pending ++ [c] := by
  cases m with
  | plain word =>
      obtain ⟨hts, hpending⟩ := stepPlain_bytes word c
      exact ⟨fun t ht => List.Subset.trans (hts t ht) (List.subset_append_left _ _), hpending⟩
  | quoted q literal escaped =>
      simp only [Mode.step]
      split
      · simp [Mode.pending]
      · split
        · simp [Mode.pending]
        · split <;> simp [Mode.pending]
  | closing q literal =>
      simp only [Mode.step]
      split
      · simp [Mode.pending]
      · obtain ⟨hts, hpending⟩ := stepPlain_bytes [] c
        constructor
        · intro t ht
          rcases List.mem_cons.mp ht with rfl | ht
          · exact List.subset_append_left _ _
          · exact List.Subset.trans (hts t ht) (List.nil_subset _)
        · exact List.Subset.trans hpending (List.subset_append_right _ _)
  | «opening» word =>
      simp only [Mode.step]
      split
      · simp [Mode.pending]
      · refine ⟨fun t ht => ?_, by simp [Mode.pending]⟩
        rw [mem_emit ht, Mode.pending, List.append_assoc]
        exact List.subset_append_left _ _
  | blockComment star =>
      simp only [Mode.step]
      split <;> simp [Mode.pending]
  | lineComment =>
      simp only [Mode.step]
      split <;> simp [Mode.pending]

theorem pending_after_subset (m : Mode) (text : List UInt8) :
    (after m text).pending ⊆ m.pending ++ text := by
  induction text generalizing m with
  | nil => simp
  | cons c text ih =>
      intro x hx
      have hnext := ih (m.step c).2 hx
      have hstep := (step_bytes m c).2
      rw [List.mem_append] at hnext
      rcases hnext with h | h
      · have hread := hstep h
        simp only [List.mem_append, List.mem_singleton] at hread
        rcases hread with h | rfl
        · simp [h]
        · simp
      · simp [h]

theorem finish_bytes (m : Mode) : ∀ t ∈ m.finish, t.bytes ⊆ m.pending := by
  intro t ht
  cases m with
  | plain word =>
      simp only [Mode.finish] at ht
      rw [mem_emit ht]
      split
      · exact beforeDashes_subset word
      · exact List.Subset.refl _
  | quoted q literal escaped =>
      rw [List.mem_singleton.mp ht]
      exact List.Subset.refl _
  | closing q literal =>
      rw [List.mem_singleton.mp ht]
      exact List.Subset.refl _
  | «opening» word =>
      rw [mem_emit ht]
      exact List.subset_append_left _ _
  | blockComment star => cases ht
  | lineComment => cases ht

/-- A token has no bytes but those of the text. -/
theorem tokensFrom_bytes (m : Mode) (text : List UInt8) :
    ∀ t ∈ tokensFrom m text, t.bytes ⊆ m.pending ++ text := by
  induction text generalizing m with
  | nil =>
      intro t ht
      rw [List.append_nil]
      exact finish_bytes m t ht
  | cons c text ih =>
      intro t ht
      obtain ⟨hts, hpending⟩ := step_bytes m c
      rw [tokensFrom_cons, List.mem_append] at ht
      have hsplit : m.pending ++ c :: text = (m.pending ++ [c]) ++ text := by simp
      rw [hsplit]
      rcases ht with ht | ht
      · exact List.Subset.trans (hts t ht) (List.subset_append_left _ _)
      · intro x hx
        rcases List.mem_append.mp (ih (m.step c).2 t ht hx) with h | h
        · exact List.mem_append_left _ (hpending h)
        · exact List.mem_append_right _ h

/-- A line end in a literal is a byte of a token. -/
theorem tokensFrom_inLiteral_lineEnd {m : Mode} (h : m.inLiteral = true) {spaces : List UInt8}
    (hspaces : ∀ c ∈ spaces, isSpace c = true) (hline : lineEnd ∈ spaces) (text : List UInt8) :
    ∃ t ∈ tokensFrom m (spaces ++ text), lineEnd ∈ t.bytes := by
  cases m with
  | quoted q literal escaped =>
      obtain ⟨e, he⟩ := tokensFrom_quoted_spaces q literal escaped hspaces text
      obtain ⟨more, ts, hfirst⟩ := (tokensFrom_literal text).1 q (literal ++ spaces) e
      rw [he, hfirst]
      refine ⟨_, List.mem_cons_self, ?_⟩
      simp [Token.bytes, hline]
  | plain word => cases h
  | closing q literal => cases h
  | «opening» word => cases h
  | blockComment star => cases h
  | lineComment => cases h

/-- White space at the end of the text is a part of the literal that is left open. -/
theorem tokensFrom_inLiteral_ne {m : Mode} (h : m.inLiteral = true) {spaces : List UInt8}
    (hspaces : ∀ c ∈ spaces, isSpace c = true) (hne : spaces ≠ []) :
    tokensFrom m spaces ≠ m.finish := by
  cases m with
  | quoted q literal escaped =>
      obtain ⟨e, he⟩ := tokensFrom_quoted_spaces q literal escaped hspaces []
      rw [List.append_nil] at he
      rw [he]
      simpa [Mode.finish] using hne
  | plain word => cases h
  | closing q literal => cases h
  | «opening» word => cases h
  | blockComment star => cases h
  | lineComment => cases h

end QueryPlayback.SqlText
