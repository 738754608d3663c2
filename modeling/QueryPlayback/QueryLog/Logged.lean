import Mathlib.Algebra.GroupWithZero.Nat
import QueryPlayback.QueryLog.Joining
import QueryPlayback.QueryLog.Writing
import QueryPlayback.Text.Fields

/-!
# What a server logs and what is read of it

An entry has its metadata lines, then perhaps a `use` and the timestamp of the
server, then what was logged. `getQuery` finds the timestamp by how its line
begins, and the metadata by what stands in front of the first other line, so
lines of a client can be taken for either.

## Implementation notes

An entry here is one that `getEntries` has stored. It does not store the record
of a `Quit` without a `use` or timestamp line, which has comment lines only, and
a line that begins with `# Time` or `# User@Host` ends a record.
-/

namespace QueryPlayback

open Lines

/-- The line that selects a database. -/
def useLine (db : Bytes) : Bytes := bytes "use " ++ (db ++ bytes ";")

/-- The line with the timestamp of the server. -/
def timestampLine (n : ℕ) : Bytes := bytes "SET timestamp=" ++ (decimal n ++ bytes ";")

/-- The line of an administrator command. -/
def commandLine (command : Bytes) : Bytes :=
  bytes "# administrator command: " ++ (command ++ bytes ";")

/-- A stored entry by the texts of its lines. The line break of the last one may be missing. -/
structure LoggedEntry where
  metadata : List Bytes
  use : Option Bytes
  timestamp : Option ℕ
  body : List Bytes
  missing : Bool
  metadata_ne : metadata ≠ []
  metadata_comment : ∀ m ∈ metadata, isComment m = true ∧
    (bytes "# administrator command: ").isPrefixOf m = false
  metadata_line : ∀ m ∈ metadata, newline ∉ m
  use_line : ∀ db ∈ use, newline ∉ db
  body_line : ∀ t ∈ body, newline ∉ t
  missing_body : missing = true → body.getLast? ≠ some []

namespace LoggedEntry

/-- The lines between the metadata and what was logged. -/
def front (e : LoggedEntry) : List Bytes :=
  (e.use.map useLine).toList ++ (e.timestamp.map timestampLine).toList

/-- All lines. -/
def texts (e : LoggedEntry) : List Bytes := e.metadata ++ (e.front ++ e.body)

/-- The entry where it stands in a log. -/
def entry (e : LoggedEntry) (offset : ℕ) (after : Bytes) (endTime : TimePoint) : QueryLogData :=
  .new ⟨offset, cutEnd e.missing (writeLines e.texts), after⟩ endTime

/-- The entry as if the server had written no timestamp. -/
def withoutTimestamp (e : LoggedEntry) : LoggedEntry := { e with timestamp := none }

end LoggedEntry

section Widths

/-- What a line adds to the joined text, its space included. -/
def lineWidth (l : Bytes) : ℕ := if trim l = [] then 0 else (trim l).length + 1

/-- What lines add to the joined text. -/
def width (ls : List Bytes) : ℕ := (ls.map lineWidth).sum

theorem length_spaced_joinLines (ls : List Bytes) : (spaced (joinLines ls)).length = width ls := by
  induction ls with
  | nil => rfl
  | cons l ls ih =>
      rw [width, List.map_cons, List.sum_cons, ← width, ← ih, joinLines, lineWidth]
      split
      · rw [Nat.zero_add]
      · rename_i hblank
        have hne : trim l ++ spaced (joinLines ls) ≠ [] := by simp [hblank]
        rw [spaced, if_neg hne, List.length_cons, List.length_append]
        omega

theorem width_eq_of_joinLines_eq {ls ls' : List Bytes} (h : joinLines ls = joinLines ls') :
    width ls = width ls' := by
  rw [← length_spaced_joinLines, ← length_spaced_joinLines, h]

theorem width_cons (l : Bytes) (ls : List Bytes) : width (l :: ls) = lineWidth l + width ls := by
  rw [width, List.map_cons, List.sum_cons]
  rfl

theorem lineWidth_pos {l : Bytes} (h : trim l ≠ []) : 0 < lineWidth l := by
  rw [lineWidth, if_neg h]
  exact Nat.succ_pos _

/-- Leaving out lines that are not blank shows in the width. -/
theorem width_filter_eq_iff {p : Bytes → Bool} {ls : List Bytes}
    (hout : ∀ l ∈ ls, p l = false → trim l ≠ []) :
    width (ls.filter p) ≤ width ls ∧ (width (ls.filter p) = width ls ↔ ls.filter p = ls) := by
  induction ls with
  | nil => exact ⟨le_rfl, iff_of_true rfl rfl⟩
  | cons l ls ih =>
      obtain ⟨hl, hls⟩ := List.forall_mem_cons.mp hout
      obtain ⟨hle, hiff⟩ := ih hls
      cases hp : p l with
      | true =>
          rw [List.filter_cons_of_pos hp, width_cons, width_cons, List.cons_inj_right, ← hiff]
          omega
      | false =>
          have hpos := lineWidth_pos (hl hp)
          rw [List.filter_cons_of_neg (by simp [hp]), width_cons]
          have hne : ls.filter p ≠ l :: ls := by
            intro heq
            have hlength := List.length_filter_le p ls
            rw [heq, List.length_cons] at hlength
            omega
          refine ⟨by omega, iff_of_false (by omega) hne⟩

/-- So does leaving out a line at the front that is not blank. -/
theorem width_dropWhile_eq_iff {p : Bytes → Bool} {ls : List Bytes}
    (hout : ∀ l ∈ ls, p l = true → trim l ≠ []) :
    width (ls.dropWhile p) ≤ width ls ∧
      (width (ls.dropWhile p) = width ls ↔ ∀ l ∈ ls.head?, p l = false) := by
  induction ls with
  | nil => exact ⟨le_rfl, by simp⟩
  | cons l ls ih =>
      obtain ⟨hl, hls⟩ := List.forall_mem_cons.mp hout
      cases hp : p l with
      | true =>
          have hpos := lineWidth_pos (hl hp)
          have hle := (ih hls).1
          rw [List.dropWhile_cons_of_pos hp, width_cons]
          refine ⟨by omega, iff_of_false (by omega) ?_⟩
          intro h
          rw [h l rfl] at hp
          cases hp
      | false =>
          rw [List.dropWhile_cons_of_neg (by simp [hp])]
          exact ⟨le_rfl, by simp [hp]⟩

/-- A line that begins with something other than a blank is not blank. -/
theorem trim_ne_nil_of_isPrefixOf {c : Byte} {p l : Bytes} (hc : c ∉ blanks)
    (h : (c :: p).isPrefixOf l = true) : trim l ≠ [] := by
  obtain ⟨rest, rfl⟩ := List.isPrefixOf_iff_prefix.mp h
  exact trim_ne_nil ⟨c, by simp, hc⟩

theorem keptLines_eq_self_iff (removeTimestamp : Bool) (ls : List Bytes) :
    keptLines removeTimestamp ls = ls ↔
      (removeTimestamp = true → ∀ l ∈ ls, isTimestamp l = false) := by
  rw [keptLines, List.filter_eq_self]
  cases removeTimestamp <;> simp

theorem width_keptLines (removeTimestamp : Bool) (ls : List Bytes) :
    width (keptLines removeTimestamp ls) ≤ width ls ∧
      (width (keptLines removeTimestamp ls) = width ls ↔ keptLines removeTimestamp ls = ls) := by
  apply width_filter_eq_iff
  intro l _ hl
  rw [Bool.not_eq_false', Bool.and_eq_true] at hl
  exact trim_ne_nil_of_isPrefixOf (by decide) hl.2

/-- All lines are joined just when none is taken for a timestamp to be removed. -/
theorem joinLines_keptLines_iff (removeTimestamp : Bool) (ls : List Bytes) :
    joinLines (keptLines removeTimestamp ls) = joinLines ls ↔
      (removeTimestamp = true → ∀ l ∈ ls, isTimestamp l = false) := by
  rw [← keptLines_eq_self_iff]
  constructor
  · intro h
    exact (width_keptLines removeTimestamp ls).2.mp (width_eq_of_joinLines_eq h)
  · intro h
    rw [h]

theorem dropWhile_isComment_of_head {ls : List Bytes} (h : ∀ l ∈ ls.head?, isComment l = false) :
    ls.dropWhile isComment = ls := by
  cases ls with
  | nil => rfl
  | cons l ls => exact List.dropWhile_cons_of_neg (by simp [h l rfl])

/-- All lines behind metadata are joined just when none is taken for a timestamp to be removed
and the first one is not taken for metadata. -/
theorem joinLines_keptLines_dropWhile_iff (removeTimestamp : Bool) (ls : List Bytes) :
    joinLines (keptLines removeTimestamp (ls.dropWhile isComment)) = joinLines ls ↔
      (removeTimestamp = true → ∀ l ∈ ls, isTimestamp l = false) ∧
        ∀ l ∈ ls.head?, isComment l = false := by
  have hcomments := @width_dropWhile_eq_iff isComment ls
    fun l _ hl => trim_ne_nil_of_isPrefixOf (by decide) hl
  have hkept := width_keptLines removeTimestamp (ls.dropWhile isComment)
  constructor
  · intro h
    have hwidth := width_eq_of_joinLines_eq h
    have hhead := hcomments.2.mp (by omega)
    rw [dropWhile_isComment_of_head hhead] at h
    exact ⟨(joinLines_keptLines_iff removeTimestamp ls).mp h, hhead⟩
  · rintro ⟨hkeep, hhead⟩
    rw [dropWhile_isComment_of_head hhead]
    exact (joinLines_keptLines_iff removeTimestamp ls).mpr hkeep

end Widths

section Closing

theorem trim_terminated (t : Bytes) : trim (t ++ [newline]) = trim t := by
  have hblank : newline ∈ blanks := by decide
  have hnewline : [newline].dropWhile (· ∈ blanks) = [] := by decide
  rw [trim, trim, List.dropWhile_append]
  split
  · rename_i hempty
    rw [List.isEmpty_iff.mp hempty, hnewline]
  · rw [List.reverse_append, List.reverse_singleton, List.singleton_append,
      List.dropWhile_cons_of_pos (by simp [hblank])]

theorem getQueryStep_terminated (removeTimestamp : Bool) (st : Bytes × Bool) (t : Bytes) :
    QueryLogData.getQueryStep removeTimestamp st (t ++ [newline]) =
      QueryLogData.getQueryStep removeTimestamp st t := by
  simp only [QueryLogData.getQueryStep, isPrefixOf_terminated (show newline ∉ [hash] by decide),
    isPrefixOf_terminated (show newline ∉ bytes "SET timestamp=" by decide), trim_terminated]

theorem foldl_closeLines {S : Type} {f : S → Bytes → S}
    (hf : ∀ st t, f st (t ++ [newline]) = f st t) (missing : Bool) (texts : List Bytes) (st : S) :
    (closeLines missing texts).foldl f st = texts.foldl f st := by
  induction texts generalizing st with
  | nil => rfl
  | cons t rest ih =>
      cases rest with
      | nil =>
          cases missing with
          | true => rfl
          | false => exact hf st t
      | cons u rest => rw [closeLines, List.foldl_cons, List.foldl_cons, hf, ih]

end Closing

namespace LoggedEntry

variable (e : LoggedEntry)

/-- The lines of the statement that are to be executed, with or without the timestamp. -/
def whole (removeTimestamp : Bool) : List Bytes :=
  (e.use.map useLine).toList ++
    ((if removeTimestamp then none else e.timestamp.map timestampLine).toList ++ e.body)

theorem front_plain : ∀ t ∈ e.front, isComment t = false ∧ newline ∉ t := by
  intro t ht
  rcases List.mem_append.mp ht with ht | ht
  · obtain ⟨db, hdb, rfl⟩ := Option.map_eq_some_iff.mp (Option.mem_toList.mp ht)
    have hline := e.use_line db hdb
    refine ⟨rfl, ?_⟩
    have hopen : newline ∉ bytes "use " := by decide
    have hclose : newline ∉ bytes ";" := by decide
    simp only [useLine, List.mem_append, not_or]
    exact ⟨hopen, hline, hclose⟩
  · obtain ⟨n, -, rfl⟩ := Option.map_eq_some_iff.mp (Option.mem_toList.mp ht)
    refine ⟨rfl, ?_⟩
    have hopen : newline ∉ bytes "SET timestamp=" := by decide
    have hclose : newline ∉ bytes ";" := by decide
    have hdigits : newline ∉ decimal n := by
      intro hmem
      have hc := Scan.isDigit_decimal n newline hmem
      cases hc
    simp only [timestampLine, List.mem_append, not_or]
    exact ⟨hopen, hdigits, hclose⟩

theorem texts_line : ∀ t ∈ e.texts, newline ∉ t := by
  intro t ht
  rcases List.mem_append.mp ht with ht | ht
  · exact e.metadata_line t ht
  · rcases List.mem_append.mp ht with ht | ht
    · exact (e.front_plain t ht).2
    · exact e.body_line t ht

@[simp] theorem isTimestamp_useLine (db : Bytes) : isTimestamp (useLine db) = false := rfl

@[simp] theorem isTimestamp_timestampLine (n : ℕ) : isTimestamp (timestampLine n) = true :=
  List.isPrefixOf_iff_prefix.mpr (List.prefix_append _ _)

/-- The removal of the timestamps removes the line of the server, and of the lines that were
logged those that are taken for one. -/
theorem keptLines_front (removeTimestamp : Bool) :
    keptLines removeTimestamp (e.front ++ e.body) = keptLines removeTimestamp (e.whole
      removeTimestamp) := by
  rw [front, whole, List.append_assoc]
  cases removeTimestamp with
  | false => rfl
  | true => cases e.timestamp <;> simp [keptLines]

theorem texts_ne_nil {t : Bytes} (h : t ∈ e.metadata ++ e.front) : t ≠ [] := by
  rintro rfl
  rcases List.mem_append.mp h with h | h
  · have hcomment := (e.metadata_comment [] h).1
    cases hcomment
  · rcases List.mem_append.mp h with h | h
    · obtain ⟨db, -, heq⟩ := Option.map_eq_some_iff.mp (Option.mem_toList.mp h)
      simp [useLine, bytes] at heq
    · obtain ⟨n, -, heq⟩ := Option.map_eq_some_iff.mp (Option.mem_toList.mp h)
      simp [timestampLine, bytes] at heq

/-- The lines are those of the texts, whether the last one is closed or not. -/
theorem lines_entry :
    lines newline (cutEnd e.missing (writeLines e.texts)) = closeLines e.missing e.texts := by
  apply lines_cutEnd e.texts_line
  intro hmissing
  rcases List.eq_nil_or_concat' e.body with hbody | ⟨init, last, hbody⟩
  · have hne : e.metadata ++ e.front ≠ [] := by simp [e.metadata_ne]
    refine ⟨(e.metadata ++ e.front).getLast hne, ?_, e.texts_ne_nil (List.getLast_mem hne)⟩
    rw [texts, hbody, List.append_nil]
    exact List.getLast?_eq_some_getLast hne
  · refine ⟨last, by simp [texts, hbody], ?_⟩
    rintro rfl
    exact e.missing_body hmissing (by simp [hbody])

theorem getQuery_entry (offset : ℕ) (after : Bytes) (endTime : TimePoint) (removeTimestamp : Bool) :
    (e.entry offset after endTime).getQuery removeTimestamp =
      joinLines (keptLines removeTimestamp ((e.front ++ e.body).dropWhile isComment)) := by
  have hchars : (e.entry offset after endTime).data.chars =
      cutEnd e.missing (writeLines e.texts) := rfl
  have hmeta : ∀ m ∈ e.metadata, isComment m = true := fun m hm => (e.metadata_comment m hm).1
  rw [QueryLogData.getQuery_eq_foldl, hchars, e.lines_entry,
    foldl_closeLines (getQueryStep_terminated removeTimestamp), foldl_getQueryStep]
  change joinLines (keptLines removeTimestamp (e.texts.dropWhile isComment)) = _
  rw [texts, List.dropWhile_append_of_pos hmeta]

/-- The text of an entry is its whole statement just when no line of it is taken for a timestamp
to be removed, and its first line is not taken for metadata. -/
theorem getQuery_eq_whole_iff (offset : ℕ) (after : Bytes) (endTime : TimePoint)
    (removeTimestamp : Bool) :
    (e.entry offset after endTime).getQuery removeTimestamp =
        joinLines (e.whole removeTimestamp) ↔
      (removeTimestamp = true → ∀ l ∈ e.body, isTimestamp l = false) ∧
        (e.front = [] → ∀ l ∈ e.body.head?, isComment l = false) := by
  rw [e.getQuery_entry]
  by_cases hfront : e.front = []
  · obtain ⟨huse, htimestamp⟩ := List.append_eq_nil_iff.mp hfront
    have hwhole : e.whole removeTimestamp = e.body := by
      rw [whole, huse]
      cases removeTimestamp with
      | false => simp [htimestamp]
      | true => rfl
    rw [hfront, hwhole, List.nil_append, joinLines_keptLines_dropWhile_iff]
    simp only [forall_const]
  · have hhead : ∀ l ∈ (e.front ++ e.body).head?, isComment l = false := by
      obtain ⟨first, rest, hcons⟩ := List.exists_cons_of_ne_nil hfront
      intro l hl
      rw [hcons, List.cons_append, List.head?_cons, Option.mem_some_iff] at hl
      exact (e.front_plain l (by simp [hcons, hl])).1
    rw [dropWhile_isComment_of_head hhead, keptLines_front, joinLines_keptLines_iff]
    simp only [hfront, IsEmpty.forall_iff, and_true]
    constructor
    · intro h hremove l hl
      exact h hremove l (by simp [whole, hl])
    · intro h hremove l hl
      subst hremove
      simp only [whole, if_true, Option.toList_none, List.nil_append, List.mem_append] at hl
      rcases hl with hl | hl
      · obtain ⟨db, -, rfl⟩ := Option.map_eq_some_iff.mp (Option.mem_toList.mp hl)
        rfl
      · exact h rfl l hl

theorem front_withoutTimestamp_eq_nil_iff : e.withoutTimestamp.front = [] ↔ e.use = none := by
  cases huse : e.use <;> simp [front, withoutTimestamp, huse]

/-- Without the timestamp of the server the entry reads the same, and no other line is left out,
just when no line of the client begins as a timestamp does and, unless a database is selected
first, the first one does not begin as metadata do. -/
theorem getQuery_skips_timestamp_iff (offset offset' : ℕ) (after after' : Bytes)
    (endTime endTime' : TimePoint) :
    ((e.entry offset after endTime).getQuery true =
          (e.withoutTimestamp.entry offset' after' endTime').getQuery false ∧
        (e.entry offset after endTime).getQuery true =
          joinLines (e.withoutTimestamp.whole false)) ↔
      (∀ l ∈ e.body, isTimestamp l = false) ∧
        (e.use = none → ∀ l ∈ e.body.head?, isComment l = false) := by
  have hskipped := e.getQuery_eq_whole_iff offset after endTime true
  have hunskipped := e.withoutTimestamp.getQuery_eq_whole_iff offset' after' endTime' false
  have hwhole : e.withoutTimestamp.whole false = e.whole true := rfl
  rw [hwhole, front_withoutTimestamp_eq_nil_iff] at hunskipped
  rw [hwhole]
  constructor
  · rintro ⟨hsame, hall⟩
    obtain ⟨hbody, -⟩ := hskipped.mp hall
    obtain ⟨-, hhead⟩ := hunskipped.mp (hsame.symm.trans hall)
    exact ⟨hbody rfl, hhead⟩
  · rintro ⟨hbody, hhead⟩
    have hall := hskipped.mpr ⟨fun _ => hbody, fun hfront =>
      hhead (Option.map_eq_none_iff.mp (Option.toList_eq_nil_iff.mp
        (List.append_eq_nil_iff.mp hfront).1))⟩
    have hunskipped := hunskipped.mpr ⟨fun h => absurd h (by decide), hhead⟩
    exact ⟨hall.trans hunskipped.symm, hall⟩

/-- Metadata as a server without thread ids writes them. -/
def sampleMetadata : List Bytes :=
  [bytes "# User@Host: root[root] @ localhost []",
    bytes "# Query_time: 0.000204  Lock_time: 0.000000 Rows_sent: 0  Rows_examined: 0"]

theorem sampleMetadata_ne : sampleMetadata ≠ [] := List.cons_ne_nil _ _

theorem sampleMetadata_comment : ∀ m ∈ sampleMetadata, isComment m = true ∧
    (bytes "# administrator command: ").isPrefixOf m = false := by
  decide +kernel

theorem sampleMetadata_line : ∀ m ∈ sampleMetadata, newline ∉ m :=
  List.forall_mem_cons.mpr ⟨by decide, List.forall_mem_singleton.mpr (by decide)⟩

/-- A client sets the timestamp itself. -/
def clientTimestamp : LoggedEntry where
  metadata := sampleMetadata
  use := some (bytes "a")
  timestamp := some 1297024921
  body := [bytes "SET timestamp=1;"]
  missing := false
  metadata_ne := sampleMetadata_ne
  metadata_comment := sampleMetadata_comment
  metadata_line := sampleMetadata_line
  use_line db hdb := by
    obtain rfl := Option.some.inj hdb
    decide
  body_line := List.forall_mem_singleton.mpr (by decide)
  missing_body h := by cases h

/-- The statement of the client is dropped with the line of the server. -/
theorem clientTimestamp_dropped :
    (clientTimestamp.entry 0 [] epoch).getQuery true = bytes "use a;" ∧
      (clientTimestamp.withoutTimestamp.entry 0 [] epoch).getQuery false =
        bytes "use a; SET timestamp=1;" ∧
      (clientTimestamp.entry 0 [] epoch).getQuery true ≠
        (clientTimestamp.withoutTimestamp.entry 0 [] epoch).getQuery false := by
  decide +kernel

end LoggedEntry

end QueryPlayback
