import QueryPlayback.GeneralLog.Match
import QueryPlayback.QueryLog.Writing
import Mathlib.Data.List.Forall2
import Mathlib.Data.List.Induction

/-!
# Records of the general log

A record has a timestamp, which may be empty, the id of the connection, a
command and an argument, which may span several lines. The reader looks at
every line by itself, so of a statement of several lines it keeps the first one.

## Implementation notes

That a log is replayed whole is stated for the log and for all its beginnings that
end with a record. In one log alone an entry that some argument forges could stand
in for an entry that is missing. The line feed at the end of the log may be missing.
-/

namespace QueryPlayback

open Lines GeneralLogEntry

/-- A line of an argument: its text, and whether it ends with a carriage return and a line
feed or with a line feed alone. -/
structure ArgumentLine where
  text : Bytes
  crlf : Bool
  no_newline : newline ∉ text
  terminator_whole : crlf = false → text.getLast? ≠ some 13

namespace ArgumentLine

/-- The line as it stands in the log without the line feed. -/
def body (l : ArgumentLine) : Bytes := if l.crlf then l.text ++ [13] else l.text

end ArgumentLine

/-- The characters of timestamps such as `120810  2:52:44` and `2012-08-10T02:52:44.000000Z`. -/
def isTimestampByte (c : Byte) : Bool := Scan.isDigit c || c ∈ bytes " \t:-.+TZ"

/-- A record of a general log. -/
structure GeneralRecord where
  timestamp : Bytes
  gap : Bytes
  id : Bytes
  idGap : Bytes
  command : Bytes
  commandGap : Bytes
  first : ArgumentLine
  others : List ArgumentLine
  threadId : UInt64
  timestamp_bytes : ∀ c ∈ timestamp, isTimestampByte c = true
  gap_isGap : IsGap gap
  id_isDigits : IsDigits id
  id_value : Scan.number 10 id = threadId.toNat
  idGap_isGap : IsGap idGap
  commandGap_isGap : command = bytes "Query" → IsGap commandGap
  no_newline : newline ∉ gap ++ idGap ++ command ++ commandGap

namespace GeneralRecord

/-- The command is `Query`. -/
def isQuery (r : GeneralRecord) : Bool := r.command == bytes "Query"

/-- The lines of the argument. -/
def argument (r : GeneralRecord) : List ArgumentLine := r.first :: r.others

/-- The first line of the record without its line feed. -/
def firstBody (r : GeneralRecord) : Bytes :=
  r.timestamp ++ (r.gap ++ (r.id ++ (r.idGap ++ (r.command ++ (r.commandGap ++ r.first.body)))))

/-- The lines of the record without their line feeds. -/
def bodies (r : GeneralRecord) : List Bytes := r.firstBody :: r.others.map ArgumentLine.body

/-- The line feed that is missing behind the record is that of its first line. -/
def cutFirst (r : GeneralRecord) (missing : Bool) : Bool := missing && r.others.isEmpty

/-- The first line of the record. -/
def firstLine (r : GeneralRecord) (missing : Bool) : Bytes :=
  if r.cutFirst missing then r.firstBody else r.firstBody ++ [newline]

/-- The lines behind the first one. -/
def otherLines (r : GeneralRecord) (missing : Bool) : List Bytes :=
  closeLines missing (r.others.map ArgumentLine.body)

/-- All lines of the record. -/
def lines (r : GeneralRecord) (missing : Bool) : List Bytes :=
  r.firstLine missing :: r.otherLines missing

/-- The first line of the argument as the reader keeps it. Its last character is lost where the
line feed is missing. -/
def kept (r : GeneralRecord) (missing : Bool) : Bytes :=
  (if r.cutFirst missing then r.first.body.dropLast else r.first.text).dropWhile Scan.isSpace ++
    [32]

end GeneralRecord

/-- The log that consists of the records. Its last line feed may be missing. -/
def generalLog (records : List GeneralRecord) (missing : Bool) : Bytes :=
  cutEnd missing (writeLines (records.flatMap GeneralRecord.bodies))

/-- The records, each with whether a line feed is missing behind it. -/
def withEnds (missing : Bool) : List GeneralRecord → List (GeneralRecord × Bool)
  | [] => []
  | r :: rest => (r, missing && rest.isEmpty) :: withEnds missing rest

/-- The entry has the thread id of the record and the text of every line of the argument. -/
structure ReplaysRecord (r : GeneralRecord) (e : GeneralLogEntry) : Prop where
  threadId : e.threadId = r.threadId
  text : ∀ l ∈ r.argument, l.text <:+: e.query

/-- There is one entry for each `Query` record, in order. -/
def ReplayedWhole (records : List GeneralRecord) (missing : Bool) : Prop :=
  List.Forall₂ ReplaysRecord (records.filter (·.isQuery))
    (ParseGeneralLog.getEntries (generalLog records missing)).entries

/-- The reader takes the line for a query. -/
def readsAsQuery (line : Bytes) : Bool :=
  !ParseGeneralLog.ignoreLine line &&
    (Pattern.search regex (ParseGeneralLog.cString line)).isSome

/-- The condition on which the reader replays the record. -/
structure GeneralRecord.Readable (r : GeneralRecord) (missing : Bool) : Prop where
  first : r.isQuery = true → ParseGeneralLog.ignoreLine (r.firstLine missing) = false ∧
    0 ∉ r.first.text ∧ ∀ l ∈ r.argument, l.text <:+: r.kept missing
  /-- Where the line feed is missing, its place is taken by another character, which has no
  carriage return in front of it. -/
  cut : r.isQuery = true → r.cutFirst missing = true →
    2 ≤ (r.commandGap ++ r.first.body).length ∧ r.first.body.dropLast.getLast? ≠ some 13
  firstSilent : r.isQuery = false → readsAsQuery (r.firstLine missing) = false
  othersSilent : ∀ line ∈ r.otherLines missing, readsAsQuery line = false

section Lines

theorem newline_not_timestamp : isTimestampByte newline = false := by decide

namespace ArgumentLine

theorem newline_not_mem_body (l : ArgumentLine) : newline ∉ l.body := by
  unfold body
  split
  · simp only [List.mem_append, List.mem_singleton, not_or]
    exact ⟨l.no_newline, by decide⟩
  · exact l.no_newline

/-- What ends the line. -/
def terminator (l : ArgumentLine) : Bytes := if l.crlf then [13, newline] else [newline]

theorem body_append_newline (l : ArgumentLine) : l.body ++ [newline] = l.text ++ l.terminator := by
  unfold body terminator
  split <;> simp

theorem isSpace_terminator (l : ArgumentLine) : ∀ c ∈ l.terminator, Scan.isSpace c = true := by
  unfold terminator
  split
  · exact List.all_eq_true.mp (by decide)
  · exact List.all_eq_true.mp (by decide)

/-- The terminator and nothing else is taken from a text that is not blank. -/
theorem withoutTerminator_terminator (l : ArgumentLine) {t : Bytes} (ht : t ≠ [])
    (htext : t <:+ l.text) : withoutTerminator (t ++ l.terminator) = t := by
  unfold terminator withoutTerminator
  split
  · simp
  · rename_i hcrlf
    have hlast : t.getLast? ≠ some 13 := by
      obtain ⟨front, hfront⟩ := htext
      have hwhole := l.terminator_whole (by simpa using hcrlf)
      rwa [← hfront, List.getLast?_append_of_ne_nil front ht] at hwhole
    rw [List.dropLast_concat, if_neg (fun h => hlast h.2)]

end ArgumentLine

namespace GeneralRecord

variable (r : GeneralRecord)

theorem newline_not_mem_firstBody : newline ∉ r.firstBody := by
  have hgaps := r.no_newline
  simp only [List.mem_append, not_or] at hgaps
  obtain ⟨⟨⟨hgap, hidGap⟩, hcommand⟩, hcommandGap⟩ := hgaps
  have htimestamp : newline ∉ r.timestamp := by
    intro hmem
    have hbyte := r.timestamp_bytes newline hmem
    rw [newline_not_timestamp] at hbyte
    cases hbyte
  simp only [firstBody, List.mem_append, not_or]
  exact ⟨htimestamp, hgap, r.id_isDigits.not_mem rfl, hidGap, hcommand, hcommandGap,
    r.first.newline_not_mem_body⟩

theorem newline_not_mem_bodies : ∀ t ∈ r.bodies, newline ∉ t := by
  intro t ht
  rcases List.mem_cons.mp ht with rfl | ht
  · exact r.newline_not_mem_firstBody
  · obtain ⟨l, -, rfl⟩ := List.mem_map.mp ht
    exact l.newline_not_mem_body

/-- The lines of the record are its bodies with their line feeds. -/
theorem lines_eq (missing : Bool) : r.lines missing = closeLines missing r.bodies := by
  rw [lines, firstLine, otherLines, cutFirst, bodies]
  cases r.others with
  | nil => cases missing <;> rfl
  | cons l others => cases missing <;> rfl

end GeneralRecord

theorem withEnds_false (records : List GeneralRecord) :
    withEnds false records = records.map (·, false) := by
  induction records with
  | nil => rfl
  | cons r records ih => rw [withEnds, ih, List.map_cons, Bool.false_and]

theorem withEnds_concat (records : List GeneralRecord) (r : GeneralRecord) (missing : Bool) :
    withEnds missing (records ++ [r]) = records.map (·, false) ++ [(r, missing)] := by
  induction records with
  | nil => rw [List.nil_append, withEnds, List.isEmpty_nil, Bool.and_true]; rfl
  | cons k records ih =>
      rw [List.cons_append, withEnds, ih, List.isEmpty_eq_false_iff.mpr (by simp), Bool.and_false]
      rfl

/-- The lines of the log are the lines of the records. -/
theorem closeLines_bodies (records : List GeneralRecord) (missing : Bool) :
    closeLines missing (records.flatMap GeneralRecord.bodies) =
      (withEnds missing records).flatMap fun p => p.1.lines p.2 := by
  rcases List.eq_nil_or_concat' records with rfl | ⟨front, r, rfl⟩
  · rfl
  · have hne : r.bodies ≠ [] := List.cons_ne_nil _ _
    rw [withEnds_concat, List.flatMap_append, List.flatMap_singleton, List.flatMap_append,
      List.flatMap_singleton, closeLines_append _ hne, ← r.lines_eq, List.map_flatMap,
      List.flatMap_map]
    congr 1
    exact List.flatMap_congr fun k _ => ((k.lines_eq false).trans (closeLines_false _)).symm

/-- What is read of the lines of a log is what is read of the texts with their line feeds: an
empty text without its line feed is no line. -/
theorem filterMap_lines_cutEnd {α : Type} {f : Bytes → Option α} (hf : f [] = none)
    {missing : Bool} {texts : List Bytes} (h : ∀ t ∈ texts, newline ∉ t) :
    (Lines.lines newline (cutEnd missing (writeLines texts))).filterMap f =
      (closeLines missing texts).filterMap f := by
  by_cases hlast : missing = true → ∃ t ∈ texts.getLast?, t ≠ []
  · rw [lines_cutEnd h hlast]
  · obtain ⟨rfl, hempty⟩ := Classical.not_imp.mp hlast
    rcases List.eq_nil_or_concat' texts with rfl | ⟨front, last, rfl⟩
    · rfl
    · obtain rfl : last = [] := by
        by_contra hne
        exact hempty ⟨last, by simp, hne⟩
      have hfront := @lines_cutEnd false front (fun t ht => h t (List.mem_append_left _ ht)) nofun
      have hcut : cutEnd true (writeLines (front ++ [[]])) = cutEnd false (writeLines front) := by
        simp [cutEnd, writeLines]
      rw [hcut, hfront, closeLines_false, closeLines_append front (List.cons_ne_nil _ _),
        List.filterMap_append, closeLines, if_pos rfl, List.filterMap_cons_none hf,
        List.filterMap_nil, List.append_nil]

namespace GeneralRecord

/-- The entries the lines of the record give. -/
def entries (r : GeneralRecord) (missing : Bool) : List GeneralLogEntry :=
  (r.lines missing).filterMap ParseGeneralLog.lineEntry

theorem getEntries_generalLog (records : List GeneralRecord) (missing : Bool) :
    (ParseGeneralLog.getEntries (generalLog records missing)).entries =
      (withEnds missing records).flatMap fun p => p.1.entries p.2 := by
  have hbodies : ∀ t ∈ records.flatMap bodies, newline ∉ t := by
    intro t ht
    obtain ⟨r, -, ht⟩ := List.mem_flatMap.mp ht
    exact r.newline_not_mem_bodies t ht
  have hnone : ParseGeneralLog.lineEntry [] = none := by decide
  rw [ParseGeneralLog.getEntries_entries, generalLog, filterMap_lines_cutEnd hnone hbodies,
    closeLines_bodies, List.filterMap_flatMap]
  rfl

end GeneralRecord

end Lines

section LineEntries

open ParseGeneralLog

/-- A line gives an entry exactly if the reader takes it for a query. -/
theorem lineEntry_eq_none_iff {line : Bytes} :
    lineEntry line = none ↔ readsAsQuery line = false := by
  rw [lineEntry, readsAsQuery]
  split
  · rename_i hignored
    simp [hignored]
  · rename_i hnoticed
    cases hsearch : Pattern.search regex (cString line) with
    | none => simp
    | some g =>
        obtain ⟨-, -, id, -, -, ns, -, -, -, -, -, -, rfl⟩ := search_regex_spec hsearch
        simpa using hnoticed

/-- The text of an entry is much shorter than its line and has no zero byte. -/
theorem lineEntry_spec {line : Bytes} {e : GeneralLogEntry} (h : lineEntry line = some e) :
    0 ∉ e.query ∧ e.query.length + 9 ≤ line.length := by
  rw [lineEntry] at h
  split at h
  · cases h
  · split at h
    · rename_i id ns hsearch
      obtain rfl := Option.some.inj h
      obtain ⟨pre, gap, id, gap', gap'', ns, hline, hgap, hid, hgap', hgap'', hns, hg⟩ :=
        search_regex_spec hsearch
      cases hg
      have hlength : (cString line).length ≤ line.length :=
        (List.takeWhile_prefix _).length_le
      have hshort := (withoutTerminator_isPrefix ns).length_le
      have hquery : (bytes "Query").length = 5 := by decide
      have hgap := List.length_pos_iff.mpr hgap.1
      have hid := List.length_pos_iff.mpr hid.1
      have hgap' := List.length_pos_iff.mpr hgap'.1
      have hgap'' := List.length_pos_iff.mpr hgap''.1
      have hns := List.length_pos_iff.mpr hns
      constructor
      · simp only [List.mem_append, List.mem_singleton, not_or]
        constructor
        · intro hmem
          apply zero_not_mem_cString line
          rw [hline]
          have hin := List.dropLast_subset ns ((withoutTerminator_isPrefix ns).subset hmem)
          simp [hin]
        · decide
      · rw [hline] at hlength
        simp only [List.length_append, hquery] at hlength
        rw [List.length_dropLast] at hshort
        simp only [List.length_append, List.length_singleton]
        omega
    · cases h

end LineEntries

section Reading

open ParseGeneralLog Pattern

/-- The last but one character of a text is that of its ends of two characters and more. -/
theorem getLast?_dropLast_of_suffix {whole rest : Bytes} (hsuffix : rest <:+ whole)
    (hlong : rest.dropLast ≠ []) : whole.dropLast.getLast? = rest.dropLast.getLast? := by
  obtain ⟨front, rfl⟩ := hsuffix
  have hne : rest ≠ [] := by
    rintro rfl
    exact hlong rfl
  rw [List.dropLast_append_of_ne_nil hne, List.getLast?_append_of_ne_nil _ hlong]

/-- A character that is not a carriage return is dropped alone. -/
theorem withoutTerminator_dropWhile {b : Bytes} (h : b.dropLast.getLast? ≠ some 13) :
    withoutTerminator (b.dropWhile Scan.isSpace) = b.dropLast.dropWhile Scan.isSpace := by
  have hsplit := List.takeWhile_append_dropWhile (p := Scan.isSpace) (l := b)
  have hspaces : ∀ c ∈ b.takeWhile Scan.isSpace, Scan.isSpace c = true :=
    fun c hc => List.mem_takeWhile_imp hc
  cases hdrop : b.dropWhile Scan.isSpace with
  | nil =>
      rw [hdrop, List.append_nil] at hsplit
      rw [hsplit] at hspaces
      exact (List.dropWhile_eq_nil_iff.mpr fun c hc =>
        hspaces c (List.dropLast_subset b hc)).symm
  | cons c t =>
      rw [hdrop] at hsplit
      have hfront : b.dropLast = b.takeWhile Scan.isSpace ++ (c :: t).dropLast := by
        conv_lhs => rw [← hsplit]
        exact List.dropLast_append_of_ne_nil (List.cons_ne_nil c t)
      have hreturn : (c :: t).dropLast.getLast? ≠ some 13 := by
        intro hlast
        have hne : (c :: t).dropLast ≠ [] := by
          intro hnil
          rw [hnil] at hlast
          cases hlast
        exact h ((getLast?_dropLast_of_suffix ⟨_, hsplit⟩ hne).trans hlast)
      rw [withoutTerminator, if_neg fun hboth => hreturn hboth.2, hfront,
        List.dropWhile_append_of_pos hspaces]
      have hc : Scan.isSpace c = false := by
        have hhead := List.head?_dropWhile_not Scan.isSpace b
        rw [hdrop, List.head?_cons] at hhead
        simpa using hhead
      cases t with
      | nil => rfl
      | cons d t =>
          rw [List.dropLast_cons_of_ne_nil (List.cons_ne_nil d t),
            List.dropWhile_cons_of_neg (by simp [hc])]

namespace ArgumentLine

/-- With a carriage return in front of its last character the line loses some of its text. -/
theorem not_isInfix_of_return (l : ArgumentLine) (h : l.body.dropLast.getLast? = some 13) :
    ¬l.text <:+: withoutTerminator (l.body.dropWhile Scan.isSpace) ++ [32] := by
  intro hinside
  have hbody : l.body.length ≤ l.text.length + 1 ∧
      (l.body.length = l.text.length + 1 → l.text.getLast? = some 13) := by
    unfold body at h ⊢
    split
    · rename_i hcrlf
      rw [if_pos hcrlf, List.dropLast_concat] at h
      exact ⟨by simp, fun _ => h⟩
    · exact ⟨Nat.le_succ _, fun heq => absurd heq (Nat.ne_of_lt (Nat.lt_succ_self _))⟩
  have hsuffix : l.body.dropWhile Scan.isSpace <:+ l.body := List.dropWhile_suffix _
  by_cases hlong : 2 ≤ (l.body.dropWhile Scan.isSpace).length
  · -- two characters are lost
    have hinit : (l.body.dropWhile Scan.isSpace).dropLast ≠ [] := by
      rw [← List.length_pos_iff, List.length_dropLast]
      omega
    have hlast := (getLast?_dropLast_of_suffix hsuffix hinit).symm.trans h
    rw [withoutTerminator, if_pos ⟨hlong, hlast⟩] at hinside
    have hshort := hinside.length_le
    have hall := hsuffix.length_le
    simp only [List.length_append, List.length_dropLast, List.length_singleton] at hshort
    have heq := hinside.eq_of_length (by
      simp only [List.length_append, List.length_dropLast, List.length_singleton]
      omega)
    have hreturn := hbody.2 (by omega)
    rw [heq, List.getLast?_concat] at hreturn
    cases hreturn
  · -- nothing is left
    have hnil : withoutTerminator (l.body.dropWhile Scan.isSpace) = [] := by
      apply List.prefix_nil.mp
      have hprefix := withoutTerminator_isPrefix (l.body.dropWhile Scan.isSpace)
      rwa [List.length_eq_zero_iff.mp (show (l.body.dropWhile Scan.isSpace).dropLast.length = 0 by
        rw [List.length_dropLast]; omega)] at hprefix
    rw [hnil, List.nil_append] at hinside
    have hmem : 13 ∈ l.text := by
      unfold body at h
      split at h
      · rw [List.dropLast_concat] at h
        exact List.mem_of_getLast? h
      · exact List.dropLast_subset _ (List.mem_of_getLast? h)
    exact absurd (hinside.subset hmem) (by decide)

end ArgumentLine

namespace GeneralRecord

variable {r : GeneralRecord} {missing : Bool}

/-- The text of the entry that the first line of a `Query` record gives. -/
def read (r : GeneralRecord) (missing : Bool) : Bytes :=
  (if r.cutFirst missing then withoutTerminator (r.first.body.dropWhile Scan.isSpace)
    else r.first.text.dropWhile Scan.isSpace) ++ [32]

theorem read_eq_kept (h : r.cutFirst missing = true → r.first.body.dropLast.getLast? ≠ some 13) :
    r.read missing = r.kept missing := by
  rw [read, kept]
  split
  · rename_i hcut
    rw [withoutTerminator_dropWhile (h hcut)]
  · rfl

/-- What stands behind the command. -/
def behindCommand (r : GeneralRecord) (missing : Bool) : Bytes :=
  r.commandGap ++ if r.cutFirst missing then r.first.body else r.first.body ++ [newline]

theorem firstLine_eq (r : GeneralRecord) (missing : Bool) : r.firstLine missing =
    r.timestamp ++ (r.gap ++ (r.id ++ (r.idGap ++ (r.command ++ r.behindCommand missing)))) := by
  rw [firstLine, firstBody, behindCommand]
  split <;> simp only [List.append_assoc]

/-- A text that is not blank is captured from its first other character on. -/
theorem captured_body {gap rest : Bytes} (hgap : IsGap gap) (hrest : rest ≠ []) :
    ∃ ns, matchItems textItems (gap ++ rest) = some [ns] ∧
      withoutTerminator ns = withoutTerminator (rest.dropWhile Scan.isSpace) := by
  rcases matchItems_text_cases hgap hrest with ⟨c, t, hmatch, -, hdrop⟩ | ⟨c, hmatch, hblank⟩
  · exact ⟨c :: t, hmatch, by rw [hdrop]⟩
  · refine ⟨[c], hmatch, ?_⟩
    rw [List.dropWhile_eq_nil_iff.mpr hblank]
    rfl

/-- What the first line of a `Query` record leaves in its entry. -/
theorem captured_text (hgap : IsGap r.commandGap)
    (hlong : r.cutFirst missing = true → 2 ≤ (r.commandGap ++ r.first.body).length) :
    ∃ ns, matchItems textItems (r.behindCommand missing) = some [ns] ∧
      withoutTerminator ns ++ [32] = r.read missing := by
  rw [behindCommand, read]
  split
  · rename_i hcut
    by_cases hbody : r.first.body = []
    · -- the last blank behind the command is captured
      have hlong := hlong hcut
      rw [hbody, List.append_nil] at hlong ⊢
      obtain ⟨init, c, hinit⟩ := (List.eq_nil_or_concat' r.commandGap).resolve_left hgap.1
      rw [hinit] at hlong hgap ⊢
      obtain ⟨hspaces, hc⟩ := List.forall_mem_append.mp hgap.2
      have hne : init ≠ [] := by
        rintro rfl
        exact absurd hlong (by simp)
      exact ⟨[c], matchItems_text_blank ⟨hne, hspaces⟩ (hc c (List.mem_singleton_self c)), rfl⟩
    · obtain ⟨ns, hmatch, htext⟩ := captured_body hgap hbody
      exact ⟨ns, hmatch, by rw [htext]⟩
  · have hne : r.first.body ++ [newline] ≠ [] := by simp
    obtain ⟨ns, hmatch, htext⟩ := captured_body hgap hne
    refine ⟨ns, hmatch, ?_⟩
    rw [htext, r.first.body_append_newline, List.dropWhile_append]
    split
    · rename_i hblank
      rw [List.dropWhile_eq_nil_iff.mpr r.first.isSpace_terminator,
        List.isEmpty_iff.mp hblank]
      rfl
    · rename_i htext
      have ht : r.first.text.dropWhile Scan.isSpace ≠ [] := by simpa using htext
      rw [r.first.withoutTerminator_terminator ht (List.dropWhile_suffix _)]

theorem cString_firstLine (hcommand : r.command = bytes "Query") (hzero : 0 ∉ r.first.text) :
    cString (r.firstLine missing) = r.firstLine missing := by
  have htimestamp : 0 ∉ r.timestamp := fun hmem => by
    exact absurd (r.timestamp_bytes 0 hmem) (by decide)
  have hword : 0 ∉ r.command := by
    rw [hcommand]
    decide
  have hgap := r.commandGap_isGap hcommand
  have hbody : 0 ∉ r.first.body := by
    unfold ArgumentLine.body
    split
    · simp only [List.mem_append, List.mem_singleton, not_or]
      exact ⟨hzero, by decide⟩
    · exact hzero
  have hfirst : 0 ∉ r.firstBody := by
    simp only [firstBody, List.mem_append, not_or]
    exact ⟨htimestamp, r.gap_isGap.not_mem rfl, r.id_isDigits.not_mem rfl,
      r.idGap_isGap.not_mem rfl, hword, hgap.not_mem rfl, hbody⟩
  apply cString_of_not_mem
  rw [firstLine]
  split
  · exact hfirst
  · simp only [List.mem_append, List.mem_singleton, not_or]
    exact ⟨hfirst, by decide⟩

/-- The first line of a `Query` record that is noticed and has no zero byte gives an entry, even
without its line feed if two characters stand behind the command. -/
theorem lineEntry_firstLine (hquery : r.isQuery = true)
    (hnoticed : ignoreLine (r.firstLine missing) = false) (hzero : 0 ∉ r.first.text)
    (hlong : r.cutFirst missing = true → 2 ≤ (r.commandGap ++ r.first.body).length) :
    lineEntry (r.firstLine missing) =
      some { threadId := r.threadId, query := r.read missing } := by
  have hcommand : r.command = bytes "Query" := by simpa [isQuery] using hquery
  have hgap := r.commandGap_isGap hcommand
  have hQ : ¬QueryColumns r.timestamp := not_queryColumns_of_not_mem fun hmem => by
    exact absurd (r.timestamp_bytes 81 hmem) (by decide)
  obtain ⟨ns, htext, hread⟩ := captured_text hgap hlong
  have hline := r.firstLine_eq missing
  rw [hcommand] at hline
  have hsearch := search_regex hQ r.gap_isGap r.id_isDigits r.idGap_isGap htext
  rw [← hline] at hsearch
  rw [lineEntry, if_neg (by simp [hnoticed]), cString_firstLine hcommand hzero, hsearch]
  simp only [strtoull_of_isDigits r.id_isDigits r.id_value, hread]

/-- A `Query` record with one blank and nothing else behind the command gives no entry. -/
theorem lineEntry_firstLine_short (hquery : r.isQuery = true) (hcut : r.cutFirst missing = true)
    (hshort : (r.commandGap ++ r.first.body).length < 2) :
    lineEntry (r.firstLine missing) = none := by
  have hcommand : r.command = bytes "Query" := by simpa [isQuery] using hquery
  have hgap := List.length_pos_iff.mpr (r.commandGap_isGap hcommand).1
  have hbody : r.first.body = [] := by
    rw [List.length_append] at hshort
    exact List.length_eq_zero_iff.mp (by omega)
  have htext : r.first.text = [] := by
    unfold ArgumentLine.body at hbody
    split at hbody
    · simp at hbody
    · exact hbody
  have hzero : 0 ∉ r.first.text := htext ▸ List.not_mem_nil
  rw [lineEntry_eq_none_iff, readsAsQuery, cString_firstLine hcommand hzero, Bool.and_eq_false_iff]
  refine Or.inr (Bool.eq_false_iff.mpr fun hfound => ?_)
  obtain ⟨u, gap, id, gap', w, hline, -, -, -, gap'', rest, rfl, hgap'', hrest⟩ :=
    search_regex_isSome_iff.mp hfound
  have hfront : ∀ c ∈ r.timestamp ++ (r.gap ++ (r.id ++ r.idGap)), (c != 81) = true := by
    intro c hc
    rcases List.mem_append.mp hc with hc | hc
    · rw [bne_iff_ne]
      rintro rfl
      exact absurd (r.timestamp_bytes 81 hc) (by decide)
    · exact ne_Q_of_columns r.gap_isGap r.id_isDigits r.idGap_isGap c hc
  have hwords : (r.timestamp ++ (r.gap ++ (r.id ++ r.idGap))) ++ (bytes "Query" ++
      r.behindCommand missing) = (u ++ (gap ++ (id ++ gap'))) ++ (bytes "Query" ++
        (gap'' ++ rest)) := by
    rw [r.firstLine_eq, hcommand] at hline
    simpa only [List.append_assoc] using hline
  have hlength := (suffix_of_first_word hfront hwords).length_le
  have hgapLength := List.length_pos_iff.mpr hgap''.1
  have hrestLength := List.length_pos_iff.mpr hrest
  have hrest' : (gap'' ++ rest).length = gap''.length + rest.length := List.length_append
  rw [behindCommand, if_pos hcut] at hlength
  omega

/-- What the lines of a record should give. -/
def Replayed (r : GeneralRecord) (missing : Bool) : Prop :=
  List.Forall₂ ReplaysRecord (if r.isQuery then [r] else []) (r.entries missing)

/-- An entry that a line behind the first one gives cannot have the text of that line. -/
theorem not_replays_of_otherLine {e : GeneralLogEntry} {line : Bytes}
    (hline : line ∈ r.otherLines missing) (hentry : lineEntry line = some e) :
    ¬ReplaysRecord r e := by
  intro hreplays
  obtain ⟨t, ht, hends⟩ := mem_closeLines hline
  obtain ⟨l, hl, rfl⟩ := List.mem_map.mp ht
  have htext := (hreplays.text l (List.mem_cons_of_mem _ hl)).length_le
  have hshort := (lineEntry_spec hentry).2
  have hbody : l.body.length ≤ l.text.length + 1 := by
    unfold ArgumentLine.body
    split <;> simp
  have hlength : line.length ≤ l.body.length + 1 := by
    rcases hends with rfl | rfl <;> simp
  omega

theorem entries_eq (r : GeneralRecord) (missing : Bool) : r.entries missing =
    (lineEntry (r.firstLine missing)).toList ++ (r.otherLines missing).filterMap lineEntry := by
  rw [entries, lines, List.filterMap_cons]
  cases lineEntry (r.firstLine missing) <;> rfl

theorem filterMap_lineEntry_eq_nil_iff {ls : List Bytes} :
    ls.filterMap lineEntry = [] ↔ ∀ line ∈ ls, readsAsQuery line = false := by
  rw [List.filterMap_eq_nil_iff]
  exact forall₂_congr fun line _ => lineEntry_eq_none_iff

/-- The condition on a `Query` record is that the text of its entry is the one to be kept and has
the text of every line. -/
theorem first_of_replays {e : GeneralLogEntry} (hquery : r.isQuery = true)
    (hfirst : lineEntry (r.firstLine missing) = some e) (hreplays : ReplaysRecord r e) :
    ignoreLine (r.firstLine missing) = false ∧ 0 ∉ r.first.text ∧
      (r.cutFirst missing = true → 2 ≤ (r.commandGap ++ r.first.body).length ∧
        r.first.body.dropLast.getLast? ≠ some 13) ∧
      ∀ l ∈ r.argument, l.text <:+: r.kept missing := by
  have hnoticed : ignoreLine (r.firstLine missing) = false := by
    by_contra hignored
    rw [lineEntry, if_pos (by simpa using hignored)] at hfirst
    cases hfirst
  have hzero : 0 ∉ r.first.text := fun hmem =>
    (lineEntry_spec hfirst).1 ((hreplays.text r.first List.mem_cons_self).subset hmem)
  have hlong : r.cutFirst missing = true → 2 ≤ (r.commandGap ++ r.first.body).length := by
    intro hcut
    by_contra hshort
    rw [lineEntry_firstLine_short hquery hcut (Nat.lt_of_not_le hshort)] at hfirst
    cases hfirst
  rw [lineEntry_firstLine hquery hnoticed hzero hlong] at hfirst
  obtain rfl := Option.some.inj hfirst
  have hreturn : r.cutFirst missing = true → r.first.body.dropLast.getLast? ≠ some 13 := by
    intro hcut hlast
    have htext := hreplays.text r.first List.mem_cons_self
    change r.first.text <:+: r.read missing at htext
    rw [read, if_pos hcut] at htext
    exact r.first.not_isInfix_of_return hlast htext
  exact ⟨hnoticed, hzero, fun hcut => ⟨hlong hcut, hreturn hcut⟩,
    read_eq_kept hreturn ▸ hreplays.text⟩

/-- The lines of a record give what they should exactly if the record is readable. -/
theorem replayed_iff_readable (r : GeneralRecord) (missing : Bool) :
    r.Replayed missing ↔ r.Readable missing := by
  cases hquery : r.isQuery with
  | false =>
      rw [Replayed, hquery, if_neg Bool.false_ne_true, List.forall₂_nil_left_iff, entries,
        filterMap_lineEntry_eq_nil_iff, lines, List.forall_mem_cons]
      constructor
      · rintro ⟨hfirst, hothers⟩
        exact ⟨fun h => by simp [hquery] at h, fun h => by simp [hquery] at h, fun _ => hfirst,
          hothers⟩
      · intro h
        exact ⟨h.firstSilent hquery, h.othersSilent⟩
  | true =>
      rw [Replayed, hquery, if_pos rfl, entries_eq]
      constructor
      · intro h
        obtain ⟨e, es, hreplays, hnil, hentries⟩ := List.forall₂_cons_left_iff.mp h
        obtain rfl := List.forall₂_nil_left_iff.mp hnil
        cases hfirst : lineEntry (r.firstLine missing) with
        | none =>
            rw [hfirst, Option.toList_none, List.nil_append] at hentries
            have hmem : e ∈ (r.otherLines missing).filterMap lineEntry :=
              hentries ▸ List.mem_singleton_self e
            obtain ⟨line, hline, hentry⟩ := List.mem_filterMap.mp hmem
            exact absurd hreplays (not_replays_of_otherLine hline hentry)
        | some e' =>
            rw [hfirst, Option.toList_some, List.singleton_append, List.cons.injEq] at hentries
            obtain ⟨rfl, hothers⟩ := hentries
            obtain ⟨hnoticed, hzero, hcut, htext⟩ := first_of_replays hquery hfirst hreplays
            exact ⟨fun _ => ⟨hnoticed, hzero, htext⟩, fun _ => hcut, fun h => by simp [hquery] at h,
              filterMap_lineEntry_eq_nil_iff.mp hothers⟩
      · intro h
        obtain ⟨hnoticed, hzero, htext⟩ := h.first hquery
        rw [lineEntry_firstLine hquery hnoticed hzero fun hcut => (h.cut hquery hcut).1,
          filterMap_lineEntry_eq_nil_iff.mpr h.othersSilent,
          read_eq_kept fun hcut => (h.cut hquery hcut).2]
        exact .cons ⟨rfl, htext⟩ .nil

end GeneralRecord

/-- One more record adds what its own lines give. -/
theorem replayedWhole_concat {records : List GeneralRecord} (h : ReplayedWhole records false)
    (r : GeneralRecord) (missing : Bool) :
    ReplayedWhole (records ++ [r]) missing ↔ r.Replayed missing := by
  have hfilter : (records ++ [r]).filter (·.isQuery) =
      records.filter (·.isQuery) ++ if r.isQuery then [r] else [] := by
    rw [List.filter_append, List.filter_singleton]
    cases r.isQuery <;> rfl
  have hentries : (withEnds missing (records ++ [r])).flatMap (fun p => p.1.entries p.2) =
      (withEnds false records).flatMap (fun p => p.1.entries p.2) ++ r.entries missing := by
    rw [withEnds_concat, withEnds_false, List.flatMap_append, List.flatMap_singleton]
  rw [ReplayedWhole, GeneralRecord.getEntries_generalLog] at h ⊢
  rw [hfilter, hentries, GeneralRecord.Replayed]
  constructor
  · intro hboth
    have hrest := List.forall₂_drop (records.filter (·.isQuery)).length hboth
    rwa [List.drop_left, h.length_eq, List.drop_left] at hrest
  · intro hlast
    exact List.rel_append h hlast

/-- The beginnings of a log are replayed whole exactly if every record is readable. -/
theorem replayedWhole_beginnings_iff (records : List GeneralRecord) :
    (∀ beginning, beginning <+: records → ReplayedWhole beginning false) ↔
      ∀ r ∈ records, r.Readable false := by
  induction records using List.reverseRecOn with
  | nil =>
      constructor
      · intro _ r hr
        cases hr
      · intro _ beginning hbeginning
        obtain rfl := List.prefix_nil.mp hbeginning
        exact .nil
  | append_singleton records r ih =>
      rw [List.forall_mem_append, List.forall_mem_singleton, ← ih]
      constructor
      · intro h
        have hrecords := fun beginning hbeginning =>
          h beginning (List.IsPrefix.trans hbeginning (List.prefix_append records [r]))
        have hlast := h (records ++ [r]) List.prefix_rfl
        rw [replayedWhole_concat (hrecords records List.prefix_rfl),
          GeneralRecord.replayed_iff_readable] at hlast
        exact ⟨hrecords, hlast⟩
      · rintro ⟨hrecords, hlast⟩ beginning hbeginning
        rcases List.prefix_concat_iff.mp hbeginning with rfl | hbeginning
        · apply (replayedWhole_concat (hrecords records List.prefix_rfl) r false).mpr
          exact (r.replayed_iff_readable false).mpr hlast
        · exact hrecords beginning hbeginning

/-- The log, whose last line feed may be missing, and its beginnings are replayed whole exactly
if every record is readable. -/
theorem replayedWhole_iff_readable (records : List GeneralRecord) (missing : Bool) :
    ((∀ beginning, beginning <+: records → beginning ≠ records → ReplayedWhole beginning false) ∧
      ReplayedWhole records missing) ↔ ∀ p ∈ withEnds missing records, p.1.Readable p.2 := by
  rcases List.eq_nil_or_concat' records with rfl | ⟨front, r, rfl⟩
  · refine iff_of_true ⟨?_, ?_⟩ fun p hp => by cases hp
    · intro beginning hbeginning hne
      exact absurd (List.prefix_nil.mp hbeginning) hne
    · cases missing <;> exact .nil
  · have hproper : (∀ beginning, beginning <+: front ++ [r] → beginning ≠ front ++ [r] →
        ReplayedWhole beginning false) ↔ ∀ k ∈ front, k.Readable false := by
      rw [← replayedWhole_beginnings_iff]
      refine forall_congr' fun beginning => ⟨fun h hbeginning => ?_, fun h hbeginning hne => ?_⟩
      · refine h (hbeginning.trans (List.prefix_append front [r])) ?_
        rintro rfl
        have hlong := hbeginning.length_le
        rw [List.length_append, List.length_singleton] at hlong
        omega
      · exact h ((List.prefix_concat_iff.mp hbeginning).resolve_left hne)
    rw [hproper, withEnds_concat, List.forall_mem_append, List.forall_mem_singleton,
      List.forall_mem_map]
    refine and_congr_right fun hfront => ?_
    have hwhole := (replayedWhole_beginnings_iff front).mpr hfront front List.prefix_rfl
    rw [replayedWhole_concat hwhole, GeneralRecord.replayed_iff_readable]

/-- A query over two lines. -/
def twoLineRecord : GeneralRecord where
  timestamp := bytes "120810  2:52:44"
  gap := bytes "\t    "
  id := bytes "5"
  idGap := bytes " "
  command := bytes "Query"
  commandGap := bytes "\t"
  first := ⟨bytes "SELECT 1,", false, by decide, by decide⟩
  others := [⟨bytes "2", false, by decide, by decide⟩]
  threadId := 5
  timestamp_bytes := List.all_eq_true.mp (by decide)
  gap_isGap := ⟨by decide, List.all_eq_true.mp (by decide)⟩
  id_isDigits := ⟨by decide, List.all_eq_true.mp (by decide)⟩
  id_value := by decide
  idGap_isGap := ⟨by decide, List.all_eq_true.mp (by decide)⟩
  commandGap_isGap := fun _ => ⟨by decide, List.all_eq_true.mp (by decide)⟩
  no_newline := by decide

/-- The second line does not look like a record, and it is lost. -/
theorem second_line_lost :
    (∀ line ∈ twoLineRecord.otherLines false, readsAsQuery line = false) ∧
      ¬ReplayedWhole [twoLineRecord] false := by
  constructor
  · decide
  · intro h
    have hwhole := (@replayedWhole_concat [] .nil twoLineRecord false).mp h
    have htext := (((GeneralRecord.replayed_iff_readable _ _).mp hwhole).first rfl).2.2
    have hsecond := htext ⟨bytes "2", false, by decide, by decide⟩
      (List.mem_cons_of_mem _ List.mem_cons_self)
    exact absurd (hsecond.subset (show 50 ∈ bytes "2" by decide)) (by decide)

end Reading

end QueryPlayback
