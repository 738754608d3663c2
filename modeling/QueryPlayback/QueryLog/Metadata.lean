import QueryPlayback.Text.ScanLine
import QueryPlayback.QueryLog.Account

/-!
# What the fields of an entry are read from

Each reader of a field searches the whole entry for its marker. It reads from the
metadata lines alone exactly when they have the marker with a value behind it;
otherwise the statement decides.
-/

namespace QueryPlayback

open Lines

/-- The leading `#`-lines of an entry. -/
def metadata (chars : Bytes) : Bytes := ((lines newline chars).takeWhile isComment).flatten

namespace QueryLogData

/-- An entry as the parse loop makes it. -/
structure IsEntry (d : QueryLogData) : Prop where
  uncached : d.threadId = 0
  shape : ∃ l rest, lines newline d.data.chars = l :: rest ∧ opensRecord l = true ∧
    (∀ x ∈ rest, isHeader x = false) ∧ ∃ x ∈ rest, isComment x = false

/-- The values read from the fields. The query time decides about the start time. -/
structure SameFields (d d' : QueryLogData) : Prop where
  threadId : d.getThreadId = d'.getThreadId
  rowsSent : d.parseRowsSent = d'.parseRowsSent
  rowsExamined : d.parseRowsExamined = d'.parseRowsExamined
  queryTime : parseQueryTime d.data = parseQueryTime d'.data

/-- Whatever the statements are, these metadata lines give the same values. -/
def ReadFromMetadata (m : Bytes) : Prop :=
  ∀ d d' : QueryLogData, d.IsEntry → d'.IsEntry → metadata d.data.chars = m →
    metadata d'.data.chars = m → d.SameFields d'

/-- The metadata lines have the marker, and behind its first occurrence there is something
other than white space. -/
def hasValue (m name : Bytes) : Bool :=
  match search name m with
  | none => false
  | some k => (m.drop (k + name.length)).any (!Scan.isSpace ·)

/-- Lines that can stand in front of the statement of an entry. -/
structure IsMetadata (m : Bytes) : Prop where
  closed : ∃ m', m = m' ++ [newline]
  comments : ∀ x ∈ lines newline m, isComment x = true
  shape : ∃ l rest, lines newline m = l :: rest ∧ opensRecord l = true ∧
    ∀ x ∈ rest, isHeader x = false

/-- The lines behind the metadata of an entry begin with a line of its statement. -/
theorem IsEntry.isMetadata {d : QueryLogData} (h : d.IsEntry) :
    IsMetadata (metadata d.data.chars) ∧ ∃ s, d.data.chars = metadata d.data.chars ++ s := by
  obtain ⟨l, rest, hlines, hopens, hrest, x, hx, hsql⟩ := h.shape
  have hcomment : isComment l = true := (Bool.and_eq_true_iff.mp hopens).1
  set comments := (lines newline d.data.chars).takeWhile isComment with hcomments
  set others := (lines newline d.data.chars).dropWhile isComment with hothers
  have hcut : lines newline d.data.chars = comments ++ others :=
    List.takeWhile_append_dropWhile.symm
  have hne : others ≠ [] := by
    intro hnil
    have hall := List.dropWhile_eq_nil_iff.mp hnil x (by simp [hlines, hx])
    rw [hsql] at hall
    cases hall
  have hfirst : comments = l :: rest.takeWhile isComment := by
    rw [hcomments, hlines, List.takeWhile_cons_of_pos hcomment]
  obtain ⟨texts, htexts, -⟩ := terminated_of_lines newline hcut hne
  have hback : lines newline comments.flatten = comments := by
    apply @lines_consecutive _ _ newline d.data.chars
    exact ⟨[], others, by rw [List.nil_append, hcut]⟩
  refine ⟨⟨?_, ?_, ?_⟩, others.flatten, ?_⟩
  · have hlast : texts ≠ [] := by
      rintro rfl
      rw [hfirst] at htexts
      cases htexts
    obtain ⟨init, last, rfl⟩ : ∃ init last, texts = init ++ [last] :=
      ⟨_, _, (List.dropLast_append_getLast hlast).symm⟩
    refine ⟨(init.map (· ++ [newline])).flatten ++ last, ?_⟩
    change comments.flatten = _
    rw [htexts]
    simp
  · change ∀ x ∈ lines newline comments.flatten, isComment x = true
    rw [hback]
    exact fun x hx => List.mem_takeWhile_imp hx
  · refine ⟨l, rest.takeWhile isComment, hback.trans hfirst, hopens, fun x hx => ?_⟩
    exact hrest x ((List.takeWhile_sublist _).subset hx)
  · change d.data.chars = comments.flatten ++ others.flatten
    rw [← List.flatten_append, ← hcut, flatten_lines]

/-- An entry with the given metadata lines and a statement of one line. -/
def entryWith (m text : Bytes) : QueryLogData :=
  ⟨StringRef.ofBytes (m ++ (text ++ [newline])), 0, 0⟩

theorem IsMetadata.entryWith {m text : Bytes} (hm : IsMetadata m) (htext : newline ∉ text)
    (hsql : isComment (text ++ [newline]) = false) :
    (entryWith m text).IsEntry ∧ metadata (entryWith m text).data.chars = m := by
  obtain ⟨m', rfl⟩ := hm.closed
  obtain ⟨l, rest, hlines, hopens, hrest⟩ := hm.shape
  have hline : lines newline (text ++ [newline]) = [text ++ [newline]] :=
    lines_terminated newline htext []
  have hall : lines newline (m' ++ [newline] ++ (text ++ [newline])) =
      lines newline (m' ++ [newline]) ++ [text ++ [newline]] := by
    rw [List.append_assoc, List.singleton_append, lines_append_sep, hline]
  refine ⟨⟨rfl, l, rest ++ [text ++ [newline]], ?_, hopens, ?_, ?_⟩, ?_⟩
  · exact hall.trans (by rw [hlines, List.cons_append])
  · intro x hx
    rcases List.mem_append.mp hx with hx | hx
    · exact hrest x hx
    · rw [List.mem_singleton.mp hx]
      exact isHeader_of_not_isComment hsql
  · exact ⟨text ++ [newline], by simp, hsql⟩
  · change
      ((lines newline (m' ++ [newline] ++ (text ++ [newline]))).takeWhile isComment).flatten = _
    rw [hall, List.takeWhile_append_of_pos hm.comments, List.takeWhile_cons_of_neg (by simp [hsql]),
      List.append_nil, flatten_lines]

/-- A marker stands within a line and opens no comment. -/
structure IsMarker (name : Bytes) : Prop where
  within : newline ∉ name
  plain : ∃ c rest, name = c :: rest ∧ c ≠ hash

theorem IsMarker.ne_nil {name : Bytes} (h : IsMarker name) : name ≠ [] := by
  obtain ⟨c, rest, rfl, -⟩ := h.plain
  exact List.cons_ne_nil c rest

/-- With a value in the metadata the field is read from there. -/
theorem field_of_hasValue {m name : Bytes} (hm : IsMetadata m) (hname : IsMarker name)
    (hvalue : hasValue m name = true) :
    ∃ u : Bytes, (∃ c ∈ u, Scan.isSpace c = false) ∧
      ∀ (data : StringRef) (s : Bytes), data.chars = m ++ s →
        ∃ v, field data name name.length = some (u ++ newline :: v) := by
  obtain ⟨m', rfl⟩ := hm.closed
  have hsearch : ∀ x, search name (m' ++ newline :: x) = _ :=
    search_append_newline hname.within hname.ne_nil m'
  cases hk : search name m' with
  | none =>
      rw [hasValue, hsearch, hk] at hvalue
      cases hvalue
  | some k =>
      have hle : k + name.length ≤ m'.length := search_add_length_le hk
      have hdrop : ∀ x, (m' ++ newline :: x).drop (k + name.length) =
          m'.drop (k + name.length) ++ newline :: x := fun x =>
        List.drop_append_of_le_length hle
      refine ⟨m'.drop (k + name.length), ?_, fun data s hdata => ⟨s ++ data.after, ?_⟩⟩
      · simp only [hasValue, hsearch, hk, Option.some_or, hdrop] at hvalue
        obtain ⟨c, hc, hspace⟩ := List.any_eq_true.mp hvalue
        rcases List.mem_append.mp hc with hc | hc
        · exact ⟨c, hc, by simpa using hspace⟩
        · rw [List.mem_singleton.mp hc] at hspace
          cases hspace
      · rw [List.append_assoc, List.singleton_append] at hdata
        rw [field, find, hdata, hsearch, hk, Option.some_or, Option.map_some, StringRef.memory,
          hdata, List.append_assoc, List.cons_append, hdrop]

/-- Without one the statement can put any text in its place. -/
theorem field_of_not_hasValue {m name text : Bytes} (hm : IsMetadata m) (hname : IsMarker name)
    (hvalue : hasValue m name = false) (htext : newline ∉ text)
    (hplain : isComment (text ++ [newline]) = false) :
    ∃ d : QueryLogData, d.IsEntry ∧ metadata d.data.chars = m ∧
      ∃ u : Bytes, (∀ c ∈ u, Scan.isSpace c = true) ∧
        field d.data name name.length = some (u ++ (text ++ [newline])) := by
  obtain ⟨m', rfl⟩ := hm.closed
  have hsearch : ∀ x, search name (m' ++ newline :: x) = _ :=
    search_append_newline hname.within hname.ne_nil m'
  have hchars : ∀ t, (entryWith (m' ++ [newline]) t).data.chars =
      m' ++ newline :: (t ++ [newline]) := fun t => by simp [entryWith, StringRef.ofBytes]
  have hmemory : ∀ t, (entryWith (m' ++ [newline]) t).data.memory =
      m' ++ newline :: (t ++ [newline]) := fun t => by
    simp [entryWith, StringRef.ofBytes, StringRef.memory]
  cases hk : search name m' with
  | none =>
      obtain ⟨c, rest, hcons, hhash⟩ := hname.plain
      have hwithin : newline ∉ name ++ text := by simp [hname.within, htext]
      have hcomment : isComment (name ++ text ++ [newline]) = false := by
        simp [hcons, isComment, List.isPrefixOf, Ne.symm hhash]
      obtain ⟨hentry, hmeta⟩ := hm.entryWith hwithin hcomment
      have hdrop : (m' ++ newline :: (name ++ text ++ [newline])).drop
          (m'.length + 1 + name.length) = text ++ [newline] := by
        have hcut : m' ++ newline :: (name ++ text ++ [newline]) =
            (m' ++ newline :: name) ++ (text ++ [newline]) := by simp
        rw [hcut, List.drop_left']
        simp only [List.length_append, List.length_cons]
        omega
      refine ⟨_, hentry, hmeta, [], by simp, ?_⟩
      rw [field, find, hchars, hsearch, hk, Option.none_or, List.append_assoc name,
        search_self hname.ne_nil, Option.map_some, Option.map_some, hmemory, Nat.zero_add, hdrop]
      rfl
  | some k =>
      obtain ⟨hentry, hmeta⟩ := hm.entryWith htext hplain
      have hle : k + name.length ≤ m'.length := search_add_length_le hk
      refine ⟨_, hentry, hmeta, m'.drop (k + name.length) ++ [newline], ?_, ?_⟩
      · simp only [hasValue, hsearch, hk, Option.some_or,
          List.drop_append_of_le_length hle] at hvalue
        intro c hc
        have hc := List.any_eq_false.mp hvalue c hc
        simpa using hc
      · rw [field, find, hchars, hsearch, hk, Option.some_or, Option.map_some, hmemory,
          List.drop_append_of_le_length hle]
        simp

/-- On an entry without a cached id the function reads a number behind the first occurrence of
the marker, if there is one. -/
def ReadsField {A : Type} (f : QueryLogData → A) (name : Bytes) (read : Bytes → A) : Prop :=
  ∀ (d : QueryLogData) (s : Bytes), d.threadId = 0 →
    field d.data name name.length = some s → f d = read s

/-- A field gives one value for all statements just when the metadata have a value for it. -/
theorem same_iff_hasValue {A : Type} {f : QueryLogData → A} {name : Bytes} {read : Bytes → A}
    (hread : Scan.StopsAtNewline read) (hdiffer : read (bytes "1") ≠ read (bytes "2"))
    (hf : ReadsField f name read) (hname : IsMarker name) {m : Bytes} (hm : IsMetadata m) :
    (∀ d d' : QueryLogData, d.IsEntry → d'.IsEntry → metadata d.data.chars = m →
        metadata d'.data.chars = m → f d = f d') ↔ hasValue m name = true := by
  constructor
  · intro hsame
    by_contra hvalue
    have hvalue : hasValue m name = false := by simpa using hvalue
    have hdigit : ∀ text : Bytes, newline ∉ text → isComment (text ++ [newline]) = false →
        (∃ c ∈ text, Scan.isSpace c = false) →
        ∃ d : QueryLogData, d.IsEntry ∧ metadata d.data.chars = m ∧ f d = read text := by
      intro text htext hplain hspace
      obtain ⟨d, hd, hmeta, u, hu, hfield⟩ := field_of_not_hasValue hm hname hvalue htext hplain
      refine ⟨d, hd, hmeta, ?_⟩
      calc f d = read (u ++ (text ++ [newline])) := hf d _ hd.uncached hfield
        _ = read (text ++ newline :: []) := hread.skip_all hu _
        _ = read text := hread.read_append hspace []
    obtain ⟨d, hd, hmeta, hone⟩ := hdigit (bytes "1") (by decide) (by decide) (by decide)
    obtain ⟨d', hd', hmeta', htwo⟩ := hdigit (bytes "2") (by decide) (by decide) (by decide)
    apply hdiffer
    rw [← hone, ← htwo, hsame d d' hd hd' hmeta hmeta']
  · intro hvalue d d' hd hd' hmeta hmeta'
    obtain ⟨u, hu, hfield⟩ := field_of_hasValue hm hname hvalue
    have hvalue : ∀ d : QueryLogData, d.IsEntry → metadata d.data.chars = m → f d = read u := by
      intro d hd hmeta
      obtain ⟨-, s, hs⟩ := hd.isMetadata
      rw [hmeta] at hs
      obtain ⟨v, hv⟩ := hfield d.data s hs
      rw [hf d _ hd.uncached hv, hread.read_append hu]
    rw [hvalue d hd hmeta, hvalue d' hd' hmeta']

theorem getThreadId_readsField :
    ReadsField getThreadId (bytes "Thread_id: ") Scan.strtoull := by
  intro d s huncached hfield
  have hlength : (bytes "Thread_Id: ").length = (bytes "Thread_id: ").length := by decide
  rw [getThreadId, parseThreadId, if_neg (not_not_intro huncached), hlength, hfield]

theorem parseRowsSent_readsField :
    ReadsField parseRowsSent (bytes "Rows_sent: ") Scan.strtoull := by
  intro d s _ hfield
  rw [parseRowsSent, hfield]

/-- The marker is the misspelt one. -/
theorem parseRowsExamined_readsField :
    ReadsField parseRowsExamined (bytes "Rows_Examined: ") Scan.strtoull := by
  intro d s _ hfield
  have hlength : (bytes "Rows_examined: ").length = (bytes "Rows_Examined: ").length := by
    decide
  rw [parseRowsExamined, hlength, hfield]

theorem parseQueryTime_readsField :
    ReadsField (fun d => parseQueryTime d.data) (bytes "Query_time: ") Scan.strtod := by
  intro d s _ hfield
  change parseQueryTime d.data = _
  rw [parseQueryTime, hfield]

/-- The fields come from the metadata alone just when the metadata have a value for each of
the four markers. -/
theorem readFromMetadata_iff (m : Bytes) (hm : IsMetadata m) :
    ReadFromMetadata m ↔
      hasValue m (bytes "Thread_id: ") = true ∧ hasValue m (bytes "Rows_sent: ") = true ∧
        hasValue m (bytes "Rows_Examined: ") = true ∧
        hasValue m (bytes "Query_time: ") = true := by
  have hnumber : Scan.strtoull (bytes "1") ≠ Scan.strtoull (bytes "2") := by decide
  have htime : Scan.strtod (bytes "1") ≠ Scan.strtod (bytes "2") := by decide +kernel
  have hthreadId := same_iff_hasValue Scan.strtoull_stopsAtNewline hnumber
    getThreadId_readsField ⟨by decide, _, _, rfl, by decide⟩ hm
  have hrowsSent := same_iff_hasValue Scan.strtoull_stopsAtNewline hnumber
    parseRowsSent_readsField ⟨by decide, _, _, rfl, by decide⟩ hm
  have hrowsExamined := same_iff_hasValue Scan.strtoull_stopsAtNewline hnumber
    parseRowsExamined_readsField ⟨by decide, _, _, rfl, by decide⟩ hm
  have hqueryTime := same_iff_hasValue Scan.strtod_stopsAtNewline htime
    parseQueryTime_readsField ⟨by decide, _, _, rfl, by decide⟩ hm
  rw [← hthreadId, ← hrowsSent, ← hrowsExamined, ← hqueryTime]
  constructor
  · intro h
    refine ⟨?_, ?_, ?_, ?_⟩
    · exact fun d d' hd hd' hmeta hmeta' => (h d d' hd hd' hmeta hmeta').threadId
    · exact fun d d' hd hd' hmeta hmeta' => (h d d' hd hd' hmeta hmeta').rowsSent
    · exact fun d d' hd hd' hmeta hmeta' => (h d d' hd hd' hmeta hmeta').rowsExamined
    · exact fun d d' hd hd' hmeta hmeta' => (h d d' hd hd' hmeta hmeta').queryTime
  · rintro ⟨hid, hsent, hexamined, htime⟩ d d' hd hd' hmeta hmeta'
    constructor
    · exact hid d d' hd hd' hmeta hmeta'
    · exact hsent d d' hd hd' hmeta hmeta'
    · exact hexamined d d' hd hd' hmeta hmeta'
    · exact htime d d' hd hd' hmeta hmeta'

/-- Metadata lines with all four markers as the readers spell them. -/
def markedMetadata : Bytes :=
  bytes "# User@Host: app[app] @ localhost []  Thread_id: 11\n" ++
    bytes "# Query_time: 0.5  Lock_time: 0.0  Rows_sent: 1  Rows_Examined: 4\n"

/-- Metadata lines as a server without thread ids writes them. -/
def plainMetadata : Bytes :=
  bytes "# User@Host: app[app] @ localhost []\n" ++
    bytes "# Query_time: 0.5  Lock_time: 0.0  Rows_sent: 1  Rows_examined: 4\n"

theorem markedMetadata_isMetadata : IsMetadata markedMetadata where
  closed := ⟨markedMetadata.dropLast, by decide +kernel⟩
  comments := by decide +kernel
  shape := ⟨_, _, rfl, by decide +kernel, by decide +kernel⟩

theorem plainMetadata_isMetadata : IsMetadata plainMetadata where
  closed := ⟨plainMetadata.dropLast, by decide +kernel⟩
  comments := by decide +kernel
  shape := ⟨_, _, rfl, by decide +kernel, by decide +kernel⟩

theorem markedMetadata_readFromMetadata : ReadFromMetadata markedMetadata :=
  (readFromMetadata_iff markedMetadata markedMetadata_isMetadata).mpr (by decide +kernel)

/-- A literal in the statement chooses the connection of the entry. -/
theorem statement_sets_threadId :
    (entryWith plainMetadata (bytes "SELECT 'Thread_id: 7';")).getThreadId = 7 ∧
      (entryWith plainMetadata (bytes "SELECT 1;")).getThreadId = 0 ∧
      ¬ReadFromMetadata plainMetadata := by
  have hseven : (entryWith plainMetadata (bytes "SELECT 'Thread_id: 7';")).getThreadId = 7 := by
    decide +kernel
  have hzero : (entryWith plainMetadata (bytes "SELECT 1;")).getThreadId = 0 := by decide +kernel
  refine ⟨hseven, hzero, fun h => ?_⟩
  obtain ⟨hentry, hmeta⟩ := plainMetadata_isMetadata.entryWith
    (show newline ∉ bytes "SELECT 'Thread_id: 7';" by decide +kernel) (by decide +kernel)
  obtain ⟨hentry', hmeta'⟩ := plainMetadata_isMetadata.entryWith
    (show newline ∉ bytes "SELECT 1;" by decide +kernel) (by decide +kernel)
  have hsame := (h _ _ hentry hentry' hmeta hmeta').threadId
  rw [hseven, hzero] at hsame
  cases hsame

end QueryLogData

section Entries

variable (mktime : Tm → Int)

/-- A block starts with the line that opens it and has no header among the others. -/
theorem blocks_shape {after : Bytes} {offset : ℕ} {time : TimePoint} {ls : List Bytes} {b : Block}
    (h : b ∈ blocks mktime after offset time ls) :
    ∃ l rest, b.lines = l :: rest ∧ opensRecord l = true ∧ ∀ x ∈ rest, isHeader x = false := by
  induction offset, time, ls using blocks.induct mktime with
  | case1 => simp [blocks] at h
  | case2 offset time l rest hc ih =>
      rw [blocks, if_pos hc] at h
      exact ih h
  | case3 offset time l rest hc ht ih =>
      rw [blocks, if_neg hc, if_pos ht] at h
      exact ih h
  | case4 offset time l rest hc ht body others ih =>
      rw [blocks, if_neg hc, if_neg ht] at h
      rcases List.mem_cons.mp h with rfl | h
      · refine ⟨l, _, rfl, ?_, fun x hx => ?_⟩
        · simpa [opensRecord] using And.intro hc ht
        · simpa using List.mem_takeWhile_imp hx
      · exact ih h

/-- What the parse loop makes of a block with a statement is an entry. -/
theorem isEntry_of_mem_logBlocks {data : StringRef} {b : Block} (h : b ∈ logBlocks mktime data)
    (hsql : b.hasSql = true) : b.entry.IsEntry where
  uncached := rfl
  shape := by
    obtain ⟨l, rest, hlines, hopens, hrest⟩ := blocks_shape mktime h
    refine ⟨l, rest, (lines_view mktime h).trans hlines, hopens, hrest, ?_⟩
    rw [Block.hasSql, hlines, List.any_eq_true] at hsql
    obtain ⟨x, hx, hplain⟩ := hsql
    rcases List.mem_cons.mp hx with rfl | hx
    · rw [(Bool.and_eq_true_iff.mp hopens).1] at hplain
      cases hplain
    · exact ⟨x, hx, by simpa using hplain⟩

/-- The metadata of every entry that is read are of the kind the condition is about. -/
theorem isMetadata_of_mem_logBlocks {data : StringRef} {b : Block}
    (h : b ∈ logBlocks mktime data) (hsql : b.hasSql = true) :
    QueryLogData.IsMetadata (metadata b.entry.data.chars) :=
  (isEntry_of_mem_logBlocks mktime h hsql).isMetadata.1

end Entries

end QueryPlayback
