import QueryPlayback.Playback.Growing
import QueryPlayback.Playback.AdministratorCommands
import QueryPlayback.QueryLog.RoundTrip

/-!
# Logs that a server has written

A slow log is written from the records of the sessions of a server, each of
which names its thread. Read and replayed, every session executes its own
statements again, in the order in which they were logged.
-/

namespace QueryPlayback

open QueryEntry QueryEntries Lines

section Texts

/-- The first text of a log ends with a line break or with the log. -/
theorem exists_cutEnd_writeLines_cons (missing : Bool) (t : Bytes) (texts : List Bytes) :
    ∃ x, cutEnd missing (writeLines (t :: texts)) = t ++ x ∧ ∀ c ∈ x.head?, c = newline := by
  rw [← flatten_closeLines]
  cases texts with
  | nil =>
      cases missing with
      | true => exact ⟨[], by simp [closeLines], by simp⟩
      | false => exact ⟨[newline], by simp [closeLines], by simp⟩
  | cons u rest =>
      refine ⟨newline :: (closeLines missing (u :: rest)).flatten, ?_, by simp⟩
      rw [closeLines, List.flatten_cons, List.append_assoc, List.singleton_append]

theorem cutEnd_writeLines_cons (missing : Bool) (t : Bytes) {texts : List Bytes}
    (hne : texts ≠ []) :
    cutEnd missing (writeLines (t :: texts)) =
      t ++ newline :: cutEnd missing (writeLines texts) := by
  obtain ⟨u, rest, rfl⟩ := List.exists_cons_of_ne_nil hne
  rw [← flatten_closeLines, ← flatten_closeLines, closeLines, List.flatten_cons,
    List.append_assoc, List.singleton_append]

/-- A marker without a line break is in no log that has it on no line. -/
theorem behind_cutEnd_of_none {marker : Bytes} (hmarker : newline ∉ marker) (hne : marker ≠ [])
    {texts : List Bytes} (h : ∀ t ∈ texts, behind marker t = none) (missing : Bool) :
    behind marker (cutEnd missing (writeLines texts)) = none := by
  induction texts with
  | nil => cases missing <;> rfl
  | cons t rest ih =>
      obtain ⟨ht, hrest⟩ := List.forall_mem_cons.mp h
      by_cases hnil : rest = []
      · subst hnil
        cases missing with
        | true => simpa [cutEnd, writeLines] using ht
        | false =>
            have hline := behind_append_newline hmarker hne t []
            rw [ht] at hline
            simpa [cutEnd, writeLines, behind] using hline
      · rw [cutEnd_writeLines_cons missing t hnil, behind_append_newline hmarker hne, ht, ih hrest]
        rfl

end Texts

section Threads

theorem QueryLogData.threadIdField_ofBytes (chars : Bytes) :
    threadIdField (StringRef.ofBytes chars) =
      (behind (bytes "Thread_id: ") chars).or (behind (bytes "Id: ") chars) := by
  have hmemory : (StringRef.ofBytes chars).memory = chars := List.append_nil chars
  rw [threadIdField, field, field, find, find, hmemory, skip_eq.1]
  exact congrArg₂ Option.or (search_map_drop _ chars) (search_map_drop _ chars)

/-- A record names its thread on the line below the user or, as servers from 5.6.2 on write it,
behind the user. The older spelling is looked for in the whole record. -/
inductive NamesThread (id : UInt64) (userHost : Bytes) (below : List Bytes) : Prop
  | onLine {tail : Bytes} (plain : behind (bytes "Thread_id: ") userHost = none)
      (line : below.head? = some (bytes "# Thread_id: " ++ (decimal id.toNat ++ tail)))
      (apart : ∀ c ∈ tail.head?, Scan.isDigit c = false)
  | behindUser {gap tail : Bytes} (plain : ∀ t ∈ userHost :: below,
        behind (bytes "Thread_id: ") t = none)
      (field : behind (bytes "Id: ") userHost = some (gap ++ (decimal id.toNat ++ tail)))
      (spacing : ∀ c ∈ gap, Scan.isSpace c = true)
      (apart : ∀ c ∈ tail.head?, Scan.isDigit c = false)

/-- A number ends where the server lets it end, or with its line. -/
theorem head_apart {tail x : Bytes} (htail : ∀ c ∈ tail.head?, Scan.isDigit c = false)
    (hx : ∀ c ∈ x.head?, c = newline) : ∀ c ∈ (tail ++ x).head?, Scan.isDigit c = false := by
  cases tail with
  | nil =>
      intro c hc
      rw [hx c hc]
      exact Scan.isDigit_newline
  | cons d tail => exact htail

/-- The thread that a record names is read back. -/
theorem NamesThread.getThreadId {id : UInt64} {userHost : Bytes} {below : List Bytes}
    (h : NamesThread id userHost below) (hbelow : below ≠ []) (missing : Bool) :
    (QueryLogData.ofChars (cutEnd missing (writeLines (userHost :: below)))).getThreadId = id := by
  have hline : newline ∉ bytes "Thread_id: " := by decide
  have hname : bytes "Thread_id: " ≠ [] := by decide
  have hread : ∀ {tail x : Bytes}, (∀ c ∈ tail.head?, Scan.isDigit c = false) →
      (∀ c ∈ x.head?, c = newline) → Scan.strtoull (decimal id.toNat ++ (tail ++ x)) = id :=
    fun htail hx => Scan.strtoull_decimal id (head_apart htail hx)
  rw [QueryLogData.getThreadId_of_empty rfl, QueryLogData.ofChars, QueryLogData.new_data,
    QueryLogData.threadIdField_ofBytes]
  -- the older spelling is found first
  cases h with
  | onLine plain line apart =>
      obtain ⟨rest, rfl⟩ := List.head?_eq_some_iff.mp line
      obtain ⟨x, hx, hend⟩ := exists_cutEnd_writeLines_cons missing
        (bytes "# Thread_id: " ++ (decimal id.toNat ++ _)) rest
      have hmark : bytes "# Thread_id: " = bytes "# " ++ bytes "Thread_id: " := by decide
      have hhead : (bytes "Thread_id: ").head? = some 84 := by decide
      rw [cutEnd_writeLines_cons missing _ hbelow, behind_append_newline hline hname, plain, hx,
        hmark, List.append_assoc, List.append_assoc, List.append_assoc,
        behind_append_of_not_mem hhead (by decide), behind_self hname, Option.map_none,
        Option.none_or, Option.some_or, Option.map_some, Option.getD_some]
      exact hread apart hend
  | behindUser plain field spacing apart =>
      have hid : newline ∉ bytes "Id: " ∧ bytes "Id: " ≠ [] := by decide
      rw [behind_cutEnd_of_none hline hname plain, cutEnd_writeLines_cons missing _ hbelow,
        behind_append_newline hid.1 hid.2, field, Option.map_some, Option.some_or,
        Option.none_or, Option.map_some, Option.getD_some, List.append_assoc, List.append_assoc,
        Scan.strtoull_stopsAtNewline.skip_all spacing]
      exact hread apart (by simp)

end Threads

/-- A record of a session. -/
structure SessionRecord (mktime : Tm → Int) extends SlowRecord mktime where
  threadId : UInt64
  thread_named : NamesThread threadId userHost (metadata ++ statement)

namespace SessionRecord

variable {mktime : Tm → Int} (r : SessionRecord mktime)

/-- The record of a command that ends the session. -/
def isQuit : Bool :=
  (r.metadata ++ r.statement).any (bytes "# administrator command: Quit;").isPrefixOf

/-- The statement of the record as the connection executes it. -/
def text (removeTimestamp : Bool) : Bytes :=
  joinLines (keptLines removeTimestamp (r.statement.dropWhile isComment))

/-- Whether the session executes the record. -/
def executedBy (id : UInt64) : Bool := decide (r.threadId = id) && !r.isQuit

variable {r} {missing : Bool}

theorem lines_body (h : missing = true → ∃ t ∈ r.body.getLast?, t ≠ []) :
    lines newline (cutEnd missing (writeLines r.body)) = closeLines missing r.body :=
  lines_cutEnd (fun t ht => r.no_newline t (List.mem_append_right _ ht)) h

theorem isQuit_body (h : missing = true → ∃ t ∈ r.body.getLast?, t ≠ []) :
    (QueryLogData.ofChars (cutEnd missing (writeLines r.body))).isQuit = r.isQuit := by
  have hmarker : bytes "\n# administrator command: Quit;" =
      newline :: bytes "# administrator command: Quit;" := by decide
  have hline : newline ∉ bytes "# administrator command: Quit;" := by decide
  rw [Bool.eq_iff_iff, isQuit, List.any_eq_true, ← LoggedEntry.exists_closeLines_iff hline missing,
    ← LoggedEntry.tail_closeLines missing r.userHost]
  change (search _ (cutEnd missing (writeLines r.body))).isSome = true ↔ _
  rw [hmarker, search_newline_isSome_iff hline (by decide), lines_body h]
  rfl

theorem getQuery_body (h : missing = true → ∃ t ∈ r.body.getLast?, t ≠ [])
    (removeTimestamp : Bool) :
    (QueryLogData.ofChars (cutEnd missing (writeLines r.body))).getQuery removeTimestamp =
      r.text removeTimestamp := by
  have huser : isComment r.userHost = true := by
    obtain ⟨u, hu⟩ := List.isPrefixOf_iff_prefix.mp r.userHost_marker
    rw [← hu]
    rfl
  have hmetadata : ∀ m ∈ r.userHost :: r.metadata, isComment m = true := by
    rw [List.forall_mem_cons]
    exact ⟨huser, fun m hm => (r.metadata_comment m hm).1⟩
  rw [QueryLogData.getQuery_eq_foldl]
  change ((lines newline (cutEnd missing (writeLines r.body))).foldl
    (QueryLogData.getQueryStep removeTimestamp) ([], false)).1 = _
  rw [lines_body h, foldl_closeLines (getQueryStep_terminated removeTimestamp),
    foldl_getQueryStep, text, ← List.dropWhile_append_of_pos hmetadata]
  rfl

/-- The bytes of a record have the session execute its statement and no other session. -/
theorem recordText?_body (h : missing = true → ∃ t ∈ r.body.getLast?, t ≠ [])
    (options : QueryLogOptions) (id : UInt64) :
    recordText? options id (cutEnd missing (writeLines r.body)) =
      if r.executedBy id then some (r.text (!options.runSetTimestamp)) else none := by
  have hid : (QueryLogData.ofChars (cutEnd missing (writeLines r.body))).getThreadId = r.threadId :=
    r.thread_named.getThreadId r.rest_ne_nil missing
  rw [recordText?, hid, isQuit_body h, getQuery_body h, executedBy]
  simp only [Bool.and_eq_true, decide_eq_true_eq, Bool.not_eq_eq_eq_not, Bool.not_true]

end SessionRecord

/-- A slow log of the records of sessions behind the banner of a server, perhaps without the final
newline. -/
structure WrittenLog (mktime : Tm → Int) where
  banner : List Bytes
  records : List (SessionRecord mktime)
  missing : Bool
  banner_line : ∀ t ∈ banner, IsBannerLine t
  last_text : missing = true →
    ∃ t ∈ (banner ++ records.flatMap fun r => r.toSlowRecord.texts).getLast?, t ≠ []

namespace WrittenLog

variable {mktime : Tm → Int}

def texts (log : WrittenLog mktime) : List Bytes :=
  log.banner ++ log.records.flatMap fun r => r.toSlowRecord.texts

/-- The bytes of the log. -/
def written (log : WrittenLog mktime) : Bytes := cutEnd log.missing (writeLines log.texts)

/-- What the session has executed. -/
def statements (log : WrittenLog mktime) (options : QueryLogOptions) (id : UInt64) : List Bytes :=
  (log.records.filter (·.executedBy id)).map (·.text (!options.runSetTimestamp))

/-- The bytes of the records, of which only the last one can lack its newline. -/
def closeBodies (missing : Bool) : List (SessionRecord mktime) → List Bytes
  | [] => []
  | r :: rest => cutEnd (missing && rest.isEmpty) (writeLines r.body) :: closeBodies missing rest

theorem flatten_sectionBlocks {missing : Bool} {records : List (SessionRecord mktime)}
    {sections : List (List Bytes × SlowRecord mktime)}
    (hrecords : sections.map Prod.snd = records.map (·.toSlowRecord))
    (hbanner : ∀ s ∈ sections.tail, s.1 = []) (offset : ℕ) (time : TimePoint) :
    (sectionBlocks mktime [] offset time (sectionsOf missing sections)).map (·.lines.flatten) =
      closeBodies missing records := by
  induction sections generalizing records offset time with
  | nil =>
      rw [List.map_nil, eq_comm, List.map_eq_nil_iff] at hrecords
      rw [hrecords]
      rfl
  | cons s rest ih =>
      obtain ⟨r, records, rfl⟩ : ∃ r rs, records = r :: rs := by
        cases records with
        | nil => cases hrecords
        | cons r rs => exact ⟨r, rs, rfl⟩
      rw [List.map_cons, List.map_cons, List.cons.injEq] at hrecords
      obtain ⟨hr, hrest⟩ := hrecords
      have hempty : rest.isEmpty = records.isEmpty := by
        have hlength := congrArg List.length hrest
        rw [List.length_map, List.length_map] at hlength
        rw [Bool.eq_iff_iff, List.isEmpty_iff_length_eq_zero, List.isEmpty_iff_length_eq_zero,
          hlength]
      have hnext : nextBanner (sectionsOf missing rest) = [] := by
        cases rest with
        | nil => rfl
        | cons t rest =>
            have ht := hbanner t List.mem_cons_self
            simp [sectionsOf, nextBanner, ht]
      rw [sectionsOf, sectionBlocks, List.map_cons, closeBodies, hnext, List.append_nil,
        SlowRecord.group_body, flatten_closeLines, hr, hempty]
      congr 1
      exact ih hrest (fun t ht => hbanner t (List.mem_of_mem_tail ht)) _ _

/-- The records of a log are those that were written. -/
theorem recordTexts_written (log : WrittenLog mktime) :
    recordTexts log.written = closeBodies log.missing log.records := by
  have htexts : (log.records.flatMap fun r => r.toSlowRecord.texts) =
      (log.records.map (·.toSlowRecord)).flatMap SlowRecord.texts := by
    rw [List.flatMap_map]
  obtain ⟨hblocks, hsql⟩ := @logBlocks_written mktime (log.records.map (·.toSlowRecord)) _ _
    log.banner_line (by rw [← htexts]; exact log.last_text)
  rw [recordTexts_eq_blocks mktime, written, texts, htexts, hblocks,
    List.filter_eq_self.mpr hsql]
  refine flatten_sectionBlocks (bannerFirst_map_snd log.banner _) ?_ 0 epoch
  cases log.records with
  | nil => simp [bannerFirst]
  | cons r rest => simp [bannerFirst]

theorem filterMap_closeBodies (missing : Bool) (records : List (SessionRecord mktime))
    (h : missing = true → ∀ t ∈ (records.flatMap fun r => r.toSlowRecord.texts).getLast?, t ≠ [])
    (options : QueryLogOptions) (id : UInt64) :
    (closeBodies missing records).filterMap (recordText? options id) =
      (records.filter (·.executedBy id)).map (·.text (!options.runSetTimestamp)) := by
  induction records with
  | nil => rfl
  | cons r rest ih =>
      have hbody : r.body ≠ [] := List.cons_ne_nil _ _
      have hlast : (missing && rest.isEmpty) = true → ∃ t ∈ r.body.getLast?, t ≠ [] := by
        intro hmissing
        obtain ⟨hmissing, hempty⟩ := Bool.and_eq_true_iff.mp hmissing
        refine ⟨r.body.getLast hbody, List.getLast?_eq_some_getLast hbody, h hmissing _ ?_⟩
        rw [List.isEmpty_iff.mp hempty, List.flatMap_singleton, SlowRecord.texts,
          List.getLast?_append_of_ne_nil _ hbody]
        exact List.getLast?_eq_some_getLast hbody
      have hrest : missing = true →
          ∀ t ∈ (rest.flatMap fun r => r.toSlowRecord.texts).getLast?, t ≠ [] := by
        intro hmissing t ht
        refine h hmissing t ?_
        rw [List.flatMap_cons, List.getLast?_append, ht]
        rfl
      rw [closeBodies, List.filterMap_cons, SessionRecord.recordText?_body hlast, ih hrest,
        List.filter_cons]
      cases r.executedBy id <;> rfl

theorem askedTexts_written (log : WrittenLog mktime) (options : QueryLogOptions) (id : UInt64) :
    InputPlugin.askedTexts options id log.written .queryLog = log.statements options id := by
  rw [InputPlugin.askedTexts, recordTexts_written]
  refine filterMap_closeBodies log.missing log.records (fun hmissing t ht => ?_) options id
  obtain ⟨last, hlast, hne⟩ := log.last_text hmissing
  rw [List.getLast?_append, ht, Option.some_or, Option.mem_some_iff] at hlast
  rwa [hlast]

/-- Whatever the settings, every session executes its own statements again, in the order in which
they were logged. -/
theorem connectionTexts_written (log : WrittenLog mktime) (mktime' : Tm → Int)
    (options : QueryLogOptions) (accurateMode : Bool) (id : UInt64) :
    connectionTexts mktime' options .queryLog accurateMode log.written id =
      log.statements options id :=
  (connectionTexts_eq mktime' options .queryLog accurateMode log.written id).trans
    (log.askedTexts_written options id)

/-- Every session of the log is found among the entries. -/
theorem exists_entry_of_mem (log : WrittenLog mktime) {r : SessionRecord mktime}
    (hr : r ∈ log.records) (mktime' : Tm → Int) (options : QueryLogOptions) (accurateMode : Bool) :
    ∃ e ∈ (parsedEntries mktime' options .queryLog accurateMode log.written).toPop,
      getThreadId e = r.threadId := by
  have hget := getEntries_eq mktime' { options with accurateMode := accurateMode }
    (StringRef.ofBytes log.written)
  have hconnection := getEntries_connection hget r.threadId
  obtain ⟨body, hbody, hid⟩ : ∃ body ∈ recordTexts log.written,
      (QueryLogData.ofChars body).getThreadId = r.threadId := by
    rw [recordTexts_written]
    generalize log.records = records at hr
    induction records with
    | nil => cases hr
    | cons first rest ih =>
        rcases List.mem_cons.mp hr with rfl | hr
        · exact ⟨_, List.mem_cons_self, r.thread_named.getThreadId r.rest_ne_nil _⟩
        · obtain ⟨body, hbody, hid⟩ := ih hr
          exact ⟨body, List.mem_cons_of_mem _ hbody, hid⟩
  have hmem : body ∈ (recordTexts log.written).filter fun chars =>
      (QueryLogData.ofChars chars).getThreadId = r.threadId := by
    simp [hbody, hid]
  rw [← hconnection] at hmem
  obtain ⟨d, hd, -⟩ := List.mem_map.mp hmem
  obtain ⟨hd, hthread⟩ := List.mem_filter.mp hd
  refine ⟨.queryLog ⟨d, false⟩, ?_, decide_eq_true_eq.mp hthread⟩
  rw [parsedEntries, InputPlugin.getEntries, hget]
  exact List.mem_map_of_mem (List.mem_map_of_mem hd)

end WrittenLog

section Runs

open MySQL MySQLDBThread

variable {mktime mktime' : Tm → Int} {options : QueryLogOptions} {accurateMode : Bool} {depth : ℕ}
  {s : ThreadPerConnection.State AnyEntries AnyEntry}

namespace ThreadPerConnection

/-- When the dispatcher has returned, every connection of the log has had one thread, and on each
thread that has failed with nothing the server has got just the texts of the connection. -/
theorem sent_of_returned {plugin : InputPlugin} {data : Bytes}
    (h : Reaches depth (begin mktime' options plugin accurateMode data) s)
    (hpc : s.pc = .returned) :
    (s.workers.map Worker.threadId).Nodup ∧
      (∀ e ∈ (parsedEntries mktime' options plugin accurateMode data).toPop,
        ∃ w ∈ s.workers, w.threadId = getThreadId e) ∧
      ∀ w ∈ s.workers, ∀ env haveConnected t, attempts env ≠ 0 →
        Returned env haveConnected (w.stream.map (·.threadEntry options)) t →
          (∀ x ∈ t, x.fails = false) →
            sent t = connectionTexts mktime' options plugin accurateMode data w.threadId := by
  have hinv := inv_of_begin h
  refine ⟨hinv.workers.distinct, fun e he => exists_worker_of_returned hinv hpc he, ?_⟩
  intro w hw env haveConnected t hattempts ht hnone
  rw [ht.sent_eq hattempts hnone, queryTexts_of_returned hinv hpc hw]

/-- When the dispatcher has replayed a log that a server has written, every session of the log has
had one thread, and on each thread that has failed with nothing the server has got just what it had
executed for the session. -/
theorem threadPerConnection_sends_written (log : WrittenLog mktime)
    (h : Reaches depth (begin mktime' options .queryLog accurateMode log.written) s)
    (hpc : s.pc = .returned) :
    (s.workers.map Worker.threadId).Nodup ∧
      (∀ r ∈ log.records, ∃ w ∈ s.workers, w.threadId = r.threadId) ∧
      ∀ w ∈ s.workers, ∀ env haveConnected t, attempts env ≠ 0 →
        Returned env haveConnected (w.stream.map (·.threadEntry options)) t →
          (∀ x ∈ t, x.fails = false) → sent t = log.statements options w.threadId := by
  obtain ⟨hdistinct, hthreads, hsent⟩ := sent_of_returned h hpc
  refine ⟨hdistinct, fun r hr => ?_, ?_⟩
  · obtain ⟨e, he, hid⟩ := log.exists_entry_of_mem hr mktime' options accurateMode
    exact hid ▸ hthreads e he
  · intro w hw env haveConnected t hattempts ht hnone
    rw [hsent w hw env haveConnected t hattempts ht hnone]
    exact (connectionTexts_eq mktime' options .queryLog accurateMode log.written w.threadId).trans
      (log.askedTexts_written options w.threadId)

/-- With at most 10001 connections some run returns. -/
theorem exists_returned {plugin : InputPlugin} {data : Bytes} (hdepth : 0 < depth)
    (hfew : (connections (parsedEntries mktime options plugin accurateMode data).toPop).card ≤
      10001) :
    ∃ s, Reaches depth (begin mktime options plugin accurateMode data) s ∧ s.pc = .returned := by
  have hready := plugin.getEntries_dispatchable mktime options accurateMode data
  have hstart : Inv _ (begin mktime options plugin accurateMode data) :=
    Inv.dispatch (AnyEntries.drains_toPop _) rfl rfl
  rw [← hready.connections_eq] at hfew
  obtain ⟨s, hs, hfinal⟩ :=
    (terminatesIn hready.lastMarked hfew hdepth hstart rfl rfl).exists_final
  exact ⟨s, hs, hfinal.2⟩

/-- The record of a statement on the line below the user. -/
def onLineRecord : SessionRecord fun td => td.sec where
  toSlowRecord := sampleRecord
  threadId := 410242
  thread_named := @NamesThread.onLine _ _ _ (bytes " Schema: art78") (by decide) (by decide) (by
    intro c hc
    cases hc
    decide)

/-- The record of another statement, with the thread behind the user. -/
def behindUserRecord : SessionRecord fun td => td.sec where
  timeLine := none
  userHost := bytes "# User@Host: root[root] @ localhost []  Id:     7"
  metadata := [bytes "# Query_time: 0.1  Lock_time: 0.0"]
  statement := [bytes "SET timestamp=1;", bytes "commit;"]
  timeLine_valid := by
    intro t ht
    cases ht
  userHost_marker := by decide
  metadata_comment := by decide
  statement_no_header := by decide
  statement_sql := by decide
  no_newline := by decide
  threadId := 7
  thread_named := @NamesThread.behindUser _ _ _ (bytes "    ") [] (by decide) (by decide)
    (List.all_eq_true.mp (by decide)) nofun

/-- The log of the two sessions. -/
def twoSessions : WrittenLog fun td => td.sec where
  banner := [bytes "Tcp port: 3306"]
  records := [onLineRecord, behindUserRecord, onLineRecord]
  missing := true
  banner_line := by
    intro t ht
    obtain rfl : t = bytes "Tcp port: 3306" := by simpa using ht
    exact ⟨by decide, by decide, Or.inr (Or.inl (by decide))⟩
  last_text := fun _ => ⟨bytes "order by id;", by decide, by decide⟩

/-- The options that leave the entries in the order of the log. -/
def unsortedOptions : QueryLogOptions := ⟨false, false, false, true⟩

/-- The log has a run that returns. -/
theorem twoSessions_run : ∃ s, Reaches 1
    (begin (fun td => td.sec) unsortedOptions .queryLog false twoSessions.written) s ∧
      s.pc = .returned := by
  refine exists_returned Nat.one_pos ?_
  decide +kernel

theorem threadPerConnection_sends_written_sample : ∃ s, Reaches 1
    (begin (fun td => td.sec) unsortedOptions .queryLog false twoSessions.written) s ∧
      s.pc = .returned ∧ ∃ w ∈ s.workers, w.threadId = 7 ∧ ∀ env haveConnected t,
        attempts env ≠ 0 →
          Returned env haveConnected (w.stream.map (·.threadEntry unsortedOptions)) t →
            (∀ x ∈ t, x.fails = false) → sent t = [bytes "commit;"] := by
  obtain ⟨s, hs, hpc⟩ := twoSessions_run
  obtain ⟨-, hsessions, hsent⟩ := threadPerConnection_sends_written twoSessions hs hpc
  obtain ⟨w, hw, hid⟩ := hsessions behindUserRecord (by simp [twoSessions])
  have hstatements : twoSessions.statements unsortedOptions 7 = [bytes "commit;"] := by decide
  refine ⟨s, hs, hpc, w, hw, hid, fun env haveConnected t hattempts ht hnone => ?_⟩
  rw [hsent w hw env haveConnected t hattempts ht hnone, hid]
  exact hstatements

end ThreadPerConnection

end Runs

end QueryPlayback
