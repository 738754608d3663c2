import QueryPlayback.Dispatch.Refinement
import QueryPlayback.Dispatch.Termination
import QueryPlayback.Dispatch.QueueDepth
import QueryPlayback.Dispatch.ShutdownFlags
import QueryPlayback.Playback.Input

/-!
# Replaying either log

What a parser returns is handed to a dispatcher, which may write shutdown flags
into it. The flags are all that is written, so both dispatchers follow one
script, whichever of the two logs has been parsed and whatever bytes it holds.

## Implementation notes

The content of an entry is what its log says. The thread id that a slow log's
entry remembers is no part of it, since asking again finds the same id.
-/

namespace QueryPlayback

open QueryEntry QueryEntries Replay Bounded Relation

instance : QueryEntry AnyEntry where
  getThreadId
    | .queryLog e => getThreadId e
    | .generalLog e => getThreadId e
  isQuit
    | .queryLog e => isQuit e
    | .generalLog e => isQuit e
  isShutdown
    | .queryLog e => isShutdown e
    | .generalLog e => isShutdown e

/-- What the log says of the entry. -/
def AnyEntry.content : AnyEntry → AnyEntry
  | queryLog e => .queryLog ⟨{ e.data with threadId := 0 }, false⟩
  | generalLog e => .generalLog { e with shutdown := false }

section Marks

variable {ε ε' A : Type} [QueryEntry ε] [QueryEntry ε']

/-- Wrapping the entries keeps the places of the flags. -/
theorem LastMarked.map {f : ε → ε'} (hid : ∀ e, getThreadId (f e) = getThreadId e)
    (hflag : ∀ e, isShutdown (f e) = isShutdown e) {l : List ε} (h : LastMarked l) :
    LastMarked (l.map f) := by
  induction l with
  | nil => trivial
  | cons e rest ih =>
      refine ⟨?_, ih h.2⟩
      have hids : (rest.map f).map getThreadId = rest.map getThreadId := by
        rw [List.map_map]
        exact List.map_congr_left fun x _ => hid x
      rw [ofThread_eq_nil_iff, hids, hid, hflag, ← ofThread_eq_nil_iff]
      exact h.1

theorem map_handle (view : ε → A) (e : ε) :
    (Worker.handle e).map view = if isQuit e then .reconnect (view e) else .execute (view e) := by
  unfold Worker.handle
  split <;> rfl

/-- The script depends on the thread ids, on which entries quit and on what is seen of them. -/
theorem script_congr {view : ε → A} {l l' : List ε}
    (h : l.map (fun e => (getThreadId e, isQuit e, view e)) =
      l'.map fun e => (getThreadId e, isQuit e, view e)) : script view l = script view l' := by
  funext id
  have hscript : ∀ l : List ε, script view l id =
      ((l.map fun e => (getThreadId e, isQuit e, view e)).filter (·.1 = id)).map
        fun p => if p.2.1 then .reconnect p.2.2 else .execute p.2.2 := by
    intro l
    rw [List.filter_map, List.map_map]
    exact List.map_congr_left fun e _ => map_handle view e
  rw [hscript, h, ← hscript]

end Marks

/-- What becomes of the entries of `q` when a dispatcher pops them, flagged or not. -/
structure AnyEntries.Dispatchable (q : AnyEntries) : Prop where
  unmarked : ∀ e ∈ q.toPop, isShutdown e = false
  lastMarked : LastMarked (setShutdownOnLastQueryOfConn q).toPop
  same : (setShutdownOnLastQueryOfConn q).toPop.map
      (fun e => (getThreadId e, isQuit e, e.content)) =
    q.toPop.map fun e => (getThreadId e, isQuit e, e.content)

/-- Setting the flags leaves the script as it is. -/
theorem AnyEntries.Dispatchable.script_eq {q : AnyEntries} (h : q.Dispatchable) :
    script AnyEntry.content (setShutdownOnLastQueryOfConn q).toPop =
      script AnyEntry.content q.toPop := script_congr h.same

theorem AnyEntries.Dispatchable.map_getThreadId {q : AnyEntries} (h : q.Dispatchable) :
    (setShutdownOnLastQueryOfConn q).toPop.map getThreadId = q.toPop.map getThreadId := by
  have hids := congrArg (List.map Prod.fst) h.same
  rwa [List.map_map, List.map_map] at hids

theorem AnyEntries.Dispatchable.length_eq {q : AnyEntries} (h : q.Dispatchable) :
    (setShutdownOnLastQueryOfConn q).toPop.length = q.toPop.length := by
  have hlength := congrArg List.length h.same
  rwa [List.length_map, List.length_map] at hlength

theorem AnyEntries.Dispatchable.connections_eq {q : AnyEntries} (h : q.Dispatchable) :
    ThreadPerConnection.connections (setShutdownOnLastQueryOfConn q).toPop =
      ThreadPerConnection.connections q.toPop := by
  rw [ThreadPerConnection.connections, h.map_getThreadId, ThreadPerConnection.connections]

/-- Filling the cache of the thread id does not change what the log says. -/
theorem QueryLogData.parseThreadId_snd_forget (d : QueryLogData) :
    { d.parseThreadId.2 with threadId := 0 } = { d with threadId := 0 } := by
  have hdata := d.parseThreadId_snd_data
  have hstart := d.parseThreadId_snd_startTime
  cases d
  simp_all

theorem QueryLogEntries.Fresh.dispatchable {q : QueryLogEntries} (h : q.Fresh) :
    (AnyEntries.queryLog q).Dispatchable where
  unmarked e he := by
    obtain ⟨x, hx, rfl⟩ := List.mem_map.mp he
    exact h.toPop_not_shutdown x hx
  lastMarked := h.lastMarked.map (f := AnyEntry.queryLog) (fun _ => rfl) fun _ => rfl
  same := by
    change (q.setShutdownOnLastQueryOfConn.toPop.map AnyEntry.queryLog).map _ =
      (q.toPop.map AnyEntry.queryLog).map _
    rw [toPop, toPop, setShutdownOnLastQueryOfConn]
    dsimp only
    rw [foldr_markStep_entries, List.append_nil]
    simp only [List.map_map]
    apply List.map_congr_left
    intro d _
    have hid : d.parseThreadId.2.getThreadId = d.getThreadId := d.getThreadId_parseThreadId_snd
    have hquit : d.parseThreadId.2.isQuit = d.isQuit := by
      rw [QueryLogData.isQuit, d.parseThreadId_snd_data, QueryLogData.isQuit]
    have hcontent := d.parseThreadId_snd_forget
    refine Prod.ext hid (Prod.ext hquit ?_)
    change AnyEntry.queryLog ⟨{ d.parseThreadId.2 with threadId := 0 }, false⟩ =
      AnyEntry.queryLog ⟨{ d with threadId := 0 }, false⟩
    rw [hcontent]

/-- The general log's loop writes nothing but flags into the entries. -/
theorem GeneralLogQueryEntries.dispatchable {q : GeneralLogQueryEntries} (hpos : q.pos = 0)
    (h : ∀ e ∈ q.entries, e.shutdown = false) : (AnyEntries.generalLog q).Dispatchable := by
  have htoPop : (AnyEntries.generalLog q).toPop = q.entries.map .generalLog := by
    rw [AnyEntries.toPop, hpos, List.drop_zero]
  have hmarked : (QueryEntries.setShutdownOnLastQueryOfConn (AnyEntries.generalLog q)).toPop =
      (q.entries.foldr markStep ([], [])).2.map .generalLog := by
    change (q.setShutdownOnLastQueryOfConn.entries.drop q.pos).map _ = _
    rw [hpos, List.drop_zero]
    rfl
  refine ⟨?_, ?_, ?_⟩
  · rw [htoPop]
    intro e he
    obtain ⟨x, hx, rfl⟩ := List.mem_map.mp he
    exact h x hx
  · rw [hmarked]
    exact (foldr_markStep_lastMarked h).map (f := AnyEntry.generalLog) (fun _ => rfl) fun _ => rfl
  · have hsay : ∀ l : List GeneralLogEntry, (l.map AnyEntry.generalLog).map
        (fun e => (getThreadId e, isQuit e, e.content)) =
        (l.map fun e => { e with shutdown := false }).map fun e =>
          (e.threadId, e.isQuit, AnyEntry.generalLog { e with shutdown := false }) := by
      intro l
      rw [List.map_map, List.map_map]
      rfl
    have hself : q.entries.map (fun e => { e with shutdown := false }) = q.entries := by
      refine (List.map_congr_left fun e he => ?_).trans (List.map_id _)
      change { e with shutdown := false } = e
      rw [← h e he]
    rw [hmarked, htoPop, hsay, hsay, foldr_markStep_entries h, hself]

section Parsed

variable (mktime : Tm → Int) (options : QueryLogOptions)

/-- Whatever the bytes, a dispatcher can take what the parser returns. -/
theorem InputPlugin.getEntries_dispatchable (plugin : InputPlugin) (accurateMode : Bool)
    (data : Bytes) : (plugin.getEntries mktime options accurateMode data).1.Dispatchable := by
  cases plugin with
  | queryLog =>
      unfold getEntries
      dsimp only
      split
      · rename_i q accurate hread
        exact (QueryLogEntries.getEntries_fresh hread).dispatchable
      · exact (⟨rfl, List.nodup_nil⟩ : QueryLogEntries.empty.Fresh).dispatchable
  | generalLog =>
      exact GeneralLogQueryEntries.dispatchable (ParseGeneralLog.getEntries_pos data)
        (ParseGeneralLog.getEntries_unmarked data)

end Parsed

section Runs

variable (mktime : Tm → Int) (options : QueryLogOptions) (plugin : InputPlugin)
  (accurateMode : Bool) (data : Bytes)

/-- The entries that the plugin parses from the bytes of its log. -/
abbrev parsedEntries : AnyEntries := (plugin.getEntries mktime options accurateMode data).1

/-- What the log asks to be done on each connection, in its own order. -/
abbrev logScript : UInt64 → List (Handled AnyEntry) :=
  script AnyEntry.content (parsedEntries mktime options plugin accurateMode data).toPop

/-- Two statements of one connection in a general log. -/
def sampleGeneralLog : Bytes := bytes " 7 Query a\n 7 Query b\n"

def sampleOptions : QueryLogOptions := ⟨false, false, false, false⟩

/-- What the parser makes of the sample. -/
def sampleGeneralEntries : AnyEntries :=
  .generalLog
    { entries := [{ threadId := 7, query := bytes "a " }, { threadId := 7, query := bytes "b " }]
      numEntries := 2
      numQueries := 2 }

theorem parsedEntries_sample : parsedEntries (fun _ => 0) sampleOptions .generalLog false
    sampleGeneralLog = sampleGeneralEntries := by
  decide +kernel

namespace ThreadPerConnection

/-- What the workers have done on each connection. -/
abbrev done (s : State AnyEntries AnyEntry) : UInt64 → List (Handled AnyEntry) :=
  performed AnyEntry.content (handledBy s.workers)

/-- A fresh dispatcher that begins to dispatch the entries of the log. -/
abbrev begin : State AnyEntries AnyEntry :=
  (State.init (parsedEntries mktime options plugin accurateMode data)).dispatch
    (parsedEntries mktime options plugin accurateMode data)

variable {mktime options plugin accurateMode data}
variable {depth : ℕ} {s s' : State AnyEntries AnyEntry}

/-- A run over the sample that ends. -/
theorem sampleGeneralLog_run : ∃ s, Reaches 1
    (begin (fun _ => 0) sampleOptions .generalLog false sampleGeneralLog) s ∧ s.pc = .returned := by
  rw [begin, parsedEntries_sample]
  exact ⟨_, .head (.popNew rfl rfl rfl) <| .head (.spawnCreate rfl (by decide)) <|
    .head (.push rfl rfl rfl rfl (by decide)) <|
    .head (.worker ⟨0, _, _, rfl, rfl, rfl⟩) <|
    .head (.popKnown rfl rfl rfl) <|
    .head (.push rfl rfl rfl rfl (by decide)) <|
    .head (.worker ⟨0, _, _, rfl, rfl, rfl⟩) <|
    .head (.worker ⟨0, _, _, rfl, rfl, rfl⟩) <|
    .head (.worker ⟨0, _, _, rfl, rfl, rfl⟩) <|
    .head (.worker ⟨0, _, _, rfl, rfl, rfl⟩) <|
    .head (.worker ⟨0, _, _, rfl, rfl, rfl⟩) <|
    .head (.popNone rfl rfl (.refl _)) <|
    .head (.join rfl rfl rfl rfl rfl) <|
    .head (.joinEnd rfl) .refl, rfl⟩

theorem inv_of_begin
    (h : Reaches depth (begin mktime options plugin accurateMode data) s) :
    Inv (setShutdownOnLastQueryOfConn
      (parsedEntries mktime options plugin accurateMode data)).toPop s :=
  (Inv.dispatch (AnyEntries.drains_toPop _) rfl rfl).reaches
    (plugin.getEntries_dispatchable mktime options accurateMode data).lastMarked h

theorem done_of_returned
    (h : Reaches depth (begin mktime options plugin accurateMode data) s)
    (hpc : s.pc = .returned) :
    done s = logScript mktime options plugin accurateMode data := by
  have hready := plugin.getEntries_dispatchable mktime options accurateMode data
  exact ((inv_of_begin h).performed_of_returned AnyEntry.content hready.lastMarked hpc).trans
    hready.script_eq

/-- Every run of the dispatcher is a run of the machine that replays the log, and it has
replayed all of the log when the dispatcher returns. -/
theorem threadPerConnection_replays_log
    (h : Reaches depth (begin mktime options plugin accurateMode data) s)
    (h' : Reaches depth s s') :
    Runs (logScript mktime options plugin accurateMode data) (done s) (done s') ∧
      (s'.pc = .returned → done s' = logScript mktime options plugin accurateMode data) := by
  have hready := plugin.getEntries_dispatchable mktime options accurateMode data
  have hrefines := refines (σ := AnyEntries) AnyEntry.content hready.lastMarked depth
  have hruns := (hrefines.runs (inv_of_begin h) h').1
  rw [hready.script_eq] at hruns
  exact ⟨hruns, done_of_returned (h.trans h')⟩

/-- The machine of the sample performs what the dispatcher has done in that run. -/
theorem threadPerConnection_replays_log_sample : ∃ s, Reaches 1
    (begin (fun _ => 0) sampleOptions .generalLog false sampleGeneralLog) s ∧ s.pc = .returned ∧
      Runs (logScript (fun _ => 0) sampleOptions .generalLog false sampleGeneralLog)
        (done (begin (fun _ => 0) sampleOptions .generalLog false sampleGeneralLog)) (done s) ∧
      (s.pc = .returned →
        done s = logScript (fun _ => 0) sampleOptions .generalLog false sampleGeneralLog) := by
  obtain ⟨s, hs, hpc⟩ := sampleGeneralLog_run
  exact ⟨s, hs, hpc, threadPerConnection_replays_log .refl hs⟩

/-- A connection is behind by at most what its queue holds and two entries more. -/
theorem threadPerConnection_behind_le_queueDepth
    (h : Reaches depth (begin mktime options plugin accurateMode data) s) (id : UInt64) :
    (ofThread id s.popped).length ≤ (done s id).length + depth + 2 :=
  (inv_of_begin h).behind_le AnyEntry.content (h.queuesWithin rfl) id

theorem threadPerConnection_behind_le_queueDepth_sample : ∃ s, Reaches 1
    (begin (fun _ => 0) sampleOptions .generalLog false sampleGeneralLog) s ∧ s.pc = .returned ∧
      (ofThread 7 s.popped).length ≤ (done s 7).length + 1 + 2 := by
  obtain ⟨s, hs, hpc⟩ := sampleGeneralLog_run
  exact ⟨s, hs, hpc, threadPerConnection_behind_le_queueDepth hs 7⟩

/-- With at most 10001 connections every run comes to an end, with the log replayed. -/
theorem threadPerConnection_terminates_with_log_replayed (hdepth : 0 < depth) {q : AnyEntries}
    (hq : parsedEntries mktime options plugin accurateMode data = q)
    (hfew : (connections q.toPop).card ≤ 10001) :
    TerminatesIn (Step depth) (6 * q.toPop.length + (connections q.toPop).card + 2)
      (begin mktime options plugin accurateMode data)
      fun s => s.pc = .returned ∧
        done s = logScript mktime options plugin accurateMode data := by
  subst hq
  set q := parsedEntries mktime options plugin accurateMode data with hq
  have hready : q.Dispatchable := plugin.getEntries_dispatchable mktime options accurateMode data
  have hconnections := hready.connections_eq
  have hstart : Inv (setShutdownOnLastQueryOfConn q).toPop ((State.init q).dispatch q) :=
    Inv.dispatch (AnyEntries.drains_toPop _) rfl rfl
  have hends := terminatesIn hready.lastMarked (hconnections ▸ hfew) hdepth hstart rfl rfl
  rw [hconnections, hready.length_eq] at hends
  refine ⟨hends.bounded, fun s hs hrest => ?_⟩
  have hpc := (hends.final s hs hrest).2
  exact ⟨hpc, done_of_returned hs hpc⟩

/-- The two statements are replayed in at most fifteen steps. -/
theorem threadPerConnection_terminates_with_log_replayed_sample : TerminatesIn (Step 1) 15
    (begin (fun _ => 0) sampleOptions .generalLog false sampleGeneralLog)
    fun s => s.pc = .returned ∧
      done s = logScript (fun _ => 0) sampleOptions .generalLog false sampleGeneralLog :=
  threadPerConnection_terminates_with_log_replayed (by decide) parsedEntries_sample (by decide)

end ThreadPerConnection

namespace ThreadPool

/-- What the workers have done on each connection. -/
abbrev done (s : State AnyEntries AnyEntry) : UInt64 → List (Handled AnyEntry) :=
  performed AnyEntry.content (handledQueries s.heap)

/-- A fresh dispatcher at the beginning of a run over the entries of the log. -/
abbrev begin : State AnyEntries AnyEntry :=
  (State.init (parsedEntries mktime options plugin accurateMode data)).run
    (parsedEntries mktime options plugin accurateMode data)

variable {mktime options plugin accurateMode data}
variable {c : Config} {s s' : State AnyEntries AnyEntry}

/-- A run over the sample that ends, with one worker whose queue holds one entry. -/
theorem sampleGeneralLog_run : ∃ s, Reaches ⟨1, 1, fun _ => 0⟩
    (begin (fun _ => 0) sampleOptions .generalLog false sampleGeneralLog) s ∧ s.pc = .returned := by
  rw [begin, parsedEntries_sample]
  exact ⟨_, .head (.create rfl (by decide)) <|
    .head (.createEnd rfl (by decide)) <|
    .head (.popSome rfl rfl) <|
    .head (.push rfl rfl (by decide)) <|
    .head (.popSome rfl rfl) <|
    .head (.worker ⟨0, _, _, rfl, rfl, rfl⟩) <|
    .head (.push rfl rfl (by decide)) <|
    .head (.popNone rfl rfl) <|
    .head (.worker ⟨0, _, _, rfl, rfl, rfl⟩) <|
    .head (.worker ⟨0, _, _, rfl, rfl, rfl⟩) <|
    .head (.worker ⟨0, _, _, rfl, rfl, rfl⟩) <|
    .head (.finish rfl rfl (by decide)) <|
    .head (.worker ⟨0, _, _, rfl, rfl, rfl⟩) <|
    .head (.worker ⟨0, _, _, rfl, rfl, rfl⟩) <|
    .head (.worker ⟨0, _, _, rfl, rfl, rfl⟩) <|
    .head (.worker ⟨0, _, _, rfl, rfl, rfl⟩) <|
    .head (.worker ⟨0, _, _, rfl, rfl, rfl⟩) <|
    .head (.finishEnd rfl (by decide)) <|
    .head (.join rfl rfl rfl) <|
    .head (.joinEnd rfl (by decide)) .refl, rfl⟩

theorem inv_of_begin (hpos : 0 < c.threadsCount)
    (h : Reaches c (begin mktime options plugin accurateMode data) s) :
    Inv c (parsedEntries mktime options plugin accurateMode data).toPop s ∧ s.Cleared := by
  have hready := plugin.getEntries_dispatchable mktime options accurateMode data
  have hrefines := refines (σ := AnyEntries) (c := c) AnyEntry.content (fun _ => hpos)
    hready.unmarked
  exact (hrefines.runs ⟨Inv.run (AnyEntries.drains_toPop _) rfl, State.run_cleared _ _⟩ h).2

theorem done_of_returned (hpos : 0 < c.threadsCount)
    (h : Reaches c (begin mktime options plugin accurateMode data) s)
    (hpc : s.pc = .returned) :
    done s = logScript mktime options plugin accurateMode data := by
  have hready := plugin.getEntries_dispatchable mktime options accurateMode data
  obtain ⟨hinv, hcleared⟩ := inv_of_begin hpos h
  exact hinv.performed_of_returned AnyEntry.content (fun _ => hpos) hready.unmarked hcleared hpc

/-- Every run of the dispatcher is a run of the machine that replays the log, and it has
replayed all of the log when the dispatcher returns. -/
theorem threadPool_replays_log (hpos : 0 < c.threadsCount)
    (h : Reaches c (begin mktime options plugin accurateMode data) s) (h' : Reaches c s s') :
    Runs (logScript mktime options plugin accurateMode data) (done s) (done s') ∧
      (s'.pc = .returned → done s' = logScript mktime options plugin accurateMode data) := by
  have hready := plugin.getEntries_dispatchable mktime options accurateMode data
  have hrefines := refines (σ := AnyEntries) (c := c) AnyEntry.content (fun _ => hpos)
    hready.unmarked
  exact ⟨(hrefines.runs (inv_of_begin hpos h) h').1, done_of_returned hpos (h.trans h')⟩

/-- The machine of the sample performs what the dispatcher has done in that run. -/
theorem threadPool_replays_log_sample : ∃ s, Reaches ⟨1, 1, fun _ => 0⟩
    (begin (fun _ => 0) sampleOptions .generalLog false sampleGeneralLog) s ∧ s.pc = .returned ∧
      Runs (logScript (fun _ => 0) sampleOptions .generalLog false sampleGeneralLog)
        (done (begin (fun _ => 0) sampleOptions .generalLog false sampleGeneralLog)) (done s) ∧
      (s.pc = .returned →
        done s = logScript (fun _ => 0) sampleOptions .generalLog false sampleGeneralLog) := by
  obtain ⟨s, hs, hpc⟩ := sampleGeneralLog_run
  exact ⟨s, hs, hpc, threadPool_replays_log (by decide) .refl hs⟩

/-- A connection is behind by at most what the queue of its worker holds and two entries more. -/
theorem threadPool_behind_le_queueDepth (hpos : 0 < c.threadsCount)
    (h : Reaches c (begin mktime options plugin accurateMode data) s) (id : UInt64) :
    (ofThread id s.popped).length ≤ (done s id).length + c.queueDepth + 2 := by
  have hready := plugin.getEntries_dispatchable mktime options accurateMode data
  obtain ⟨hinv, hcleared⟩ := inv_of_begin hpos h
  exact hinv.behind_le AnyEntry.content (fun _ => hpos) hready.unmarked hcleared
    (h.queuesWithin rfl) id

theorem threadPool_behind_le_queueDepth_sample : ∃ s, Reaches ⟨1, 1, fun _ => 0⟩
    (begin (fun _ => 0) sampleOptions .generalLog false sampleGeneralLog) s ∧ s.pc = .returned ∧
      (ofThread 7 s.popped).length ≤ (done s 7).length + 1 + 2 := by
  obtain ⟨s, hs, hpc⟩ := sampleGeneralLog_run
  exact ⟨s, hs, hpc, threadPool_behind_le_queueDepth (by decide) hs 7⟩

/-- Every run comes to an end, with the log replayed. -/
theorem threadPool_terminates_with_log_replayed (hpos : 0 < c.threadsCount)
    (hdepth : 0 < c.queueDepth) :
    TerminatesIn (Step c)
      (5 * (parsedEntries mktime options plugin accurateMode data).toPop.length +
        6 * c.threadsCount + 4) (begin mktime options plugin accurateMode data)
      fun s => s.pc = .returned ∧
        done s = logScript mktime options plugin accurateMode data := by
  have hready := plugin.getEntries_dispatchable mktime options accurateMode data
  have hstart : Inv c (parsedEntries mktime options plugin accurateMode data).toPop
      (begin mktime options plugin accurateMode data) :=
    Inv.run (AnyEntries.drains_toPop _) rfl
  have hends := terminatesIn (fun _ => hpos) hdepth hready.unmarked hstart rfl
  refine ⟨hends.bounded, fun s hs hrest => ?_⟩
  have hpc := (hends.final s hs hrest).2
  exact ⟨hpc, done_of_returned hpos hs hpc⟩

theorem threadPool_terminates_with_log_replayed_sample : TerminatesIn (Step ⟨1, 1, fun _ => 0⟩)
    (5 * (parsedEntries (fun _ => 0) sampleOptions .generalLog false
      sampleGeneralLog).toPop.length + 6 * 1 + 4)
    (begin (fun _ => 0) sampleOptions .generalLog false sampleGeneralLog)
    fun s => s.pc = .returned ∧
      done s = logScript (fun _ => 0) sampleOptions .generalLog false sampleGeneralLog :=
  threadPool_terminates_with_log_replayed (by decide) (by decide)

end ThreadPool

end Runs

end QueryPlayback
