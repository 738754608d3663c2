import QueryPlayback.QueryLog.Entries
import QueryPlayback.GeneralLog.Parse

/-!
# The input plugins

`QueryLogPlugin::run` and `GeneralLogPlugin::run` open, size, map or read their
log, parse it and hand its entries to the dispatcher. The operating system
decides how each of these steps ends.

## Implementation notes

Reading a stream delivers the bytes up to its end or up to an error; neither
plugin asks which of the two it was. `fclose(stdin)` leaves nothing to read.
The dispatcher is its popping loop here, which ends when no entry is left; what
becomes of the entries, and which dispatchers stand a second run, is in `Dispatch`.
-/

namespace QueryPlayback

open QueryEntry QueryEntries

/-- `QueryEntryPtr`: an entry of either log. -/
inductive AnyEntry where
  | queryLog (e : QueryLogEntry)
  | generalLog (e : GeneralLogEntry)
  deriving DecidableEq

/-- `QueryEntriesPtr`: the entries of either log. -/
inductive AnyEntries where
  | queryLog (q : QueryLogEntries)
  | generalLog (q : GeneralLogQueryEntries)
  deriving DecidableEq

namespace AnyEntries

instance : QueryEntries AnyEntries AnyEntry where
  popEntry
    | queryLog q => (popEntry q).map fun p => (.queryLog p.1, queryLog p.2)
    | generalLog q => (popEntry q).map fun p => (.generalLog p.1, generalLog p.2)
  setShutdownOnLastQueryOfConn
    | queryLog q => queryLog (setShutdownOnLastQueryOfConn q)
    | generalLog q => generalLog (setShutdownOnLastQueryOfConn q)

/-- The entries that `popEntry` gives until it gives none. -/
def toPop : AnyEntries → List AnyEntry
  | queryLog q => q.toPop.map .queryLog
  | generalLog q => (q.entries.drop q.pos).map .generalLog

/-- `getNumEntries()`. -/
def numEntries : AnyEntries → ℕ
  | queryLog q => q.numEntries
  | generalLog q => q.numEntries

/-- `getNumQueries()`. -/
def numQueries : AnyEntries → ℕ
  | queryLog q => q.numQueries
  | generalLog q => q.numQueries

theorem drains_toPop (q : AnyEntries) : Drains q q.toPop := by
  cases q with
  | queryLog q => exact Drains.map (fun _ => rfl) q.drains_toPop
  | generalLog q => exact Drains.map (fun _ => rfl) (GeneralLogQueryEntries.drains_entries ..)

end AnyEntries

/-- A stream of the C library: what is left to read, and after how many bytes reading it
fails, if it does. -/
structure Stream where
  rest : Bytes
  failsAfter : Option ℕ
  deriving DecidableEq, Repr

namespace Stream

/-- How many bytes the stream delivers before its end or its error. -/
def available (s : Stream) : ℕ :=
  match s.failsAfter with
  | none => s.rest.length
  | some n => min n s.rest.length

/-- `fread(ptr, 1, count, stream)`. -/
def fread (s : Stream) (count : ℕ) : Bytes × Stream :=
  let n := min count s.available
  (s.rest.take n, { rest := s.rest.drop n, failsAfter := s.failsAfter.map (· - n) })

/-- The lines that `getline` delivers until it returns -1. -/
def getlines (s : Stream) : Bytes := s.rest.take s.available

/-- The loop that reads blocks until one is short. -/
def readBlocks (blockSize : ℕ) : (fuel : ℕ) → Stream → Bytes → Bytes × Stream
  | 0, s, data => (data, s)
  | fuel + 1, s, data =>
      let (block, s) := s.fread blockSize
      if block.length < blockSize then (data ++ block, s)
      else readBlocks blockSize fuel s (data ++ block)

/-- `block_size`. -/
def blockSize : ℕ := 1024 * 32

theorem available_le (s : Stream) : s.available ≤ s.rest.length := by
  unfold available
  split
  · exact Nat.le_refl _
  · exact Nat.min_le_right _ _

theorem available_fread (s : Stream) (count : ℕ) :
    (s.fread count).2.available = s.available - min count s.available := by
  obtain ⟨rest, failsAfter⟩ := s
  cases failsAfter with
  | none => simp [fread, available]
  | some n =>
      simp only [fread, available, Option.map_some, List.length_drop]
      omega

theorem length_fread (s : Stream) (count : ℕ) :
    (s.fread count).1.length = min count s.available := by
  have hle := s.available_le
  rw [fread, List.length_take]
  omega

theorem readBlocks_succ (blockSize fuel : ℕ) (s : Stream) (data : Bytes) :
    readBlocks blockSize (fuel + 1) s data =
      if (s.fread blockSize).1.length < blockSize then
        (data ++ (s.fread blockSize).1, (s.fread blockSize).2)
      else readBlocks blockSize fuel (s.fread blockSize).2 (data ++ (s.fread blockSize).1) := rfl

/-- Everything is read up to the end or the error, however the blocks fall. -/
theorem readBlocks_eq {blockSize fuel : ℕ} (hpos : 0 < blockSize) {s : Stream} (data : Bytes)
    (hfuel : s.available < fuel) :
    (readBlocks blockSize fuel s data).1 = data ++ s.rest.take s.available ∧
      (readBlocks blockSize fuel s data).2.rest = s.rest.drop s.available := by
  induction fuel generalizing s data with
  | zero => omega
  | succ fuel ih =>
      have hlength := s.length_fread blockSize
      have havailable := s.available_fread blockSize
      rw [readBlocks_succ]
      by_cases hshort : (s.fread blockSize).1.length < blockSize
      · -- the short block goes up to the end or the error
        have hall : min blockSize s.available = s.available := by omega
        rw [if_pos hshort]
        simp only [fread, hall, and_self]
      · have hfull : min blockSize s.available = blockSize := by omega
        have hfuel' : (s.fread blockSize).2.available < fuel := by omega
        have hsum : blockSize + (s.available - blockSize) = s.available := by omega
        have hblock : s.fread blockSize = (s.rest.take blockSize, (s.fread blockSize).2) := by
          rw [fread, hfull]
        have hbehind : (s.fread blockSize).2.rest = s.rest.drop blockSize := by rw [fread, hfull]
        obtain ⟨hdata, hrest⟩ := ih (data ++ (s.fread blockSize).1) hfuel'
        rw [havailable, hfull, hbehind] at hdata hrest
        rw [if_neg hshort]
        constructor
        · calc (readBlocks blockSize fuel _ _).1
              = data ++ s.rest.take blockSize ++
                  (s.rest.drop blockSize).take (s.available - blockSize) := by rw [hdata, hblock]
            _ = data ++ s.rest.take (blockSize + (s.available - blockSize)) := by
                rw [List.append_assoc, ← List.take_add]
            _ = data ++ s.rest.take s.available := by rw [hsum]
        · calc (readBlocks blockSize fuel _ _).2.rest
              = (s.rest.drop blockSize).drop (s.available - blockSize) := hrest
            _ = s.rest.drop (blockSize + (s.available - blockSize)) := List.drop_drop ..
            _ = s.rest.drop s.available := by rw [hsum]

end Stream

/-- The two input plugins. -/
inductive InputPlugin where
  | queryLog
  | generalLog
  deriving DecidableEq, Repr

/-- `struct percona_playback_run_result`. -/
structure RunResult where
  err : Int := 0
  nLogEntries : ℕ := 0
  nQueries : ℕ := 0
  deriving DecidableEq, Repr

/-- What the operating system answers in one run: `open` or `fopen`, the size that `fstat`
gives, `mmap`, and reading. -/
structure Outcomes (log : Bytes) where
  opened : Bool
  size : Option ℕ
  size_le : ∀ n, size = some n → n ≤ log.length
  mapped : Bool
  failsAfter : Option ℕ

/-- What outlasts a run: the unread part of standard input and the accurate-mode flag. -/
structure World where
  stdin : Bytes
  accurateMode : Bool

/-- A run: its result, the bytes it has taken for the log, what it has parsed them to and what
it has dispatched. Only the result reaches the caller. -/
structure Ran where
  result : RunResult
  read : Option Bytes := none
  parsed : Option AnyEntries := none
  dispatched : List AnyEntry := []

section Runs

variable (mktime : Tm → Int) (options : QueryLogOptions)

/-- The parser of the plugin. -/
def InputPlugin.getEntries (accurateMode : Bool) (data : Bytes) :
    InputPlugin → AnyEntries × Bool
  | queryLog =>
      match QueryPlayback.getEntries mktime { options with accurateMode := accurateMode }
          (StringRef.ofBytes data) with
      | some (entries, accurateMode) => (.queryLog entries, accurateMode)
      | none => (.queryLog .empty, accurateMode)
  | generalLog => (.generalLog (ParseGeneralLog.getEntries data), accurateMode)

/-- `LogReaderThread` and `GeneralLogReaderThread`: the dispatcher pops until there is nothing
left. -/
def logReaderThread (plugin : InputPlugin) (w : World) (data : Bytes) (r : RunResult) :
    Ran × World :=
  let (entries, accurateMode) := plugin.getEntries mktime options w.accurateMode data
  ({ result := { r with nLogEntries := entries.numEntries, nQueries := entries.numQueries }
     read := some data
     parsed := some entries
     dispatched := (setShutdownOnLastQueryOfConn entries).toPop },
    { w with accurateMode := accurateMode })

variable {log : Bytes}

/-- `QueryLogPlugin::run(result)`. -/
def QueryLogPlugin.run (stdIn : Bool) (o : Outcomes log) (w : World) (result : RunResult) :
    Ran × World :=
  if stdIn then
    let s : Stream := ⟨w.stdin, o.failsAfter⟩
    let (data, s) := s.readBlocks Stream.blockSize (w.stdin.length + 1) []
    logReaderThread mktime options .queryLog { w with stdin := s.rest } data result
  else if !o.opened then ({ result := result }, w)
  else
    match o.size with
    | none => ({ result := result }, w)
    | some size =>
        if !o.mapped then ({ result := result }, w)
        else logReaderThread mktime options .queryLog w (log.take size) result

/-- `GeneralLogPlugin::run(result)`. -/
def GeneralLogPlugin.run (stdIn : Bool) (o : Outcomes log) (w : World) (result : RunResult) :
    Ran × World :=
  if stdIn then
    let s : Stream := ⟨w.stdin, o.failsAfter⟩
    logReaderThread mktime options .generalLog { w with stdin := [] } s.getlines result
  else if !o.opened then ({ result := result }, w)
  else
    let s : Stream := ⟨log, o.failsAfter⟩
    logReaderThread mktime options .generalLog w s.getlines result

/-- `g_input_plugin->run(result)`. -/
def InputPlugin.run (stdIn : Bool) (o : Outcomes log) (w : World) (result : RunResult) :
    InputPlugin → Ran × World
  | queryLog => QueryLogPlugin.run mktime options stdIn o w result
  | generalLog => GeneralLogPlugin.run mktime options stdIn o w result

end Runs

end QueryPlayback
