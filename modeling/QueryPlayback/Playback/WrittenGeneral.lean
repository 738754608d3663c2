import QueryPlayback.GeneralLog.Records
import QueryPlayback.Playback.Written

/-!
# Replaying the general log that a server has written

The records of a general log that are read as they are meant have every
connection execute the arguments of its `Query` records, in the order of the
log and with a space behind each of them. The last line feed of the log may be
missing.

## Implementation notes

When a record is read as it is meant is the condition of the parser's results:
the text of every line of the argument is in the first line as the reader keeps
it, and no line looks like another record. Where the last line feed is missing,
this is the first line without its last character.
-/

namespace QueryPlayback

open QueryEntry QueryEntries

namespace GeneralRecord

/-- The entry of a `Query` record. -/
def entry (r : GeneralRecord) (missing : Bool) : GeneralLogEntry :=
  { threadId := r.threadId, query := r.kept missing }

/-- The record is of a statement that the connection executes. -/
def executedBy (id : UInt64) (r : GeneralRecord) (missing : Bool) : Bool :=
  r.isQuery && r.threadId = id && !(r.entry missing).isQuit

/-- The lines of a record that is read as it is meant. -/
theorem entries_of_readable {r : GeneralRecord} {missing : Bool} (h : r.Readable missing) :
    r.entries missing = if r.isQuery then [r.entry missing] else [] := by
  rw [entries_eq, filterMap_lineEntry_eq_nil_iff.mpr h.othersSilent, List.append_nil]
  cases hquery : r.isQuery with
  | false => rw [lineEntry_eq_none_iff.mpr (h.firstSilent hquery)]; rfl
  | true =>
      obtain ⟨hnoticed, hzero, -⟩ := h.first hquery
      rw [lineEntry_firstLine hquery hnoticed hzero fun hcut => (h.cut hquery hcut).1,
        read_eq_kept fun hcut => (h.cut hquery hcut).2]
      rfl

end GeneralRecord

/-- What the server had executed for a connection. -/
def generalStatements (records : List GeneralRecord) (missing : Bool) (id : UInt64) : List Bytes :=
  ((withEnds missing records).filter fun p => p.1.executedBy id p.2).map fun p => p.1.kept p.2

section Texts

variable {records : List GeneralRecord} {missing : Bool}

/-- The entries of the `Query` records. -/
def queryEntries (records : List GeneralRecord) (missing : Bool) : List GeneralLogEntry :=
  ((withEnds missing records).filter (·.1.isQuery)).map fun p => p.1.entry p.2

theorem getEntries_of_readable (h : ∀ p ∈ withEnds missing records, p.1.Readable p.2) :
    (ParseGeneralLog.getEntries (generalLog records missing)).entries =
      queryEntries records missing := by
  rw [GeneralRecord.getEntries_generalLog, queryEntries]
  generalize withEnds missing records = ends at h
  induction ends with
  | nil => rfl
  | cons p rest ih =>
      obtain ⟨hp, hrest⟩ := List.forall_mem_cons.mp h
      rw [List.flatMap_cons, GeneralRecord.entries_of_readable hp, ih hrest, List.filter_cons]
      cases p.1.isQuery <;> rfl

theorem toPop_of_readable (h : ∀ p ∈ withEnds missing records, p.1.Readable p.2)
    (mktime : Tm → Int) (options : QueryLogOptions) (accurateMode : Bool) :
    (parsedEntries mktime options .generalLog accurateMode (generalLog records missing)).toPop =
      (queryEntries records missing).map .generalLog := by
  change ((ParseGeneralLog.getEntries (generalLog records missing)).entries.drop
    (ParseGeneralLog.getEntries (generalLog records missing)).pos).map _ = _
  rw [ParseGeneralLog.getEntries_pos, List.drop_zero, getEntries_of_readable h]

/-- A connection executes the arguments of its records. -/
theorem connectionTexts_of_readable (h : ∀ p ∈ withEnds missing records, p.1.Readable p.2)
    (mktime : Tm → Int) (options : QueryLogOptions) (accurateMode : Bool) (id : UInt64) :
    connectionTexts mktime options .generalLog accurateMode (generalLog records missing) id =
      generalStatements records missing id := by
  rw [connectionTexts, toPop_of_readable h, texts_ofThread, queryEntries, List.filterMap_map,
    List.filterMap_map, List.filterMap_filter, generalStatements, ← List.filterMap_eq_map,
    List.filterMap_filter]
  refine List.filterMap_congr fun p _ => ?_
  obtain ⟨r, cut⟩ := p
  change (if r.isQuery then
    if r.threadId = id ∧ (r.entry cut).isQuit = false then some (r.kept cut) else none
    else none) = _
  rw [GeneralRecord.executedBy]
  cases r.isQuery <;> cases (r.entry cut).isQuit <;> by_cases hid : r.threadId = id <;> simp [hid]

/-- Every record is in the list, with some end. -/
theorem exists_mem_withEnds {r : GeneralRecord} (hr : r ∈ records) :
    ∃ cut, (r, cut) ∈ withEnds missing records := by
  induction records with
  | nil => cases hr
  | cons k rest ih =>
      rcases List.mem_cons.mp hr with rfl | hr
      · exact ⟨_, List.mem_cons_self⟩
      · obtain ⟨cut, hcut⟩ := ih hr
        exact ⟨cut, List.mem_cons_of_mem _ hcut⟩

end Texts

section Runs

open MySQL MySQLDBThread

variable {mktime : Tm → Int} {options : QueryLogOptions} {accurateMode : Bool} {depth : ℕ}
  {s : ThreadPerConnection.State AnyEntries AnyEntry}

namespace ThreadPerConnection

/-- When the dispatcher has replayed a general log whose records are read as they are meant, every
connection with a `Query` record has had one thread, and on each thread that has failed with
nothing the server has got the arguments of its records. -/
theorem threadPerConnection_sends_records {records : List GeneralRecord} {missing : Bool}
    (hrecords : ∀ p ∈ withEnds missing records, p.1.Readable p.2)
    (h : Reaches depth
      (begin mktime options .generalLog accurateMode (generalLog records missing)) s)
    (hpc : s.pc = .returned) :
    (s.workers.map Worker.threadId).Nodup ∧
      (∀ r ∈ records, r.isQuery = true → ∃ w ∈ s.workers, w.threadId = r.threadId) ∧
      ∀ w ∈ s.workers, ∀ env haveConnected t, attempts env ≠ 0 →
        Returned env haveConnected (w.stream.map (·.threadEntry options)) t →
          (∀ x ∈ t, x.fails = false) → sent t = generalStatements records missing w.threadId := by
  obtain ⟨hdistinct, hthreads, hsent⟩ := sent_of_returned h hpc
  refine ⟨hdistinct, fun r hr hquery => ?_, ?_⟩
  · obtain ⟨cut, hmem⟩ := @exists_mem_withEnds records missing r hr
    rw [toPop_of_readable hrecords] at hthreads
    exact hthreads (.generalLog (r.entry cut))
      (List.mem_map_of_mem (List.mem_map_of_mem (List.mem_filter.mpr ⟨hmem, hquery⟩)))
  · intro w hw env haveConnected t hattempts ht hnone
    rw [hsent w hw env haveConnected t hattempts ht hnone]
    exact connectionTexts_of_readable hrecords mktime options accurateMode w.threadId

/-- A query of one line. -/
def oneLineRecord : GeneralRecord :=
  { twoLineRecord with others := [] }

theorem oneLineRecord_readable : oneLineRecord.Readable false where
  first _ := ⟨by decide, by decide, by
    intro l hl
    obtain rfl : l = oneLineRecord.first := List.mem_singleton.mp hl
    exact ⟨[], [32], by decide⟩⟩
  cut _ h := by cases h
  firstSilent h := by cases h
  othersSilent := by decide

theorem threadPerConnection_sends_records_sample : ∃ s, Reaches 1
    (begin (fun _ => 0) sampleOptions .generalLog false (generalLog [oneLineRecord] false)) s ∧
      s.pc = .returned ∧ ∃ w ∈ s.workers, w.threadId = 5 ∧ ∀ env haveConnected t,
        attempts env ≠ 0 →
          Returned env haveConnected (w.stream.map (·.threadEntry sampleOptions)) t →
            (∀ x ∈ t, x.fails = false) → sent t = [bytes "SELECT 1, "] := by
  have hrecords : ∀ p ∈ withEnds false [oneLineRecord], p.1.Readable p.2 :=
    List.forall_mem_singleton.mpr oneLineRecord_readable
  have hfew : (connections (parsedEntries (fun _ => 0) sampleOptions .generalLog false
      (generalLog [oneLineRecord] false)).toPop).card ≤ 10001 := by
    rw [toPop_of_readable hrecords]
    decide
  obtain ⟨s, hs, hpc⟩ := exists_returned Nat.one_pos hfew
  obtain ⟨-, hthreads, hsent⟩ := threadPerConnection_sends_records hrecords hs hpc
  obtain ⟨w, hw, hid⟩ := hthreads oneLineRecord (List.mem_singleton_self _) rfl
  have hstatements : generalStatements [oneLineRecord] false 5 = [bytes "SELECT 1, "] := by decide
  refine ⟨s, hs, hpc, w, hw, hid, fun env haveConnected t hattempts ht hnone => ?_⟩
  rw [hsent w hw env haveConnected t hattempts ht hnone, hid]
  exact hstatements

end ThreadPerConnection

end Runs

end QueryPlayback
