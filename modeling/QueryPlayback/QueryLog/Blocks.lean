import QueryPlayback.QueryLog.Parse

/-!
# The parse loop on lines

A purely line-based reading of the slow log: lines outside of records are
skipped, time lines set the clock, and a comment line opens a block that
reaches to the next header. The parse loop of `getEntries`, with its look-ahead
line and its lengths, computes exactly these blocks.
-/

namespace QueryPlayback

open Lines

/-- The lines of one record, where they lie, and the clock when they were read. -/
structure Block where
  offset : Nat
  lines : List Bytes
  after : Bytes
  time : TimePoint
  deriving DecidableEq, Repr

namespace Block

/-- The block as one view of the log. -/
def view (b : Block) : StringRef := ⟨b.offset, b.lines.flatten, b.after⟩

/-- Whether the block has a line outside of comments. -/
def hasSql (b : Block) : Bool := b.lines.any (!isComment ·)

/-- The entry the program makes of the block. -/
def entry (b : Block) : QueryLogData := QueryLogData.new b.view b.time

end Block

variable (mktime : Tm → Int)

/-- The blocks of a list of lines that starts at `offset`, with the clock at
`time` and the bytes `after` behind the last line. -/
def blocks (after : Bytes) (offset : Nat) (time : TimePoint) : List Bytes → List Block
  | [] => []
  | l :: rest =>
      if !isComment l then blocks after (offset + l.length) time rest
      else if isTimeLine l then
        blocks after (offset + l.length) (parseTime mktime l time).2 rest
      else
        let body := l :: rest.takeWhile (!isHeader ·)
        let others := rest.dropWhile (!isHeader ·)
        ⟨offset, body, others.flatten ++ after, time⟩ ::
          blocks after (offset + body.flatten.length) time others
  termination_by ls => ls.length
  decreasing_by
    · simp
    · simp
    · exact Nat.lt_succ_of_le (List.dropWhile_sublist _).length_le

/-- Adding a block to the entries read so far. -/
def QueryLogEntries.addBlock (e : QueryLogEntries) (b : Block) : QueryLogEntries :=
  if b.hasSql then
    { e with
      entries := e.entries ++ [b.entry]
      numEntries := e.numEntries + 1
      numQueries := e.numQueries + 1 }
  else { e with numEntries := e.numEntries + 1 }

/-- A statement read before any time line switches accurate mode off. -/
def keepAccurate (accurate : Bool) (b : Block) : Bool :=
  if b.hasSql then (if accurate && b.time == epoch then false else accurate) else accurate

/-- The first line of the unread bytes `u`, as a view into the log. -/
def lineAt (data : StringRef) (u : Bytes) : StringRef :=
  ⟨data.offset + (data.size - u.length), takeLine newline u, dropLine newline u ++ data.after⟩

/-- The look-ahead line and the position together stand at the unread bytes `u`. -/
def Reading (data nextLine : StringRef) (pos : Option Nat) (u : Bytes) : Prop :=
  (nextLine.isEmpty = true ∧ remaining data pos = u) ∨
    (u ≠ [] ∧ nextLine = lineAt data u ∧ remaining data pos = dropLine newline u)

theorem lineAt_isEmpty {data : StringRef} {u : Bytes} (h : u ≠ []) :
    (lineAt data u).isEmpty = false := by
  simp [lineAt, StringRef.isEmpty, h]

theorem lineAt_memory (data : StringRef) (u : Bytes) :
    (lineAt data u).memory = u ++ data.after := by
  simp only [lineAt, StringRef.memory]
  rw [← List.append_assoc, takeLine_append_dropLine]

theorem readline_eq_lineAt {data : StringRef} {pos : Option Nat} {u : Bytes}
    (h : remaining data pos = u) (hne : u ≠ []) :
    (readline data pos).1 = lineAt data u ∧
      remaining data (readline data pos).2 = dropLine newline u := by
  subst h
  exact readline_of_remaining_ne_nil hne

/-- After `readline` the look-ahead line and the position stand where the
position alone stood before. -/
theorem reading_readline {data : StringRef} {pos : Option Nat} {u : Bytes}
    (h : remaining data pos = u) :
    Reading data (readline data pos).1 (readline data pos).2 u := by
  by_cases hne : u = []
  · subst hne
    rw [readline_of_remaining_nil h]
    exact Or.inl ⟨rfl, h⟩
  · obtain ⟨hl, hr⟩ := readline_eq_lineAt h hne
    exact Or.inr ⟨hne, hl, hr⟩

/-- The lines of a record that starts at `u`, and the lines behind it. -/
theorem lines_split_record (u : Bytes) :
    u = (takeLine newline u ::
          (lines newline (dropLine newline u)).takeWhile (!isHeader ·)).flatten ++
        ((lines newline (dropLine newline u)).dropWhile (!isHeader ·)).flatten := by
  rw [List.flatten_cons, List.append_assoc, ← List.flatten_append,
    List.takeWhile_append_dropWhile, flatten_lines, takeLine_append_dropLine]

/-- The inner loop consumes the record at `u`: it counts its statement lines,
adds up its length and stands at the next header. -/
theorem collect_eq {data : StringRef} (fuel : Nat) {c : Collect} {u : Bytes} (hne : u ≠ [])
    (hline : c.nextLine = lineAt data u) (hpos : remaining data c.pos = dropLine newline u)
    (hfuel : u.length ≤ fuel) :
    ∃ c', collect data fuel c = some c' ∧
      c'.numSqlLines = c.numSqlLines +
        (takeLine newline u ::
          (lines newline (dropLine newline u)).takeWhile (!isHeader ·)).countP (!isComment ·) ∧
      c'.queryDataLen = c.queryDataLen +
        (takeLine newline u ::
          (lines newline (dropLine newline u)).takeWhile (!isHeader ·)).flatten.length ∧
      Reading data c'.nextLine c'.pos
        ((lines newline (dropLine newline u)).dropWhile (!isHeader ·)).flatten := by
  induction fuel generalizing c u with
  | zero => exact absurd (List.length_eq_zero_iff.mp (Nat.le_zero.mp hfuel)) hne
  | succ fuel ih =>
      have hread := reading_readline hpos
      have hchars : c.nextLine.chars = takeLine newline u := by rw [hline]; rfl
      set v := dropLine newline u with hv
      by_cases hvn : v = []
      · -- The log ends with this line.
        have hempty : (readline data c.pos).1.isEmpty = true := by
          rw [hvn] at hpos
          rw [readline_of_remaining_nil hpos]
          rfl
        refine ⟨_, by simp [collect, hempty]; rfl, ?_, ?_, ?_⟩
        · by_cases hc : isComment (takeLine newline u) <;> simp [hchars, hvn, hc]
        · simp [hvn, StringRef.size, hchars]
        · simpa [hvn] using hread
      · obtain ⟨hl, hr⟩ := readline_eq_lineAt hpos hvn
        have hnot : (readline data c.pos).1.isEmpty = false := by rw [hl, lineAt_isEmpty hvn]
        have hlc : (readline data c.pos).1.chars = takeLine newline v := by rw [hl]; rfl
        by_cases hh : isHeader (takeLine newline v)
        · -- The next line is a header and stays in the look-ahead.
          refine ⟨_, by simp [collect, hlc, hh]; rfl, ?_, ?_, ?_⟩
          · by_cases hc : isComment (takeLine newline u) <;>
              simp [hchars, lines_eq_cons newline hvn, hh, hc]
          · simp [lines_eq_cons newline hvn, hh, StringRef.size, hchars]
          · simpa [lines_eq_cons newline hvn, hh, flatten_lines,
              takeLine_append_dropLine] using hread
        · have hlt : v.length < u.length := dropLine_length_lt newline hne
          obtain ⟨c', hc', hsql, hlen, hreading⟩ :=
            ih (c := ⟨if isComment c.nextLine.chars then c.numSqlLines else c.numSqlLines + 1,
              c.queryDataLen + c.nextLine.size, (readline data c.pos).1,
              (readline data c.pos).2⟩) hvn hl hr (by omega)
          refine ⟨c', by simpa [collect, hnot, hlc, hh] using hc', ?_, ?_, ?_⟩
          · rw [hsql, lines_eq_cons newline hvn]
            by_cases hc : isComment (takeLine newline u)
            · simp [hchars, hh, hc]
            · simp [hchars, hh, hc]
              omega
          · rw [hlen, lines_eq_cons newline hvn]
            simp [hh, StringRef.size, hchars]
            omega
          · simpa [lines_eq_cons newline hvn, hh] using hreading

/-- A line that opens no record leaves only the clock changed. -/
theorem parseLine_skip (data : StringRef) (fuel : Nat) {line : StringRef} (st : ParseState)
    (h : isComment line.chars = false ∨ isTimeLine line.chars = true) :
    ∃ time, parseLine mktime data fuel line st = some { st with currentTimestamp := time } ∧
      time = if isComment line.chars then (parseTime mktime line.chars st.currentTimestamp).2
        else st.currentTimestamp := by
  by_cases hc : isComment line.chars
  · have ht : isTimeLine line.chars = true := h.resolve_left (by simp [hc])
    exact ⟨_, by simp [parseLine, hc, ht]; rfl, by simp [hc]⟩
  · refine ⟨st.currentTimestamp, ?_, by simp [hc]⟩
    simp [parseLine, hc]

/-- A comment line at `u` that is no time line adds its block and leaves the
loop at the next header. -/
theorem parseLine_record {data : StringRef} {fuel : Nat} (st : ParseState) {u : Bytes}
    (hne : u ≠ []) (hc : isComment (takeLine newline u) = true)
    (ht : isTimeLine (takeLine newline u) = false)
    (hpos : remaining data st.pos = dropLine newline u) (hfuel : u.length ≤ fuel) :
    ∃ st', parseLine mktime data fuel (lineAt data u) st = some st' ∧
      st'.currentTimestamp = st.currentTimestamp ∧
      Reading data st'.nextLine st'.pos
        ((lines newline (dropLine newline u)).dropWhile (!isHeader ·)).flatten ∧
      let b : Block :=
        ⟨data.offset + (data.size - u.length),
          takeLine newline u ::
            (lines newline (dropLine newline u)).takeWhile (!isHeader ·),
          ((lines newline (dropLine newline u)).dropWhile (!isHeader ·)).flatten ++ data.after,
          st.currentTimestamp⟩
      st'.entries = st.entries.addBlock b ∧ st'.accurateMode = keepAccurate st.accurateMode b := by
  obtain ⟨c, hcollect, hsql, hlen, hreading⟩ :=
    collect_eq fuel (c := ⟨0, 0, lineAt data u, st.pos⟩) hne rfl hpos hfuel
  have hchars : (lineAt data u).chars = takeLine newline u := rfl
  refine ⟨addRecord (lineAt data u) c st, ?_, ?_, ?_, ?_⟩
  · simp [parseLine, hchars, hc, ht, hcollect]
  · unfold addRecord; split <;> rfl
  · unfold addRecord; split <;> exact hreading
  · intro b
    have hview : (lineAt data u).withLength c.queryDataLen = b.view := by
      have hu := lines_split_record u
      set body := takeLine newline u ::
        (lines newline (dropLine newline u)).takeWhile (!isHeader ·) with hbody
      set others := ((lines newline (dropLine newline u)).dropWhile (!isHeader ·)).flatten
      have hl : c.queryDataLen = body.flatten.length := by simpa using hlen
      have hmem : (lineAt data u).memory = body.flatten ++ (others ++ data.after) := by
        rw [lineAt_memory, hu, List.append_assoc]
      rw [StringRef.withLength, hmem, hl, List.take_left', List.drop_left'] <;> rfl
    have hhas : b.hasSql = true ↔ c.numSqlLines ≠ 0 := by
      rw [hsql, Nat.zero_add, Ne, List.countP_eq_zero]
      simp [Block.hasSql, b, hc]
    by_cases hs : c.numSqlLines = 0
    · have hb : b.hasSql = false := by
        rw [← Bool.not_eq_true, hhas]
        exact not_not.mpr hs
      simp [addRecord, hs, QueryLogEntries.addBlock, keepAccurate, hb]
    · have hb : b.hasSql = true := hhas.mpr hs
      simp [addRecord, hs, QueryLogEntries.addBlock, keepAccurate, hb, hview, Block.entry, b]

/-- The clock of `blocks` behind a skipped line. -/
private theorem blocks_skip {after : Bytes} {offset : Nat} {time : TimePoint} {l : Bytes}
    {rest : List Bytes} (h : isComment l = false ∨ isTimeLine l = true) :
    blocks mktime after offset time (l :: rest) =
      blocks mktime after (offset + l.length)
        (if isComment l then (parseTime mktime l time).2 else time) rest := by
  rw [blocks]
  by_cases hc : isComment l
  · simp [hc, h.resolve_left (by simp [hc])]
  · simp [hc]

/-- The loop fetches the line at `u`, be it the next one of the input or the one kept. -/
theorem parseLoop_fetch {data : StringRef} (fuel n : Nat) {st : ParseState} {u : Bytes}
    (hread : Reading data st.nextLine st.pos u) (hne : u ≠ []) :
    ∃ st₁ : ParseState, parseLoop mktime data fuel (n + 1) st =
        (parseLine mktime data fuel (lineAt data u) st₁).bind (parseLoop mktime data fuel n) ∧
      remaining data st₁.pos = dropLine newline u ∧ st₁.nextLine.isEmpty = true ∧
      st₁.currentTimestamp = st.currentTimestamp ∧ st₁.entries = st.entries ∧
      st₁.accurateMode = st.accurateMode := by
  rcases hread with ⟨hempty, hpos⟩ | ⟨_, hline, hpos⟩
  · obtain ⟨hl, hr⟩ := readline_eq_lineAt hpos hne
    refine ⟨{ st with pos := (readline data st.pos).2 }, ?_, hr, hempty, rfl, rfl, rfl⟩
    rw [parseLoop, if_pos hempty]
    simp only [hl, lineAt_isEmpty hne, Bool.false_eq_true, if_false]
  · refine ⟨{ st with nextLine := st.nextLine.withLength 0 }, ?_, hpos, rfl, rfl, rfl, rfl⟩
    have hnot : st.nextLine.isEmpty = false := by rw [hline, lineAt_isEmpty hne]
    rw [parseLoop, if_neg (by simp [hnot]), ← hline]

/-- The outer loop, started at the unread bytes `u`, adds exactly the blocks of
their lines, and it ends. -/
theorem parseLoop_eq {data : StringRef} (fuel n : Nat) {st : ParseState} {u : Bytes}
    (hread : Reading data st.nextLine st.pos u) (hsize : u.length ≤ data.size)
    (hn : u.length < n) (hfuel : u.length ≤ fuel) :
    ∃ st', parseLoop mktime data fuel n st = some st' ∧
      let bs := blocks mktime data.after (data.offset + (data.size - u.length))
        st.currentTimestamp (lines newline u)
      st'.entries = bs.foldl QueryLogEntries.addBlock st.entries ∧
        st'.accurateMode = bs.foldl keepAccurate st.accurateMode := by
  induction n generalizing st u with
  | zero => omega
  | succ n ih =>
      by_cases hne : u = []
      · -- Nothing is left: `readline` returns the empty line and the loop breaks.
        subst hne
        obtain ⟨hempty, hpos⟩ := hread.resolve_right fun h => h.1 rfl
        refine ⟨{ st with pos := st.pos }, ?_, ?_⟩
        · simp [parseLoop, hempty, readline_of_remaining_nil hpos, StringRef.empty]
        · simp [blocks]
      · obtain ⟨st₁, hstep, hpos, hnext, htime, hentries, haccurate⟩ :=
          parseLoop_fetch mktime fuel n hread hne
        have hlt := dropLine_length_lt newline hne
        have hsum := length_takeLine_add_dropLine newline u
        have hlines := lines_eq_cons newline hne
        by_cases hskip : isComment (takeLine newline u) = false ∨
            isTimeLine (takeLine newline u) = true
        · obtain ⟨time, hline, hval⟩ := parseLine_skip mktime data fuel st₁
            (show isComment (lineAt data u).chars = false ∨ isTimeLine (lineAt data u).chars = true
              from hskip)
          obtain ⟨st', hloop, hres⟩ := @ih { st₁ with currentTimestamp := time } _
            (Or.inl ⟨hnext, hpos⟩) (by omega) (by omega) (by omega)
          refine ⟨st', by rw [hstep, hline]; exact hloop, ?_⟩
          have hoff : data.offset + (data.size - u.length) + (takeLine newline u).length =
              data.offset + (data.size - (dropLine newline u).length) := by omega
          have hchars : (lineAt data u).chars = takeLine newline u := rfl
          rw [hlines, blocks_skip mktime hskip, hoff]
          simpa [hval, hchars, htime, hentries, haccurate] using hres
        · obtain ⟨hc, ht⟩ : isComment (takeLine newline u) = true ∧
              isTimeLine (takeLine newline u) = false := by simpa using hskip
          obtain ⟨st₂, hline, htime₂, hreading, hentries₂, haccurate₂⟩ :=
            parseLine_record mktime st₁ hne hc ht hpos hfuel
          have hu := lines_split_record u
          set body := takeLine newline u ::
            (lines newline (dropLine newline u)).takeWhile (!isHeader ·) with hbody
          set others := (lines newline (dropLine newline u)).dropWhile (!isHeader ·) with hothers
          have hlen : u.length = body.flatten.length + others.flatten.length := by
            rw [← List.length_append, ← hu]
          have hbpos : 0 < body.flatten.length := by
            have hpos := takeLine_length_pos newline hne
            rw [hbody, List.flatten_cons, List.length_append]
            omega
          obtain ⟨st', hloop, hres⟩ := ih hreading (by omega) (by omega) (by omega)
          refine ⟨st', by rw [hstep, hline]; exact hloop, ?_⟩
          have hoff : data.offset + (data.size - u.length) + body.flatten.length =
              data.offset + (data.size - others.flatten.length) := by omega
          have hback : lines newline others.flatten = others := by
            have hcut : lines newline (dropLine newline u) =
                (lines newline (dropLine newline u)).takeWhile (!isHeader ·) ++ others := by
              rw [hothers, List.takeWhile_append_dropWhile]
            exact lines_suffix newline hcut
          rw [hback] at hres
          rw [hlines, blocks]
          simp only [hc, ht, Bool.not_true, Bool.false_eq_true, if_false, ← hbody, ← hothers,
            hoff, List.foldl_cons]
          simpa only [hentries₂, haccurate₂, htime₂, htime, hentries, haccurate] using hres

/-- Adding blocks one after the other collects the entries of those with a statement. -/
theorem foldl_addBlock (bs : List Block) (e : QueryLogEntries) :
    bs.foldl QueryLogEntries.addBlock e =
      { e with
        entries := e.entries ++ (bs.filter (·.hasSql)).map Block.entry
        numEntries := e.numEntries + bs.length
        numQueries := e.numQueries + (bs.filter (·.hasSql)).length } := by
  induction bs generalizing e with
  | nil => simp
  | cons b bs ih =>
      rw [List.foldl_cons, ih]
      by_cases h : b.hasSql
      · simp [QueryLogEntries.addBlock, h]
        omega
      · simp [QueryLogEntries.addBlock, h]
        omega

/-- A block consists of consecutive lines. -/
theorem blocks_consecutive {after : Bytes} {offset : Nat} {time : TimePoint} {ls : List Bytes}
    {b : Block} (h : b ∈ blocks mktime after offset time ls) : b.lines <:+: ls := by
  induction offset, time, ls using blocks.induct mktime with
  | case1 => simp [blocks] at h
  | case2 offset time l rest hc ih =>
      rw [blocks, if_pos hc] at h
      exact (ih h).trans (List.suffix_cons l rest).isInfix
  | case3 offset time l rest hc ht ih =>
      rw [blocks, if_neg hc, if_pos ht] at h
      exact (ih h).trans (List.suffix_cons l rest).isInfix
  | case4 offset time l rest hc ht body others ih =>
      rw [blocks, if_neg hc, if_neg ht] at h
      have hrest : rest = rest.takeWhile (!isHeader ·) ++ others :=
        List.takeWhile_append_dropWhile.symm
      rcases List.mem_cons.mp h with rfl | h
      · exact ⟨[], others, by
          rw [List.nil_append, List.cons_append, ← hrest]⟩
      · refine (ih h).trans (List.IsSuffix.isInfix ⟨body, ?_⟩)
        change l :: rest.takeWhile (!isHeader ·) ++ others = l :: rest
        rw [List.cons_append, ← hrest]

/-- Blocks stand one behind the other and none of them is empty. -/
theorem blocks_offsets (after : Bytes) (offset : Nat) (time : TimePoint) (ls : List Bytes) :
    (∀ b ∈ blocks mktime after offset time ls, offset ≤ b.offset) ∧
      (blocks mktime after offset time ls).Pairwise fun b b' => b.offset < b'.offset := by
  induction offset, time, ls using blocks.induct mktime with
  | case1 => simp [blocks]
  | case2 offset time l rest hc ih =>
      rw [blocks, if_pos hc]
      exact ⟨fun b hb => (Nat.le_add_right _ _).trans (ih.1 b hb), ih.2⟩
  | case3 offset time l rest hc ht ih =>
      rw [blocks, if_neg hc, if_pos ht]
      exact ⟨fun b hb => (Nat.le_add_right _ _).trans (ih.1 b hb), ih.2⟩
  | case4 offset time l rest hc ht body others ih =>
      rw [blocks, if_neg hc, if_neg ht]
      have hne : l ≠ [] := by
        rintro rfl
        exact hc rfl
      have hpos : 0 < body.flatten.length := by
        have := List.length_pos_iff.mpr hne
        simp only [body, List.flatten_cons, List.length_append]
        omega
      refine ⟨?_, List.pairwise_cons.mpr ⟨?_, ih.2⟩⟩
      · intro b hb
        rcases List.mem_cons.mp hb with rfl | hb
        · exact le_rfl
        · exact (Nat.le_add_right _ _).trans (ih.1 b hb)
      · intro b hb
        have := ih.1 b hb
        dsimp only
        omega

/-- The blocks of a log from its first byte on. -/
def logBlocks (data : StringRef) : List Block :=
  blocks mktime data.after data.offset epoch (lines newline data.chars)

/-- The lines of a block can be read back from its view. -/
theorem lines_view {data : StringRef} {b : Block} (h : b ∈ logBlocks mktime data) :
    lines newline b.view.chars = b.lines :=
  lines_consecutive newline (blocks_consecutive mktime h)

/-- The accurate-mode flag after the parse loop. -/
def accurateAfter (options : QueryLogOptions) (data : StringRef) : Bool :=
  (logBlocks mktime data).foldl keepAccurate options.accurateMode

/-- `getEntries` always returns, and it returns the entries of the blocks with
a statement, preprocessed, and counts all blocks. -/
theorem getEntries_eq (options : QueryLogOptions) (data : StringRef) :
    getEntries mktime options data =
      some (⟨QueryLogData.preprocess
            { options with accurateMode := accurateAfter mktime options data }
            (((logBlocks mktime data).filter (·.hasSql)).map Block.entry),
          ∅, (logBlocks mktime data).length,
          ((logBlocks mktime data).filter (·.hasSql)).length⟩,
        accurateAfter mktime options data) := by
  have hread : Reading data StringRef.empty (some 0) data.chars := Or.inl ⟨rfl, rfl⟩
  obtain ⟨st, hloop, hentries, haccurate⟩ :=
    @parseLoop_eq mktime data (data.size + 1) (data.size + 1)
      ⟨some 0, StringRef.empty, epoch, options.accurateMode, .empty⟩ data.chars hread le_rfl
      (Nat.lt_succ_self _) (Nat.le_succ _)
  have hoff : data.offset + (data.size - data.chars.length) = data.offset := by
    simp [StringRef.size]
  rw [hoff, ← logBlocks, foldl_addBlock] at hentries
  rw [hoff, ← logBlocks, ← accurateAfter] at haccurate
  simp only [getEntries, hloop, Option.map_some, hentries, haccurate]
  simp [QueryLogEntries.empty]

/-- The views of the entries are those of the blocks with a statement, in some order. -/
theorem getEntries_views {options : QueryLogOptions} {data : StringRef}
    {e : QueryLogEntries × Bool} (h : getEntries mktime options data = some e) :
    (e.1.entries.map (·.data)).Perm
      (((logBlocks mktime data).filter (·.hasSql)).map Block.view) := by
  rw [getEntries_eq, Option.some.injEq] at h
  subst h
  have hperm := QueryLogData.preprocess_perm
    { options with accurateMode := accurateAfter mktime options data }
    (((logBlocks mktime data).filter (·.hasSql)).map Block.entry)
  rw [List.map_map] at hperm
  exact hperm

end QueryPlayback
