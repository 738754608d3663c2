import QueryPlayback.QueryLog.Blocks

/-!
# Well-formed slow logs

A slow log is a sequence of sections: banner lines that a server start leaves
behind, then a record. This file says what the parse loop makes of such a
sequence, for any banners. The banner before the first record is skipped. A
later banner is swallowed by the block of the record in front of it.
-/

namespace QueryPlayback

open Lines

/-- The lines of one record: an optional time line, the user line and the rest. -/
structure Group where
  time : Option Bytes
  head : Bytes
  rest : List Bytes
  deriving DecidableEq, Repr

namespace Group

/-- The record without its time line. -/
def body (g : Group) : List Bytes := g.head :: g.rest

def lines (g : Group) : List Bytes := g.time.toList ++ g.body

/-- The shape of a record on lines. -/
structure Ok (g : Group) : Prop where
  time_line : ∀ l ∈ g.time, isTimeLine l = true
  user_line : (bytes "# User@Host").isPrefixOf g.head = true
  no_header : ∀ l ∈ g.rest, isHeader l = false
  statement : ∃ l ∈ g.rest, isComment l = false

end Group

theorem isComment_of_isTimeLine {l : Bytes} (h : isTimeLine l = true) : isComment l = true := by
  obtain ⟨t, rfl⟩ := List.isPrefixOf_iff_prefix.mp h
  rfl

/-- A user line is a comment, a header and no time line. -/
theorem userLine_facts {l : Bytes} (h : (bytes "# User@Host").isPrefixOf l = true) :
    isComment l = true ∧ isHeader l = true ∧ isTimeLine l = false := by
  obtain ⟨t, rfl⟩ := List.isPrefixOf_iff_prefix.mp h
  exact ⟨rfl, rfl, rfl⟩

theorem isHeader_of_isTimeLine {l : Bytes} (h : isTimeLine l = true) : isHeader l = true := by
  simp [isHeader, h]

/-- A line outside of comments is no header. -/
theorem isHeader_of_not_isComment {l : Bytes} (h : isComment l = false) : isHeader l = false := by
  by_contra hh
  rw [Bool.not_eq_false, isHeader, Bool.or_eq_true] at hh
  rcases hh with hu | ht
  · rw [(userLine_facts hu).1] at h
    exact Bool.noConfusion h
  · rw [isComment_of_isTimeLine ht] at h
    exact Bool.noConfusion h

/-- A section: the banner lines before a record and the record. -/
abbrev Section := List Bytes × Group

/-- All lines of a log. -/
def logLines (sections : List Section) : List Bytes := sections.flatMap fun s => s.1 ++ s.2.lines

/-- The banner lines that stand right behind a record. -/
def nextBanner : List Section → List Bytes
  | [] => []
  | s :: _ => s.1

/-- The lines behind that banner. -/
def behindBanner : List Section → List Bytes
  | [] => []
  | s :: rest => s.2.lines ++ logLines rest

/-- Well-formed sections. -/
def SectionsOk (sections : List Section) : Prop :=
  ∀ s ∈ sections, (∀ l ∈ s.1, isComment l = false) ∧ s.2.Ok

theorem nextBanner_append_behindBanner (sections : List Section) :
    nextBanner sections ++ behindBanner sections = logLines sections := by
  cases sections <;> simp [nextBanner, behindBanner, logLines]

variable (mktime : Tm → Int)

/-- The clock after the optional time line of a record. -/
def Group.clock (g : Group) (time : TimePoint) : TimePoint :=
  match g.time with
  | none => time
  | some l => (parseTime mktime l time).2

/-- The blocks of a log made of sections. -/
def sectionBlocks (after : Bytes) (offset : Nat) (time : TimePoint) : List Section → List Block
  | [] => []
  | s :: rest =>
      let start := offset + (s.1 ++ s.2.time.toList).flatten.length
      ⟨start, s.2.body ++ nextBanner rest, (behindBanner rest).flatten ++ after,
          s.2.clock mktime time⟩ ::
        sectionBlocks after (start + s.2.body.flatten.length) (s.2.clock mktime time) rest

/-- Lines outside of records are skipped. -/
theorem blocks_banner {after : Bytes} {offset : Nat} {time : TimePoint} {banner ls : List Bytes}
    (h : ∀ l ∈ banner, isComment l = false) :
    blocks mktime after offset time (banner ++ ls) =
      blocks mktime after (offset + banner.flatten.length) time ls := by
  induction banner generalizing offset with
  | nil => simp
  | cons l banner ih =>
      have hl := h l (by simp)
      rw [List.cons_append, blocks, if_pos (by simp [hl]), ih fun m hm => h m (by simp [hm]),
        List.flatten_cons, List.length_append, Nat.add_assoc]

/-- The optional time line of a record sets the clock. -/
theorem blocks_time {after : Bytes} {offset : Nat} {time : TimePoint} {g : Group} (hg : g.Ok)
    (ls : List Bytes) :
    blocks mktime after offset time (g.time.toList ++ ls) =
      blocks mktime after (offset + g.time.toList.flatten.length) (g.clock mktime time) ls := by
  cases ht : g.time with
  | none => simp [Group.clock, ht]
  | some l =>
      have hl := hg.time_line l ht
      simp [Group.clock, ht, blocks, hl, isComment_of_isTimeLine hl]

/-- A record reaches to the next header, whatever stands in between. -/
theorem blocks_record {after : Bytes} {offset : Nat} {time : TimePoint} {g : Group} (hg : g.Ok)
    {banner ls : List Bytes} (hb : ∀ l ∈ banner, isHeader l = false)
    (hls : ∀ l ∈ ls.head?, isHeader l = true) :
    blocks mktime after offset time (g.body ++ (banner ++ ls)) =
      ⟨offset, g.body ++ banner, ls.flatten ++ after, time⟩ ::
        blocks mktime after (offset + (g.body ++ banner).flatten.length) time ls := by
  obtain ⟨hc, -, ht⟩ := userLine_facts hg.user_line
  have hinner : ∀ l ∈ g.rest ++ banner, (!isHeader l) = true := by
    intro l hl
    rcases List.mem_append.mp hl with hr | hb'
    · simp [hg.no_header l hr]
    · simp [hb l hb']
  have hstop : ls.takeWhile (!isHeader ·) = [] ∧ ls.dropWhile (!isHeader ·) = ls := by
    cases ls with
    | nil => simp
    | cons l ls => simp [hls l rfl]
  have htake : (g.rest ++ (banner ++ ls)).takeWhile (!isHeader ·) = g.rest ++ banner := by
    rw [← List.append_assoc, List.takeWhile_append_of_pos hinner, hstop.1, List.append_nil]
  have hdrop : (g.rest ++ (banner ++ ls)).dropWhile (!isHeader ·) = ls := by
    rw [← List.append_assoc, List.dropWhile_append_of_pos hinner, hstop.2]
  simp only [Group.body, List.cons_append, blocks, hc, ht, htake, hdrop, Bool.not_true,
    Bool.false_eq_true, if_false]

/-- What stands behind a banner is a header or the end of the log. -/
theorem behindBanner_head {sections : List Section} (h : SectionsOk sections) :
    ∀ l ∈ (behindBanner sections).head?, isHeader l = true := by
  cases sections with
  | nil => simp [behindBanner]
  | cons s rest =>
      have hg := (h s (by simp)).2
      intro l hl
      cases ht : s.2.time with
      | none =>
          obtain rfl : s.2.head = l := by
            simpa [behindBanner, Group.lines, Group.body, ht] using hl
          exact (userLine_facts hg.user_line).2.1
      | some t =>
          obtain rfl : t = l := by simpa [behindBanner, Group.lines, ht] using hl
          exact isHeader_of_isTimeLine (hg.time_line t ht)

/-- The blocks of a well-formed log, in closed form. -/
theorem blocks_logLines (after : Bytes) (offset : Nat) (time : TimePoint)
    {sections : List Section} (h : SectionsOk sections) :
    blocks mktime after offset time (logLines sections) =
      sectionBlocks mktime after offset time sections := by
  induction sections generalizing offset time with
  | nil => simp [logLines, blocks, sectionBlocks]
  | cons s rest ih =>
      obtain ⟨hb, hg⟩ := h s (by simp)
      have hrest : SectionsOk rest := fun t ht => h t (by simp [ht])
      have hnext : ∀ l ∈ nextBanner rest, isComment l = false := by
        cases rest with
        | nil => simp [nextBanner]
        | cons t _ => exact (hrest t (by simp)).1
      have hlines : logLines (s :: rest) =
          s.1 ++ (s.2.time.toList ++ (s.2.body ++ (nextBanner rest ++ behindBanner rest))) := by
        rw [nextBanner_append_behindBanner]
        simp [logLines, Group.lines]
      rw [hlines, blocks_banner mktime hb, blocks_time mktime hg,
        blocks_record mktime hg (fun l hl => isHeader_of_not_isComment (hnext l hl))
          (behindBanner_head hrest), sectionBlocks]
      have hoff : offset + s.1.flatten.length + s.2.time.toList.flatten.length =
          offset + (s.1 ++ s.2.time.toList).flatten.length := by
        simp [Nat.add_assoc]
      have hlen : (s.2.body ++ nextBanner rest).flatten.length =
          s.2.body.flatten.length + (nextBanner rest).flatten.length := by
        rw [List.flatten_append, List.length_append]
      rw [hoff, hlen, ← Nat.add_assoc,
        ← blocks_banner mktime hnext, nextBanner_append_behindBanner, ih _ _ hrest]

/-- Every record's block has a statement. -/
theorem sectionBlocks_hasSql (after : Bytes) (offset : Nat) (time : TimePoint)
    {sections : List Section} (h : SectionsOk sections) :
    ∀ b ∈ sectionBlocks mktime after offset time sections, b.hasSql = true := by
  induction sections generalizing offset time with
  | nil => simp [sectionBlocks]
  | cons s rest ih =>
      intro b hb
      rcases List.mem_cons.mp hb with rfl | hb
      · obtain ⟨l, hl, hsql⟩ := (h s (by simp)).2.statement
        rw [Block.hasSql, List.any_eq_true]
        exact ⟨l, by simp [Group.body, hl], by simp [hsql]⟩
      · exact ih _ _ (fun t ht => h t (by simp [ht])) b hb

@[simp] theorem sectionBlocks_length (after : Bytes) (offset : Nat) (time : TimePoint)
    (sections : List Section) :
    (sectionBlocks mktime after offset time sections).length = sections.length := by
  induction sections generalizing offset time with
  | nil => rfl
  | cons s rest ih => simp [sectionBlocks, ih]

end QueryPlayback
