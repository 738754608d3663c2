import QueryPlayback.QueryLog.RoundTrip
import Mathlib.Algebra.BigOperators.Group.List.Basic
import Mathlib.Algebra.GroupWithZero.Nat
import Mathlib.Data.List.TakeWhile

/-!
# Server banners inside a slow log

The server writes a banner whenever it starts, so a log can have banners in
front of any record. The outer loop skips them, but the inner loop does not
stop at them: a banner behind a record becomes part of that record's text.
-/

namespace QueryPlayback

open Lines

/-- The three lines the server writes when it starts. -/
structure ServerBanner where
  startedWith : Bytes
  tcpPort : Bytes
  columns : Bytes
  startedWith_shape : (bytes "started with:").isSuffixOf startedWith = true ∧
    isComment startedWith = false
  tcpPort_shape : (bytes "Tcp port: ").isPrefixOf tcpPort = true
  columns_shape : (bytes "Time ").isPrefixOf columns = true
  no_newline : newline ∉ startedWith ∧ newline ∉ tcpPort ∧ newline ∉ columns

namespace ServerBanner

def texts (b : ServerBanner) : List Bytes := [b.startedWith, b.tcpPort, b.columns]

theorem texts_plain (b : ServerBanner) :
    ∀ t ∈ b.texts, newline ∉ t ∧ isComment t = false := by
  obtain ⟨u, hu⟩ := List.isPrefixOf_iff_prefix.mp b.tcpPort_shape
  obtain ⟨v, hv⟩ := List.isPrefixOf_iff_prefix.mp b.columns_shape
  have hfirst := b.no_newline.1
  have hport := b.no_newline.2.1
  have hcolumns := b.no_newline.2.2
  have hu' : isComment b.tcpPort = false := by rw [← hu]; rfl
  have hv' : isComment b.columns = false := by rw [← hv]; rfl
  simp [texts, hfirst, hport, hcolumns, b.startedWith_shape.2, hu', hv']

end ServerBanner

section Texts

/-- The text `getQuery` makes of the lines of an entry. -/
def textOf (removeTimestamp : Bool) (ls : List Bytes) : Bytes :=
  (ls.foldl (QueryLogData.getQueryStep removeTimestamp) ([], false)).1

variable (removeTimestamp : Bool)

theorem getQueryStep_length_le (st : Bytes × Bool) (l : Bytes) :
    st.1.length ≤ (QueryLogData.getQueryStep removeTimestamp st l).1.length := by
  unfold QueryLogData.getQueryStep
  split
  · exact le_rfl
  · split
    · exact le_rfl
    · split
      · exact le_rfl
      · by_cases h : st.1.isEmpty <;> simp_all

theorem foldl_getQueryStep_length_le (ls : List Bytes) (st : Bytes × Bool) :
    st.1.length ≤ (ls.foldl (QueryLogData.getQueryStep removeTimestamp) st).1.length := by
  induction ls generalizing st with
  | nil => exact le_rfl
  | cons l ls ih => exact (getQueryStep_length_le removeTimestamp st l).trans (ih _)

theorem getQueryStep_found {st : Bytes × Bool} {l : Bytes}
    (h : st.2 = true ∨ isComment l = false) :
    (QueryLogData.getQueryStep removeTimestamp st l).2 = true := by
  have hc : (!st.2 && [hash].isPrefixOf l) = false := by
    rcases h with h | h
    · simp [h]
    · simp [show [hash].isPrefixOf l = false from h]
  unfold QueryLogData.getQueryStep
  rw [hc]
  split
  · exact absurd ‹false = true› Bool.false_ne_true
  · split
    · rfl
    · split <;> rfl

/-- Behind a line outside of comments no line counts as metadata any more. -/
theorem foldl_getQueryStep_found {ls : List Bytes} {st : Bytes × Bool}
    (h : st.2 = true ∨ ∃ l ∈ ls, isComment l = false) :
    (ls.foldl (QueryLogData.getQueryStep removeTimestamp) st).2 = true := by
  induction ls generalizing st with
  | nil => simpa using h
  | cons l ls ih =>
      apply ih
      rcases h with h | ⟨m, hm, hc⟩
      · exact Or.inl (getQueryStep_found removeTimestamp (Or.inl h))
      · rcases List.mem_cons.mp hm with rfl | hm
        · exact Or.inl (getQueryStep_found removeTimestamp (Or.inr hc))
        · exact Or.inr ⟨m, hm, hc⟩

/-- The column header of a banner always adds to the text. -/
theorem getQueryStep_columns {st : Bytes × Bool} {l : Bytes} (hfound : st.2 = true)
    (hl : (bytes "Time ").isPrefixOf l = true) :
    st.1.length < (QueryLogData.getQueryStep removeTimestamp st l).1.length := by
  obtain ⟨t, rfl⟩ := List.isPrefixOf_iff_prefix.mp hl
  have htrim : trim (bytes "Time " ++ t) ≠ [] := trim_ne_nil ⟨84, by simp [bytes], by decide⟩
  have hset : (bytes "SET timestamp=").isPrefixOf (bytes "Time " ++ t) = false := rfl
  have hpos : 0 < (trim (bytes "Time " ++ t)).length := List.length_pos_iff.mpr htrim
  have hempty : (trim (bytes "Time " ++ t)).isEmpty = false := by simpa using htrim
  simp only [QueryLogData.getQueryStep, hfound, hset, hempty, Bool.not_true, Bool.false_and,
    Bool.and_false, Bool.false_eq_true, if_false]
  by_cases h : st.1.isEmpty <;> simp_all

/-- Lines behind a record with a statement only ever add to its text. -/
theorem textOf_append_length_le (body banner : List Bytes) :
    (textOf removeTimestamp body).length ≤ (textOf removeTimestamp (body ++ banner)).length := by
  rw [textOf, textOf, List.foldl_append]
  exact foldl_getQueryStep_length_le removeTimestamp banner _

theorem textOf_append_length_lt {body banner : List Bytes}
    (hbody : ∃ l ∈ body, isComment l = false)
    (hbanner : ∃ l ∈ banner, (bytes "Time ").isPrefixOf l = true) :
    (textOf removeTimestamp body).length < (textOf removeTimestamp (body ++ banner)).length := by
  obtain ⟨l, hl, hcol⟩ := hbanner
  obtain ⟨front, back, rfl⟩ := List.append_of_mem hl
  have hfound : ((body ++ front).foldl (QueryLogData.getQueryStep removeTimestamp)
      ([], false)).2 = true := by
    obtain ⟨m, hm, hc⟩ := hbody
    exact foldl_getQueryStep_found removeTimestamp
      (Or.inr ⟨m, List.mem_append_left _ hm, hc⟩)
  have hstep := getQueryStep_columns removeTimestamp hfound hcol
  have hfront := textOf_append_length_le removeTimestamp body front
  have hback := foldl_getQueryStep_length_le removeTimestamp back
    (QueryLogData.getQueryStep removeTimestamp
      ((body ++ front).foldl (QueryLogData.getQueryStep removeTimestamp) ([], false)) l)
  simp only [textOf, List.foldl_append, List.foldl_cons] at hfront hstep hback ⊢
  omega

end Texts

section Offsets

/-- The same entry at a pointer that lies `k` bytes further on. -/
def QueryLogData.moveBy (k : Nat) (d : QueryLogData) : QueryLogData :=
  { d with data := { d.data with offset := d.data.offset + k } }

/-- The same block `k` bytes further on. -/
def Block.moveBy (k : Nat) (b : Block) : Block := { b with offset := b.offset + k }

theorem Block.entry_moveBy (k : Nat) (b : Block) :
    (b.moveBy k).entry = b.entry.moveBy k := rfl

namespace QueryLogData

theorem parseThreadId_moveBy (k : Nat) (d : QueryLogData) :
    (d.moveBy k).parseThreadId = (d.parseThreadId.1, d.parseThreadId.2.moveBy k) := by
  have hfield : ∀ name skip, field (d.moveBy k).data name skip = field d.data name skip :=
    fun _ _ => rfl
  unfold parseThreadId
  simp only [hfield]
  change (if d.threadId ≠ 0 then _ else _) = _
  split
  · rfl
  · split
    · rfl
    · split <;> rfl

theorem adjustStartTimes_moveBy (k : Nat) (last : UInt64 → TimePoint)
    (entries : List QueryLogData) :
    adjustStartTimes last (entries.map (moveBy k)) =
      (adjustStartTimes last entries).map (moveBy k) := by
  induction entries generalizing last with
  | nil => rfl
  | cons d rest ih =>
      have hid : (d.moveBy k).getThreadId = d.getThreadId := by
        rw [getThreadId, parseThreadId_moveBy, getThreadId]
      have hstart : (d.moveBy k).startTime = d.startTime := rfl
      rw [List.map_cons, adjustStartTimes_cons, adjustStartTimes_cons, hid, hstart, ih,
        List.map_cons, parseThreadId_moveBy]
      rfl

/-- Pointers play no part in the preprocessing. -/
theorem preprocess_moveBy (k : Nat) (options : QueryLogOptions) (entries : List QueryLogData) :
    preprocess options (entries.map (moveBy k)) = (preprocess options entries).map (moveBy k) := by
  unfold preprocess
  split
  · rw [sortEntries, sortEntries, adjustStartTimes_moveBy, stableSort, stableSort]
    refine Eq.symm (List.map_mergeSort ?_)
    intro a _ b _
    rfl
  · rfl

end QueryLogData

variable (mktime : Tm → Int)

/-- Sections further on in the log make the same blocks further on. -/
theorem sectionBlocks_moveBy (after : Bytes) (offset k : Nat) (time : TimePoint)
    (sections : List Section) :
    sectionBlocks mktime after (offset + k) time sections =
      (sectionBlocks mktime after offset time sections).map (Block.moveBy k) := by
  induction sections generalizing offset time with
  | nil => rfl
  | cons s rest ih =>
      simp only [sectionBlocks, List.map_cons, Block.moveBy]
      rw [← ih]
      congr 2 <;> omega

/-- A banner in front of the first record only moves the blocks. -/
theorem sectionBlocks_banner (after : Bytes) (time : TimePoint) (banner : List Bytes) (g : Group)
    (rest : List Section) :
    sectionBlocks mktime after 0 time ((banner, g) :: rest) =
      (sectionBlocks mktime after 0 time (([], g) :: rest)).map
        (Block.moveBy banner.flatten.length) := by
  rw [← sectionBlocks_moveBy]
  simp only [sectionBlocks, List.flatten_append, List.length_append, List.nil_append]
  congr 2 <;> omega

end Offsets

section Totals

variable {mktime : Tm → Int} (removeTimestamp : Bool)

/-- The length of all texts of a log made of sections. -/
def totalText : List Section → Nat
  | [] => 0
  | s :: rest => (textOf removeTimestamp (s.2.body ++ nextBanner rest)).length + totalText rest

theorem totalText_eq_sum (after : Bytes) (offset : Nat) (time : TimePoint)
    (sections : List Section) :
    ((sectionBlocks mktime after offset time sections).map
      fun b => (textOf removeTimestamp b.lines).length).sum =
      totalText removeTimestamp sections := by
  induction sections generalizing offset time with
  | nil => rfl
  | cons s rest ih => simp [sectionBlocks, totalText, ih]

/-- Records with the texts of the banners in front of them. -/
def withBanners (sections : List (List ServerBanner × SlowRecord mktime)) :
    List (List Bytes × SlowRecord mktime) :=
  sections.map fun s => (s.1.flatMap ServerBanner.texts, s.2)

/-- The same records without any banner. -/
def withoutBanners (sections : List (List ServerBanner × SlowRecord mktime)) :
    List (List Bytes × SlowRecord mktime) :=
  sections.map fun s => ([], s.2)

theorem nextBanner_withoutBanners (missing : Bool)
    (sections : List (List ServerBanner × SlowRecord mktime)) :
    nextBanner (sectionsOf missing (withoutBanners sections)) = [] := by
  cases sections <;> rfl

/-- Each banner behind a record makes the texts longer, so that equal lengths
leave room for banners in front of the first record only. -/
theorem totalText_banners (missing : Bool)
    (sections : List (List ServerBanner × SlowRecord mktime)) :
    totalText removeTimestamp (sectionsOf missing (withoutBanners sections)) ≤
        totalText removeTimestamp (sectionsOf missing (withBanners sections)) ∧
      (totalText removeTimestamp (sectionsOf missing (withoutBanners sections)) =
          totalText removeTimestamp (sectionsOf missing (withBanners sections)) →
        ∀ s ∈ sections.tail, s.1 = []) := by
  induction sections with
  | nil => simp [withBanners, withoutBanners, sectionsOf]
  | cons s rest ih =>
      obtain ⟨hle, heq⟩ := ih
      have hplain : totalText removeTimestamp (sectionsOf missing (withoutBanners (s :: rest))) =
          (textOf removeTimestamp (s.2.group (missing && rest.isEmpty)).body).length +
            totalText removeTimestamp (sectionsOf missing (withoutBanners rest)) := by
        have hnext := nextBanner_withoutBanners missing rest
        simp only [withoutBanners] at hnext ⊢
        simp [sectionsOf, totalText, hnext]
      have hbanner : totalText removeTimestamp (sectionsOf missing (withBanners (s :: rest))) =
          (textOf removeTimestamp ((s.2.group (missing && rest.isEmpty)).body ++
              nextBanner (sectionsOf missing (withBanners rest)))).length +
            totalText removeTimestamp (sectionsOf missing (withBanners rest)) := by
        simp [withBanners, sectionsOf, totalText]
      have hfirst := textOf_append_length_le removeTimestamp
        (s.2.group (missing && rest.isEmpty)).body
        (nextBanner (sectionsOf missing (withBanners rest)))
      refine ⟨by omega, fun h => ?_⟩
      cases rest with
      | nil => simp
      | cons s' rest' =>
          intro u hu
          rcases List.mem_cons.mp hu with rfl | hu
          · by_contra hne
            obtain ⟨b, bs, hb⟩ := List.exists_cons_of_ne_nil hne
            have hsql : ∃ l ∈ (s.2.group (missing && (u :: rest').isEmpty)).body,
                isComment l = false := by
              obtain ⟨l, hl, hc⟩ := (s.2.group_ok (missing && (u :: rest').isEmpty)).statement
              exact ⟨l, List.mem_cons_of_mem _ hl, hc⟩
            have hcolumns : ∃ l ∈ nextBanner (sectionsOf missing (withBanners (u :: rest'))),
                (bytes "Time ").isPrefixOf l = true := by
              refine ⟨b.columns ++ [newline], ?_, ?_⟩
              · simp [withBanners, sectionsOf, nextBanner, hb, ServerBanner.texts]
              · rw [isPrefixOf_terminated (by decide)]
                exact b.columns_shape
            have hlt := textOf_append_length_lt removeTimestamp hsql hcolumns
            omega
          · exact heq (by omega) u hu

end Totals

variable {mktime : Tm → Int}

/-- The log written from sections, perhaps without its final newline. -/
def logOf (missing : Bool) (sections : List (List Bytes × SlowRecord mktime)) : StringRef :=
  StringRef.ofBytes (cutEnd missing (writeLines (sectionTexts sections)))

/-- Two logs give the same entries, up to their pointers, and the same texts. -/
def SameEntries (mktime : Tm → Int) (options : QueryLogOptions) (log log' : StringRef) : Prop :=
  ∃ e e' : QueryLogEntries × Bool, getEntries mktime options log = some e ∧
    getEntries mktime options log' = some e' ∧
    e.1.entries.map (fun d => (d.data.chars, d.startTime)) =
      e'.1.entries.map (fun d => (d.data.chars, d.startTime)) ∧
    ∀ removeTimestamp, e.1.entries.map (·.getQuery removeTimestamp) =
      e'.1.entries.map (·.getQuery removeTimestamp)

theorem getLast?_sectionTexts (f : List ServerBanner × SlowRecord mktime → List Bytes)
    (sections : List (List ServerBanner × SlowRecord mktime)) :
    (sectionTexts (sections.map fun s => (f s, s.2))).getLast? =
      (sectionTexts (withoutBanners sections)).getLast? := by
  rcases List.eq_nil_or_concat' sections with rfl | ⟨front, s, rfl⟩
  · rfl
  · have hne : s.2.texts ≠ [] := by simp [SlowRecord.texts, SlowRecord.body]
    obtain ⟨x, hx⟩ := List.getLast?_isSome.mpr hne |> Option.isSome_iff_exists.mp
    simp [sectionTexts, withoutBanners, List.getLast?_append, hx]

/-- The blocks of a log with banners, and that each of them has a statement. -/
theorem logBlocks_logOf {missing : Bool}
    (f : List ServerBanner × SlowRecord mktime → List Bytes)
    (sections : List (List ServerBanner × SlowRecord mktime))
    (hf : ∀ s ∈ sections, ∀ t ∈ f s, newline ∉ t ∧ isComment t = false)
    (hlast : missing = true → ∃ t ∈ (sectionTexts (withoutBanners sections)).getLast?, t ≠ []) :
    logBlocks mktime (logOf missing (sections.map fun s => (f s, s.2))) =
        sectionBlocks mktime [] 0 epoch
          (sectionsOf missing (sections.map fun s => (f s, s.2))) ∧
      (logBlocks mktime (logOf missing (sections.map fun s => (f s, s.2)))).filter (·.hasSql) =
        logBlocks mktime (logOf missing (sections.map fun s => (f s, s.2))) := by
  have hbanner : ∀ s ∈ sections.map (fun s => (f s, s.2)), ∀ t ∈ s.1,
      newline ∉ t ∧ isComment t = false := by
    intro s hs t ht
    obtain ⟨s', hs', rfl⟩ := List.mem_map.mp hs
    exact hf s' hs' t ht
  have hw := logBlocks_write missing hbanner
    (by rwa [getLast?_sectionTexts f])
  rw [logOf]
  refine ⟨hw, List.filter_eq_self.mpr ?_⟩
  rw [hw]
  exact sectionBlocks_hasSql mktime _ _ _ (sectionsOf_ok missing fun s hs t ht =>
    (hbanner s hs t ht).2)

/-- The summed lengths of the texts of a log's entries, whatever the options. -/
theorem sum_getQuery {options : QueryLogOptions} {log : StringRef} {e : QueryLogEntries × Bool}
    (h : getEntries mktime options log = some e)
    (hsql : (logBlocks mktime log).filter (·.hasSql) = logBlocks mktime log)
    (removeTimestamp : Bool) :
    (e.1.entries.map fun d => (d.getQuery removeTimestamp).length).sum =
      ((logBlocks mktime log).map fun b => (textOf removeTimestamp b.lines).length).sum := by
  have hquery : ∀ d : QueryLogData, (d.getQuery removeTimestamp).length =
      (textOf removeTimestamp (lines newline d.data.chars)).length := by
    intro d
    rw [QueryLogData.getQuery_eq_foldl, textOf]
  have hperm := ((getEntries_views mktime h).map
    fun v => (textOf removeTimestamp (lines newline v.chars)).length).sum_eq
  simp only [hsql, List.map_map, Function.comp_def] at hperm
  simp only [hquery]
  rw [hperm]
  congr 1
  apply List.map_congr_left
  intro b hb
  rw [← lines_view mktime hb]

/-- Blocks that lie elsewhere but hold the same bytes give the same entries and texts. -/
theorem sameEntries_of_moveBy {options : QueryLogOptions} {log log' : StringRef} {k : ℕ}
    (hsql : (logBlocks mktime log).filter (·.hasSql) = logBlocks mktime log)
    (hsql' : (logBlocks mktime log').filter (·.hasSql) = logBlocks mktime log')
    (hk : logBlocks mktime log = (logBlocks mktime log').map (Block.moveBy k)) :
    SameEntries mktime options log log' := by
  have hflag : accurateAfter mktime options log = accurateAfter mktime options log' := by
    rw [accurateAfter, accurateAfter, hk, List.foldl_map]
    rfl
  have hentries : ((logBlocks mktime log').map (Block.moveBy k)).map Block.entry =
      ((logBlocks mktime log').map Block.entry).map (QueryLogData.moveBy k) := by
    simp only [List.map_map, Function.comp_def, Block.entry_moveBy]
  refine ⟨_, _, getEntries_eq mktime options _, getEntries_eq mktime options _, ?_, ?_⟩
  · simp only [hsql, hsql', hflag]
    simp only [hk, hentries, QueryLogData.preprocess_moveBy]
    rw [List.map_map]
    rfl
  · intro removeTimestamp
    simp only [hsql, hsql', hflag]
    simp only [hk, hentries, QueryLogData.preprocess_moveBy]
    rw [List.map_map]
    apply List.map_congr_left
    intro d _
    simp only [Function.comp_def, QueryLogData.getQuery_eq_foldl]
    rfl

/-- The banner in front of the first record moves all blocks by its length. -/
theorem sectionBlocks_firstBanner (missing : Bool)
    {sections : List (List ServerBanner × SlowRecord mktime)}
    (htail : ∀ s ∈ sections.tail, s.1 = []) :
    ∃ k, sectionBlocks mktime [] 0 epoch (sectionsOf missing (withBanners sections)) =
      (sectionBlocks mktime [] 0 epoch (sectionsOf missing (withoutBanners sections))).map
        (Block.moveBy k) := by
  cases sections with
  | nil => exact ⟨0, rfl⟩
  | cons s rest =>
      have hrest : withBanners rest = withoutBanners rest := by
        apply List.map_congr_left
        intro t ht
        rw [htail t ht]
        rfl
      have hlen : rest.isEmpty = (withoutBanners rest).isEmpty := by
        cases rest <;> rfl
      refine ⟨((s.1.flatMap ServerBanner.texts).map (· ++ [newline])).flatten.length, ?_⟩
      have hb := sectionBlocks_banner mktime [] epoch
        ((s.1.flatMap ServerBanner.texts).map (· ++ [newline]))
        (s.2.group (missing && rest.isEmpty)) (sectionsOf missing (withoutBanners rest))
      have hcons : withBanners (s :: rest) =
          (s.1.flatMap ServerBanner.texts, s.2) :: withoutBanners rest := by
        rw [← hrest]
        rfl
      have hcons' : withoutBanners (s :: rest) = ([], s.2) :: withoutBanners rest := rfl
      rw [hcons, hcons', sectionsOf, sectionsOf, ← hlen]
      exact hb

/-- Banners leave the entries and their texts alone exactly when all of them
stand in front of the first record. -/
theorem sameEntries_banners_iff (options : QueryLogOptions) (missing : Bool)
    (sections : List (List ServerBanner × SlowRecord mktime))
    (hlast : missing = true → ∃ t ∈ (sectionTexts (withoutBanners sections)).getLast?, t ≠ []) :
    SameEntries mktime options (logOf missing (withBanners sections))
        (logOf missing (withoutBanners sections)) ↔
      ∀ s ∈ sections.tail, s.1 = [] := by
  have hplain : ∀ s ∈ sections, ∀ t ∈ s.1.flatMap ServerBanner.texts,
      newline ∉ t ∧ isComment t = false := by
    intro s _ t ht
    obtain ⟨b, -, hb⟩ := List.mem_flatMap.mp ht
    exact b.texts_plain t hb
  obtain ⟨hwith, hwithSql⟩ := logBlocks_logOf _ sections hplain hlast
  obtain ⟨hwithout, hwithoutSql⟩ := logBlocks_logOf (fun _ => []) sections
    (by simp) hlast
  rw [← withBanners] at hwith hwithSql
  rw [← withoutBanners] at hwithout hwithoutSql
  constructor
  · rintro ⟨e, e', he, he', -, htexts⟩
    have hsum := congrArg (fun l => (l.map List.length).sum) (htexts true)
    simp only [List.map_map, Function.comp_def] at hsum
    rw [sum_getQuery he hwithSql, sum_getQuery he' hwithoutSql, hwith, hwithout,
      totalText_eq_sum, totalText_eq_sum] at hsum
    exact (totalText_banners true missing sections).2 hsum.symm
  · intro htail
    obtain ⟨k, hk⟩ := sectionBlocks_firstBanner missing htail
    rw [← hwith, ← hwithout] at hk
    exact sameEntries_of_moveBy hwithSql hwithoutSql hk

/-- The banner of a restarted server. -/
def sampleBanner : ServerBanner where
  startedWith := bytes "/usr/sbin/mysqld, Version: 5.1.63. started with:"
  tcpPort := bytes "Tcp port: 3306  Unix socket: mysqld.sock"
  columns := bytes "Time                 Id Command    Argument"
  startedWith_shape := by decide
  tcpPort_shape := by decide
  columns_shape := by decide
  no_newline := by decide

/-- A banner in front of the first record changes nothing. -/
theorem sameEntries_banners_iff_first :
    SameEntries (fun td => td.sec) ⟨false, false, false, true⟩
        (logOf true (withBanners [([sampleBanner], sampleRecord), ([], sampleRecord)]))
        (logOf true (withoutBanners [([sampleBanner], sampleRecord), ([], sampleRecord)])) ↔
      ∀ s ∈ [([sampleBanner], sampleRecord), ([], sampleRecord)].tail, s.1 = [] :=
  sameEntries_banners_iff ⟨false, false, false, true⟩ true
    [([sampleBanner], sampleRecord), ([], sampleRecord)]
    fun _ => ⟨bytes "order by id;", by decide, by decide⟩

/-- Two records with the banner of a restart between them. -/
def restartSections : List (List ServerBanner × SlowRecord fun td => td.sec) :=
  [([], sampleRecord), ([sampleBanner], sampleRecord)]

/-- The texts of all entries of a log, read in log order. -/
def replayedTexts (log : StringRef) : Option (List Bytes) :=
  (getEntries (fun td => td.sec) ⟨false, false, false, true⟩ log).map
    fun e => e.1.entries.map (·.getQuery true)

/-- The banner of a restart ends up in the text of the record in front of it. -/
theorem restart_banner_leaks :
    replayedTexts (logOf false (withoutBanners restartSections)) =
        some [bytes "select * order by id;", bytes "select * order by id;"] ∧
      replayedTexts (logOf false (withBanners restartSections)) =
        some [bytes ("select * order by id; /usr/sbin/mysqld, Version: 5.1.63. started with: " ++
          "Tcp port: 3306  Unix socket: mysqld.sock " ++
          "Time                 Id Command    Argument"), bytes "select * order by id;"] ∧
      ¬ SameEntries (fun td => td.sec) ⟨false, false, false, true⟩
        (logOf false (withBanners restartSections))
        (logOf false (withoutBanners restartSections)) := by
  have hwithout : replayedTexts (logOf false (withoutBanners restartSections)) =
      some [bytes "select * order by id;", bytes "select * order by id;"] := by
    decide +kernel
  have hwith : replayedTexts (logOf false (withBanners restartSections)) =
      some [bytes ("select * order by id; /usr/sbin/mysqld, Version: 5.1.63. started with: " ++
        "Tcp port: 3306  Unix socket: mysqld.sock " ++
        "Time                 Id Command    Argument"), bytes "select * order by id;"] := by
    decide +kernel
  refine ⟨hwithout, hwith, ?_⟩
  rintro ⟨e, e', he, he', -, htexts⟩
  rw [replayedTexts, he, Option.map_some, htexts true] at hwith
  rw [replayedTexts, he', Option.map_some, hwith] at hwithout
  revert hwithout
  decide +kernel

end QueryPlayback
