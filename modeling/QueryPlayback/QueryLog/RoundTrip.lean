import QueryPlayback.QueryLog.Writing

/-!
# Parsing undoes writing

A log is written from records, with banner lines only at the very top. Parsing
it without sorting gives back one entry per record.
-/

namespace QueryPlayback

variable {mktime : Tm → Int}

/-- A line that the server writes when it starts. -/
structure IsBannerLine (t : Bytes) : Prop where
  no_newline : newline ∉ t
  not_comment : isComment t = false
  shape : (bytes "started with:").isSuffixOf t = true ∨ (bytes "Tcp port: ").isPrefixOf t = true ∨
    (bytes "Time ").isPrefixOf t = true

/-- Records with banner texts in front of the first one only. -/
def bannerFirst (banner : List Bytes) :
    List (SlowRecord mktime) → List (List Bytes × SlowRecord mktime)
  | [] => []
  | r :: rest => (banner, r) :: rest.map fun r => ([], r)

theorem sectionTexts_bannerFirst (banner : List Bytes) {records : List (SlowRecord mktime)}
    (hne : records ≠ []) :
    sectionTexts (bannerFirst banner records) =
      banner ++ records.flatMap SlowRecord.texts := by
  obtain ⟨r, rest, rfl⟩ := List.exists_cons_of_ne_nil hne
  simp [bannerFirst, sectionTexts, List.flatMap_map]

theorem bannerFirst_map_snd (banner : List Bytes) (records : List (SlowRecord mktime)) :
    (bannerFirst banner records).map Prod.snd = records := by
  cases records with
  | nil => rfl
  | cons r rest => simp [bannerFirst]

/-- Lines outside of records make no block. -/
theorem logBlocks_banner {missing : Bool} {banner : List Bytes}
    (hbanner : ∀ t ∈ banner, IsBannerLine t)
    (hlast : missing = true → ∃ t ∈ banner.getLast?, t ≠ []) :
    logBlocks mktime (StringRef.ofBytes (cutEnd missing (writeLines banner))) = [] := by
  have hplain : ∀ l ∈ closeLines missing banner, isComment l = false := by
    intro l hl
    obtain ⟨t, ht, rfl | rfl⟩ := mem_closeLines hl
    · exact (hbanner l ht).not_comment
    · rw [isComment_terminated, (hbanner t ht).not_comment]
  have hskip : blocks mktime [] 0 epoch (closeLines missing banner ++ []) = _ :=
    blocks_banner mktime hplain
  rw [logBlocks, StringRef.ofBytes,
    lines_cutEnd (fun t ht => (hbanner t ht).no_newline) hlast]
  simpa [blocks] using hskip

/-- The blocks of a written log are those of its sections, and each has a statement. -/
theorem logBlocks_written {records : List (SlowRecord mktime)} {banner : List Bytes}
    {missing : Bool} (hbanner : ∀ t ∈ banner, IsBannerLine t)
    (hlast : missing = true →
      ∃ t ∈ (banner ++ records.flatMap SlowRecord.texts).getLast?, t ≠ []) :
    logBlocks mktime (StringRef.ofBytes
        (cutEnd missing (writeLines (banner ++ records.flatMap SlowRecord.texts)))) =
      sectionBlocks mktime [] 0 epoch (sectionsOf missing (bannerFirst banner records)) ∧
    ∀ b ∈ sectionBlocks mktime [] 0 epoch (sectionsOf missing (bannerFirst banner records)),
      b.hasSql = true := by
  by_cases hne : records = []
  · subst hne
    simp only [List.flatMap_nil, List.append_nil] at hlast ⊢
    exact ⟨logBlocks_banner hbanner hlast, by simp [bannerFirst, sectionsOf, sectionBlocks]⟩
  · have hb : ∀ s ∈ bannerFirst banner records, ∀ t ∈ s.1,
        newline ∉ t ∧ isComment t = false := by
      obtain ⟨r, rest, rfl⟩ := List.exists_cons_of_ne_nil hne
      intro s hs t ht
      rcases List.mem_cons.mp hs with rfl | hs
      · exact ⟨(hbanner t ht).no_newline, (hbanner t ht).not_comment⟩
      · obtain ⟨r', -, rfl⟩ := List.mem_map.mp hs
        simp at ht
    have htexts := sectionTexts_bannerFirst banner hne
    have hw := logBlocks_write missing hb (by rwa [htexts])
    rw [htexts] at hw
    exact ⟨hw, sectionBlocks_hasSql mktime _ _ _ (sectionsOf_ok missing
      fun s hs t ht => (hb s hs t ht).2)⟩

/-- A record with a padded hour, two metadata lines and a statement of two lines. -/
def sampleRecord : SlowRecord (fun td => td.sec) where
  timeLine := some (bytes "# Time: 120810  2:52:44")
  userHost := bytes "# User@Host: root[root] @ localhost []"
  metadata := [bytes "# Thread_id: 410242 Schema: art78"]
  statement := [bytes "select *", bytes "order by id;"]
  timeLine_valid := by
    intro t ht
    cases ht
    decide
  userHost_marker := by decide
  metadata_comment := by decide
  statement_no_header := by decide
  statement_sql := by decide
  no_newline := by decide

end QueryPlayback
