import Sporos.Lib.Like

/-! # Source filters

Which torrents may be sources: the filters of the configuration on the category and on the tags of a
torrent, as the query of the candidates has them, as that of the preflight has them, and as the
search has them. The lists that the queries read with `json_each` are the lists themselves. -/

namespace Sporos.Service.Filters

open Sporos.Lib.Like

/-- The categories and the tags that a source must or must not have. -/
structure SourceFilters where
  includeCategories : List String
  excludeCategories : List String
  includeTags : List String
  excludeTags : List String
  excludeSporosManaged : Bool
  deriving DecidableEq, Repr

/-- `SourceFilters::default`. -/
def SourceFilters.default : SourceFilters where
  includeCategories := []
  excludeCategories := []
  includeTags := []
  excludeTags := ["no-sporos"]
  excludeSporosManaged := true

/-- `EXISTS (SELECT 1 FROM json_each(tags_json) WHERE value IN …)`. -/
def hasTag (tags values : List String) : Bool := tags.any fun tag => values.contains tag

/-- `value = 'sporos' OR value LIKE 'sporos:%'`. -/
def managedTag (tag : String) : Bool := tag = "sporos" || like "sporos:%".toList tag.toList

/-- The conditions of `candidate_sources` on the category and the tags. -/
def candidateAllowed (filters : SourceFilters) (category : String) (tags : List String) : Bool :=
  (filters.includeCategories = [] || filters.includeCategories.contains category)
    && (filters.excludeCategories = [] || !filters.excludeCategories.contains category)
    && (filters.includeTags = [] || hasTag tags filters.includeTags)
    && (filters.excludeTags = [] || !hasTag tags filters.excludeTags)
    && (!filters.excludeSporosManaged || !tags.any managedTag)

/-- `push_filters`: a condition is added for a list that is not empty. -/
def pushFilters (filters : SourceFilters) (category : String) (tags : List String) : Bool :=
  (if !filters.includeCategories.isEmpty then filters.includeCategories.contains category else true)
    && (if !filters.excludeCategories.isEmpty
      then !filters.excludeCategories.contains category else true)
    && (if !filters.includeTags.isEmpty then hasTag tags filters.includeTags else true)
    && (if !filters.excludeTags.isEmpty then !hasTag tags filters.excludeTags else true)
    && (if filters.excludeSporosManaged then !tags.any managedTag else true)

/-- `str::starts_with`. -/
def startsWith (tag start : String) : Bool := start.toList.isPrefixOf tag.toList

/-- `source_allowed`. -/
def sourceAllowed (category : String) (tags : List String) (filters : SourceFilters) : Bool :=
  (filters.includeCategories.isEmpty || filters.includeCategories.any fun value => value = category)
    && !(filters.excludeCategories.any fun value => value = category)
    && (filters.includeTags.isEmpty || filters.includeTags.any fun value => tags.contains value)
    && !(filters.excludeTags.any fun value => tags.contains value)
    && (!filters.excludeSporosManaged || !tags.any fun tag => startsWith tag "sporos")

/-! ### The lists -/

/-- The category and the tags pass the four lists. -/
structure PassesLists (filters : SourceFilters) (category : String)
    (tags : List String) : Prop where
  includeCategories : filters.includeCategories ≠ [] → category ∈ filters.includeCategories
  excludeCategories : category ∉ filters.excludeCategories
  includeTags : filters.includeTags ≠ [] → ∃ tag ∈ tags, tag ∈ filters.includeTags
  excludeTags : ∀ tag ∈ tags, tag ∉ filters.excludeTags

theorem hasTag_iff {tags values : List String} :
    hasTag tags values = true ↔ ∃ tag ∈ tags, tag ∈ values := by
  simp [hasTag]

theorem candidateAllowed_iff {filters : SourceFilters} {category : String} {tags : List String} :
    candidateAllowed filters category tags = true
      ↔ PassesLists filters category tags
        ∧ (filters.excludeSporosManaged = true → ∀ tag ∈ tags, managedTag tag = false) := by
  have hexclude : ∀ {values : List String} {p : Prop}, (values = [] ∨ ¬ p) →
      (values = [] → ¬ p) → ¬ p :=
    fun h hnil => h.elim hnil fun hp => hp
  simp only [candidateAllowed, Bool.and_eq_true, Bool.or_eq_true, decide_eq_true_eq,
    Bool.not_eq_true', List.contains_iff_mem, List.any_eq_false, Bool.not_eq_true,
    ← Bool.not_eq_true (hasTag _ _), ← Bool.not_eq_true (List.contains _ _), hasTag_iff]
  constructor
  · rintro ⟨⟨⟨⟨hinclude, hexcluded⟩, htags⟩, hexcludedTags⟩, hmanaged⟩
    refine ⟨⟨fun hne => hinclude.resolve_left hne, hexclude hexcluded fun hnil => by simp [hnil],
      fun hne => htags.resolve_left hne, fun tag htag hmem => ?_⟩, fun hon => ?_⟩
    · exact hexclude hexcludedTags (fun hnil => by simp [hnil]) ⟨tag, htag, hmem⟩
    · exact hmanaged.resolve_left (by simp [hon])
  · rintro ⟨⟨hinclude, hexcluded, htags, hexcludedTags⟩, hmanaged⟩
    refine ⟨⟨⟨⟨or_iff_not_imp_left.mpr hinclude, .inr hexcluded⟩, or_iff_not_imp_left.mpr htags⟩,
      .inr fun ⟨tag, htag, hmem⟩ => hexcludedTags tag htag hmem⟩, ?_⟩
    cases hon : filters.excludeSporosManaged
    · exact .inl rfl
    · exact .inr (hmanaged hon)

theorem sourceAllowed_iff {filters : SourceFilters} {category : String} {tags : List String} :
    sourceAllowed category tags filters = true
      ↔ PassesLists filters category tags
        ∧ (filters.excludeSporosManaged = true → ∀ tag ∈ tags,
          startsWith tag "sporos" = false) := by
  simp only [sourceAllowed, Bool.and_eq_true, Bool.or_eq_true, List.isEmpty_iff, List.any_eq_true,
    decide_eq_true_eq, Bool.not_eq_true', List.any_eq_false, List.contains_iff_mem,
    Bool.not_eq_true]
  constructor
  · rintro ⟨⟨⟨⟨hinclude, hexcluded⟩, htags⟩, hexcludedTags⟩, hmanaged⟩
    refine ⟨⟨fun hne => ?_, fun hmem => hexcluded category hmem rfl, fun hne => ?_,
      fun tag htag hmem => ?_⟩, fun hon => ?_⟩
    · obtain ⟨value, hvalue, rfl⟩ := hinclude.resolve_left hne
      exact hvalue
    · obtain ⟨tag, hmem, htag⟩ := htags.resolve_left hne
      exact ⟨tag, htag, hmem⟩
    · exact hexcludedTags tag hmem htag
    · exact hmanaged.resolve_left (by simp [hon])
  · rintro ⟨⟨hinclude, hexcluded, htags, hexcludedTags⟩, hmanaged⟩
    refine ⟨⟨⟨⟨or_iff_not_imp_left.mpr fun hne => ⟨category, hinclude hne, rfl⟩, ?_⟩,
      or_iff_not_imp_left.mpr fun hne => ?_⟩, fun tag hmem htag => hexcludedTags tag htag hmem⟩, ?_⟩
    · rintro value hvalue rfl
      exact hexcluded hvalue
    · obtain ⟨tag, htag, hmem⟩ := htags hne
      exact ⟨tag, hmem, htag⟩
    · cases hon : filters.excludeSporosManaged
      · exact .inl rfl
      · exact .inr (hmanaged hon)

/-- **The two queries agree.** -/
theorem candidateAllowed_eq_pushFilters (filters : SourceFilters) (category : String)
    (tags : List String) :
    candidateAllowed filters category tags = pushFilters filters category tags := by
  obtain ⟨includeCategories, excludeCategories, includeTags, excludeTags, managed⟩ := filters
  cases includeCategories <;> cases excludeCategories <;> cases includeTags <;>
    cases excludeTags <;>
    cases managed <;> rfl

/-! ### Managed torrents -/

/-- A tag that the queries take for one of a managed torrent: `sporos`, or one that begins with
`sporos:` up to the case of its letters. -/
def QueryManaged (tag : String) : Prop :=
  tag = "sporos" ∨ ∃ start, start <+: tag.toList ∧ SameLetters "sporos:".toList start

/-- A tag that the search takes for one of a managed torrent: one that begins with `sporos`. -/
def SearchManaged (tag : String) : Prop := "sporos".toList <+: tag.toList

theorem managedTag_iff (tag : String) : managedTag tag = true ↔ QueryManaged tag := by
  have hlike : like "sporos:%".toList tag.toList = true
      ↔ ∃ start, start <+: tag.toList ∧ SameLetters "sporos:".toList start :=
    @like_start "sporos:".toList (by simp) tag.toList
  rw [managedTag, Bool.or_eq_true, decide_eq_true_eq, hlike, QueryManaged]

theorem startsWith_iff (tag : String) : startsWith tag "sporos" = true ↔ SearchManaged tag := by
  rw [startsWith, List.isPrefixOf_iff_prefix, SearchManaged]

/-- **The meaning of the filters.** The three evaluators agree on a torrent unless managed torrents
are excluded, the torrent passes the lists, and its tags are those of a managed torrent for the
queries and not for the search, or the other way round. -/
theorem filters_agree_iff (filters : SourceFilters) (category : String) (tags : List String) :
    (candidateAllowed filters category tags = pushFilters filters category tags
        ∧ pushFilters filters category tags = sourceAllowed category tags filters)
      ↔ (filters.excludeSporosManaged = true → PassesLists filters category tags →
          ((∃ tag ∈ tags, QueryManaged tag) ↔ ∃ tag ∈ tags, SearchManaged tag)) := by
  have hquery : (∀ tag ∈ tags, managedTag tag = false) ↔ ¬ ∃ tag ∈ tags, QueryManaged tag := by
    simp only [← managedTag_iff, not_exists, not_and, Bool.not_eq_true]
  have hsearch : (∀ tag ∈ tags, startsWith tag "sporos" = false) ↔ ¬ ∃ tag ∈ tags,
      SearchManaged tag := by
    simp only [← startsWith_iff, not_exists, not_and, Bool.not_eq_true]
  rw [← candidateAllowed_eq_pushFilters,
    Bool.eq_iff_iff (a := candidateAllowed filters category tags)
    (b := sourceAllowed category tags filters), candidateAllowed_iff,
    sourceAllowed_iff, hquery, hsearch]
  constructor
  · rintro ⟨-, h⟩ hon hpasses
    have hnot := and_congr_right_iff.mp h hpasses
    exact not_iff_not.mp ⟨fun hnone => hnot.mp (fun _ => hnone) hon, fun hnone =>
      hnot.mpr (fun _ => hnone) hon⟩
  · intro h
    refine ⟨rfl, and_congr_right fun hpasses => forall_congr' fun hon => ?_⟩
    exact not_congr (h hon hpasses)

/-- A tag that begins with `sporos`, and is neither `sporos` nor one of its own, hides a torrent
from the search alone. -/
theorem filters_disagree :
    ¬ ∀ (filters : SourceFilters) (category : String) (tags : List String),
      candidateAllowed filters category tags = pushFilters filters category tags
        ∧ pushFilters filters category tags = sourceAllowed category tags filters := by
  intro h
  have hagree := h SourceFilters.default "tv" ["sporos-archive"]
  revert hagree
  decide +kernel

/-- And one in capital letters hides it from the queries alone. -/
example : candidateAllowed SourceFilters.default "tv" ["Sporos:tv"] = false
    ∧ sourceAllowed "tv" ["Sporos:tv"] SourceFilters.default = true := by decide +kernel

end Sporos.Service.Filters
