import Sporos.Matcher.Evaluate
import Sporos.Service.Sources

/-! # Source facts

The tables of the titles and of the external identifiers of the sources, which `source_facts.rs`
writes from the release of a source, and the condition on them by which the query of the candidates
reduces the sources. No source that the matcher takes for compatible is lost
(`reduced_of_compatible`). -/

namespace Sporos.Service.SourceFacts

open Sporos.Model.Matching
open Sporos.Matcher.Evaluate
open Sporos.Service.Tables
open Sporos.Lib.Table

/-- A row of `sporos_source_title`. -/
structure SourceTitleRow where
  sourceId : Id
  sourceType : String
  normalizedTitle : NormalizedTitle
  kind : String
  deriving DecidableEq, Repr

/-- The primary key of a title. -/
def SourceTitleRow.key (row : SourceTitleRow) : Id × String × NormalizedTitle :=
  (row.sourceId, row.sourceType, row.normalizedTitle)

/-- A row of `sporos_source_external_id`, with the namespace of the identifier and its value. -/
structure ExternalIdRow where
  sourceId : Id
  sourceType : String
  nspace : Str
  value : Str
  deriving DecidableEq, Repr

/-- The primary key of an external identifier: all of its columns. -/
def ExternalIdRow.key (row : ExternalIdRow) : Id × String × Str × Str :=
  (row.sourceId, row.sourceType, row.nspace, row.value)

/-- The titles and the external ids of the sources. -/
structure Facts where
  titles : List SourceTitleRow
  externalIds : List ExternalIdRow
  deriving DecidableEq, Repr

/-- Nothing is known. -/
def Facts.empty : Facts := ⟨[], []⟩

/-- `MAX_ALTERNATE_TITLES`. -/
def maxAlternateTitles : ℕ := 32

/-- The name of a kind. -/
def arrKind : ArrKind → Str
  | .movie => "movie".toList
  | .series => "series".toList

/-- The decimal digits of an integer. -/
def decimal (n : ℤ) : Str := (toString n).toList

/-! ### The writer -/

/-- A title is stored unless it is there. -/
def insertTitle (facts : Facts) (sourceId : Id) (sourceType : String) (title : NormalizedTitle)
    (kind : String) : Facts :=
  { facts with titles := insertOrIgnore SourceTitleRow.key facts.titles ⟨sourceId,
    sourceType, title, kind⟩ }

/-- An external id is stored unless it is there. -/
def insertExternal (facts : Facts) (sourceId : Id) (sourceType : String)
    (nspace value : Str) : Facts :=
  { facts with externalIds :=
      insertOrIgnore ExternalIdRow.key facts.externalIds ⟨sourceId, sourceType, nspace, value⟩ }

/-- The two statements that delete the facts of a source. -/
def deleteFacts (facts : Facts) (sourceId : Id) (sourceType : String) : Facts where
  titles := facts.titles.filter fun row => ¬ (row.sourceId = sourceId ∧ row.sourceType = sourceType)
  externalIds := facts.externalIds.filter fun row =>
    ¬ (row.sourceId = sourceId ∧ row.sourceType = sourceType)

/-- `replace`. -/
def replace (facts : Facts) (sourceId : Id) (sourceType : String)
    (release : ReleaseDescriptor) : Facts :=
  let facts := deleteFacts facts sourceId sourceType
  let facts := insertTitle facts sourceId sourceType release.primaryTitle "primary"
  let facts := (release.alternateTitles.take maxAlternateTitles).foldl (fun facts title =>
    insertTitle facts sourceId sourceType title "alternate") facts
  match release.arrIdentity with
  | none => facts
  | some identity =>
    let facts := insertExternal facts sourceId sourceType
      ("arr:".toList ++ arrKind identity.kind ++ ":".toList
        ++ identity.inst) (decimal identity.entityId)
    [("tvdb".toList, identity.tvdbId.map decimal), ("tmdb".toList, identity.tmdbId.map decimal),
        ("imdb".toList, identity.imdbId)].foldl (fun facts (nspace, value) =>
      match value with
      | none => facts
      | some value => insertExternal facts sourceId sourceType nspace value) facts

/-! ### The query -/

/-- The titles by which a release is found. -/
def reductionTitles (release : ReleaseDescriptor) : List NormalizedTitle :=
  release.primaryTitle :: release.alternateTitles.take maxAlternateTitles

/-- The external ids by which a release is found. -/
def reductionExternalIds (release : ReleaseDescriptor) : List (Str × Str) :=
  match release.arrIdentity with
  | none => []
  | some identity =>
    ("arr:".toList ++ arrKind identity.kind ++ ":".toList ++ identity.inst,
      decimal identity.entityId)
      :: [("tvdb".toList, identity.tvdbId.map decimal),
        ("tmdb".toList, identity.tmdbId.map decimal),
          ("imdb".toList, identity.imdbId)].filterMap fun (nspace, value) =>
            value.map fun value => (nspace, value)

/-- `push_source_reduction`: the condition on a source. -/
def reduced (facts : Facts) (sourceId : Id) (sourceType : String) (titles : List NormalizedTitle)
    (externalIds : List (Str × Str)) : Bool :=
  facts.titles.any (fun row =>
      row.sourceId = sourceId && row.sourceType = sourceType && titles.contains row.normalizedTitle)
    || (!externalIds.isEmpty && facts.externalIds.any fun row =>
      row.sourceId = sourceId && row.sourceType = sourceType
        && externalIds.any fun (nspace, value) => row.nspace = nspace && row.value = value)

/-! ### The facts of a source -/

/-- The source is found by the title. -/
def HasTitle (facts : Facts) (sourceId : Id) (sourceType : String)
    (title : NormalizedTitle) : Prop :=
  ∃ row ∈ facts.titles, row.key = (sourceId, sourceType, title)

/-- The source is found by the external id. -/
def HasExternal (facts : Facts) (sourceId : Id) (sourceType : String)
    (external : Str × Str) : Prop :=
  ∃ row ∈ facts.externalIds, row.key = (sourceId, sourceType, external)

section

variable {facts : Facts} {sourceId sourceId' : Id} {sourceType sourceType' : String}

/-- An insertion that ignores conflicts adds the key of the row. -/
theorem exists_key_insertOrIgnore {ρ κ : Type*} [DecidableEq κ] {key : ρ → κ}
    {table : List ρ} {new : ρ} {k : κ} :
    (∃ row ∈ insertOrIgnore key table new, key row = k)
      ↔ k = key new ∨ ∃ row ∈ table, key row = k := by
  constructor
  · rintro ⟨row, hrow, rfl⟩
    rcases mem_insertOrIgnore hrow with hold | ⟨rfl, -⟩
    · exact .inr ⟨row, hold, rfl⟩
    · exact .inl rfl
  · rintro (rfl | ⟨row, hrow, rfl⟩)
    · have hself := @lookup_insertOrIgnore_self _ _ _ key table new
      obtain ⟨hmem, hkey⟩ := lookup_eq_some_mem hself
      exact ⟨_, hmem, hkey⟩
    · exact ⟨row, mem_insertOrIgnore_of_mem hrow, rfl⟩

theorem hasTitle_insertTitle {title title' : NormalizedTitle} {kind : String} :
    HasTitle (insertTitle facts sourceId sourceType title kind) sourceId' sourceType' title'
      ↔ (sourceId', sourceType', title') = (sourceId, sourceType, title)
        ∨ HasTitle facts sourceId' sourceType' title' :=
  exists_key_insertOrIgnore

theorem hasExternal_insertExternal {nspace value : Str} {external : Str × Str} :
    HasExternal (insertExternal facts sourceId sourceType nspace value) sourceId'
      sourceType' external
      ↔ (sourceId', sourceType', external) = (sourceId, sourceType, nspace, value)
        ∨ HasExternal facts sourceId' sourceType' external :=
  exists_key_insertOrIgnore

theorem hasTitle_foldl {kind : String} (titles : List NormalizedTitle) {title : NormalizedTitle} :
    HasTitle (titles.foldl (fun facts title =>
      insertTitle facts sourceId sourceType title kind) facts)
        sourceId' sourceType' title
      ↔ ((sourceId', sourceType') = (sourceId, sourceType) ∧ title ∈ titles)
        ∨ HasTitle facts sourceId' sourceType' title := by
  induction titles generalizing facts with
  | nil => simp
  | cons first titles ih =>
    rw [List.foldl_cons, ih, hasTitle_insertTitle, List.mem_cons]
    simp only [Prod.mk.injEq]
    tauto

/-- The identifiers that are known. -/
theorem hasExternal_foldl (values : List (Str × Option Str)) {external : Str × Str} :
    HasExternal (values.foldl (fun facts (nspace, value) =>
        match value with
        | none => facts
        | some value => insertExternal facts sourceId sourceType nspace value) facts)
        sourceId' sourceType' external
      ↔ ((sourceId', sourceType') = (sourceId, sourceType)
          ∧ external ∈ values.filterMap fun (nspace, value) =>
            value.map fun value => (nspace, value))
        ∨ HasExternal facts sourceId' sourceType' external := by
  induction values generalizing facts with
  | nil => simp
  | cons first values ih =>
    obtain ⟨nspace, value⟩ := first
    rw [List.foldl_cons, ih]
    cases value with
    | none => simp
    | some value =>
      rw [hasExternal_insertExternal, List.filterMap_cons]
      simp only [Option.map_some, List.mem_cons, Prod.mk.injEq]
      tauto

theorem titles_foldl (values : List (Str × Option Str)) :
    (values.foldl (fun facts (nspace, value) =>
      match value with
      | none => facts
      | some value => insertExternal facts sourceId sourceType nspace value) facts).titles =
        facts.titles := by
  induction values generalizing facts with
  | nil => rfl
  | cons first values ih =>
    obtain ⟨nspace, value⟩ := first
    rw [List.foldl_cons, ih]
    cases value <;> rfl

theorem externalIds_foldl {kind : String} (titles : List NormalizedTitle) :
    (titles.foldl (fun facts title =>
      insertTitle facts sourceId sourceType title kind) facts).externalIds
      = facts.externalIds := by
  induction titles generalizing facts with
  | nil => rfl
  | cons first titles ih =>
    rw [List.foldl_cons, ih]
    rfl

theorem hasTitle_deleteFacts {title : NormalizedTitle} :
    HasTitle (deleteFacts facts sourceId sourceType) sourceId' sourceType' title
      ↔ (sourceId', sourceType') ≠ (sourceId, sourceType)
        ∧ HasTitle facts sourceId' sourceType' title := by
  unfold HasTitle deleteFacts
  constructor
  · rintro ⟨row, hrow, hkey⟩
    obtain ⟨hrow, hne⟩ := List.mem_filter.mp hrow
    obtain ⟨rfl, rfl, rfl⟩ : row.sourceId = sourceId' ∧ row.sourceType = sourceType'
        ∧ row.normalizedTitle = title := by simpa [SourceTitleRow.key] using hkey
    exact ⟨fun heq => of_decide_eq_true hne (Prod.mk.inj heq), row, hrow, rfl⟩
  · rintro ⟨hne, row, hrow, hkey⟩
    obtain ⟨rfl, rfl, rfl⟩ : row.sourceId = sourceId' ∧ row.sourceType = sourceType'
        ∧ row.normalizedTitle = title := by simpa [SourceTitleRow.key] using hkey
    exact ⟨row, List.mem_filter.mpr ⟨hrow, decide_eq_true fun h => hne (Prod.ext h.1 h.2)⟩, rfl⟩

theorem hasExternal_deleteFacts {external : Str × Str} :
    HasExternal (deleteFacts facts sourceId sourceType) sourceId' sourceType' external
      ↔ (sourceId', sourceType') ≠ (sourceId, sourceType)
        ∧ HasExternal facts sourceId' sourceType' external := by
  unfold HasExternal deleteFacts
  constructor
  · rintro ⟨row, hrow, hkey⟩
    obtain ⟨hrow, hne⟩ := List.mem_filter.mp hrow
    obtain ⟨rfl, rfl, -⟩ := Prod.mk.inj hkey |>.imp id Prod.mk.inj
    exact ⟨fun heq => of_decide_eq_true hne (Prod.mk.inj heq), row, hrow, hkey⟩
  · rintro ⟨hne, row, hrow, hkey⟩
    obtain ⟨rfl, rfl, -⟩ := Prod.mk.inj hkey |>.imp id Prod.mk.inj
    exact ⟨row, List.mem_filter.mpr ⟨hrow, decide_eq_true fun h => hne (Prod.ext h.1 h.2)⟩, hkey⟩

/-- **The titles** of a source after its facts have been written; those of the others stay. -/
theorem hasTitle_replace {release : ReleaseDescriptor} {title : NormalizedTitle} :
    HasTitle (replace facts sourceId sourceType release) sourceId' sourceType' title
      ↔ if (sourceId', sourceType') = (sourceId, sourceType) then title ∈ reductionTitles release
        else HasTitle facts sourceId' sourceType' title := by
  have htitles : HasTitle ((release.alternateTitles.take maxAlternateTitles).foldl
      (fun facts title =>
        insertTitle facts sourceId sourceType title "alternate")
        (insertTitle (deleteFacts facts sourceId sourceType) sourceId sourceType
          release.primaryTitle "primary"))
        sourceId' sourceType' title
      ↔ if (sourceId', sourceType') = (sourceId, sourceType) then title ∈ reductionTitles release
        else HasTitle facts sourceId' sourceType' title := by
    rw [hasTitle_foldl, hasTitle_insertTitle, hasTitle_deleteFacts, reductionTitles, List.mem_cons]
    split
    · rename_i heq
      simp only [Prod.mk.injEq] at heq
      simp only [heq, Prod.mk.injEq]
      tauto
    · rename_i hne
      simp only [ne_eq, Prod.mk.injEq] at hne ⊢
      tauto
  rw [← htitles]
  unfold replace HasTitle
  cases release.arrIdentity with
  | none => rfl
  | some identity =>
    simp only
    rw [titles_foldl]
    rfl

/-- **The external identifiers** of a source after its facts have been written; those of the others
stay. -/
theorem hasExternal_replace {release : ReleaseDescriptor} {external : Str × Str} :
    HasExternal (replace facts sourceId sourceType release) sourceId' sourceType' external
      ↔ if (sourceId', sourceType') = (sourceId, sourceType)
        then external ∈ reductionExternalIds release
        else HasExternal facts sourceId' sourceType' external := by
  have hdeleted : HasExternal ((release.alternateTitles.take maxAlternateTitles).foldl
      (fun facts title =>
        insertTitle facts sourceId sourceType title "alternate")
        (insertTitle (deleteFacts facts sourceId sourceType) sourceId sourceType
          release.primaryTitle "primary"))
        sourceId' sourceType' external
      ↔ (sourceId', sourceType') ≠ (sourceId, sourceType)
        ∧ HasExternal facts sourceId' sourceType' external := by
    unfold HasExternal
    rw [externalIds_foldl]
    exact hasExternal_deleteFacts
  unfold replace reductionExternalIds
  cases release.arrIdentity with
  | none =>
    simp only
    rw [hdeleted]
    split <;> simp_all
  | some identity =>
    simp only
    rw [hasExternal_foldl, hasExternal_insertExternal, hdeleted, List.mem_cons]
    split
    · rename_i heq
      simp only [Prod.mk.injEq] at heq
      simp only [heq, Prod.mk.injEq, true_and, ne_eq, not_true_eq_false, false_and, or_false]
      rw [or_comm, Prod.ext_iff]
    · rename_i hne
      simp only [ne_eq, Prod.mk.injEq] at hne ⊢
      tauto

/-- What the reduction selects. -/
theorem reduced_iff {titles : List NormalizedTitle} {externalIds : List (Str × Str)} :
    reduced facts sourceId sourceType titles externalIds = true
      ↔ (∃ title ∈ titles, HasTitle facts sourceId sourceType title)
        ∨ ∃ external ∈ externalIds, HasExternal facts sourceId sourceType external := by
  unfold reduced HasTitle HasExternal
  rw [Bool.or_eq_true]
  refine or_congr ?_ ?_
  · rw [List.any_eq_true]
    constructor
    · rintro ⟨row, hrow, hcondition⟩
      simp only [Bool.and_eq_true, decide_eq_true_eq, List.contains_iff_mem] at hcondition
      obtain ⟨⟨rfl, rfl⟩, htitle⟩ := hcondition
      exact ⟨row.normalizedTitle, htitle, row, hrow, rfl⟩
    · rintro ⟨title, htitle, row, hrow, hkey⟩
      obtain ⟨rfl, rfl, rfl⟩ : row.sourceId = sourceId ∧ row.sourceType = sourceType
        ∧ row.normalizedTitle = title := by simpa [SourceTitleRow.key] using hkey
      exact ⟨row, hrow, by simpa using htitle⟩
  · rw [Bool.and_eq_true, List.any_eq_true]
    constructor
    · rintro ⟨-, row, hrow, hcondition⟩
      simp only [Bool.and_eq_true, decide_eq_true_eq, List.any_eq_true] at hcondition
      obtain ⟨⟨rfl, rfl⟩, ⟨nspace, value⟩, hmem, rfl, rfl⟩ := hcondition
      exact ⟨_, hmem, row, hrow, rfl⟩
    · rintro ⟨⟨nspace, value⟩, hmem, row, hrow, hkey⟩
      obtain ⟨rfl, rfl, rfl, rfl⟩ : row.sourceId = sourceId ∧ row.sourceType = sourceType
        ∧ row.nspace = nspace ∧ row.value = value := by simpa [ExternalIdRow.key] using hkey
      refine ⟨by cases externalIds <;> simp_all, row, hrow, ?_⟩
      simp only [decide_true, Bool.true_and, List.any_eq_true, Bool.and_eq_true, decide_eq_true_eq]
      exact ⟨_, hmem, rfl, rfl⟩

end

/-! ### Compatible sources -/

/-- **The reduction loses no compatible source.** -/
theorem reduced_of_compatible (facts : Facts) (sourceId : Id) (sourceType : String)
    (candidate source : ReleaseDescriptor)
    (hcandidate : candidate.alternateTitles.length ≤ maxAlternateTitles)
    (hsource : source.alternateTitles.length ≤ maxAlternateTitles)
    (hcompatible : compatible candidate source false = .ok ()
    ∨ compatible candidate source true = .ok ()) :
    reduced (replace facts sourceId sourceType source) sourceId sourceType
      (reductionTitles candidate)
      (reductionExternalIds candidate) = true := by
  have hshares : bothArr sameArr candidate source = true ∨ titlesOverlap candidate source = true :=
    hcompatible.elim (fun h => (fits_of_compatible h).titles) fun h => (fits_of_compatible h).titles
  rw [reduced_iff]
  rcases hshares with harr | htitles
  · -- The identities are equal, and so are the first identifiers of the two lists.
    right
    unfold bothArr at harr
    split at harr
    · rename_i identity identity' hidentity hidentity'
      simp only [sameArr, Bool.and_eq_true, decide_eq_true_eq] at harr
      obtain ⟨⟨hkind, hinst⟩, hentity⟩ := harr
      refine ⟨("arr:".toList ++ arrKind identity.kind ++ ":".toList ++ identity.inst,
        decimal identity.entityId), ?_, ?_⟩
      · simp [reductionExternalIds, hidentity]
      · rw [hasExternal_replace, if_pos rfl, reductionExternalIds, hidentity',
          hkind, hinst, hentity]
        simp
    · cases harr
  · -- No title of either list is cut off.
    left
    unfold titlesOverlap at htitles
    obtain ⟨title, htitle, hmem⟩ := List.any_eq_true.mp htitles
    rw [List.contains_iff_mem] at hmem
    refine ⟨title, ?_, ?_⟩
    · rw [reductionTitles, List.take_of_length_le hcandidate]
      exact hmem
    · rw [hasTitle_replace, if_pos rfl, reductionTitles, List.take_of_length_le hsource]
      exact htitle

/-- Two releases whose only bond is the series that Sonarr has for them. -/
def renamed (title : String) : ReleaseDescriptor :=
  { ReleaseDescriptor.unknown title.toList with
    arrIdentity := some ⟨.series, "main".toList, 42, none, none, some "tt42".toList⟩ }

/-- A source that was found under another title. -/
theorem reduced_of_compatible_renamed :
    compatible (renamed "one show") (renamed "another show") false = .ok ()
      ∧ reduced (replace Facts.empty 7 "data" (renamed "another show")) 7 "data"
        (reductionTitles (renamed "one show")) (reductionExternalIds (renamed "one show")) = true :=
  ⟨by decide +kernel,
    reduced_of_compatible Facts.empty 7 "data" (renamed "one show") (renamed "another show")
    (by decide) (by decide) (.inl (by decide +kernel))⟩

end Sporos.Service.SourceFacts
