import Sporos.Lib.Ternary
import Sporos.Matcher.Evaluate

/-! # The preflight

Before an announced release is loaded, the preflight looks for a source of its title that it could
be matched with (`preflight.rs`): among the torrents with a query over the columns of their
releases, and among the releases of the data roots with their descriptors. It passes over no source
that the matcher would compare with the release (`preflight_accepts`). -/

namespace Sporos.Service.Preflight

open Sporos.Model.Matching
open Sporos.Matcher.Release
open Sporos.Matcher.Evaluate
open Sporos.Lib.Ternary

/-! ### The columns of a release -/

/-- `video_kind` of the projection. -/
def videoKind : VideoKind → String
  | .movie => "movie"
  | .episode => "episode"
  | .seasonPack => "season_pack"
  | .dateEpisode => "date_episode"
  | .absoluteEpisode => "absolute_episode"
  | .disc => "disc"
  | .unknownVideo => "unknown_video"

/-- A number in decimal digits, padded with zeros. -/
def padded (width n : ℕ) : Str := (Nat.toDigits 10 n).leftpad width '0'

/-- The text of a date: `{:04}-{:02}-{:02}`. -/
def dateText (date : Date) : Str :=
  padded 4 date.year ++ '-' :: padded 2 date.month ++ '-' :: padded 2 date.day

/-- The columns that `project_torrent` writes of a release. -/
structure ReleaseColumns where
  normalizedTitle : NormalizedTitle
  videoKind : String
  releaseYear : Option ℕ
  season : Option ℕ
  episode : Option ℕ
  episodeEnd : Option ℕ
  absoluteEpisode : Option ℕ
  airDate : Option Str
  deriving DecidableEq, Repr

/-- The columns by which the sources are searched. -/
def releaseColumns (release : ReleaseDescriptor) : ReleaseColumns where
  normalizedTitle := release.primaryTitle
  videoKind := videoKind release.kind
  releaseYear := release.year
  season := release.season
  episode := release.episode
  episodeEnd := release.episodeEnd
  absoluteEpisode := release.absoluteEpisode
  airDate := release.airDate.map dateText

/-! ### The conditions -/

/-- `optional_equal`. -/
def optionalEqual {α : Type} [DecidableEq α] (column value : Option α) : Truth :=
  either (either (isNull column) (isNull value)) (equal column value)

/-- `push_identity`: the condition that the query has on a row, for a release. -/
def pushIdentity (release : ReleaseDescriptor) (allowSeasonFromEpisodes : Bool)
    (row : ReleaseColumns) : Truth :=
  match release.kind with
  | .movie | .disc =>
    both (oneOf (some row.videoKind) ["movie", "disc", "unknown_video"])
      (optionalEqual row.releaseYear release.year)
  | .episode =>
    both (both (oneOf (some row.videoKind) ["episode", "unknown_video"])
      (optionalEqual row.season release.season)) (optionalEqual row.episode release.episode)
  | .seasonPack =>
    both (if allowSeasonFromEpisodes then
        oneOf (some row.videoKind) ["season_pack", "episode", "unknown_video"]
      else oneOf (some row.videoKind) ["season_pack", "unknown_video"])
      (optionalEqual row.season release.season)
  | .dateEpisode =>
    both (oneOf (some row.videoKind) ["date_episode", "unknown_video"])
      (optionalEqual row.airDate (release.airDate.map dateText))
  | .absoluteEpisode =>
    both (oneOf (some row.videoKind) ["absolute_episode", "unknown_video"])
      (optionalEqual row.absoluteEpisode release.absoluteEpisode)
  | .unknownVideo => some true

/-- `compatible` of the preflight: the values are equal, or one is missing. -/
def compatibleValues {α : Type} [DecidableEq α] (left right : Option α) : Bool :=
  left.isNone || right.isNone || left = right

/-- `plausible_identity`. -/
def plausibleIdentity (candidate source : ReleaseDescriptor)
    (allowSeasonFromEpisodes : Bool) : Bool :=
  (candidate.kind = .unknownVideo || source.kind = .unknownVideo || candidate.kind = source.kind
      || (allowSeasonFromEpisodes && candidate.kind = .seasonPack && source.kind = .episode))
    && compatibleValues candidate.year source.year
    && compatibleValues candidate.season source.season
    && (candidate.kind = .seasonPack || compatibleValues candidate.episode source.episode)
    && compatibleValues candidate.absoluteEpisode source.absoluteEpisode
    && compatibleValues candidate.airDate source.airDate

/-! ### Against the matcher -/

section

variable {α : Type} [DecidableEq α]

theorem optionalEqual_eq_true {column value : Option α} :
    optionalEqual column value = some true ↔ differ value column = false := by
  rw [optionalEqual, null_or_equal_iff, differ_eq_false_iff]
  exact ⟨fun h a b ha hb => (h b a hb ha).symm, fun h a b ha hb => (h b a hb ha).symm⟩

theorem compatibleValues_eq_true {left right : Option α} :
    compatibleValues left right = true ↔ differ left right = false := by
  cases left <;> cases right <;> simp [compatibleValues, differ]

theorem differ_map {β : Type} [DecidableEq β] (f : α → β) {left right : Option α}
    (h : differ left right = false) : differ (left.map f) (right.map f) = false := by
  cases left <;> cases right <;> simp_all [differ]

end

/-- The releases are compared in a mode in which the matcher accepts them: as they are, or, where
season packs may be assembled from episodes, in the season mode, which is not for two episodes that
differ. -/
def Comparable (candidate source : ReleaseDescriptor) (allowSeasonFromEpisodes : Bool) : Prop :=
  compatible candidate source false = .ok ()
    ∨ (allowSeasonFromEpisodes = true ∧ compatible candidate source true = .ok ()
      ∧ (candidate.kind = .episode → source.kind = .episode → candidate.episode = source.episode))

instance (candidate source : ReleaseDescriptor) (allowSeasonFromEpisodes : Bool) :
    Decidable (Comparable candidate source allowSeasonFromEpisodes) :=
  inferInstanceAs (Decidable (_ ∨ (_ ∧ _ ∧ (_ → _ → _))))

/-- No field of the releases speaks against a match. -/
structure Plausible (candidate source : ReleaseDescriptor)
    (allowSeasonFromEpisodes : Bool) : Prop where
  kinds : candidate.kind = .unknownVideo ∨ source.kind = .unknownVideo
    ∨ candidate.kind = source.kind
    ∨ (allowSeasonFromEpisodes = true ∧ candidate.kind = .seasonPack ∧ source.kind = .episode)
  years : differ candidate.year source.year = false
  seasons : differ candidate.season source.season = false
  episodes : differ candidate.episode source.episode = false
  airDates : differ candidate.airDate source.airDate = false
  absoluteEpisodes : differ candidate.absoluteEpisode source.absoluteEpisode = false

section

variable {candidate source : ReleaseDescriptor} {allowSeasonFromEpisodes : Bool}

/-- The episodes of parsed releases agree when those of two single episodes do. -/
theorem differ_episode (hcandidate : Parsed candidate) (hsource : Parsed source)
    (hepisodes : candidate.kind = .episode → source.kind = .episode →
      candidate.episode = source.episode) :
    differ candidate.episode source.episode = false := by
  rw [differ_eq_false_iff]
  intro a b ha hb
  have hkind : candidate.kind = .episode := by
    by_contra hkind
    rw [hcandidate.episode hkind] at ha
    cases ha
  have hkind' : source.kind = .episode := by
    by_contra hkind'
    rw [hsource.episode hkind'] at hb
    cases hb
  have heq := hepisodes hkind hkind'
  rw [ha, hb] at heq
  exact Option.some_inj.mp heq

theorem plausible_of_fits {seasonMode : Bool} (h : Fits candidate source seasonMode)
    (hcandidate : Parsed candidate) (hsource : Parsed source)
    (hmode : seasonMode = true → allowSeasonFromEpisodes = true)
    (hepisodes : candidate.kind = .episode → source.kind = .episode →
    candidate.episode = source.episode) :
    Plausible candidate source allowSeasonFromEpisodes where
  kinds := h.kinds.imp_right (Or.imp_right (Or.imp_right (And.imp_left hmode)))
  years := h.years
  seasons := h.seasons
  episodes := differ_episode hcandidate hsource hepisodes
  airDates := h.airDates
  absoluteEpisodes := h.absoluteEpisodes

theorem Comparable.isPlausible (h : Comparable candidate source allowSeasonFromEpisodes)
    (hcandidate : Parsed candidate) (hsource : Parsed source) :
    Plausible candidate source allowSeasonFromEpisodes := by
  rcases h with h | ⟨hallow, h, hepisodes⟩
  · have hfits := fits_of_compatible h
    exact plausible_of_fits hfits hcandidate hsource (by simp) fun hkind hkind' =>
      (hfits.episodes rfl hkind hkind').1
  · exact plausible_of_fits (fits_of_compatible h) hcandidate hsource (fun _ => hallow) hepisodes

/-- The query selects the row of a plausible source. -/
theorem Plausible.pushIdentity (h : Plausible candidate source allowSeasonFromEpisodes) :
    pushIdentity candidate allowSeasonFromEpisodes (releaseColumns source) = some true := by
  have hyears := optionalEqual_eq_true.mpr h.years
  have hseasons := optionalEqual_eq_true.mpr h.seasons
  have hepisodes := optionalEqual_eq_true.mpr h.episodes
  have hdates := optionalEqual_eq_true.mpr (differ_map dateText h.airDates)
  have habsolute := optionalEqual_eq_true.mpr h.absoluteEpisodes
  have hkinds := h.kinds
  unfold Preflight.pushIdentity
  cases hkind : candidate.kind <;> rw [hkind] at hkinds <;>
    simp only [releaseColumns, both_eq_true, hyears, hseasons, hepisodes, hdates,
      habsolute, and_true]
  case seasonPack =>
    cases allowSeasonFromEpisodes
    · rcases hkinds with hkinds | hsource | hsource | ⟨hallow, -⟩
      · cases hkinds
      · simp [hsource, videoKind]
      · simp [← hsource, videoKind]
      · cases hallow
    · rcases hkinds with hkinds | hsource | hsource | ⟨-, -, hsource⟩
      · cases hkinds
      · simp [hsource, videoKind]
      · simp [← hsource, videoKind]
      · simp [hsource, videoKind]
  all_goals
    rcases hkinds with hkinds | hsource | hsource | ⟨-, hpack, -⟩
    · cases hkinds
    · simp [hsource, videoKind]
    · simp [← hsource, videoKind]
    · cases hpack

theorem Plausible.plausibleIdentity (h : Plausible candidate source allowSeasonFromEpisodes) :
    plausibleIdentity candidate source allowSeasonFromEpisodes = true := by
  have hkinds := h.kinds
  simp only [Preflight.plausibleIdentity, Bool.and_eq_true, Bool.or_eq_true, decide_eq_true_eq,
    compatibleValues_eq_true]
  refine ⟨⟨⟨⟨⟨?_, h.years⟩, h.seasons⟩, .inr h.episodes⟩, h.absoluteEpisodes⟩, h.airDates⟩
  tauto

end

/-- **The preflight passes over no source that the matcher would compare.** The names may be any. -/
theorem preflight_accepts (U : Unicode) (a b : Str) (allowSeasonFromEpisodes : Bool)
    (hcompatible : Comparable (parseRelease U a) (parseRelease U b) allowSeasonFromEpisodes) :
    pushIdentity (parseRelease U a) allowSeasonFromEpisodes (releaseColumns (parseRelease U b)) =
      some true
      ∧ plausibleIdentity (parseRelease U a) (parseRelease U b) allowSeasonFromEpisodes = true := by
  have hidentity := hcompatible.isPlausible (parsed_parseRelease U a) (parsed_parseRelease U b)
  exact ⟨hidentity.pushIdentity, hidentity.plausibleIdentity⟩

/-- A season pack and an episode of it. -/
theorem preflight_accepts_pack :
    Comparable (parseRelease Unicode.ascii "Show.S01".toList)
      (parseRelease Unicode.ascii "Show.S01E02".toList) true
      ∧ pushIdentity (parseRelease Unicode.ascii "Show.S01".toList) true
          (releaseColumns (parseRelease Unicode.ascii "Show.S01E02".toList)) = some true
      ∧ plausibleIdentity (parseRelease Unicode.ascii "Show.S01".toList)
          (parseRelease Unicode.ascii "Show.S01E02".toList) true = true :=
  ⟨by decide +kernel,
    preflight_accepts Unicode.ascii "Show.S01".toList "Show.S01E02".toList true (by decide +kernel)⟩

/-- In the season mode two episodes of a season are compatible whatever their numbers, and the
preflight tells them apart. -/
theorem preflight_rejects_other_episode :
    (parseRelease Unicode.ascii "Show.S01E01".toList).primaryTitle
        = (parseRelease Unicode.ascii "Show.S01E02".toList).primaryTitle
      ∧ compatible (parseRelease Unicode.ascii "Show.S01E01".toList)
          (parseRelease Unicode.ascii "Show.S01E02".toList) true = .ok ()
      ∧ pushIdentity (parseRelease Unicode.ascii "Show.S01E01".toList) true
          (releaseColumns (parseRelease Unicode.ascii "Show.S01E02".toList)) = some false
      ∧ plausibleIdentity (parseRelease Unicode.ascii "Show.S01E01".toList)
          (parseRelease Unicode.ascii "Show.S01E02".toList) true = false := by
  decide +kernel

end Sporos.Service.Preflight
