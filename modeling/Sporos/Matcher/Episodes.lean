import Sporos.Matcher.Files

/-! # Pairs of episodes

Two files that both stand for episodes may only be paired if they have an episode in common. The
veto of `edge_score` compares the keys of the two paths and is skipped when one of them has none. A
path with an episode marker has no keys if its range counts backwards, as in `S01E05-E03`, and such
a file is paired with any other one (`edgeScore_backwards`). For all other pairs the veto does what
it is for: `edgeScore_episodes_iff`. -/

namespace Sporos.Matcher.Episodes

open Sporos.Model.Matching Sporos.Matcher.Release Sporos.Matcher.Files

/-- A release stands for its first episode, and for those up to the last one if it has one. -/
def Covers (release : ReleaseDescriptor) (episode : ℕ) : Prop :=
  ∃ first, release.episode = some first ∧
    (episode = first ∨ ∃ last, release.episodeEnd = some last ∧ first ≤ episode ∧ episode ≤ last)

/-- Two releases are of one season and have an episode in common. -/
def EpisodesMeet (release release' : ReleaseDescriptor) : Prop :=
  release.season = release'.season ∧ ∃ episode, Covers release episode ∧ Covers release' episode

/-- The last episode of the range comes before the first one. -/
def CountsBackwards (release : ReleaseDescriptor) : Prop :=
  ∃ first last, release.episode = some first ∧ release.episodeEnd = some last ∧ last < first

/-- The checks of a pair that do not look at both episodes: the sizes, the roles, the extensions of
files that are not primary; and in season mode a primary file needs an agreement. -/
def Refused (policy : MatchingPolicy) (seasonMode : Bool) (candidate : TorrentFile)
    (source : LocalSourceFile) : Prop :=
  candidate.size ≠ source.size ∨ primary policy candidate ≠ primaryPath policy source.path
    ∨ (primary policy candidate = false ∧ extension candidate.path ≠ extension source.path)
    ∨ (seasonMode = true ∧ primary policy candidate = true)

/-! ### The keys of an episode -/

section

variable {U : Unicode} {value value' : Str}

/-- A release of this kind has the numbers of its marker. -/
theorem parseRelease_episode (h : (parseRelease U value).kind = .episode) :
    ∃ season first, (parseRelease U value).season = some season
      ∧ (parseRelease U value).episode = some first := by
  unfold parseRelease at h ⊢
  dsimp only at h ⊢
  split at h
  · rename_i marker hmarker
    exact ⟨marker.season, marker.episode, rfl, rfl⟩
  · split at h
    · cases h
    · split at h
      · cases h
      · split at h
        · cases h
        · split at h
          · cases h
          · split at h <;> cases h

theorem mem_episodeKeys (h : (parseRelease U value).kind = .episode) {season first : ℕ}
    (hseason : (parseRelease U value).season = some season)
    (hfirst : (parseRelease U value).episode = some first) {key : EpisodeKey} :
    key ∈ episodeKeys U value ↔ ∃ episode, first ≤ episode ∧
      episode ≤ (parseRelease U value).episodeEnd.getD first ∧ key = .season season episode := by
  simp only [episodeKeys, h, hseason, hfirst, List.mem_map, List.mem_range'_1]
  constructor
  · rintro ⟨episode, ⟨hle, hlt⟩, rfl⟩
    exact ⟨episode, hle, by omega, rfl⟩
  · rintro ⟨episode, hle, hlast, rfl⟩
    exact ⟨episode, ⟨hle, by omega⟩, rfl⟩

theorem episodeKeys_eq_nil_iff (h : (parseRelease U value).kind = .episode) :
    episodeKeys U value = [] ↔ CountsBackwards (parseRelease U value) := by
  obtain ⟨season, first, hseason, hfirst⟩ := parseRelease_episode h
  rw [List.eq_nil_iff_forall_not_mem]
  constructor
  · intro hnil
    cases hend : (parseRelease U value).episodeEnd with
    | none => exact absurd ((mem_episodeKeys h hseason hfirst).mpr ⟨first,
      le_rfl, by simp [hend], rfl⟩) (hnil _)
    | some last =>
      refine ⟨first, last, hfirst, hend, not_le.mp fun hle => ?_⟩
      exact hnil _ ((mem_episodeKeys h hseason hfirst).mpr ⟨first,
        le_rfl, by simpa [hend] using hle, rfl⟩)
  · rintro ⟨first', last, hfirst', hend, hlt⟩ key hkey
    obtain rfl : first = first' := Option.some.inj (hfirst.symm.trans hfirst')
    obtain ⟨episode, hle, hlast, -⟩ := (mem_episodeKeys h hseason hfirst).mp hkey
    rw [hend, Option.getD_some] at hlast
    omega

/-- Without a range that counts backwards, the keys are the episodes that the release stands for. -/
theorem mem_episodeKeys_iff (h : (parseRelease U value).kind = .episode)
    (hforwards : ¬CountsBackwards (parseRelease U value)) {season episode : ℕ} :
    .season season episode ∈ episodeKeys U value ↔
      (parseRelease U value).season = some season ∧ Covers (parseRelease U value) episode := by
  obtain ⟨season', first, hseason, hfirst⟩ := parseRelease_episode h
  rw [mem_episodeKeys h hseason hfirst]
  constructor
  · rintro ⟨episode', hle, hlast, heq⟩
    obtain ⟨rfl, rfl⟩ := EpisodeKey.season.inj heq
    refine ⟨hseason, first, hfirst, ?_⟩
    cases hend : (parseRelease U value).episodeEnd with
    | none =>
      rw [hend, Option.getD_none] at hlast
      exact .inl (le_antisymm hlast hle)
    | some last =>
      rw [hend, Option.getD_some] at hlast
      exact .inr ⟨last, rfl, hle, hlast⟩
  · rintro ⟨hseason', first', hfirst', hcovers⟩
    obtain rfl : season' = season := Option.some.inj (hseason.symm.trans hseason')
    obtain rfl : first = first' := Option.some.inj (hfirst.symm.trans hfirst')
    rcases hcovers with rfl | ⟨last, hend, hle, hlast⟩
    · refine ⟨episode, le_rfl, ?_, rfl⟩
      cases hend : (parseRelease U value).episodeEnd with
      | none => rfl
      | some last => exact not_lt.mp fun hlt => hforwards ⟨episode, last, hfirst, hend, hlt⟩
    · exact ⟨episode, hle, by rwa [hend], rfl⟩

/-- **The agreement of two episodes** is that they meet, if neither counts backwards. -/
theorem episodeAgreement_iff (h : (parseRelease U value).kind = .episode)
    (h' : (parseRelease U value').kind = .episode)
    (hforwards : ¬CountsBackwards (parseRelease U value))
    (hforwards' : ¬CountsBackwards (parseRelease U value')) :
    episodeAgreement U value value' = true
      ↔ EpisodesMeet (parseRelease U value) (parseRelease U value') := by
  obtain ⟨season, first, hseason, hfirst⟩ := parseRelease_episode h
  simp only [episodeAgreement, List.any_eq_true, List.contains_iff_mem]
  constructor
  · rintro ⟨key, hkey, hkey'⟩
    obtain ⟨episode, -, -, rfl⟩ := (mem_episodeKeys h hseason hfirst).mp hkey
    obtain ⟨-, hcovers⟩ := (mem_episodeKeys_iff h hforwards).mp hkey
    obtain ⟨hseason', hcovers'⟩ := (mem_episodeKeys_iff h' hforwards').mp hkey'
    exact ⟨hseason.trans hseason'.symm, episode, hcovers, hcovers'⟩
  · rintro ⟨hseasons, episode, hcovers, hcovers'⟩
    exact ⟨.season season episode, (mem_episodeKeys_iff h hforwards).mpr ⟨hseason, hcovers⟩,
      (mem_episodeKeys_iff h' hforwards').mpr ⟨hseasons ▸ hseason, hcovers'⟩⟩

theorem not_episodeAgreement (h : (parseRelease U value).kind = .episode)
    (h' : (parseRelease U value').kind = .episode)
    (hbackwards : CountsBackwards (parseRelease U value)
    ∨ CountsBackwards (parseRelease U value')) :
    episodeAgreement U value value' = false := by
  rw [← Bool.not_eq_true]
  simp only [episodeAgreement, List.any_eq_true, List.contains_iff_mem, not_exists, not_and]
  intro key hkey hkey'
  rcases hbackwards with hbackwards | hbackwards
  · rw [(episodeKeys_eq_nil_iff h).mpr hbackwards] at hkey
    cases hkey
  · rw [(episodeKeys_eq_nil_iff h').mpr hbackwards] at hkey'
    cases hkey'

end

/-! ### The score -/

section

variable {U : Unicode} {policy : MatchingPolicy} {seasonMode : Bool} {candidate : TorrentFile}
  {source : LocalSourceFile}

/-- **The veto**: without a range that counts backwards, a pair with a score meets. -/
theorem episodesMeet_of_edgeScore (hc : (parseRelease U candidate.path).kind = .episode)
    (hs : (parseRelease U source.path).kind = .episode)
    (hcf : ¬CountsBackwards (parseRelease U candidate.path))
    (hsf : ¬CountsBackwards (parseRelease U source.path))
    (h : (edgeScore U policy seasonMode candidate source).isSome = true) :
    EpisodesMeet (parseRelease U candidate.path) (parseRelease U source.path) := by
  have hkeys : (episodeKeys U candidate.path).isEmpty = false := by
    rw [List.isEmpty_eq_false_iff]
    exact mt (episodeKeys_eq_nil_iff hc).mp hcf
  have hkeys' : (episodeKeys U source.path).isEmpty = false := by
    rw [List.isEmpty_eq_false_iff]
    exact mt (episodeKeys_eq_nil_iff hs).mp hsf
  obtain ⟨v, hv⟩ := Option.isSome_iff_exists.mp h
  unfold edgeScore at hv
  split_ifs at hv with h₁ h₂ h₃ h₄ h₅
  rw [hkeys, hkeys', Bool.not_false, Bool.true_and, Bool.true_and, Bool.not_eq_true',
    Bool.not_eq_false] at h₄
  exact (episodeAgreement_iff hc hs hcf hsf).mp h₄

/-- **A range that counts backwards skips the veto**: the pair has a score unless another check
refuses it. -/
theorem edgeScore_backwards (hc : (parseRelease U candidate.path).kind = .episode)
    (hs : (parseRelease U source.path).kind = .episode)
    (hbackwards : CountsBackwards (parseRelease U candidate.path)
      ∨ CountsBackwards (parseRelease U source.path)) :
    (edgeScore U policy seasonMode candidate source).isSome = true ↔
      ¬Refused policy seasonMode candidate source := by
  have hagreement := not_episodeAgreement hc hs hbackwards
  have hkeys : (!(episodeKeys U candidate.path).isEmpty
      && !(episodeKeys U source.path).isEmpty) = false := by
    rw [Bool.and_eq_false_iff, Bool.not_eq_false', Bool.not_eq_false', List.isEmpty_iff,
      List.isEmpty_iff, episodeKeys_eq_nil_iff hc, episodeKeys_eq_nil_iff hs]
    exact hbackwards
  unfold edgeScore Refused
  rw [hagreement, hkeys]
  split_ifs with h₁ h₂ h₃ h₄ h₅
  · simp [h₁]
  · simp [h₂]
  · simp only [Bool.and_eq_true, Bool.not_eq_true', decide_eq_true_eq] at h₃
    simp [h₃]
  · cases h₄
  · simp only [Bool.not_false, Bool.and_true, Bool.and_eq_true] at h₅
    simp [h₅]
  · refine iff_of_true rfl ?_
    rintro (hsize | hrole | ⟨hprimary, hextension⟩ | ⟨hmode, hprimary⟩)
    · exact h₁ hsize
    · exact h₂ hrole
    · exact h₃ (by simp [hprimary, hextension])
    · exact h₅ (by simp [hmode, hprimary])

end

/-- **When conflicting episodes are not paired**: if neither range counts backwards, or the pair is
refused for another reason, or the two meet all the same. -/
theorem edgeScore_episodes_iff (U : Unicode) (policy : MatchingPolicy) (seasonMode : Bool)
    (candidate : TorrentFile) (source : LocalSourceFile)
    (hc : (parseRelease U candidate.path).kind = .episode)
    (hs : (parseRelease U source.path).kind = .episode) :
    ((edgeScore U policy seasonMode candidate source).isSome = true →
        EpisodesMeet (parseRelease U candidate.path) (parseRelease U source.path)) ↔
      (¬CountsBackwards (parseRelease U candidate.path)
        ∧ ¬CountsBackwards (parseRelease U source.path))
        ∨ Refused policy seasonMode candidate source
        ∨ EpisodesMeet (parseRelease U candidate.path) (parseRelease U source.path) := by
  by_cases hbackwards : CountsBackwards (parseRelease U candidate.path)
    ∨ CountsBackwards (parseRelease U source.path)
  · rw [edgeScore_backwards hc hs hbackwards, ← or_iff_not_imp_left, ← not_or]
    exact ⟨.inr, fun h => h.resolve_left (not_not.mpr hbackwards)⟩
  · rw [not_or] at hbackwards
    exact ⟨fun _ => .inl hbackwards, fun _ =>
      episodesMeet_of_edgeScore hc hs hbackwards.1 hbackwards.2⟩

/-- A file whose range counts backwards, and an episode of another season. -/
def backwardsFile : TorrentFile := ⟨0, "Show.S01E05-E03.mkv".toList, 5, false⟩

/-- A file of another episode. -/
def otherFile : LocalSourceFile := ⟨0, "Show.S02E09.mkv".toList, 5, none, none⟩

theorem edgeScore_episodes_backwards :
    (parseRelease Unicode.ascii backwardsFile.path).kind = .episode
      ∧ (parseRelease Unicode.ascii otherFile.path).kind = .episode
      ∧ (edgeScore Unicode.ascii .default false backwardsFile otherFile).isSome = true
      ∧ ¬EpisodesMeet (parseRelease Unicode.ascii backwardsFile.path)
        (parseRelease Unicode.ascii otherFile.path) :=
  ⟨by decide +kernel, by decide +kernel, by decide +kernel, fun h => absurd h.1 (by decide +kernel)⟩

/-- In season mode the same pair has no score. -/
theorem edgeScore_episodes_season :
    Refused .default true backwardsFile otherFile
      ∧ ((edgeScore Unicode.ascii .default true backwardsFile otherFile).isSome = true →
        EpisodesMeet (parseRelease Unicode.ascii backwardsFile.path)
          (parseRelease Unicode.ascii otherFile.path)) :=
  have hrefused : Refused .default true backwardsFile otherFile :=
    .inr (.inr (.inr ⟨rfl, by decide +kernel⟩))
  ⟨hrefused,
    (edgeScore_episodes_iff Unicode.ascii _ true backwardsFile otherFile (by decide +kernel)
    (by decide +kernel)).mpr (.inr (.inl hrefused))⟩

end Sporos.Matcher.Episodes
