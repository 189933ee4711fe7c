import Sporos.Matcher.CheckedEvaluate

/-! # The matching section of the configuration

`matching` of `config.rs`: the checks on the section and the policy it gives. The limits it enforces
are those under which the numbers of the matcher stay in the ranges of their types. -/

namespace Sporos.Service.Config

open Sporos.Model.Matching
open Sporos.Matcher.Release
open Sporos.Matcher.Evaluate (MatchRequest)
open Sporos.Matcher.CheckedAssign (Limits)
open Sporos.Lib.Checked (Fault)

/-- The section; the tolerance, a float, is `none` if it is not a number or infinite. -/
structure MatchingConfig where
  mode : Str
  seasonFromEpisodes : Bool
  preflightSizeTolerance : Option ℚ
  maxTorrentBytes : ℕ
  maxFilesPerTorrent : ℕ
  maxPathBytes : ℕ
  maxAssignmentFiles : ℕ
  maxCandidateEdges : ℕ
  maxAssignmentComponentFiles : ℕ
  maxAssignmentOperations : ℕ
  pendingSourceTimeout : ℕ
  videoExtensions : List Str
  optionalExtensions : List Str

/-- `MatchingConfig::default`, with the timeout in seconds. -/
def MatchingConfig.default : MatchingConfig where
  mode := "partial".toList
  seasonFromEpisodes := true
  preflightSizeTolerance := some (5764607523034235 / 2 ^ 58)
  maxTorrentBytes := 8 * 1024 * 1024
  maxFilesPerTorrent := 100000
  maxPathBytes := 4096
  maxAssignmentFiles := 4096
  maxCandidateEdges := 100000
  maxAssignmentComponentFiles := 128
  maxAssignmentOperations := 50000000
  pendingSourceTimeout := 7 * 24 * 60 * 60
  videoExtensions := []
  optionalExtensions := []

/-- The settings of the matching that the service uses. -/
structure Matching where
  policy : MatchingPolicy
  preflightSizeTolerance : Option ℚ
  maxTorrentBytes : ℕ
  maxFilesPerTorrent : ℕ
  maxPathBytes : ℕ
  pendingSourceTimeout : ℕ

/-- Why the settings are refused. -/
inductive ConfigError where
  | matchingMode
  | preflightTolerance
  | matcherBudget
  | fileExtension
  deriving DecidableEq, Repr

/-- `u8::is_ascii_alphanumeric`. -/
def isAsciiAlphanumeric (byte : UInt8) : Bool :=
  (48 ≤ byte && byte ≤ 57) || (65 ≤ byte && byte ≤ 90) || (97 ≤ byte && byte ≤ 122)

/-- `value.strip_prefix('.').unwrap_or(value)`. -/
def stripDot : Str → Str
  | '.' :: rest => rest
  | value => value

/-- Add a normalised extension, unless it is there already. -/
def normalizeExtension (normalized : List Str) (value : Str) : Except ConfigError (List Str) :=
  let value := toAsciiLowercase (stripDot value)
  if value.isEmpty || (bytes value).length > 16
      || !(bytes value).all (fun byte => isAsciiAlphanumeric byte || byte = 45)
        then .error .fileExtension
  else if value ∈ normalized then .ok normalized
  else .ok (normalized ++ [value])

/-- The extensions in their normal form, each once. -/
def normalizedExtensions (values : List Str) : Except ConfigError (List Str) :=
  values.foldlM normalizeExtension []

/-- The extensions of the section, or the default ones. -/
def extensionsOr (defaults values : List Str) : Except ConfigError (List Str) :=
  if values.isEmpty then .ok defaults else normalizedExtensions values

/-- `allow_flexible` and `allow_partial`. -/
def allowed (mode : Str) : Option (Bool × Bool) :=
  if mode = "strict".toList then some (false, false)
  else if mode = "flexible".toList then some (true, false)
  else if mode = "partial".toList then some (true, true)
  else none

section

variable (config : MatchingConfig)

/-- The tolerance is a fraction. -/
def toleranceAccepted : Bool := config.preflightSizeTolerance.any fun tolerance =>
    0 ≤ tolerance && tolerance ≤ 1

/-- The budget is empty or too large. -/
def budgetRefused : Bool :=
  config.maxAssignmentFiles = 0
    || config.maxAssignmentFiles > 100000
    || config.maxCandidateEdges = 0
    || config.maxCandidateEdges > 1000000
    || config.maxAssignmentComponentFiles = 0
    || config.maxAssignmentComponentFiles > 1024
    || config.maxAssignmentComponentFiles > config.maxAssignmentFiles
    || config.maxAssignmentOperations = 0
    || config.maxAssignmentOperations > 1000000000

/-- `matching` of the settings: the policy that they stand for. -/
def matching : Except ConfigError Matching :=
  match allowed config.mode with
  | none => .error .matchingMode
  | some (allowFlexible, allowPartial) =>
    if !toleranceAccepted config then .error .preflightTolerance
    else if budgetRefused config then .error .matcherBudget
    else do
      let defaults := MatchingPolicy.default
      let primaryVideoExtensions ← extensionsOr defaults.primaryVideoExtensions
        config.videoExtensions
      let optionalExtensions ← extensionsOr defaults.optionalExtensions config.optionalExtensions
      return {
        policy := {
          allowFlexible
          allowPartial
          allowSeasonFromEpisodes := config.seasonFromEpisodes
          primaryVideoExtensions
          optionalExtensions
          optionalPathComponents := defaults.optionalPathComponents
          maxAssignmentFiles := config.maxAssignmentFiles
          maxCandidateEdges := config.maxCandidateEdges
          maxAssignmentComponentFiles := config.maxAssignmentComponentFiles
          maxAssignmentOperations := config.maxAssignmentOperations }
        preflightSizeTolerance := config.preflightSizeTolerance
        maxTorrentBytes := config.maxTorrentBytes
        maxFilesPerTorrent := config.maxFilesPerTorrent
        maxPathBytes := config.maxPathBytes
        pendingSourceTimeout := config.pendingSourceTimeout }

end

/-! ### The limits -/

section

variable {config : MatchingConfig} {m : Matching}

/-- What an accepted section says about its policy. -/
theorem matching_ok (h : matching config = .ok m) : budgetRefused config = false ∧
    m.policy.maxCandidateEdges = config.maxCandidateEdges ∧
    m.policy.maxAssignmentComponentFiles = config.maxAssignmentComponentFiles ∧
    m.policy.maxAssignmentOperations = config.maxAssignmentOperations := by
  unfold matching at h
  split at h
  · cases h
  · split_ifs at h with htolerance hbudget
    obtain ⟨video, -, h⟩ := Lib.Loop.bind_eq_ok.mp h
    obtain ⟨optional, -, h⟩ := Lib.Loop.bind_eq_ok.mp h
    obtain rfl := Except.ok.inj h
    exact ⟨by simpa using hbudget, rfl, rfl, rfl⟩

theorem limits_of_matching (h : matching config = .ok m) : Limits m.policy := by
  obtain ⟨hbudget, hedges, hfiles, hoperations⟩ := matching_ok h
  simp only [budgetRefused, Bool.or_eq_false_iff, decide_eq_false_iff_not, not_lt] at hbudget
  refine ⟨by omega, by omega, ?_⟩
  have : (1000000000 : ℕ) < 2 ^ 64 := by norm_num
  omega

/-- **No overflow**: with the policy of an accepted section, and a candidate whose total size is a
`u64`, the matcher on checked numbers decides what it does on unbounded ones, whatever the sources
are. -/
theorem evaluate_never_fails (U : Unicode) (request : MatchRequest) (h : matching config = .ok m)
    (hpolicy : request.policy = m.policy)
    (hsizes : (request.candidate.files.map TorrentFile.size).sum < 2 ^ 64) :
    Matcher.CheckedEvaluate.evaluate U request = .ok (Matcher.Evaluate.evaluate U request) :=
  Matcher.CheckedEvaluate.evaluate_eq (hpolicy ▸ limits_of_matching h) hsizes

end

/-- `Matching::default`. -/
def Matching.default : Matching where
  policy := MatchingPolicy.default
  preflightSizeTolerance := some (5764607523034235 / 2 ^ 58)
  maxTorrentBytes := 8388608
  maxFilesPerTorrent := 100000
  maxPathBytes := 4096
  pendingSourceTimeout := 604800

/-- The default section is accepted, as the `expect` of `Matching::default` says. -/
theorem matching_default : matching .default = .ok .default := by
  have htolerance : toleranceAccepted .default = true := by decide +kernel
  unfold matching
  rw [show allowed MatchingConfig.default.mode = some (true, true) from rfl]
  simp only [htolerance, Bool.not_true, Bool.false_eq_true, if_false]
  rfl

theorem evaluate_never_fails_film :
    (Matcher.Evaluate.evaluate Unicode.ascii Matcher.Invariance.filmRequest).outcome = .matched ∧
      Matcher.CheckedEvaluate.evaluate Unicode.ascii Matcher.Invariance.filmRequest =
        .ok (Matcher.Evaluate.evaluate Unicode.ascii Matcher.Invariance.filmRequest) :=
  ⟨by decide +kernel, evaluate_never_fails Unicode.ascii _ matching_default rfl (by decide)⟩

end Sporos.Service.Config
