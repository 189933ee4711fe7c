import Mathlib.Tactic

/-! # The matching data model

The types of the `sporos-model` crate that the matcher reads and returns. Identifiers and hashes are
bit vectors, so the order of two identifiers is the order of their bytes. Sizes, ordinals and counts
are natural numbers; the places where the source adds `u64` values say so (`sumU64`). -/

namespace Sporos.Model.Matching

/-- Text the matcher inspects: a `str` is the sequence of its characters. -/
abbrev Str := List Char

instance : LawfulBEq Str := inferInstance

/-- The id of a source. -/
abbrev SourceId := BitVec 128

/-- What a release is. -/
inductive VideoKind where
  | movie
  | episode
  | seasonPack
  | dateEpisode
  | absoluteEpisode
  | disc
  | unknownVideo
  deriving DecidableEq, Repr

/-- A day. -/
structure Date where
  year : ℕ
  month : ℕ
  day : ℕ
  deriving DecidableEq, Repr

/-- A title that `normalizeTitle` produced. -/
abbrev NormalizedTitle := Str

/-- Whether an entity is a film or a series. -/
inductive ArrKind where
  | movie
  | series
  deriving DecidableEq, Repr

/-- An entity of an instance that manages films or series. -/
structure ArrIdentity where
  kind : ArrKind
  inst : Str
  entityId : ℤ
  tvdbId : Option ℤ
  tmdbId : Option ℤ
  imdbId : Option Str
  deriving DecidableEq, Repr

/-- What a name tells about a release. -/
structure ReleaseDescriptor where
  kind : VideoKind
  primaryTitle : NormalizedTitle
  alternateTitles : List NormalizedTitle
  year : Option ℕ
  season : Option ℕ
  episode : Option ℕ
  episodeEnd : Option ℕ
  absoluteEpisode : Option ℕ
  airDate : Option Date
  source : Option Str
  resolution : Option Str
  videoCodec : Option Str
  hdr : Option Str
  audio : Option Str
  releaseGroup : Option Str
  arrIdentity : Option ArrIdentity
  deriving DecidableEq, Repr

/-- `ReleaseDescriptor::unknown`. -/
def ReleaseDescriptor.unknown (title : NormalizedTitle) : ReleaseDescriptor where
  kind := .unknownVideo
  primaryTitle := title
  alternateTitles := []
  year := none
  season := none
  episode := none
  episodeEnd := none
  absoluteEpisode := none
  airDate := none
  source := none
  resolution := none
  videoCodec := none
  hdr := none
  audio := none
  releaseGroup := none
  arrIdentity := none

/-- The hashes of a torrent, of the first version, the second, or both. -/
structure InfoHashes where
  v1 : Option (BitVec 160)
  v2 : Option (BitVec 256)
  deriving DecidableEq, Repr

/-- A file of a torrent. -/
structure TorrentFile where
  ordinal : ℕ
  path : Str
  size : ℕ
  padding : Bool
  deriving DecidableEq, Repr

/-- Where a file lies among the pieces. -/
structure TorrentPieceFile where
  fileOrdinal : Option ℕ
  offset : ℕ
  size : ℕ
  deriving DecidableEq, Repr

/-- What is known of a torrent. -/
structure TorrentManifest where
  hashes : InfoHashes
  files : List TorrentFile
  pieceLength : Option ℕ
  pieceFiles : List TorrentPieceFile
  deriving DecidableEq, Repr

/-- Where the files of a source come from. -/
inductive SourceKind where
  | qbittorrentTorrent
  | dataDirectoryRelease
  | dataDirectoryFile
  deriving DecidableEq, Repr

/-- A file that is already there. -/
structure LocalSourceFile where
  id : ℕ
  path : Str
  size : ℕ
  deviceId : Option ℕ
  inode : Option ℕ
  deriving DecidableEq, Repr

/-- A source of files that are already there. -/
structure LocalSourceManifest where
  id : SourceId
  kind : SourceKind
  release : ReleaseDescriptor
  hashes : InfoHashes
  files : List LocalSourceFile
  available : Bool
  deriving DecidableEq, Repr

/-- How strict the matching is. -/
structure MatchingPolicy where
  allowFlexible : Bool
  allowPartial : Bool
  allowSeasonFromEpisodes : Bool
  primaryVideoExtensions : List Str
  optionalExtensions : List Str
  optionalPathComponents : List Str
  maxAssignmentFiles : ℕ
  maxCandidateEdges : ℕ
  maxAssignmentComponentFiles : ℕ
  maxAssignmentOperations : ℕ
  deriving DecidableEq, Repr

/-- `MatchingPolicy::default`. -/
def MatchingPolicy.default : MatchingPolicy where
  allowFlexible := true
  allowPartial := true
  allowSeasonFromEpisodes := true
  primaryVideoExtensions :=
    ["mkv", "mp4", "m4v", "avi", "ts", "m2ts", "mov", "wmv", "webm", "iso"].map String.toList
  optionalExtensions :=
    ["nfo", "txt", "srt", "ass", "ssa", "sub", "idx", "jpg", "jpeg", "png", "sfv"].map String.toList
  optionalPathComponents := ["sample", "proof", "screenshots"].map String.toList
  maxAssignmentFiles := 4096
  maxCandidateEdges := 100000
  maxAssignmentComponentFiles := 128
  maxAssignmentOperations := 50000000

/-- What comes of a match. -/
inductive MatchOutcome where
  | matched
  | noMatch
  | alreadyPresent
  | rejected
  deriving DecidableEq, Repr

/-- How the files have been matched. -/
inductive MatchMode where
  | strict
  | flexible
  | partialMatch
  | seasonFromEpisodes
  deriving DecidableEq, Repr

/-- Why a match has ended as it has. -/
inductive MatchReason where
  | matchStrict
  | matchFlexible
  | matchPartial
  | matchSeasonFromEpisodes
  | alreadyPresent
  | noPlausibleSource
  | mediaTypeConflict
  | titleConflict
  | yearConflict
  | seriesConflict
  | seasonConflict
  | episodeConflict
  | dateConflict
  | noPrimaryVideoOverlap
  | fileSizeConflict
  | ambiguousFileMapping
  | unsupportedTorrent
  | unsafeTorrentPath
  | hardlinkDeviceMismatch
  | matcherBudgetExceeded
  deriving DecidableEq, Repr

/-- The sum of `u64` values: it wraps around. -/
def sumU64 (l : List ℕ) : ℕ := l.sum % 2 ^ 64

/-- `Ratio::from_bytes`, in parts per million; the quotient is cast to `u32`. -/
def ratioFromBytes (present total : ℕ) : ℕ :=
  if total = 0 then 0 else present * 1000000 / total % 2 ^ 32

/-- A file of the candidate and the source file that it is linked from. -/
structure FileMapping where
  candidateOrdinal : ℕ
  sourceId : SourceId
  sourceFileId : ℕ
  candidatePath : Str
  sourcePath : Str
  size : ℕ
  score : ℕ
  deriving DecidableEq, Repr

/-- What a decision rests on, in numbers. -/
structure MatchEvidence where
  candidateFiles : ℕ
  requiredFiles : ℕ
  primaryFiles : ℕ
  mappedFiles : ℕ
  mappedPrimaryFiles : ℕ
  mappedPrimaryBytes : ℕ
  exactPathMappings : ℕ
  compatibleSources : ℕ
  qbitSources : ℕ
  deriving DecidableEq, Repr

/-- The decision about a candidate. -/
structure MatchDecision where
  outcome : MatchOutcome
  mode : Option MatchMode
  reason : MatchReason
  sourceIds : List SourceId
  mappings : List FileMapping
  mappedBytes : ℕ
  missingBytes : ℕ
  presentRatio : ℕ
  requiresRecheck : Bool
  evidence : MatchEvidence
  deriving DecidableEq, Repr

theorem sumU64_perm {l l' : List ℕ} (h : l.Perm l') : sumU64 l = sumU64 l' := by
  unfold sumU64; rw [h.sum_eq]

theorem sumU64_eq {l : List ℕ} (h : l.sum < 2 ^ 64) : sumU64 l = l.sum := Nat.mod_eq_of_lt h

end Sporos.Model.Matching
