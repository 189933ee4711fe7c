import Sporos.Model.Matching

/-! # Release names

`release.rs` of the matcher: title normalisation and the parser of release names. The searches run
over the UTF-8 bytes of a name and return byte offsets, and the title is the part of the name before
the offset found (`sliceTo`).

Unicode normalisation, lower-casing and the alphanumeric class come from tables outside the
repository; they are the fields of `Unicode`. -/

namespace Sporos.Matcher.Release

open Sporos.Model.Matching

/-- The Unicode tables: `str::nfc`, `char::to_lowercase` and `char::is_alphanumeric`. -/
structure Unicode where
  nfc : Str → Str
  toLowercase : Char → Str
  isAlphanumeric : Char → Bool

/-- The tables restricted to ASCII text, where they are the identity, ASCII lower case, and the
letters and digits. -/
def Unicode.ascii : Unicode where
  nfc s := s
  toLowercase c := [c.toLower]
  isAlphanumeric := Char.isAlphanum

/-! ### Text -/

/-- `to_ascii_uppercase`. -/
def toAsciiUppercase (s : Str) : Str := s.map Char.toUpper

/-- `to_ascii_lowercase`. -/
def toAsciiLowercase (s : Str) : Str := s.map Char.toLower

/-- `eq_ignore_ascii_case`. -/
def eqIgnoreAsciiCase (s t : Str) : Bool := toAsciiLowercase s = toAsciiLowercase t

/-- The text before and after the last character that satisfies `p`. -/
def rsplitOnceBy (p : Char → Bool) : Str → Option (Str × Str)
  | [] => none
  | c :: s =>
    match rsplitOnceBy p s with
    | some (before, after) => some (c :: before, after)
    | none => if p c then some ([], s) else none

/-- `str::rsplit_once`. -/
def rsplitOnce (c : Char) (s : Str) : Option (Str × Str) := rsplitOnceBy (· == c) s

/-- The first element of `str::rsplit`: the text after the last separator. -/
def rsplitFirst (p : Char → Bool) (s : Str) : Str := ((rsplitOnceBy p s).map Prod.snd).getD s

/-- `str::contains` with a string. -/
def contains (s t : Str) : Bool := s.tails.any (t.isPrefixOf ·)

/-- `str::as_bytes`. -/
def bytes (s : Str) : List UInt8 := s.flatMap String.utf8EncodeChar

/-- `&s[..n]`, for a byte offset `n` on a character boundary. -/
def sliceTo : Str → ℕ → Str
  | [], _ => []
  | c :: s, n => if c.utf8Size ≤ n then c :: sliceTo s (n - c.utf8Size) else []

/-- `is_ascii_digit`. -/
def isAsciiDigit (b : UInt8) : Bool := 48 ≤ b ∧ b ≤ 57

/-- `is_ascii_alphanumeric`. -/
def isAsciiAlphanumeric (b : UInt8) : Bool :=
  isAsciiDigit b || (65 ≤ b && b ≤ 90) || (97 ≤ b && b ≤ 122)

/-! ### Title normalisation -/

section

variable (U : Unicode)

/-- The loop state of `normalizeTitle`: the text so far and the separator flag. -/
def normalizeStep : Str × Bool → Char → Str × Bool
  | (normalized, separator), c =>
    if U.isAlphanumeric c then (normalized ++ [c], false)
    else if !separator && !normalized.isEmpty then (normalized ++ [' '], true)
    else (normalized, separator)

/-- `normalize_title`. -/
def normalizeTitle (value : Str) : NormalizedTitle :=
  let (normalized, separator) :=
    ((U.nfc value).flatMap U.toLowercase).foldl (normalizeStep U) ([], true)
  if separator then normalized.dropLast else normalized

end

/-! ### Markers -/

/-- `leaf_without_extension`. -/
def leafWithoutExtension (value : Str) : Str :=
  let leaf := rsplitFirst (fun c => c == '/' || c == '\\') value
  match rsplitOnce '.' leaf with
  | none => leaf
  | some (stem, extension) =>
    if toAsciiLowercase extension ∈
        ["mkv", "mp4", "m4v", "avi", "ts", "m2ts", "mov", "wmv", "webm", "iso", "nfo", "srt"].map
          String.toList then stem
    else leaf

/-- The number that digits stand for. -/
def parseDigits (bs : List UInt8) : ℕ :=
  bs.foldl (fun value digit => value * 10 + (digit.toNat - 48)) 0

/-- The number read from `start` on, with at least `minimum` and at most `maximum` digits, and the
offset after it. -/
def digits (bs : List UInt8) (start minimum maximum : ℕ) : Option (ℕ × ℕ) :=
  let found := ((bs.drop start).take maximum).takeWhile isAsciiDigit
  if minimum ≤ found.length then some (parseDigits found, start + found.length) else none

/-- A token may end before this byte. -/
def boundary (b : Option UInt8) : Bool := b.all (fun b => !isAsciiAlphanumeric b)

/-- Where an episode is named, and which one it is. -/
structure EpisodeMarker where
  start : ℕ
  season : ℕ
  episode : ℕ
  episodeEnd : Option ℕ
  deriving DecidableEq, Repr

/-- The episode marker at `start`, if the bytes there have the form `S01E02`, `S01E02E03` or
`S01E02-E03`. -/
def episodeAt (bs : List UInt8) (start : ℕ) : Option EpisodeMarker :=
  if bs[start]? ≠ some 'S'.toUInt8 then none
  else match digits bs (start + 1) 1 2 with
    | none => none
    | some (season, afterSeason) =>
      if bs[afterSeason]? ≠ some 'E'.toUInt8 then none
      else match digits bs (afterSeason + 1) 1 3 with
        | none => none
        | some (episode, afterEpisode) =>
          let last := if bs[afterEpisode]? = some '-'.toUInt8 then afterEpisode + 1
            else afterEpisode
          let episodeEnd :=
            if bs[last]? = some 'E'.toUInt8 then
              (digits bs (last + 1) 1 3).map (fun found => found.1 % 2 ^ 16)
            else none
          some ⟨start, season % 2 ^ 16, episode % 2 ^ 16, episodeEnd⟩

/-- `find_episode`: the first marker of an episode. -/
def findEpisode (value : Str) : Option EpisodeMarker :=
  (List.range (bytes value).length).findSome? (episodeAt (bytes value))

/-- A season that is named at an offset. -/
def seasonAt (bs : List UInt8) (start : ℕ) : Option (ℕ × ℕ) :=
  if bs[start]? ≠ some 'S'.toUInt8 then none
  else match digits bs (start + 1) 1 2 with
    | none => none
    | some (season, after) =>
      if bs[after]? ≠ some 'E'.toUInt8 && boundary bs[after]? then some (start, season % 2 ^ 16)
      else none

/-- `find_season`: the first season that is named. -/
def findSeason (value : Str) : Option (ℕ × ℕ) :=
  (List.range (bytes value).length).findSome? (seasonAt (bytes value))

/-- A day that the month has. -/
def validDay (year month day : ℕ) : Bool :=
  let leap := year % 4 = 0 ∧ (year % 100 ≠ 0 ∨ year % 400 = 0)
  let maximum :=
    if month = 2 then (if leap then 29 else 28)
    else if month = 4 ∨ month = 6 ∨ month = 9 ∨ month = 11 then 30
    else 31
  1 ≤ day ∧ day ≤ maximum

/-- The calendar date in the ten bytes from `start` on. -/
def dateAt (bs : List UInt8) (start : ℕ) : Option (ℕ × Date) :=
  let slice := (bs.drop start).take 10
  let separator := slice.getD 4 0
  if !((slice.take 4).all isAsciiDigit)
      || !(separator == '.'.toUInt8 || separator == '-'.toUInt8)
      || !(((slice.drop 5).take 2).all isAsciiDigit)
      || slice.getD 7 0 != separator
      || !((slice.drop 8).all isAsciiDigit) then none
  else
    let year := parseDigits (slice.take 4) % 2 ^ 16
    let month := parseDigits ((slice.drop 5).take 2) % 2 ^ 8
    let day := parseDigits (slice.drop 8) % 2 ^ 8
    if 1900 ≤ year ∧ year ≤ 2099 ∧ 1 ≤ month ∧ month ≤ 12 ∧ validDay year month day then
      some (start, ⟨year, month, day⟩)
    else none

/-- `find_date`: the first date, with its offset. -/
def findDate (value : Str) : Option (ℕ × Date) :=
  (List.range ((bytes value).length - 9)).findSome? (dateAt (bytes value))

/-- A number in brackets at an offset. -/
def absoluteEpisodeAt (bs : List UInt8) (start : ℕ) : Option (ℕ × ℕ) :=
  if bs[start]? ≠ some '['.toUInt8 then none
  else match digits bs (start + 1) 1 4 with
    | none => none
    | some (episode, after) => if bs[after]? = some ']'.toUInt8 then some (start, episode) else none

/-- `find_absolute_episode`. -/
def findAbsoluteEpisode (value : Str) : Option (ℕ × ℕ) :=
  (List.range (bytes value).length).findSome? (absoluteEpisodeAt (bytes value))

/-- A year of four digits at an offset. -/
def yearAt (bs : List UInt8) (start : ℕ) : Option (ℕ × ℕ) :=
  if 0 < start ∧ (bs[start - 1]?).any isAsciiDigit then none
  else
    let slice := (bs.drop start).take 4
    if slice.all isAsciiDigit && boundary bs[start + 4]?
        && decide (1900 ≤ parseDigits slice ∧ parseDigits slice ≤ 2099) then
      some (start, parseDigits slice % 2 ^ 16)
    else none

/-- `find_year`: the first year, with its offset. -/
def findYear (value : Str) : Option (ℕ × ℕ) :=
  (List.range ((bytes value).length - 3)).findSome? (yearAt (bytes value))

/-- The name of a disc. -/
def isDisc (value : Str) : Bool := contains value "BDMV".toList || contains value "VIDEO_TS".toList

/-- The byte offset of the first technical marker, or the length. -/
def technicalSuffixStart : Str → ℕ
  | [] => 0
  | c :: s =>
    if ["2160P", "1080P", "720P", "BLURAY", "WEB-DL", "WEBRIP", "HDTV"].any
        (fun marker => marker.toList.isPrefixOf (toAsciiUppercase (c :: s))) then 0
    else c.utf8Size + technicalSuffixStart s

/-- The first of the markers that occurs in `upper`. -/
def findMarker (upper : Str) (markers : List String) : Option Str :=
  (markers.map String.toList).find? (contains upper ·)

/-- `char::is_whitespace`: the characters with the Unicode property `White_Space`. -/
def isWhitespace (c : Char) : Bool :=
  let n := c.toNat
  (9 ≤ n && n ≤ 13) || (0x2000 ≤ n && n ≤ 0x200A) ||
    n ∈ [0x20, 0x85, 0xA0, 0x1680, 0x2028, 0x2029, 0x202F, 0x205F, 0x3000]

/-- `trim`. -/
def trim (s : Str) : Str := ((s.dropWhile isWhitespace).reverse.dropWhile isWhitespace).reverse

/-- `add_technical_metadata`. -/
def addTechnicalMetadata (descriptor : ReleaseDescriptor) (value : Str) : ReleaseDescriptor :=
  let upper := toAsciiUppercase value
  { descriptor with
    resolution := findMarker upper ["2160P", "1080P", "720P", "576P", "480P"]
    source := findMarker upper ["WEB-DL", "WEBRIP", "BLURAY", "HDTV", "DVD"]
    videoCodec := findMarker upper ["X265", "HEVC", "X264", "H264", "AV1"]
    hdr := findMarker upper ["DOLBY VISION", "DV", "HDR10+", "HDR10", "HDR"]
    audio := findMarker upper ["TRUEHD", "DTS-HD", "DTS", "DDP", "AAC", "FLAC"]
    releaseGroup :=
      ((rsplitOnce '-' value).map (fun split => trim split.2)).filter
        (fun group => !group.isEmpty && !group.contains '/' && !group.contains '\\') }

/-! ### The parser -/

section

variable (U : Unicode)

/-- A release of a kind, with nothing but its title. -/
def descriptor (kind : VideoKind) (title : Str) : ReleaseDescriptor :=
  { ReleaseDescriptor.unknown (normalizeTitle U title) with kind }

/-- `parse_release`. -/
def parseRelease (value : Str) : ReleaseDescriptor :=
  let name := leafWithoutExtension value
  let upper := toAsciiUppercase name
  let finish (d : ReleaseDescriptor) := addTechnicalMetadata d name
  match findEpisode upper with
  | some marker =>
    finish { descriptor U .episode (sliceTo name marker.start) with
      season := some marker.season
      episode := some marker.episode
      episodeEnd := marker.episodeEnd }
  | none =>
    match findSeason upper with
    | some (start, season) =>
      finish { descriptor U .seasonPack (sliceTo name start) with season := some season }
    | none =>
      match findDate upper with
      | some (start, date) =>
        finish { descriptor U .dateEpisode (sliceTo name start) with airDate := some date }
      | none =>
        match findAbsoluteEpisode name with
        | some (start, episode) =>
          finish { descriptor U .absoluteEpisode (sliceTo name start) with
            absoluteEpisode := some episode }
        | none =>
          if isDisc upper then finish (descriptor U .disc name)
          else match findYear upper with
            | some (start, year) =>
              finish { descriptor U .movie (sliceTo name start) with year := some year }
            | none => finish (descriptor U .unknownVideo (sliceTo name (technicalSuffixStart name)))

/-- The fields that a parsed release has: those of its kind. -/
structure Parsed (release : ReleaseDescriptor) : Prop where
  alternateTitles : release.alternateTitles = []
  arrIdentity : release.arrIdentity = none
  year : release.kind ≠ .movie → release.year = none
  season : release.kind ≠ .episode → release.kind ≠ .seasonPack → release.season = none
  episode : release.kind ≠ .episode → release.episode = none
  absoluteEpisode : release.kind ≠ .absoluteEpisode → release.absoluteEpisode = none
  airDate : release.kind ≠ .dateEpisode → release.airDate = none

theorem Parsed.addTechnicalMetadata {release : ReleaseDescriptor}
    (h : Parsed release) (value : Str) : Parsed (addTechnicalMetadata release value) :=
  ⟨h.alternateTitles, h.arrIdentity, h.year, h.season, h.episode, h.absoluteEpisode, h.airDate⟩

theorem parsed_parseRelease (value : Str) : Parsed (parseRelease U value) := by
  unfold parseRelease
  dsimp only
  split
  · exact Parsed.addTechnicalMetadata (by constructor <;>
      simp [descriptor, ReleaseDescriptor.unknown]) _
  · split
    · exact Parsed.addTechnicalMetadata (by constructor <;>
        simp [descriptor, ReleaseDescriptor.unknown]) _
    · split
      · exact Parsed.addTechnicalMetadata (by constructor <;>
          simp [descriptor, ReleaseDescriptor.unknown]) _
      · split
        · exact Parsed.addTechnicalMetadata (by constructor <;>
            simp [descriptor, ReleaseDescriptor.unknown]) _
        · split
          · exact Parsed.addTechnicalMetadata (by constructor <;>
              simp [descriptor, ReleaseDescriptor.unknown]) _
          · split
            · exact Parsed.addTechnicalMetadata (by constructor <;>
                simp [descriptor, ReleaseDescriptor.unknown]) _
            · exact Parsed.addTechnicalMetadata (by constructor <;>
                simp [descriptor, ReleaseDescriptor.unknown]) _

/-- How an episode is told from others. -/
inductive EpisodeKey where
  | season (season episode : ℕ)
  | date (date : Date)
  | absolute (episode : ℕ)
  deriving DecidableEq, Repr

/-- The episodes a file name stands for. -/
def episodeKeys (value : Str) : List EpisodeKey :=
  let release := parseRelease U value
  match release.kind with
  | .episode =>
    match release.season, release.episode with
    | some season, some first =>
      let last := release.episodeEnd.getD first
      (List.range' first (last + 1 - first)).map (EpisodeKey.season season)
    | _, _ => []
  | .dateEpisode => (release.airDate.map EpisodeKey.date).toList
  | .absoluteEpisode => (release.absoluteEpisode.map EpisodeKey.absolute).toList
  | _ => []

end

/-- A two-episode file has both of its episode keys. -/
example : episodeKeys Unicode.ascii "a/Show.S03E07-E08.mkv".toList =
    [.season 3 7, .season 3 8] := by decide +kernel

end Sporos.Matcher.Release
