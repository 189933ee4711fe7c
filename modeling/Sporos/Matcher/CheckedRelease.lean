import Sporos.Lib.Checked
import Sporos.Lib.Utf8
import Sporos.Matcher.Release

/-! # The release parser on machine numbers

The parser of `release.rs` with every failure of the source: an index or a slice out of bounds, a
slice that cuts a character, a number that leaves its type, and also a cast that would lose digits,
which the source does not check. A `str` has at most `isize::MAX` bytes (`Text`), so that an offset
fits a `usize`. On each of them the parser gives what it gives without checks (`parser_checked`).

The offsets are those of bytes found in the upper-case copy, which is cut at the same places as the
name itself (`boundary_upper`), and each of them is at a byte of ASCII. -/

namespace Sporos.Matcher.CheckedRelease

open Sporos.Model.Matching
open Sporos.Matcher.Release (Unicode bytes toAsciiUppercase isAsciiDigit boundary validDay
  EpisodeMarker EpisodeKey leafWithoutExtension isDisc addTechnicalMetadata descriptor)
open Sporos.Lib.Checked
open Sporos.Lib.Utf8

/-! ### Slices of a text -/

/-- `&text[..n]`. -/
def sliceTo (text : Str) (n : ℕ) : Except Fault Str :=
  if isCharBoundary text n then .ok (Release.sliceTo text n) else .error .outOfBounds

/-- The text from a byte offset on. -/
def dropBytes : Str → ℕ → Str
  | text, 0 => text
  | [], _ => []
  | c :: text, n + 1 => dropBytes text (n + 1 - c.utf8Size)

/-- `&text[n..]`. -/
def sliceFrom (text : Str) (n : ℕ) : Except Fault Str :=
  if isCharBoundary text n then .ok (dropBytes text n) else .error .outOfBounds

/-- The offsets of `str::char_indices`. -/
def charIndices : ℕ → Str → List ℕ
  | _, [] => []
  | offset, c :: text => offset :: charIndices (offset + c.utf8Size) text

/-! ### Numbers -/

/-- Add a digit to a number: `value * 10 + u32::from(*digit - b'0')`. -/
def pushDigit (value : ℕ) (digit : UInt8) : Except Fault ℕ := do
  let digit ← sub digit.toNat 48
  unsigned 32 ((← unsigned 32 (value * 10)) + digit)

/-- `parse_digits`. -/
def parseDigits (bs : List UInt8) : Except Fault ℕ := bs.foldlM pushDigit 0

/-- The loop of `digits`: the offset of the first byte that does not belong to the number. -/
def digitsEnd (bs : List UInt8) (start maximum : ℕ) : ℕ → ℕ → Except Fault ℕ
  | 0, _ => .error .diverged
  | fuel + 1, stop => do
    if stop < bs.length then
      if (← sub stop start) < maximum then
        if isAsciiDigit (← getAt bs stop) then digitsEnd bs start maximum fuel (← u64 (stop + 1))
        else return stop
      else return stop
    else return stop

/-- `digits`: the number at an offset, and the offset behind it. -/
def digits (bs : List UInt8) (start minimum maximum : ℕ) : Except Fault (Option (ℕ × ℕ)) := do
  let stop ← digitsEnd bs start maximum (maximum + 1) start
  if minimum ≤ (← sub stop start) then
    return some (← parseDigits (← slice bs start stop), stop)
  else return none

/-! ### Markers -/

/-- The offset after a dash, if there is one. -/
def skipDash (bs : List UInt8) (stop : ℕ) : Except Fault ℕ :=
  if bs[stop]? = some '-'.toUInt8 then u64 (stop + 1) else .ok stop

/-- The last episode of a range, if the range goes on at an offset. -/
def rangeEnd (bs : List UInt8) (stop : ℕ) : Except Fault (Option ℕ) := do
  if bs[stop]? = some 'E'.toUInt8 then
    match ← digits bs (← u64 (stop + 1)) 1 3 with
    | some (last, _) => return some (← unsigned 16 last)
    | none => return none
  else return none

/-- The body of the loop of `find_episode`. -/
def episodeAt (bs : List UInt8) (start : ℕ) : Except Fault (Option EpisodeMarker) := do
  if (← getAt bs start) ≠ 'S'.toUInt8 then return none
  else match ← digits bs (← u64 (start + 1)) 1 2 with
    | none => return none
    | some (season, afterSeason) =>
      if bs[afterSeason]? ≠ some 'E'.toUInt8 then return none
      else match ← digits bs (← u64 (afterSeason + 1)) 1 3 with
        | none => return none
        | some (episode, afterEpisode) =>
          let episodeEnd ← rangeEnd bs (← skipDash bs afterEpisode)
          return some ⟨start, ← unsigned 16 season, ← unsigned 16 episode, episodeEnd⟩

/-- `find_episode`. -/
def findEpisode (value : Str) : Except Fault (Option EpisodeMarker) :=
  (List.range (bytes value).length).findSomeM? (episodeAt (bytes value))

/-- The body of the loop of `find_season`. -/
def seasonAt (bs : List UInt8) (start : ℕ) : Except Fault (Option (ℕ × ℕ)) := do
  if (← getAt bs start) ≠ 'S'.toUInt8 then return none
  else match ← digits bs (← u64 (start + 1)) 1 2 with
    | none => return none
    | some (season, stop) =>
      if bs[stop]? ≠ some 'E'.toUInt8 ∧ boundary bs[stop]?
        then return some (start, ← unsigned 16 season)
      else return none

/-- `find_season`. -/
def findSeason (value : Str) : Except Fault (Option (ℕ × ℕ)) :=
  (List.range (bytes value).length).findSomeM? (seasonAt (bytes value))

/-- The tests of `find_date` on its ten bytes, each made only if those before it hold. -/
def isDateForm (ten : List UInt8) : Except Fault Bool := do
  if !(← slice ten 0 4).all isAsciiDigit then return false
  else if !((← getAt ten 4) == '.'.toUInt8 || (← getAt ten 4) == '-'.toUInt8) then return false
  else if !(← slice ten 5 7).all isAsciiDigit then return false
  else if (← getAt ten 7) != (← getAt ten 4) then return false
  else return (← slice ten 8 ten.length).all isAsciiDigit

/-- The body of the loop of `find_date`. -/
def dateAt (bs : List UInt8) (start : ℕ) : Except Fault (Option (ℕ × Date)) := do
  let ten ← slice bs start (← u64 (start + 10))
  if !(← isDateForm ten) then return none
  else
    let year ← unsigned 16 (← parseDigits (← slice ten 0 4))
    let month ← unsigned 8 (← parseDigits (← slice ten 5 7))
    let day ← unsigned 8 (← parseDigits (← slice ten 8 ten.length))
    if 1900 ≤ year ∧ year ≤ 2099 ∧ 1 ≤ month ∧ month ≤ 12 ∧ validDay year month day then
      return some (start, ⟨year, month, day⟩)
    else return none

/-- `find_date`. -/
def findDate (value : Str) : Except Fault (Option (ℕ × Date)) :=
  (List.range ((bytes value).length - 9)).findSomeM? (dateAt (bytes value))

/-- The body of the loop of `find_absolute_episode`. -/
def absoluteEpisodeAt (bs : List UInt8) (start : ℕ) : Except Fault (Option (ℕ × ℕ)) := do
  if (← getAt bs start) ≠ '['.toUInt8 then return none
  else match ← digits bs (← u64 (start + 1)) 1 4 with
    | none => return none
    | some (episode, stop) =>
      if bs[stop]? = some ']'.toUInt8 then return some (start, episode)
      else return none

/-- `find_absolute_episode`. -/
def findAbsoluteEpisode (value : Str) : Except Fault (Option (ℕ × ℕ)) :=
  (List.range (bytes value).length).findSomeM? (absoluteEpisodeAt (bytes value))

/-- The byte before `start` is a digit. -/
def afterDigit (bs : List UInt8) (start : ℕ) : Except Fault Bool := do
  if 0 < start then return isAsciiDigit (← getAt bs (← sub start 1)) else return false

/-- The body of the loop of `find_year`. -/
def yearAt (bs : List UInt8) (start : ℕ) : Except Fault (Option (ℕ × ℕ)) := do
  if ← afterDigit bs start then return none
  else
    let stop ← u64 (start + 4)
    let four ← slice bs start stop
    if four.all isAsciiDigit && boundary bs[stop]? then
      let year ← parseDigits four
      if 1900 ≤ year ∧ year ≤ 2099 then return some (start, ← unsigned 16 year) else return none
    else return none

/-- `find_year`. -/
def findYear (value : Str) : Except Fault (Option (ℕ × ℕ)) :=
  (List.range ((bytes value).length - 3)).findSomeM? (yearAt (bytes value))

/-- A technical marker starts at a byte offset. -/
def technicalAt (value : Str) (index : ℕ) : Except Fault (Option ℕ) := do
  let suffix := toAsciiUppercase (← sliceFrom value index)
  if ["2160P", "1080P", "720P", "BLURAY", "WEB-DL", "WEBRIP", "HDTV"].any
      (fun marker => marker.toList.isPrefixOf suffix) then return some index
  else return none

/-- `technical_suffix_start`. -/
def technicalSuffixStart (value : Str) : Except Fault ℕ := do
  return (← (charIndices 0 value).findSomeM? (technicalAt value)).getD (bytes value).length

/-! ### The parser -/

section

variable (U : Unicode)

/-- `parse_release`. -/
def parseRelease (value : Str) : Except Fault ReleaseDescriptor := do
  let name := leafWithoutExtension value
  let upper := toAsciiUppercase name
  let finish (d : ReleaseDescriptor) := addTechnicalMetadata d name
  let episode ← findEpisode upper
  let date ← findDate upper
  let season ← match episode with
    | some _ => pure none
    | none => findSeason upper
  let absolute ← findAbsoluteEpisode name
  match episode, season, date, absolute with
  | some marker, _, _, _ =>
    return finish { descriptor U .episode (← sliceTo name marker.start) with
      season := some marker.season
      episode := some marker.episode
      episodeEnd := marker.episodeEnd }
  | none, some (start, season), _, _ =>
    return finish { descriptor U .seasonPack (← sliceTo name start) with season := some season }
  | none, none, some (start, date), _ =>
    return finish { descriptor U .dateEpisode (← sliceTo name start) with airDate := some date }
  | none, none, none, some (start, episode) =>
    return finish { descriptor U .absoluteEpisode (← sliceTo name start) with
      absoluteEpisode := some episode }
  | none, none, none, none =>
    if isDisc upper then return finish (descriptor U .disc (← sliceTo name (bytes name).length))
    else match ← findYear upper with
      | some (start, year) =>
        return finish { descriptor U .movie (← sliceTo name start) with year := some year }
      | none =>
        return finish (descriptor U .unknownVideo (← sliceTo name (← technicalSuffixStart name)))

/-- `episode_keys`. -/
def episodeKeys (value : Str) : Except Fault (List EpisodeKey) := do
  let release ← parseRelease U value
  match release.kind with
  | .episode =>
    match release.season, release.episode with
    | some season, some first =>
      let last := release.episodeEnd.getD first
      return (List.range' first (last + 1 - first)).map (EpisodeKey.season season)
    | _, _ => return []
  | .dateEpisode => return (release.airDate.map EpisodeKey.date).toList
  | .absoluteEpisode => return (release.absoluteEpisode.map EpisodeKey.absolute).toList
  | _ => return []

end

/-! ### Numbers do not leave their types -/

theorem isAsciiDigit_iff {b : UInt8} : isAsciiDigit b = true ↔ 48 ≤ b.toNat ∧ b.toNat ≤ 57 := by
  rw [isAsciiDigit, decide_eq_true_eq, UInt8.le_iff_toNat_le, UInt8.le_iff_toNat_le]
  rfl

/-- A number is below the power of ten of its digits, and so is each number on the way. -/
theorem foldlM_pushDigit : ∀ (l : List UInt8) (value : ℕ), (∀ b ∈ l, isAsciiDigit b = true) →
    (value + 1) * 10 ^ l.length ≤ 2 ^ 32 →
    l.foldlM pushDigit value =
        .ok (l.foldl (fun value digit => value * 10 + (digit.toNat - 48)) value) ∧
      l.foldl (fun value digit => value * 10 + (digit.toNat - 48)) value + 1 ≤
        (value + 1) * 10 ^ l.length
  | [], value, _, _ => ⟨rfl, by simp⟩
  | b :: l, value, hdigits, hbound => by
    obtain ⟨hlow, hhigh⟩ := isAsciiDigit_iff.mp (hdigits b (by simp))
    have hstep : (value * 10 + (b.toNat - 48) + 1) * 10 ^ l.length ≤
        (value + 1) * 10 ^ (b :: l).length := by
      rw [List.length_cons, Nat.pow_succ', ← Nat.mul_assoc]
      exact Nat.mul_le_mul_right _ (by omega)
    have hvalue : value * 10 + (b.toNat - 48) < 2 ^ 32 := by
      have :=
        Nat.le_mul_of_pos_right (value * 10 + (b.toNat - 48) + 1)
          (Nat.pow_pos (n := l.length) (by omega :
        0 < 10))
      omega
    obtain ⟨hrun, hlt⟩ := foldlM_pushDigit l (value * 10 + (b.toNat - 48))
      (fun b' hb' => hdigits b' (List.mem_cons_of_mem b hb')) (hstep.trans hbound)
    refine ⟨?_, hlt.trans hstep⟩
    rw [List.foldlM_cons, pushDigit, sub_eq hlow, ok_bind, unsigned_eq (by omega), ok_bind,
      unsigned_eq hvalue, ok_bind, hrun, List.foldl_cons]

theorem parseDigits_eq {l : List UInt8} (hdigits : ∀ b ∈ l, isAsciiDigit b = true)
    (hlen : l.length ≤ 9) :
    parseDigits l = .ok (Release.parseDigits l) ∧ Release.parseDigits l < 10 ^ l.length := by
  have hpow : 10 ^ l.length ≤ 10 ^ 9 := Nat.pow_le_pow_right (by omega) hlen
  obtain ⟨hrun, hlt⟩ := foldlM_pushDigit l 0 hdigits (by omega)
  exact ⟨hrun, by rw [Nat.zero_add, Nat.one_mul] at hlt; exact hlt⟩

/-! ### The digits of a number -/

section

variable {bs : List UInt8} {start minimum maximum : ℕ}

/-- The loop stops after the digits that there are, at most as many as are left. -/
theorem digitsEnd_eq (hlen : bs.length < 2 ^ 63) : ∀ (fuel stop : ℕ), start ≤ stop →
    stop - start ≤ maximum → maximum - (stop - start) < fuel →
    digitsEnd bs start maximum fuel stop =
      .ok (stop + (((bs.drop stop).take (maximum - (stop - start))).takeWhile isAsciiDigit).length)
  | 0, _, _, _, hfuel => absurd hfuel (Nat.not_lt_zero _)
  | fuel + 1, stop, hle, hcount, hfuel => by
    unfold digitsEnd
    by_cases hstop : stop < bs.length
    · rw [if_pos hstop, sub_eq hle, ok_bind]
      by_cases hmore : stop - start < maximum
      · obtain ⟨left, hleft⟩ : ∃ left, maximum - (stop - start) = left + 1 :=
          ⟨_, (Nat.succ_pred (by omega)).symm⟩
        rw [if_pos hmore, getAt_eq (List.getElem?_eq_getElem hstop), ok_bind,
          List.drop_eq_getElem_cons hstop, hleft, List.take_succ_cons]
        by_cases hdigit : isAsciiDigit bs[stop] = true
        · rw [if_pos hdigit, u64_eq (by omega), ok_bind,
            digitsEnd_eq hlen fuel (stop + 1) (by omega) (by omega) (by omega),
            List.takeWhile_cons_of_pos hdigit, List.length_cons,
            show maximum - (stop + 1 - start) = left by omega]
          exact congrArg Except.ok (by omega)
        · rw [if_neg hdigit, List.takeWhile_cons_of_neg hdigit]
          rfl
      · rw [if_neg hmore, show maximum - (stop - start) = 0 by omega]
        rfl
    · rw [if_neg hstop, List.drop_eq_nil_of_le (by omega)]
      simp [pure, Except.pure]

theorem digits_eq (hlen : bs.length < 2 ^ 63) (hstart : start ≤ bs.length) (hmax : maximum ≤ 9) :
    digits bs start minimum maximum = .ok (Release.digits bs start minimum maximum) := by
  set found := ((bs.drop start).take maximum).takeWhile isAsciiDigit with hfound
  have hfront : found <+: (bs.drop start).take maximum := List.takeWhile_prefix _
  have hfits : found.length ≤ maximum := hfront.length_le.trans (by simp)
  have hinside : start + found.length ≤ bs.length := by
    have := (hfront.trans (List.take_prefix maximum _)).length_le
    rw [List.length_drop] at this
    omega
  have htake : (bs.drop start).take found.length = found :=
    (List.prefix_iff_eq_take.mp (hfront.trans (List.take_prefix maximum _))).symm
  have hdigits : ∀ b ∈ found, isAsciiDigit b = true := fun b hb => List.mem_takeWhile_imp hb
  unfold digits Release.digits
  rw [digitsEnd_eq hlen (maximum + 1) start le_rfl (by omega) (by omega),
    Nat.sub_self, Nat.sub_zero, ← hfound, ok_bind, sub_eq (Nat.le_add_right _ _), ok_bind,
    Nat.add_sub_cancel_left]
  by_cases hmin : minimum ≤ found.length
  · rw [if_pos hmin, slice_eq (Nat.le_add_right _ _) hinside, ok_bind,
      Nat.add_sub_cancel_left, htake, (parseDigits_eq hdigits (by omega)).1]
    exact congrArg Except.ok (if_pos hmin).symm
  · rw [if_neg hmin]
    exact congrArg Except.ok (if_neg hmin).symm

theorem digits_lt {found : ℕ × ℕ} (h : Release.digits bs start minimum maximum = some found)
    (hmax : maximum ≤ 9) : found.1 < 10 ^ maximum := by
  unfold Release.digits at h
  dsimp only at h
  split_ifs at h
  obtain rfl := Option.some.inj h
  have hlen : (((bs.drop start).take maximum).takeWhile isAsciiDigit).length ≤ maximum :=
    (List.takeWhile_prefix _).length_le.trans (by simp)
  exact (parseDigits_eq (fun b hb => List.mem_takeWhile_imp hb) (by omega)).2.trans_le
    (Nat.pow_le_pow_right (by omega) hlen)

end

/-! ### Markers are found without a failure -/

section

variable {bs : List UInt8} {start : ℕ}

theorem lt_of_getElem? {b : UInt8} (h : bs[start]? = some b) : start < bs.length :=
  (List.getElem?_eq_some_iff.mp h).1

/-- A number of a few digits keeps its value in a narrow type. -/
theorem narrow_eq {n bound width : ℕ} (h : n < bound) (hbound : bound ≤ 2 ^ width) :
    unsigned width n = .ok (n % 2 ^ width) := by
  have hn := h.trans_le hbound
  rw [unsigned_eq hn, Nat.mod_eq_of_lt hn]

theorem skipDash_eq (hlen : bs.length < 2 ^ 63) (stop : ℕ) :
    skipDash bs stop = .ok (if bs[stop]? = some '-'.toUInt8 then stop + 1 else stop) := by
  unfold skipDash
  by_cases hdash : bs[stop]? = some '-'.toUInt8
  · have := lt_of_getElem? hdash
    rw [if_pos hdash, if_pos hdash, u64_eq (by omega)]
  · rw [if_neg hdash, if_neg hdash]

theorem rangeEnd_eq (hlen : bs.length < 2 ^ 63) (stop : ℕ) : rangeEnd bs stop =
    .ok (if bs[stop]? = some 'E'.toUInt8 then
      (Release.digits bs (stop + 1) 1 3).map (fun found => found.1 % 2 ^ 16) else none) := by
  unfold rangeEnd
  by_cases hend : bs[stop]? = some 'E'.toUInt8
  · have hstop := lt_of_getElem? hend
    rw [if_pos hend, if_pos hend, u64_eq (by omega), ok_bind,
      digits_eq hlen hstop (by omega), ok_bind]
    cases hlast : Release.digits bs (stop + 1) 1 3 with
    | none => rfl
    | some last =>
      dsimp only
      rw [narrow_eq (digits_lt hlast (by omega)) (by omega)]
      rfl
  · rw [if_neg hend, if_neg hend]
    rfl

theorem episodeAt_eq (hlen : bs.length < 2 ^ 63) (hstart : start < bs.length) :
    episodeAt bs start = .ok (Release.episodeAt bs start) := by
  have hget := List.getElem?_eq_getElem hstart
  unfold episodeAt Release.episodeAt
  rw [getAt_eq hget, ok_bind, hget]
  by_cases hS : bs[start] = 'S'.toUInt8
  swap
  · simp [hS, pure, Except.pure]
  rw [if_neg (by simpa using hS), if_neg (by simpa using hS), u64_eq (by omega), ok_bind,
    digits_eq hlen hstart (by omega), ok_bind]
  cases hseason : Release.digits bs (start + 1) 1 2 with
  | none => rfl
  | some season =>
    obtain ⟨season, afterSeason⟩ := season
    have hseasonLt := digits_lt hseason (by omega)
    dsimp only at hseasonLt ⊢
    by_cases hE : bs[afterSeason]? = some 'E'.toUInt8
    swap
    · rw [if_pos hE, if_pos hE]
      rfl
    have hafter := lt_of_getElem? hE
    rw [if_neg (not_not.mpr hE), if_neg (not_not.mpr hE), u64_eq (by omega), ok_bind,
      digits_eq hlen hafter (by omega), ok_bind]
    cases hepisode : Release.digits bs (afterSeason + 1) 1 3 with
    | none => rfl
    | some episode =>
      obtain ⟨episode, afterEpisode⟩ := episode
      have hepisodeLt := digits_lt hepisode (by omega)
      dsimp only at hepisodeLt ⊢
      rw [skipDash_eq hlen, ok_bind, rangeEnd_eq hlen, ok_bind,
        narrow_eq hseasonLt (by omega), ok_bind,
        narrow_eq hepisodeLt (by omega)]
      rfl

theorem seasonAt_eq (hlen : bs.length < 2 ^ 63) (hstart : start < bs.length) :
    seasonAt bs start = .ok (Release.seasonAt bs start) := by
  have hget := List.getElem?_eq_getElem hstart
  unfold seasonAt Release.seasonAt
  rw [getAt_eq hget, ok_bind, hget]
  by_cases hS : bs[start] = 'S'.toUInt8
  swap
  · simp [hS, pure, Except.pure]
  rw [if_neg (by simpa using hS), if_neg (by simpa using hS), u64_eq (by omega), ok_bind,
    digits_eq hlen hstart (by omega), ok_bind]
  cases hseason : Release.digits bs (start + 1) 1 2 with
  | none => rfl
  | some season =>
    dsimp only
    simp only [Bool.and_eq_true, decide_eq_true_eq, ne_eq]
    split_ifs
    · rw [narrow_eq (digits_lt hseason (by omega)) (by omega)]
      rfl
    · rfl

theorem absoluteEpisodeAt_eq (hlen : bs.length < 2 ^ 63) (hstart : start < bs.length) :
    absoluteEpisodeAt bs start = .ok (Release.absoluteEpisodeAt bs start) := by
  have hget := List.getElem?_eq_getElem hstart
  unfold absoluteEpisodeAt Release.absoluteEpisodeAt
  rw [getAt_eq hget, ok_bind, hget]
  by_cases hB : bs[start] = '['.toUInt8
  swap
  · simp [hB, pure, Except.pure]
  rw [if_neg (by simpa using hB), if_neg (by simpa using hB), u64_eq (by omega), ok_bind,
    digits_eq hlen hstart (by omega), ok_bind]
  cases Release.digits bs (start + 1) 1 4 with
  | none => rfl
  | some found =>
    dsimp only
    split_ifs <;> rfl

theorem isDateForm_eq {ten : List UInt8} (hten : ten.length = 10) : isDateForm ten =
    .ok (!(!((ten.take 4).all isAsciiDigit) || !(ten.getD 4 0 == '.'.toUInt8
      || ten.getD 4 0 == '-'.toUInt8)
      || !(((ten.drop 5).take 2).all isAsciiDigit) || ten.getD 7 0 != ten.getD 4 0
      || !((ten.drop 8).all isAsciiDigit))) := by
  have hget : ∀ i < 10, getAt ten i = .ok (ten.getD i 0) := fun i hi =>
    getAt_eq (by rw [List.getD_eq_getElem _ _ (by omega), List.getElem?_eq_getElem])
  have hlast : (ten.drop 8).take (ten.length - 8) = ten.drop 8 := List.take_of_length_le (by simp)
  unfold isDateForm
  rw [slice_eq (by omega) (by omega), slice_eq (by omega) (by omega),
    slice_eq (by omega) le_rfl, hlast, hget 4 (by omega), hget 7 (by omega)]
  simp only [ok_bind, List.drop_zero]
  cases (ten.take 4).all isAsciiDigit with
  | false => rfl
  | true =>
    cases ten.getD 4 0 == '.'.toUInt8 || ten.getD 4 0 == '-'.toUInt8 with
    | false => rfl
    | true =>
      cases ((ten.drop 5).take 2).all isAsciiDigit with
      | false => rfl
      | true =>
        cases ten.getD 7 0 != ten.getD 4 0 with
        | true => rfl
        | false => cases (ten.drop 8).all isAsciiDigit <;> rfl

theorem dateAt_eq (hlen : bs.length < 2 ^ 63) (hstart : start + 10 ≤ bs.length) :
    dateAt bs start = .ok (Release.dateAt bs start) := by
  have hten : ((bs.drop start).take 10).length = 10 := by
    rw [List.length_take, List.length_drop]
    omega
  unfold dateAt Release.dateAt
  rw [u64_eq (by omega), ok_bind, slice_eq (Nat.le_add_right _ _) hstart, ok_bind,
    Nat.add_sub_cancel_left]
  generalize (bs.drop start).take 10 = ten at hten ⊢
  rw [isDateForm_eq hten, ok_bind]
  dsimp only
  rw [Bool.not_not]
  by_cases hform : (!((ten.take 4).all isAsciiDigit)
      || !(ten.getD 4 0 == '.'.toUInt8 || ten.getD 4 0 == '-'.toUInt8)
      || !(((ten.drop 5).take 2).all isAsciiDigit) || ten.getD 7 0 != ten.getD 4 0
      || !((ten.drop 8).all isAsciiDigit)) = true
  · rw [if_pos hform, if_pos hform]
    rfl
  have hall := hform
  simp only [Bool.or_eq_true, not_or, Bool.not_eq_true', Bool.not_eq_false,
    List.all_eq_true] at hall
  obtain ⟨⟨⟨⟨hyear, -⟩, hmonth⟩, -⟩, hday⟩ := hall
  have hlast : (ten.drop 8).take (ten.length - 8) = ten.drop 8 := List.take_of_length_le (by simp)
  have hyear' := parseDigits_eq hyear (by simp)
  have hmonth' := parseDigits_eq hmonth (by simp)
  have hday' := parseDigits_eq hday (by rw [List.length_drop]; omega)
  rw [List.length_take] at hyear'
  rw [List.length_take, List.length_drop] at hmonth'
  rw [List.length_drop] at hday'
  rw [if_neg hform, if_neg hform, slice_eq (by omega) (by omega), ok_bind,
    List.drop_zero, Nat.sub_zero, hyear'.1, ok_bind,
    narrow_eq (hyear'.2.trans_le (Nat.pow_le_pow_right (by omega) (Nat.min_le_left _ _)))
      (by omega), ok_bind, slice_eq (by omega) (by omega), ok_bind, hmonth'.1, ok_bind,
    narrow_eq (hmonth'.2.trans_le (Nat.pow_le_pow_right (by omega) (Nat.min_le_left _ _)))
      (by omega), ok_bind,
    slice_eq (by omega) le_rfl, ok_bind, hlast, hday'.1, ok_bind,
    narrow_eq hday'.2 (by rw [hten]; omega), ok_bind]
  split_ifs <;> rfl

theorem afterDigit_eq (hstart : start < bs.length) :
    afterDigit bs start = .ok (decide (0 < start ∧ (bs[start - 1]?).any isAsciiDigit)) := by
  unfold afterDigit
  by_cases hpos : 0 < start
  · rw [if_pos hpos, sub_eq hpos, ok_bind, getAt_eq (List.getElem?_eq_getElem (by omega)), ok_bind,
      List.getElem?_eq_getElem (by omega)]
    simp [hpos, pure, Except.pure]
  · rw [if_neg hpos]
    simp [hpos, pure, Except.pure]

theorem yearAt_eq (hlen : bs.length < 2 ^ 63) (hstart : start + 4 ≤ bs.length) :
    yearAt bs start = .ok (Release.yearAt bs start) := by
  unfold yearAt Release.yearAt
  rw [afterDigit_eq (by omega), ok_bind]
  by_cases hafter : 0 < start ∧ (bs[start - 1]?).any isAsciiDigit = true
  · rw [if_pos (decide_eq_true hafter), if_pos hafter]
    rfl
  rw [if_neg (by rw [decide_eq_true_eq]; exact hafter), if_neg hafter, u64_eq (by omega), ok_bind,
    slice_eq (Nat.le_add_right _ _) hstart, ok_bind, Nat.add_sub_cancel_left]
  dsimp only
  by_cases hdigits : ((bs.drop start).take 4).all isAsciiDigit = true
  · obtain ⟨hparse, hlt⟩ := parseDigits_eq (List.all_eq_true.mp hdigits) (by simp)
    have hbound := hlt.trans_le (Nat.pow_le_pow_right (by omega) (by simp : _ ≤ 4))
    rw [hdigits, Bool.true_and]
    by_cases hboundary : boundary bs[start + 4]? = true
    · rw [if_pos hboundary, hboundary, Bool.true_and, hparse, ok_bind, narrow_eq hbound (by omega)]
      simp only [decide_eq_true_eq]
      split_ifs <;> rfl
    · rw [if_neg hboundary, Bool.eq_false_of_not_eq_true hboundary, Bool.false_and]
      rfl
  · rw [Bool.eq_false_of_not_eq_true hdigits, Bool.false_and, Bool.false_and]
    rfl

end

/-! ### Where the name is cut -/

theorem utf8Size_of_ascii {v : UInt32} (hvalid : v.isValidChar) (h : v.toNat ≤ 127) :
    (Char.mk v hvalid).utf8Size = 1 :=
  Char.utf8Size_eq_one_iff.mpr (UInt32.le_iff_toNat_le.mpr h)

theorem utf8Size_toUpper (c : Char) : c.toUpper.utf8Size = c.utf8Size := by
  unfold Char.toUpper
  split_ifs with h
  · have hlow : 97 ≤ c.val.toNat := UInt32.le_iff_toNat_le.mp h.1
    have hhigh : c.val.toNat ≤ 122 := UInt32.le_iff_toNat_le.mp h.2
    have hval : ∀ shift : UInt32, shift.toNat = 4294967264 → (c.val + shift).toNat ≤ 127 := by
      intro shift hshift
      rw [UInt32.toNat_add]
      omega
    exact (utf8Size_of_ascii _ (hval _ (by decide))).trans
      (utf8Size_of_ascii c.valid (by omega)).symm
  · rfl

theorem length_bytes_toAsciiUppercase (text : Str) :
    (bytes (toAsciiUppercase text)).length = (bytes text).length :=
      length_utf8_map utf8Size_toUpper text

/-- **The name is cut** where the upper-case copy has a byte of ASCII. -/
theorem boundary_upper {name : Str} {n : ℕ} {b : UInt8}
    (h : (bytes (toAsciiUppercase name))[n]? = some b) (hb : b.toNat < 128) : Boundary name n :=
  (boundary_of_ascii h hb).of_map utf8Size_toUpper

theorem sliceTo_eq {text : Str} {n : ℕ} (h : Boundary text n) :
    sliceTo text n = .ok (Release.sliceTo text n) := if_pos (isCharBoundary_iff.mpr h)

/-- What a slice up to a boundary is. -/
theorem sliceTo_append : ∀ before after : Str,
    Release.sliceTo (before ++ after) (bytes before).length = before
  | [], [] => rfl
  | [], c :: after => if_neg (Nat.not_le.mpr c.utf8Size_pos)
  | c :: before, after => by
    have hlength : (bytes (c :: before)).length = c.utf8Size + (bytes before).length := by
      rw [bytes, List.flatMap_cons, List.length_append, String.length_utf8EncodeChar]
      rfl
    rw [List.cons_append, Release.sliceTo, hlength, if_pos (Nat.le_add_right _ _),
      Nat.add_sub_cancel_left, sliceTo_append before after]

theorem dropBytes_append : ∀ before after : Str,
    dropBytes (before ++ after) (bytes before).length = after
  | [], after => by
    cases after <;> rfl
  | c :: before, after => by
    have hlength : (bytes (c :: before)).length = (c.utf8Size - 1 + (bytes before).length) + 1 := by
      have := c.utf8Size_pos
      rw [bytes, List.flatMap_cons, List.length_append, String.length_utf8EncodeChar, bytes]
      omega
    have hpos := c.utf8Size_pos
    rw [List.cons_append, hlength, dropBytes,
      show c.utf8Size - 1 + (bytes before).length + 1 - c.utf8Size = (bytes before).length by omega,
      dropBytes_append before after]

theorem technicalAt_eq (before after : Str) : technicalAt (before ++ after) (bytes before).length =
    .ok (if ["2160P", "1080P", "720P", "BLURAY", "WEB-DL", "WEBRIP", "HDTV"].any
      (fun marker => marker.toList.isPrefixOf (toAsciiUppercase after))
        then some (bytes before).length
      else none) := by
  have hslice : sliceFrom (before ++ after) (bytes before).length = .ok after := by
    have hcut : isCharBoundary (before ++ after) (bytes before).length = true :=
      isCharBoundary_iff.mpr ⟨before, after, rfl, rfl⟩
    rw [sliceFrom, if_pos hcut, dropBytes_append]
  unfold technicalAt
  rw [hslice, ok_bind]
  dsimp only
  split_ifs <;> rfl

theorem technicalSuffix_eq : ∀ after before : Str, ∃ found,
    (charIndices (bytes before).length after).findSomeM? (technicalAt (before ++ after)) = .ok found
      ∧
      found.getD (bytes (before ++ after)).length =
        (bytes before).length + Release.technicalSuffixStart after
  | [], before => ⟨none, rfl, by simp [Release.technicalSuffixStart]⟩
  | c :: after, before => by
    rw [charIndices, List.findSomeM?, technicalAt_eq, ok_bind, Release.technicalSuffixStart]
    split_ifs with hmarker
    · exact ⟨_, rfl, rfl⟩
    · have hnext : (bytes (before ++ [c])).length = (bytes before).length + c.utf8Size := by
        rw [bytes, List.flatMap_append, List.length_append, List.flatMap_singleton,
          String.length_utf8EncodeChar, bytes]
      obtain ⟨found, hrun, hfound⟩ := technicalSuffix_eq after (before ++ [c])
      rw [hnext, List.append_assoc, List.singleton_append] at hrun hfound
      exact ⟨found, hrun, by rw [hfound, Nat.add_assoc]⟩

theorem technicalSuffixStart_eq (value : Str) :
    technicalSuffixStart value = .ok (Release.technicalSuffixStart value) := by
  obtain ⟨found, hrun, hfound⟩ := technicalSuffix_eq value []
  have hzero : (bytes []).length = 0 := rfl
  rw [hzero, List.nil_append] at hrun hfound
  unfold technicalSuffixStart
  rw [hrun, ok_bind, hfound, Nat.zero_add]
  rfl

theorem boundary_technicalSuffixStart : ∀ value : Str,
    Boundary value (Release.technicalSuffixStart value)
  | [] => ⟨[], [], rfl, rfl⟩
  | c :: value => by
    rw [Release.technicalSuffixStart]
    split_ifs
    · exact ⟨[], c :: value, rfl, rfl⟩
    · obtain ⟨before, after, hvalue, hlength⟩ := boundary_technicalSuffixStart value
      refine ⟨c :: before, after, congrArg (c :: ·) hvalue, ?_⟩
      rw [utf8, List.flatMap_cons, List.length_append, String.length_utf8EncodeChar, hlength]

/-! ### What is found -/

section

variable {bs : List UInt8} {start : ℕ}

theorem digits_le {found : ℕ × ℕ} {minimum maximum : ℕ}
    (h : Release.digits bs start minimum maximum = some found) (hmax : maximum ≤ 9) (width : ℕ) :
      found.1 % 2 ^ width ≤ 10 ^ maximum - 1 :=
  (Nat.mod_le _ _).trans (Nat.le_pred_of_lt (digits_lt h hmax))

theorem episodeAt_spec {marker : EpisodeMarker} (h : Release.episodeAt bs start = some marker) :
    marker.start = start ∧ bs[start]? = some 'S'.toUInt8 ∧ marker.season ≤ 99
      ∧ marker.episode ≤ 999 ∧
      ∀ last, marker.episodeEnd = some last → last ≤ 999 := by
  unfold Release.episodeAt at h
  split_ifs at h with hS
  split at h
  · cases h
  · next season afterSeason hseason =>
    split_ifs at h with hE
    split at h
    · cases h
    · next episode afterEpisode hepisode =>
      obtain rfl := Option.some.inj h
      refine ⟨rfl, not_not.mp hS, digits_le hseason (by omega) 16, digits_le hepisode (by omega) 16,
        fun last hlast => ?_⟩
      dsimp only at hlast
      split_ifs at hlast
      all_goals
        obtain ⟨found, hfound, rfl⟩ := Option.map_eq_some_iff.mp hlast
        exact digits_le hfound (by omega) 16

theorem seasonAt_spec {found : ℕ × ℕ} (h : Release.seasonAt bs start = some found) :
    found.1 = start ∧ bs[start]? = some 'S'.toUInt8 ∧ found.2 ≤ 99 := by
  unfold Release.seasonAt at h
  split_ifs at h with hS
  split at h
  · cases h
  · next season after hseason =>
    split_ifs at h
    obtain rfl := Option.some.inj h
    exact ⟨rfl, not_not.mp hS, digits_le hseason (by omega) 16⟩

theorem absoluteEpisodeAt_spec {found : ℕ × ℕ}
    (h : Release.absoluteEpisodeAt bs start = some found) :
    found.1 = start ∧ bs[start]? = some '['.toUInt8 ∧ found.2 ≤ 9999 := by
  unfold Release.absoluteEpisodeAt at h
  split_ifs at h with hB
  split at h
  · cases h
  · next episode after hepisode =>
    split_ifs at h
    obtain rfl := Option.some.inj h
    exact ⟨rfl, not_not.mp hB, Nat.le_pred_of_lt (digits_lt hepisode (by omega))⟩

/-- The first of some bytes that are digits. -/
theorem digit_of_take {count : ℕ} (hcount : 0 < count) (hstart : start < bs.length)
    (h : ((bs.drop start).take count).all isAsciiDigit = true) : ∃ b,
      bs[start]? = some b ∧ b.toNat < 128 := by
  refine ⟨bs[start], List.getElem?_eq_getElem hstart, ?_⟩
  have hmem : bs[start] ∈ (bs.drop start).take count := by
    rw [List.drop_eq_getElem_cons hstart, ← Nat.sub_add_cancel hcount, List.take_succ_cons]
    exact List.mem_cons_self
  have := (isAsciiDigit_iff.mp (List.all_eq_true.mp h _ hmem)).2
  omega

theorem dateAt_spec {found : ℕ × Date} (hstart : start < bs.length)
    (h : Release.dateAt bs start = some found) :
    found.1 = start ∧ (∃ b, bs[start]? = some b ∧ b.toNat < 128) ∧ 1900 ≤ found.2.year ∧
      found.2.year ≤ 2099 ∧ 1 ≤ found.2.month ∧ found.2.month ≤ 12 ∧ 1 ≤ found.2.day
        ∧ found.2.day ≤ 31 := by
  unfold Release.dateAt at h
  dsimp only at h
  split_ifs at h with hform hdate
  obtain rfl := Option.some.inj h
  simp only [Bool.or_eq_true, not_or, Bool.not_eq_true', Bool.not_eq_false] at hform
  rw [List.take_take] at hform
  obtain ⟨hlow, hhigh, hmonth, hmonth', hday⟩ := hdate
  refine ⟨rfl, digit_of_take (by omega) hstart hform.1.1.1.1, hlow, hhigh, hmonth, hmonth', ?_⟩
  simp only [Release.validDay, decide_eq_true_eq] at hday
  refine ⟨hday.1, hday.2.trans ?_⟩
  split_ifs <;> omega

theorem yearAt_spec {found : ℕ × ℕ} (hstart : start < bs.length)
    (h : Release.yearAt bs start = some found) :
    found.1 = start ∧ (∃ b, bs[start]? = some b ∧ b.toNat < 128) ∧ 1900 ≤ found.2
      ∧ found.2 ≤ 2099 := by
  unfold Release.yearAt at h
  dsimp only at h
  split_ifs at h with hafter hyear
  obtain rfl := Option.some.inj h
  simp only [Bool.and_eq_true, decide_eq_true_eq] at hyear
  refine ⟨rfl, digit_of_take (by omega) hstart hyear.1.1, ?_⟩
  rw [Nat.mod_eq_of_lt (by omega)]
  exact hyear.2

end

/-- What the searches find in a name and its upper-case copy: offsets at which the name can be cut,
and numbers in range. -/
structure Offsets (name : Str) : Prop where
  episode : ∀ marker, Release.findEpisode (toAsciiUppercase name) = some marker →
    isCharBoundary name marker.start = true ∧ marker.season ≤ 99 ∧ marker.episode ≤ 999 ∧
      ∀ last, marker.episodeEnd = some last → last ≤ 999
  season : ∀ start season, Release.findSeason (toAsciiUppercase name) = some (start, season) →
    isCharBoundary name start = true ∧ season ≤ 99
  date : ∀ start date, Release.findDate (toAsciiUppercase name) = some (start, date) →
    isCharBoundary name start = true ∧ 1900 ≤ date.year ∧ date.year ≤ 2099 ∧ 1 ≤ date.month ∧
      date.month ≤ 12 ∧ 1 ≤ date.day ∧ date.day ≤ 31
  absolute : ∀ start episode, Release.findAbsoluteEpisode name = some (start, episode) →
    isCharBoundary name start = true ∧ episode ≤ 9999
  year : ∀ start year, Release.findYear (toAsciiUppercase name) = some (start, year) →
    isCharBoundary name start = true ∧ 1900 ≤ year ∧ year ≤ 2099
  technical : isCharBoundary name (Release.technicalSuffixStart name) = true

theorem offsets (name : Str) : Offsets name where
  episode marker h := by
    obtain ⟨start, -, h⟩ := List.exists_of_findSome?_eq_some h
    obtain ⟨rfl, hS, hnumbers⟩ := episodeAt_spec h
    exact ⟨isCharBoundary_iff.mpr (boundary_upper hS (by decide)), hnumbers⟩
  season start season h := by
    obtain ⟨start', -, h⟩ := List.exists_of_findSome?_eq_some h
    obtain ⟨rfl, hS, hnumber⟩ := seasonAt_spec h
    exact ⟨isCharBoundary_iff.mpr (boundary_upper hS (by decide)), hnumber⟩
  date start date h := by
    obtain ⟨start', hmem, h⟩ := List.exists_of_findSome?_eq_some h
    have hlt := List.mem_range.mp hmem
    obtain ⟨rfl, ⟨b, hb, hascii⟩, hnumbers⟩ := dateAt_spec (by omega) h
    exact ⟨isCharBoundary_iff.mpr (boundary_upper hb hascii), hnumbers⟩
  absolute start episode h := by
    obtain ⟨start', -, h⟩ := List.exists_of_findSome?_eq_some h
    obtain ⟨rfl, hB, hnumber⟩ := absoluteEpisodeAt_spec h
    exact ⟨isCharBoundary_iff.mpr (boundary_of_ascii hB (by decide)), hnumber⟩
  year start year h := by
    obtain ⟨start', hmem, h⟩ := List.exists_of_findSome?_eq_some h
    have hlt := List.mem_range.mp hmem
    obtain ⟨rfl, ⟨b, hb, hascii⟩, hnumbers⟩ := yearAt_spec (by omega) h
    exact ⟨isCharBoundary_iff.mpr (boundary_upper hb hascii), hnumbers⟩
  technical := isCharBoundary_iff.mpr (boundary_technicalSuffixStart name)

/-! ### The parser does not fail -/

section

variable {value : Str} (hlen : (bytes value).length < 2 ^ 63)
include hlen

theorem findEpisode_eq : findEpisode value = .ok (Release.findEpisode value) :=
  findSomeM?_eq_ok _ fun _ hstart => episodeAt_eq hlen (List.mem_range.mp hstart)

theorem findSeason_eq : findSeason value = .ok (Release.findSeason value) :=
  findSomeM?_eq_ok _ fun _ hstart => seasonAt_eq hlen (List.mem_range.mp hstart)

theorem findDate_eq : findDate value = .ok (Release.findDate value) :=
  findSomeM?_eq_ok _ fun start hstart => dateAt_eq hlen (by have := List.mem_range.mp hstart; omega)

theorem findAbsoluteEpisode_eq :
    findAbsoluteEpisode value = .ok (Release.findAbsoluteEpisode value) :=
  findSomeM?_eq_ok _ fun _ hstart => absoluteEpisodeAt_eq hlen (List.mem_range.mp hstart)

theorem findYear_eq : findYear value = .ok (Release.findYear value) :=
  findSomeM?_eq_ok _ fun start hstart => yearAt_eq hlen (by have := List.mem_range.mp hstart; omega)

end

theorem rsplitOnceBy_eq_some {p : Char → Bool} : ∀ {text before after : Str},
    Release.rsplitOnceBy p text = some (before, after) → ∃ c, text = before ++ c :: after
  | [], before, after, h => by cases h
  | c :: text, before, after, h => by
    rw [Release.rsplitOnceBy] at h
    cases hrest : Release.rsplitOnceBy p text with
    | some split =>
      obtain ⟨before', after'⟩ := split
      rw [hrest] at h
      obtain ⟨rfl, rfl⟩ := Prod.mk.injEq .. ▸ Option.some.inj h
      obtain ⟨d, rfl⟩ := rsplitOnceBy_eq_some hrest
      exact ⟨d, rfl⟩
    | none =>
      rw [hrest] at h
      dsimp only at h
      split_ifs at h
      obtain ⟨rfl, rfl⟩ := Prod.mk.injEq .. ▸ Option.some.inj h
      exact ⟨c, rfl⟩

/-- The name is part of the text. -/
theorem leafWithoutExtension_sublist (value : Str) :
    (leafWithoutExtension value).Sublist value := by
  have hleaf : ∀ p : Char → Bool, (Release.rsplitFirst p value).Sublist value := by
    intro p
    unfold Release.rsplitFirst
    cases hsplit : Release.rsplitOnceBy p value with
    | none => exact List.Sublist.refl value
    | some split =>
      obtain ⟨c, rfl⟩ := rsplitOnceBy_eq_some hsplit
      exact (List.sublist_cons_self c _).trans (List.sublist_append_right _ _)
  unfold leafWithoutExtension
  dsimp only
  split
  · exact hleaf _
  · next stem extension hsplit =>
    split_ifs
    · obtain ⟨c, hc⟩ := rsplitOnceBy_eq_some hsplit
      exact (hc ▸ List.sublist_append_left stem (c :: extension)).trans (hleaf _)
    · exact hleaf _

/-- A `str`: it has at most `isize::MAX` bytes. -/
structure Text where
  chars : Str
  length_lt : (bytes chars).length < 2 ^ 63

theorem Text.length_name_lt (value : Text) :
    (bytes (leafWithoutExtension value.chars)).length < 2 ^ 63 :=
  ((leafWithoutExtension_sublist value.chars).flatMap _).length_le.trans_lt value.length_lt

section

variable (U : Unicode) (value : Text)

theorem parseRelease_eq :
    parseRelease U value.chars = .ok (Release.parseRelease U value.chars) := by
  have hname := value.length_name_lt
  unfold parseRelease Release.parseRelease
  generalize leafWithoutExtension value.chars = name at hname
  have hupper : (bytes (toAsciiUppercase name)).length < 2 ^ 63 := by
    rw [length_bytes_toAsciiUppercase]
    exact hname
  have hcut : ∀ {n}, isCharBoundary name n = true → sliceTo name n = .ok (Release.sliceTo name n) :=
    fun h => if_pos h
  have hoffsets := offsets name
  dsimp only
  rw [findEpisode_eq hupper, ok_bind, findDate_eq hupper, ok_bind]
  cases hepisode : Release.findEpisode (toAsciiUppercase name) with
  | some marker =>
    simp only [pure, Except.pure, ok_bind, findAbsoluteEpisode_eq hname,
      hcut (hoffsets.episode marker hepisode).1]
  | none =>
    simp only [findSeason_eq hupper, ok_bind, findAbsoluteEpisode_eq hname]
    cases hseason : Release.findSeason (toAsciiUppercase name) with
    | some found => simp only [pure, Except.pure, ok_bind, hcut (hoffsets.season _ _ hseason).1]
    | none =>
      cases hdate : Release.findDate (toAsciiUppercase name) with
      | some found => simp only [pure, Except.pure, ok_bind, hcut (hoffsets.date _ _ hdate).1]
      | none =>
        cases habsolute : Release.findAbsoluteEpisode name with
        | some found => simp only [pure, Except.pure, ok_bind,
          hcut (hoffsets.absolute _ _ habsolute).1]
        | none =>
          by_cases hdisc : isDisc (toAsciiUppercase name) = true
          · have hall : sliceTo name (bytes name).length = .ok name := by
              have hwhole := sliceTo_append name []
              rw [List.append_nil] at hwhole
              exact (sliceTo_eq (boundary_length name)).trans (congrArg Except.ok hwhole)
            simp only [hdisc, if_true, hall, ok_bind, pure, Except.pure]
          · simp only [hdisc, if_false, findYear_eq hupper, ok_bind, Bool.false_eq_true]
            cases hyear : Release.findYear (toAsciiUppercase name) with
            | some found => simp only [pure, Except.pure, ok_bind, hcut (hoffsets.year _ _ hyear).1]
            | none =>
              simp only [pure, Except.pure, ok_bind, technicalSuffixStart_eq,
                hcut hoffsets.technical]

/-- **The parser does not fail** on any text: it gives what it gives without checks, every offset
found is a character boundary of the name, and every number found is in range. -/
theorem parser_checked :
    parseRelease U value.chars = .ok (Release.parseRelease U value.chars) ∧
      episodeKeys U value.chars = .ok (Release.episodeKeys U value.chars) ∧
      Offsets (leafWithoutExtension value.chars) := by
  refine ⟨parseRelease_eq U value, ?_, offsets _⟩
  unfold episodeKeys Release.episodeKeys
  rw [parseRelease_eq, ok_bind]
  generalize Release.parseRelease U value.chars = release
  dsimp only
  cases release.kind with
  | episode =>
    cases release.season with
    | none => rfl
    | some season => cases release.episode <;> rfl
  | movie => rfl
  | seasonPack => rfl
  | dateEpisode => rfl
  | absoluteEpisode => rfl
  | disc => rfl
  | unknownVideo => rfl

end

/-- A slice inside a character fails. -/
example : sliceTo ['é', 'S'] 1 = .error .outOfBounds ∧ sliceTo ['é', 'S'] 2 = .ok ['é'] := by decide

end Sporos.Matcher.CheckedRelease
