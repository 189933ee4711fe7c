import Mathlib.Data.List.TakeWhile
import Sporos.Lib.Loop
import Sporos.Service.Tables

/-! # Piece inspection

`inspect_pieces` and `resume_allowed` of `injection.rs`: the comparison of the piece states that
qBittorrent reports with the byte ranges of the mapped files, and the resume policy. A piece in
another state than 2 is missing. -/

namespace Sporos.Service.Pieces

open Sporos.Model.Matching
open Sporos.Service.Tables
open Sporos.Lib.Loop

/-- Why the pieces cannot be inspected. -/
inductive InspectError where
  | missingPieceLength
  | torrentSizeOverflow
  | pieces
  | pieceCount
  deriving DecidableEq, Repr

/-- What an inspection of the pieces tells. -/
structure PieceInspection where
  integritySafe : Bool
  missingBytes : ℕ
  presentRatioPpm : ℕ
  deriving DecidableEq, Repr

/-- `MAX_PIECES`. -/
def maxPieces : ℕ := 20000000

/-- `checked_add` of two offsets. -/
def checkedAdd (a b : ℕ) : Except InspectError ℕ :=
  if a + b ≤ u64Max then .ok (a + b) else .error .torrentSizeOverflow

/-- `saturating_mul`. -/
def saturatingMul (a b : ℕ) : ℕ := min (a * b) u64Max

/-- `div_ceil`. -/
def divCeil (a b : ℕ) : ℕ := (a + b - 1) / b

/-- The mapped intervals and the size of a manifest without a stored layout, from an offset on. -/
def legacyIntervals (pieceLength : ℕ) (v2Only : Bool) (mapped : List ℕ) :
    ℕ → List TorrentFile → Except InspectError (List (ℕ × ℕ) × ℕ)
  | offset, [] => .ok ([], offset)
  | offset, file :: files => do
    let start :=
      if v2Only then saturatingMul (divCeil offset pieceLength) pieceLength else offset
    let stop ← checkedAdd start file.size
    let (intervals, total) ← legacyIntervals pieceLength v2Only mapped stop files
    return (if file.ordinal ∈ mapped ∧ file.size > 0 then (start, stop) :: intervals else intervals,
      total)

/-- The mapped intervals and the size of a stored layout. -/
def storedIntervals (mapped : List ℕ) :
    List TorrentPieceFile → Except InspectError (List (ℕ × ℕ) × ℕ)
  | [] => .ok ([], 0)
  | file :: files => do
    let stop ← checkedAdd file.offset file.size
    let (intervals, total) ← storedIntervals mapped files
    return (if file.fileOrdinal.any (· ∈ mapped) ∧ file.size > 0 then
        (file.offset, stop) :: intervals else intervals,
      max stop total)

/-- The byte ranges of the mapped files, in order, and the size of the torrent. -/
def intervalsOf (manifest : TorrentManifest) (pieceLength : ℕ) (mapped : List ℕ) :
    Except InspectError (List (ℕ × ℕ) × ℕ) :=
  if manifest.pieceFiles = [] then
    legacyIntervals pieceLength (manifest.hashes.v1.isNone && manifest.hashes.v2.isSome) mapped 0
      manifest.files
  else storedIntervals mapped manifest.pieceFiles

/-- The first byte of a piece. -/
def pieceStart (pieceLength index : ℕ) : ℕ := saturatingMul index pieceLength

/-- The end of a piece. -/
def pieceEnd (pieceLength total index : ℕ) : ℕ :=
  min (min (pieceStart pieceLength index + pieceLength) u64Max) total

/-- The loop over the pieces from an index on, with the intervals that are not passed: whether all
is safe, and the bytes that are present. -/
def inspectLoop (pieceLength total : ℕ) :
    ℕ → List (ℕ × ℕ) → List ℕ → Bool × ℕ → Bool × ℕ
  | _, _, [], result => result
  | index, intervals, state :: states, (safe, present) =>
    let start := pieceStart pieceLength index
    let stop := pieceEnd pieceLength total index
    let intervals := intervals.dropWhile (fun interval => interval.2 ≤ start)
    if state = 2 then
      inspectLoop pieceLength total (index + 1) intervals states
        (safe, min (present + (stop - start)) u64Max)
    else
      let hit := intervals.head?.any (fun interval => interval.1 < stop ∧ interval.2 > start)
      inspectLoop pieceLength total (index + 1) intervals states (safe && !hit, present)

/-- The share of the present bytes in parts per million. -/
def presentRatio (present total : ℕ) : ℕ :=
  if total = 0 then 0
  else
    let ratio := present * 1000000 / total
    if ratio < 2 ^ 32 then ratio else 1000000

/-- `inspect_pieces` of the piece states of a response. -/
def inspectPieces (manifest : TorrentManifest) (mapped : List ℕ) (states : List ℕ) :
    Except InspectError PieceInspection :=
  match manifest.pieceLength with
  | none => .error .missingPieceLength
  | some pieceLength =>
    if pieceLength = 0 then .error .missingPieceLength
    else
      match intervalsOf manifest pieceLength mapped with
      | .error error => .error error
      | .ok (intervals, total) =>
        if states.length > maxPieces ∨ ∃ state ∈ states, state > 2 then .error .pieces
        else if states.length ≠ divCeil total pieceLength then .error .pieceCount
        else
          let (safe, present) := inspectLoop pieceLength total 0 intervals states (true, 0)
          .ok ⟨safe, total - present, presentRatio present total⟩

/-! ### The resume policy -/

/-- Whether both thresholds have to be met. -/
inductive ThresholdCombination where
  | and
  | or
  deriving DecidableEq, Repr

/-- When a torrent may be resumed. -/
inductive ResumePolicy where
  | never
  | completeOnly
  | threshold (maxMissingBytes minPresentRatioPpm : Option ℕ) (combine : ThresholdCombination)
  | always
  deriving DecidableEq, Repr

/-- `resume_allowed`. -/
def resumeAllowed (policy : ResumePolicy) (amountLeft : ℕ) (pieces : PieceInspection) : Bool :=
  match policy with
  | .never => false
  | .completeOnly => amountLeft = 0 && pieces.missingBytes = 0
  | .always => true
  | .threshold maxMissingBytes minPresentRatioPpm combine =>
    let checks := (maxMissingBytes.map fun maximum => decide (pieces.missingBytes ≤ maximum)).toList
      ++ (minPresentRatioPpm.map fun minimum => decide (pieces.presentRatioPpm ≥ minimum)).toList
    match combine with
    | .and => checks.all id
    | .or => checks.any id

/-! ### The integrity gate -/

/-- The ranges are in order: none begins before the end of an earlier one. -/
def InOrder (intervals : List (ℕ × ℕ)) : Prop :=
  (∀ interval ∈ intervals, interval.1 ≤ interval.2)
    ∧ intervals.Pairwise (fun interval later => interval.2 ≤ later.1)

/-- The stored layout of the manifest is in order, as the torrent parser makes it. -/
def OrderedLayout (manifest : TorrentManifest) : Prop :=
  manifest.pieceFiles.Pairwise (fun file later => file.offset + file.size ≤ later.offset)

/-- A missing piece of a response intersects a range. -/
def MissingAt (pieceLength total : ℕ) (states : List ℕ) (interval : ℕ × ℕ) : Prop :=
  ∃ index state, states[index]? = some state ∧ state ≠ 2
    ∧ interval.1 < pieceEnd pieceLength total index ∧ pieceStart pieceLength index < interval.2

/-- A missing piece of a response intersects the file with an ordinal. -/
def MissingIn (manifest : TorrentManifest) (states : List ℕ) (ordinal : ℕ) : Prop :=
  ∃ pieceLength intervals total, manifest.pieceLength = some pieceLength
    ∧ intervalsOf manifest pieceLength [ordinal] = .ok (intervals, total)
    ∧ ∃ interval ∈ intervals, MissingAt pieceLength total states interval

theorem pieceStart_le {pieceLength index index' : ℕ} (h : index ≤ index') :
    pieceStart pieceLength index ≤ pieceStart pieceLength index' :=
  min_le_min_right _ (Nat.mul_le_mul_right _ h)

section

variable {intervals : List (ℕ × ℕ)} (start : ℕ)

/-- The intervals that do not end at or before an offset. -/
def remaining (start : ℕ) (intervals : List (ℕ × ℕ)) : List (ℕ × ℕ) :=
  intervals.dropWhile (fun interval => interval.2 ≤ start)

theorem passed_or_remaining {interval : ℕ × ℕ} (h : interval ∈ intervals) :
    interval.2 ≤ start ∨ interval ∈ remaining start intervals := by
  have hsplit := List.takeWhile_append_dropWhile
    (p := fun interval : ℕ × ℕ => decide (interval.2 ≤ start)) (l := intervals)
  rw [← hsplit] at h
  rcases List.mem_append.mp h with htake | hdrop
  · exact .inl (by simpa using List.mem_takeWhile_imp htake)
  · exact .inr hdrop

theorem InOrder.remaining (h : InOrder intervals) : InOrder (Pieces.remaining start intervals) := by
  have hsublist : (Pieces.remaining start intervals).Sublist intervals :=
    List.dropWhile_sublist _
  exact ⟨fun interval hmem => h.1 interval (hsublist.subset hmem), h.2.sublist hsublist⟩

/-- Of the intervals that are not passed, the first one decides whether one begins before an offset.
-/
theorem not_begins_of_head (h : InOrder intervals) {stop : ℕ}
    (hhead : (remaining start intervals).head?.any
      (fun interval => decide (interval.1 < stop ∧ interval.2 > start)) = false)
    {interval : ℕ × ℕ} (hmem : interval ∈ remaining start intervals) : ¬ interval.1 < stop := by
  have horder := h.remaining start
  have hfirst := List.head?_dropWhile_not
    (fun interval : ℕ × ℕ => decide (interval.2 ≤ start)) intervals
  rw [show intervals.dropWhile (fun interval => decide (interval.2 ≤ start))
    = remaining start intervals from rfl] at hfirst
  cases hrest : remaining start intervals with
  | nil => rw [hrest] at hmem; cases hmem
  | cons first rest =>
    rw [hrest] at hhead hfirst hmem horder
    simp at hhead hfirst
    have hbegin : stop ≤ first.1 := by
      by_contra hlt
      have := hhead (by omega)
      omega
    rcases List.mem_cons.mp hmem with rfl | hlater
    · omega
    · have hnext := (List.pairwise_cons.mp horder.2).1 interval hlater
      have hwell := horder.1 first (by simp)
      omega

end

/-- If the loop finds all safe, no missing piece intersects an interval. The intervals that a piece
passes end before every later piece begins. -/
theorem inspectLoop_safe {pieceLength total : ℕ} (states : List ℕ) :
    ∀ {index : ℕ} {intervals : List (ℕ × ℕ)} {safe : Bool} {present : ℕ}, InOrder intervals →
      (inspectLoop pieceLength total index intervals states (safe, present)).1 = true →
      safe = true ∧ ∀ (j state : ℕ), states[j]? = some state → state ≠ 2 → ∀ interval ∈ intervals,
        ¬ (interval.1 < pieceEnd pieceLength total (index + j)
          ∧ pieceStart pieceLength (index + j) < interval.2) := by
  induction states with
  | nil =>
    intro index intervals safe present _ hsafe
    exact ⟨hsafe, fun j state hj => by simp at hj⟩
  | cons state states ih =>
    intro index intervals safe present horder hsafe
    have hrest := horder.remaining (pieceStart pieceLength index)
    -- The pieces after the first one, by the induction hypothesis or because the interval is
    -- passed.
    have htail : ∀ safe' present', (inspectLoop pieceLength total (index + 1)
        (remaining (pieceStart pieceLength index) intervals) states (safe', present')).1 = true →
        safe' = true ∧ ∀ (j state : ℕ), states[j]? = some state → state ≠ 2 →
          ∀ interval ∈ intervals, ¬ (interval.1 < pieceEnd pieceLength total (index + (j + 1))
            ∧ pieceStart pieceLength (index + (j + 1)) < interval.2) := by
      intro safe' present' hsafe'
      obtain ⟨hsafe', hlater⟩ := ih hrest hsafe'
      refine ⟨hsafe', fun j state hj hstate interval hmem hhit => ?_⟩
      rcases passed_or_remaining (pieceStart pieceLength index) hmem with hpassed | hnot
      · have hmono : pieceStart pieceLength index ≤ pieceStart pieceLength (index + (j + 1)) :=
          pieceStart_le (by omega)
        omega
      · have hnext := hlater j state hj hstate interval hnot
        rw [show index + 1 + j = index + (j + 1) by omega] at hnext
        exact hnext hhit
    unfold inspectLoop at hsafe
    simp only at hsafe
    by_cases hpresent : state = 2
    · rw [if_pos hpresent] at hsafe
      obtain ⟨hsafe', hlater⟩ := htail _ _ hsafe
      refine ⟨hsafe', fun j state' hj hstate => ?_⟩
      cases j with
      | zero =>
        obtain rfl : state = state' := by simpa using hj
        exact absurd hpresent hstate
      | succ j => exact hlater j state' (by simpa using hj) hstate
    · rw [if_neg hpresent] at hsafe
      obtain ⟨hsafe', hlater⟩ := htail _ _ hsafe
      rw [Bool.and_eq_true, Bool.not_eq_true'] at hsafe'
      refine ⟨hsafe'.1, fun j state' hj hstate interval hmem hhit => ?_⟩
      cases j with
      | zero =>
        rw [Nat.add_zero] at hhit
        rcases passed_or_remaining (pieceStart pieceLength index) hmem with hpassed | hnot
        · omega
        · exact not_begins_of_head _ horder hsafe'.2 hnot hhit.1
      | succ j => exact hlater j state' (by simpa using hj) hstate interval hmem hhit

/-! ### The ranges of a manifest -/

theorem checkedAdd_eq_ok {a b c : ℕ} (h : checkedAdd a b = .ok c) : c = a + b := by
  unfold checkedAdd at h
  split_ifs at h
  exact (Except.ok.inj h).symm

theorem checkedAdd_le {a b c : ℕ} (h : checkedAdd a b = .ok c) : c ≤ u64Max := by
  unfold checkedAdd at h
  split_ifs at h with hle
  exact Except.ok.inj h ▸ hle

/-- A range that is kept for one file only is kept for more files. -/
theorem subset_of_restrict {p q : Prop} [Decidable p] [Decidable q] {interval : ℕ × ℕ}
    {rest rest' : List (ℕ × ℕ)} (hsubset : rest' ⊆ rest) (himp : q → p) :
    (if q then interval :: rest' else rest') ⊆ if p then interval :: rest else rest := by
  split_ifs with hq hp hp
  · exact List.cons_subset_cons _ hsubset
  · exact absurd (himp hq) hp
  · exact List.subset_cons_of_subset _ hsubset
  · exact hsubset

theorem le_align {pieceLength offset : ℕ} (hpositive : 0 < pieceLength)
    (hoffset : offset ≤ u64Max) :
    offset ≤ saturatingMul (divCeil offset pieceLength) pieceLength := by
  refine le_min ?_ hoffset
  have hmod := Nat.div_add_mod (offset + pieceLength - 1) pieceLength
  have hlt := Nat.mod_lt (offset + pieceLength - 1) hpositive
  rw [divCeil, Nat.mul_comm]
  omega

/-- The ranges of a manifest without a stored layout are in order. -/
theorem inOrder_legacyIntervals {pieceLength : ℕ} (hpositive : 0 < pieceLength) (v2Only : Bool)
    (mapped : List ℕ) (files : List TorrentFile) :
    ∀ {offset : ℕ} {intervals : List (ℕ × ℕ)} {total : ℕ}, offset ≤ u64Max →
      legacyIntervals pieceLength v2Only mapped offset files = .ok (intervals, total) →
      InOrder intervals ∧ ∀ interval ∈ intervals, offset ≤ interval.1 := by
  induction files with
  | nil =>
    intro offset intervals total _ h
    obtain ⟨rfl, -⟩ : [] = intervals ∧ offset = total := by simpa [legacyIntervals] using h
    exact ⟨⟨by simp, List.Pairwise.nil⟩, by simp⟩
  | cons file files ih =>
    intro offset intervals total hoffset h
    unfold legacyIntervals at h
    obtain ⟨stop, hstop, h⟩ := bind_eq_ok.mp h
    obtain ⟨⟨rest, total'⟩, hrest, h⟩ := bind_eq_ok.mp h
    have hle := checkedAdd_le hstop
    have hsum := checkedAdd_eq_ok hstop
    set start := if v2Only = true
      then saturatingMul (divCeil offset pieceLength) pieceLength else offset
      with hstart
    have hbegin : offset ≤ start := by
      rw [hstart]
      split_ifs
      · exact le_align hpositive hoffset
      · exact le_rfl
    obtain ⟨⟨hwell, hpairwise⟩, hlater⟩ := ih hle hrest
    simp only [pure, Except.pure, Except.ok.injEq, Prod.mk.injEq] at h
    have hall : ∀ interval ∈ rest, offset ≤ interval.1 := fun interval hmem => by
      have := hlater interval hmem
      omega
    rw [← h.1]
    split_ifs
    · refine ⟨⟨?_, List.pairwise_cons.mpr ⟨hlater, hpairwise⟩⟩, ?_⟩
      · simp only [List.mem_cons, forall_eq_or_imp]
        exact ⟨by omega, hwell⟩
      · simp only [List.mem_cons, forall_eq_or_imp]
        exact ⟨hbegin, hall⟩
    · exact ⟨⟨hwell, hpairwise⟩, hall⟩

theorem inOrder_storedIntervals (mapped : List ℕ) (files : List TorrentPieceFile) :
    ∀ {intervals : List (ℕ × ℕ)} {total : ℕ},
      files.Pairwise (fun file later => file.offset + file.size ≤ later.offset) →
      storedIntervals mapped files = .ok (intervals, total) →
      InOrder intervals ∧ ∀ interval ∈ intervals, ∃ file ∈ files, interval.1 = file.offset := by
  induction files with
  | nil =>
    intro intervals total _ h
    obtain ⟨rfl, -⟩ : [] = intervals ∧ 0 = total := by simpa [storedIntervals] using h
    exact ⟨⟨by simp, List.Pairwise.nil⟩, by simp⟩
  | cons file files ih =>
    intro intervals total hordered h
    unfold storedIntervals at h
    obtain ⟨stop, hstop, h⟩ := bind_eq_ok.mp h
    obtain ⟨⟨rest, total'⟩, hrest, h⟩ := bind_eq_ok.mp h
    have hsum := checkedAdd_eq_ok hstop
    obtain ⟨hfirst, hordered⟩ := List.pairwise_cons.mp hordered
    obtain ⟨⟨hwell, hpairwise⟩, hfiles⟩ := ih hordered hrest
    simp only [pure, Except.pure, Except.ok.injEq, Prod.mk.injEq] at h
    have hall : ∀ interval ∈ rest, ∃ file' ∈ file :: files, interval.1 = file'.offset := by
      intro interval hmem
      obtain ⟨file', hfile', hoffset⟩ := hfiles interval hmem
      exact ⟨file', List.mem_cons_of_mem _ hfile', hoffset⟩
    rw [← h.1]
    split_ifs
    · refine ⟨⟨?_, List.pairwise_cons.mpr ⟨?_, hpairwise⟩⟩, ?_⟩
      · simp only [List.mem_cons, forall_eq_or_imp]
        exact ⟨by omega, hwell⟩
      · intro interval hmem
        obtain ⟨file', hfile', hoffset⟩ := hfiles interval hmem
        have := hfirst file' hfile'
        simp only
        omega
      · simp only [List.mem_cons, forall_eq_or_imp]
        exact ⟨⟨file, .inl rfl, rfl⟩, fun interval hmem => by simpa using hall interval hmem⟩
    · exact ⟨⟨hwell, hpairwise⟩, hall⟩

/-- The ranges of the mapped files are in order. -/
theorem inOrder_intervalsOf {manifest : TorrentManifest} (hlayout : OrderedLayout manifest)
    {pieceLength : ℕ} (hpositive : 0 < pieceLength) {mapped : List ℕ} {intervals : List (ℕ × ℕ)}
    {total : ℕ} (h : intervalsOf manifest pieceLength mapped = .ok (intervals, total)) :
    InOrder intervals := by
  unfold intervalsOf at h
  split_ifs at h
  · exact (inOrder_legacyIntervals hpositive _ mapped _ (Nat.zero_le _) h).1
  · exact (inOrder_storedIntervals mapped _ hlayout h).1

/-- The size does not depend on what is mapped, and the ranges of one mapped file are ranges of the
mapped files. -/
theorem legacyIntervals_restrict {pieceLength : ℕ} {v2Only : Bool} {mapped : List ℕ} {ordinal : ℕ}
    (hmapped : ordinal ∈ mapped) (files : List TorrentFile) :
    ∀ {offset : ℕ} {intervals intervals' : List (ℕ × ℕ)} {total total' : ℕ},
      legacyIntervals pieceLength v2Only mapped offset files = .ok (intervals, total) →
      legacyIntervals pieceLength v2Only [ordinal] offset files = .ok (intervals', total') →
      total' = total ∧ intervals' ⊆ intervals := by
  induction files with
  | nil =>
    intro offset intervals intervals' total total' h h'
    obtain ⟨rfl, rfl⟩ : [] = intervals ∧ offset = total := by simpa [legacyIntervals] using h
    obtain ⟨rfl, rfl⟩ : [] = intervals' ∧ offset = total' := by simpa [legacyIntervals] using h'
    exact ⟨rfl, List.Subset.refl _⟩
  | cons file files ih =>
    intro offset intervals intervals' total total' h h'
    unfold legacyIntervals at h h'
    obtain ⟨stop, hstop, h⟩ := bind_eq_ok.mp h
    obtain ⟨⟨rest, total₁⟩, hrest, h⟩ := bind_eq_ok.mp h
    obtain ⟨stop', hstop', h'⟩ := bind_eq_ok.mp h'
    obtain ⟨⟨rest', total₁'⟩, hrest', h'⟩ := bind_eq_ok.mp h'
    obtain rfl : stop = stop' := Except.ok.inj (hstop.symm.trans hstop')
    obtain ⟨htotal, hsubset⟩ := ih hrest hrest'
    simp only [pure, Except.pure, Except.ok.injEq, Prod.mk.injEq] at h h'
    refine ⟨by rw [← h.2, ← h'.2, htotal], ?_⟩
    rw [← h.1, ← h'.1]
    exact subset_of_restrict hsubset fun hfile => by
      rw [List.mem_singleton] at hfile
      exact ⟨hfile.1 ▸ hmapped, hfile.2⟩

theorem storedIntervals_restrict {mapped : List ℕ} {ordinal : ℕ} (hmapped : ordinal ∈ mapped)
    (files : List TorrentPieceFile) :
    ∀ {intervals intervals' : List (ℕ × ℕ)} {total total' : ℕ},
      storedIntervals mapped files = .ok (intervals, total) →
      storedIntervals [ordinal] files = .ok (intervals', total') →
      total' = total ∧ intervals' ⊆ intervals := by
  induction files with
  | nil =>
    intro intervals intervals' total total' h h'
    obtain ⟨rfl, rfl⟩ : [] = intervals ∧ 0 = total := by simpa [storedIntervals] using h
    obtain ⟨rfl, rfl⟩ : [] = intervals' ∧ 0 = total' := by simpa [storedIntervals] using h'
    exact ⟨rfl, List.Subset.refl _⟩
  | cons file files ih =>
    intro intervals intervals' total total' h h'
    unfold storedIntervals at h h'
    obtain ⟨stop, hstop, h⟩ := bind_eq_ok.mp h
    obtain ⟨⟨rest, total₁⟩, hrest, h⟩ := bind_eq_ok.mp h
    obtain ⟨stop', hstop', h'⟩ := bind_eq_ok.mp h'
    obtain ⟨⟨rest', total₁'⟩, hrest', h'⟩ := bind_eq_ok.mp h'
    obtain rfl : stop = stop' := Except.ok.inj (hstop.symm.trans hstop')
    obtain ⟨htotal, hsubset⟩ := ih hrest hrest'
    simp only [pure, Except.pure, Except.ok.injEq, Prod.mk.injEq] at h h'
    refine ⟨by rw [← h.2, ← h'.2, htotal], ?_⟩
    rw [← h.1, ← h'.1]
    refine subset_of_restrict hsubset fun hfile => ⟨?_, hfile.2⟩
    obtain ⟨o, ho, hmem⟩ := (Option.any_eq_true ..).mp hfile.1
    refine (Option.any_eq_true ..).mpr ⟨o, ho, ?_⟩
    simp only [List.mem_singleton, decide_eq_true_eq] at hmem ⊢
    exact hmem ▸ hmapped

/-- **The integrity gate.** If the inspection finds the pieces safe, no missing piece intersects a
mapped file. -/
theorem not_missingIn_of_integritySafe {manifest : TorrentManifest}
    (hlayout : OrderedLayout manifest) {mapped states : List ℕ} {pieces : PieceInspection}
    (h : inspectPieces manifest mapped states = .ok pieces) (hsafe : pieces.integritySafe = true)
    {ordinal : ℕ} (hmapped : ordinal ∈ mapped) : ¬ MissingIn manifest states ordinal := by
  rintro ⟨pieceLength, intervals', total', hlength, hintervals', interval, hmem,
    index, state, hstate, hmissing, hhit⟩
  unfold inspectPieces at h
  rw [hlength] at h
  simp only at h
  by_cases hzero : pieceLength = 0
  · rw [if_pos hzero] at h
    cases h
  rw [if_neg hzero] at h
  cases hintervals : intervalsOf manifest pieceLength mapped with
  | error e => simp [hintervals] at h
  | ok result =>
    obtain ⟨intervals, total⟩ := result
    simp only [hintervals] at h
    split_ifs at h
    obtain rfl : _ = pieces := Except.ok.inj h
    have horder := inOrder_intervalsOf hlayout (Nat.pos_of_ne_zero hzero) hintervals
    obtain ⟨rfl, hsubset⟩ : total' = total ∧ intervals' ⊆ intervals := by
      unfold intervalsOf at hintervals hintervals'
      split_ifs at hintervals hintervals'
      · exact legacyIntervals_restrict hmapped _ hintervals hintervals'
      · exact storedIntervals_restrict hmapped _ hintervals hintervals'
    have hnone := (inspectLoop_safe states horder hsafe).2 index state hstate hmissing interval
      (hsubset hmem)
    rw [Nat.zero_add] at hnone
    exact hnone hhit

end Sporos.Service.Pieces
