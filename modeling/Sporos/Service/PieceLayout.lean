import Sporos.Service.Pieces
import Sporos.Service.Torrent

/-! # Pieces and files

The inspection of the pieces against the layout that the torrent parser has stored: its result as a
function of the bytes of the pieces and of the files (`inspectPieces_stored`), and that a manifest
without its layout gives the same result where it is read from the sizes of the files
(`inspectPieces_legacy`). -/

namespace Sporos.Service.PieceLayout

open Sporos.Model.Matching (TorrentPieceFile TorrentManifest)
open Sporos.Service.Tables
open Sporos.Service.Ingress
open Sporos.Service.Pieces
open Sporos.Service.Torrent (parseMetainfo MetaInfo PieceFile Placed)
open Sporos.Lib.Layout
open Sporos.Lib.Loop

/-- An entry as the manifest stores it. -/
def stored (file : PieceFile) : TorrentPieceFile := ⟨file.fileOrdinal, file.offset, file.length⟩

/-- The largest end of an entry. -/
def largestEnd (files : List TorrentPieceFile) : ℕ :=
  (files.map fun file => file.offset + file.size).foldr max 0

/-- The entry is a mapped file that is not empty. -/
def Mapped (mapped : List ℕ) (file : TorrentPieceFile) : Prop :=
  file.fileOrdinal.any (· ∈ mapped) = true ∧ 0 < file.size

instance (mapped : List ℕ) (file : TorrentPieceFile) : Decidable (Mapped mapped file) :=
  inferInstanceAs (Decidable (_ ∧ _))

/-- A byte of the torrent is of the piece and of the entry. -/
def SharesByte (pieceLength index : ℕ) (file : TorrentPieceFile) : Prop :=
  ∃ byte, index * pieceLength ≤ byte ∧ byte < (index + 1) * pieceLength
    ∧ file.offset ≤ byte ∧ byte < file.offset + file.size

/-- The bytes of the present pieces from an index on, each cut at the end of the torrent. -/
def presentBytes (pieceLength total : ℕ) : ℕ → List ℕ → ℕ
  | _, [] => 0
  | index, state :: states =>
    (if state = 2 then min ((index + 1) * pieceLength) total - index * pieceLength else 0)
      + presentBytes pieceLength total (index + 1) states

/-! ### The loop over the pieces -/

theorem lt_divCeil {pieceLength total index : ℕ} (hpositive : 0 < pieceLength) :
    index < divCeil total pieceLength ↔ index * pieceLength < total := by
  rw [divCeil, Nat.lt_iff_add_one_le, Nat.le_div_iff_mul_le hpositive, Nat.add_mul, Nat.one_mul]
  omega

theorem pieceStart_eq {pieceLength total index : ℕ} (htotal : total ≤ u64Max)
    (h : index * pieceLength < total) : pieceStart pieceLength index = index * pieceLength :=
  min_eq_left (h.le.trans htotal)

theorem pieceEnd_eq {pieceLength total index : ℕ} (htotal : total ≤ u64Max)
    (h : index * pieceLength < total) :
    pieceEnd pieceLength total index = min ((index + 1) * pieceLength) total := by
  rw [pieceEnd, pieceStart_eq htotal h, Nat.add_mul, Nat.one_mul, min_assoc, min_eq_right htotal]

/-- The loop adds up the bytes of the present pieces, which are within the torrent. -/
theorem inspectLoop_present {pieceLength total : ℕ} (hpositive : 0 < pieceLength)
    (htotal : total ≤ u64Max) (states : List ℕ) :
      ∀ {index : ℕ} {intervals : List (ℕ × ℕ)} {safe : Bool} {present : ℕ},
      index + states.length ≤ divCeil total pieceLength →
        present ≤ min (index * pieceLength) total →
      (inspectLoop pieceLength total index intervals states (safe, present)).2
        = present + presentBytes pieceLength total index states
      ∧ present + presentBytes pieceLength total index states ≤ total := by
  induction states with
  | nil =>
    intro index intervals safe present _ hpresent
    exact ⟨rfl, hpresent.trans (min_le_right _ _)⟩
  | cons state states ih =>
    intro index intervals safe present hlength hpresent
    rw [List.length_cons] at hlength
    have hindex : index * pieceLength < total := (lt_divCeil hpositive).mp (by omega)
    have hnext : index * pieceLength ≤ min ((index + 1) * pieceLength) total := by
      rw [Nat.add_mul, Nat.one_mul]
      exact le_min (Nat.le_add_right _ _) hindex.le
    rw [min_eq_left hindex.le] at hpresent
    simp only [inspectLoop, presentBytes, pieceStart_eq htotal hindex, pieceEnd_eq htotal hindex]
    by_cases hstate : state = 2
    · have hsum : present + (min ((index + 1) * pieceLength) total - index * pieceLength)
          ≤ min ((index + 1) * pieceLength) total := by omega
      have hbounded : present + (min ((index + 1) * pieceLength) total - index * pieceLength) ≤
          u64Max :=
        hsum.trans ((min_le_right _ _).trans htotal)
      rw [if_pos hstate, if_pos hstate, min_eq_left hbounded, ← Nat.add_assoc]
      exact ih (by omega) hsum
    · rw [if_neg hstate, if_neg hstate, Nat.zero_add]
      exact ih (by omega) (hpresent.trans hnext)

/-- If the loop does not find all safe, a missing piece intersects an interval. -/
theorem inspectLoop_unsafe_hit {pieceLength total : ℕ} (states : List ℕ) :
    ∀ {index : ℕ} {intervals : List (ℕ × ℕ)} {safe : Bool} {present : ℕ},
      (inspectLoop pieceLength total index intervals states (safe, present)).1 =
        false → safe = false
      ∨ ∃ j state, states[j]? = some state ∧ state ≠ 2 ∧ ∃ interval ∈ intervals,
        interval.1 < pieceEnd pieceLength total (index + j)
          ∧ pieceStart pieceLength (index + j) < interval.2 := by
  induction states with
  | nil => exact fun h => .inl h
  | cons state states ih =>
    intro index intervals safe present h
    have hsublist : (remaining (pieceStart pieceLength index) intervals).Sublist intervals :=
      List.dropWhile_sublist _
    -- A hit of a later piece.
    have hlater : (∃ j state, states[j]? = some state ∧ state ≠ 2 ∧
        ∃ interval ∈ remaining (pieceStart pieceLength index) intervals,
          interval.1 < pieceEnd pieceLength total (index + 1 + j)
            ∧ pieceStart pieceLength (index + 1 + j) < interval.2) →
        ∃ j state', (state :: states)[j]? = some state' ∧ state' ≠ 2 ∧ ∃ interval ∈ intervals,
          interval.1 < pieceEnd pieceLength total (index + j)
            ∧ pieceStart pieceLength (index + j) < interval.2 := by
      rintro ⟨j, state', hj, hstate', interval, hmem, hhit⟩
      rw [Nat.add_right_comm] at hhit
      exact ⟨j + 1, state', hj, hstate', interval, hsublist.subset hmem, hhit⟩
    unfold inspectLoop at h
    simp only at h
    split_ifs at h with hstate
    · exact (ih h).imp_right hlater
    · rcases ih h with hnow | hrest
      · rw [Bool.and_eq_false_iff, Bool.not_eq_false'] at hnow
        rcases hnow with hsafe | hhead
        · exact .inl hsafe
        · obtain ⟨interval, hfirst, hhit⟩ := (Option.any_eq_true ..).mp hhead
          have hmem : interval ∈ remaining (pieceStart pieceLength index) intervals :=
            List.mem_of_head? hfirst
          exact .inr ⟨0, state, rfl, hstate, interval, hsublist.subset hmem, by simpa using hhit⟩
      · exact .inr (hlater hrest)

/-! ### The stored layout -/

theorem storedIntervals_ok {mapped : List ℕ} (files : List TorrentPieceFile)
    (hfiles : ∀ file ∈ files, file.offset + file.size ≤ u64Max) :
    storedIntervals mapped files
      = .ok ((files.filter (Mapped mapped ·)).map fun file =>
        (file.offset, file.offset + file.size),
        largestEnd files) := by
  induction files with
  | nil => rfl
  | cons file files ih =>
    rw [storedIntervals, checkedAdd, if_pos (hfiles file (by simp)),
      ih fun later hlater => hfiles later (List.mem_cons_of_mem _ hlater)]
    simp only [bind, Except.bind, pure, Except.pure, largestEnd, List.map_cons, List.foldr_cons,
      List.filter_cons, decide_eq_true_eq]
    by_cases hmapped : Mapped mapped file
    · have htest : file.fileOrdinal.any (· ∈ mapped) = true ∧ file.size > 0 := hmapped
      rw [if_pos hmapped, if_pos htest, List.map_cons]
    · have htest : ¬ (file.fileOrdinal.any (· ∈ mapped) = true ∧ file.size > 0) := hmapped
      rw [if_neg hmapped, if_neg htest]

theorem le_largestEnd {files : List TorrentPieceFile} {file : TorrentPieceFile} (h : file ∈ files) :
    file.offset + file.size ≤ largestEnd files := by
  induction files with
  | nil => cases h
  | cons first files ih =>
    rw [largestEnd, List.map_cons, List.foldr_cons]
    rcases List.mem_cons.mp h with rfl | h
    · exact le_max_left _ _
    · exact (ih h).trans (le_max_right _ _)

theorem largestEnd_le {files : List TorrentPieceFile} {bound : ℕ}
    (h : ∀ file ∈ files, file.offset + file.size ≤ bound) : largestEnd files ≤ bound := by
  induction files with
  | nil => exact Nat.zero_le _
  | cons file files ih =>
    rw [largestEnd, List.map_cons, List.foldr_cons]
    exact max_le (h file (by simp)) (ih fun later hlater => h later (List.mem_cons_of_mem _ hlater))

/-- The test of the loop is whether the piece and the file share a byte. -/
theorem sharesByte_iff {pieceLength total index : ℕ} {file : TorrentPieceFile}
    (hpositive : 0 < pieceLength) (htotal : total ≤ u64Max) (hindex : index * pieceLength < total)
    (hsize : 0 < file.size) (hend : file.offset + file.size ≤ total) :
    (file.offset < pieceEnd pieceLength total index ∧ pieceStart pieceLength index <
      file.offset + file.size)
      ↔ SharesByte pieceLength index file := by
  rw [pieceEnd_eq htotal hindex, pieceStart_eq htotal hindex, lt_min_iff, SharesByte]
  have hnext : index * pieceLength < (index + 1) * pieceLength := by
    rw [Nat.add_mul, Nat.one_mul]
    omega
  constructor
  · rintro ⟨⟨hbegin, -⟩, hstop⟩
    exact ⟨max (index * pieceLength) file.offset, le_max_left _ _, max_lt hnext hbegin,
      le_max_right _ _, max_lt hstop (by omega)⟩
  · rintro ⟨byte, hlow, hhigh, hbegin, hstop⟩
    exact ⟨⟨by omega, by omega⟩, by omega⟩

theorem presentRatio_eq {present total : ℕ} (h : present ≤ total) :
    presentRatio present total = if total = 0 then 0 else present * 1000000 / total := by
  unfold presentRatio
  by_cases hzero : total = 0
  · rw [if_pos hzero, if_pos hzero]
  · have hratio : present * 1000000 / total ≤ 1000000 :=
      Nat.div_le_of_le_mul (Nat.mul_le_mul_right 1000000 h)
    rw [if_neg hzero, if_neg hzero]
    exact if_pos (hratio.trans_lt (by decide))

/-- The inspection of a stored layout that is in order and of 64 bits. -/
theorem inspectPieces_ordered {manifest : TorrentManifest} {pieceLength : ℕ}
    {mapped states : List ℕ} (hstored : manifest.pieceFiles ≠ []) (hlayout : OrderedLayout manifest)
    (hbounded : ∀ file ∈ manifest.pieceFiles, file.offset + file.size ≤ u64Max)
    (hlength : manifest.pieceLength = some pieceLength) (hpositive : 0 < pieceLength)
    (hstates : ∀ state ∈ states, state ≤ 2) (hmax : states.length ≤ maxPieces) :
    ((∃ pieces, inspectPieces manifest mapped states = .ok pieces)
        ↔ states.length = divCeil (largestEnd manifest.pieceFiles) pieceLength)
      ∧ ∀ pieces, inspectPieces manifest mapped states = .ok pieces →
        (pieces.integritySafe = true ↔ ∀ index state, states[index]? = some state → state ≠ 2 →
          ∀ file ∈ manifest.pieceFiles, Mapped mapped file → ¬ SharesByte pieceLength index file)
        ∧ pieces.missingBytes = largestEnd manifest.pieceFiles
          - presentBytes pieceLength (largestEnd manifest.pieceFiles) 0 states
        ∧ pieces.presentRatioPpm = if largestEnd manifest.pieceFiles = 0 then 0
          else presentBytes pieceLength (largestEnd manifest.pieceFiles) 0 states * 1000000
            / largestEnd manifest.pieceFiles := by
  have htotal := largestEnd_le hbounded
  have hintervals : intervalsOf manifest pieceLength mapped
      = .ok ((manifest.pieceFiles.filter (Mapped mapped ·)).map fun file =>
        (file.offset, file.offset + file.size),
        largestEnd manifest.pieceFiles) := by
    rw [intervalsOf, if_neg hstored]
    exact storedIntervals_ok _ hbounded
  have horder := inOrder_intervalsOf hlayout hpositive hintervals
  have hresponse : ¬ (states.length > maxPieces ∨ ∃ state ∈ states, state > 2) := by
    rintro (hlong | ⟨state, hmem, hlarge⟩)
    · omega
    · have hsmall := hstates state hmem
      omega
  have hinspect : inspectPieces manifest mapped states
      = if states.length ≠ divCeil (largestEnd manifest.pieceFiles) pieceLength
        then .error .pieceCount
        else
          let result := inspectLoop pieceLength (largestEnd manifest.pieceFiles) 0
            ((manifest.pieceFiles.filter (Mapped mapped ·)).map fun file =>
              (file.offset, file.offset + file.size))
            states (true, 0)
          .ok ⟨result.1, largestEnd manifest.pieceFiles - result.2,
            presentRatio result.2 (largestEnd manifest.pieceFiles)⟩ := by
    simp only [inspectPieces, hlength, if_neg hpositive.ne', hintervals, if_neg hresponse]
  have hsafe : states.length = divCeil (largestEnd manifest.pieceFiles) pieceLength →
      ((inspectLoop pieceLength (largestEnd manifest.pieceFiles) 0
        ((manifest.pieceFiles.filter (Mapped mapped ·)).map fun file =>
          (file.offset, file.offset + file.size))
        states (true, 0)).1 = true ↔ ∀ index state, states[index]? = some state → state ≠ 2 →
          ∀ file ∈ manifest.pieceFiles, Mapped mapped file →
            ¬ SharesByte pieceLength index file) := by
    intro hcount
    have hindex : ∀ {index state : ℕ}, states[index]? = some state →
        index * pieceLength < largestEnd manifest.pieceFiles := by
      intro index state hstate
      have hlt := (List.getElem?_eq_some_iff.mp hstate).1
      exact (lt_divCeil hpositive).mp (by omega)
    constructor
    · intro hloop index state hstate hmissing file hfile hmapped hshares
      have hnone := (inspectLoop_safe states horder hloop).2 index state hstate hmissing
        (file.offset, file.offset + file.size) (List.mem_map.mpr ⟨file, by simp [hfile, hmapped],
          rfl⟩)
      rw [Nat.zero_add] at hnone
      exact hnone ((sharesByte_iff hpositive htotal (hindex hstate) hmapped.2
        (le_largestEnd hfile)).mpr hshares)
    · intro hnone
      by_contra hunsafe
      rcases inspectLoop_unsafe_hit states (Bool.eq_false_iff.mpr hunsafe) with hfalse | hhit
      · cases hfalse
      · obtain ⟨index, state, hstate, hmissing, interval, hmem, hbegin, hstop⟩ := hhit
        obtain ⟨file, hfile, rfl⟩ := List.mem_map.mp hmem
        obtain ⟨hfile, hmapped⟩ := List.mem_filter.mp hfile
        have hmapped : Mapped mapped file := by simpa using hmapped
        rw [Nat.zero_add] at hbegin hstop
        exact hnone index state hstate hmissing file hfile hmapped
          ((sharesByte_iff hpositive htotal (hindex hstate) hmapped.2
            (le_largestEnd hfile)).mp ⟨hbegin, hstop⟩)
  rw [hinspect]
  constructor
  · constructor
    · rintro ⟨pieces, hok⟩
      by_contra hcount
      rw [if_pos hcount] at hok
      cases hok
    · intro hcount
      rw [if_neg (not_not.mpr hcount)]
      exact ⟨_, rfl⟩
  · intro pieces hok
    have hcount : states.length = divCeil (largestEnd manifest.pieceFiles) pieceLength := by
      by_contra hcount
      rw [if_pos hcount] at hok
      cases hok
    rw [if_neg (not_not.mpr hcount)] at hok
    obtain rfl := Except.ok.inj hok
    obtain ⟨hpresent, hle⟩ := @inspectLoop_present pieceLength _ hpositive htotal states 0
      ((manifest.pieceFiles.filter (Mapped mapped ·)).map fun file =>
        (file.offset, file.offset + file.size))
      true 0 (by omega) (Nat.zero_le _)
    rw [Nat.zero_add] at hpresent hle
    refine ⟨hsafe hcount, ?_, ?_⟩
    · simp only [hpresent]
    · simp only [hpresent]
      exact presentRatio_eq hle

theorem orderedLayout_stored {manifest : TorrentManifest} {files : List Torrent.TorrentFile}
    {pieceFiles : List PieceFile} (hplaced : Placed files pieceFiles)
    (hfiles : manifest.pieceFiles = pieceFiles.map stored) :
    OrderedLayout manifest ∧ ∀ file ∈ manifest.pieceFiles, file.offset + file.size ≤ u64Max := by
  rw [OrderedLayout, hfiles]
  refine ⟨List.pairwise_map.mpr hplaced.ordered, fun file hfile => ?_⟩
  obtain ⟨entry, hentry, rfl⟩ := List.mem_map.mp hfile
  exact hplaced.bounded entry hentry

/-- **The inspection** of the layout of a parsed torrent succeeds exactly if there is one state for
each piece. It is safe exactly if no missing piece shares a byte with a mapped file, and it counts
the bytes of the present pieces. -/
theorem inspectPieces_stored (metainfo : MetaInfo) (parsed : Torrent.ParsedTorrent)
    (hparsed : parseMetainfo metainfo = .ok parsed) (manifest : TorrentManifest)
    (hfiles : manifest.pieceFiles = parsed.pieceFiles.map stored) (pieceLength : ℕ)
    (hlength : manifest.pieceLength = some pieceLength) (hpositive : 0 < pieceLength)
    (mapped states : List ℕ) (hstates : ∀ state ∈ states, state ≤ 2)
    (hmax : states.length ≤ maxPieces) :
    ((∃ pieces, inspectPieces manifest mapped states = .ok pieces)
        ↔ states.length = divCeil (largestEnd manifest.pieceFiles) pieceLength)
      ∧ ∀ pieces, inspectPieces manifest mapped states = .ok pieces →
        (pieces.integritySafe = true ↔ ∀ index state, states[index]? = some state → state ≠ 2 →
          ∀ file ∈ manifest.pieceFiles, Mapped mapped file → ¬ SharesByte pieceLength index file)
        ∧ pieces.missingBytes = largestEnd manifest.pieceFiles
          - presentBytes pieceLength (largestEnd manifest.pieceFiles) 0 states
        ∧ pieces.presentRatioPpm = if largestEnd manifest.pieceFiles = 0 then 0
          else presentBytes pieceLength (largestEnd manifest.pieceFiles) 0 states * 1000000
            / largestEnd manifest.pieceFiles := by
  obtain ⟨horigin, -⟩ := Torrent.parseMetainfo_eq_ok hparsed
  obtain ⟨hlayout, hbounded⟩ := orderedLayout_stored horigin.placed hfiles
  have hstored : manifest.pieceFiles ≠ [] := by
    rw [hfiles]
    simpa using horigin.pieceFiles_ne_nil
  exact inspectPieces_ordered hstored hlayout hbounded hlength hpositive hstates hmax

/-- The second piece of the hybrid torrent is missing, which holds no byte of the mapped file. -/
def hybridManifest : TorrentManifest where
  hashes := ⟨some 1, some 2⟩
  files := []
  pieceLength := some 16384
  pieceFiles := Torrent.hybridParsed.pieceFiles.map stored

theorem inspectPieces_stored_hybrid :
    (∃ pieces, inspectPieces hybridManifest [0] [2, 0] = .ok pieces)
      ∧ ∀ pieces, inspectPieces hybridManifest [0] [2, 0] = .ok pieces →
        pieces.missingBytes = 10000 := by
  have hparsed : parseMetainfo Torrent.hybridMetainfo = .ok Torrent.hybridParsed := by
    decide +kernel
  obtain ⟨hcount, hpieces⟩ :=
    inspectPieces_stored Torrent.hybridMetainfo Torrent.hybridParsed hparsed hybridManifest
    rfl 16384 rfl (by decide) [0] [2, 0] (by decide) (by decide)
  exact ⟨hcount.mpr (by decide), fun pieces hok => (hpieces pieces hok).2.1.trans (by decide)⟩

/-! ### Manifests without a layout -/

/-- What the ingress reads of a parsed torrent. -/
def accepted (parsed : Torrent.ParsedTorrent) : Ingress.ParsedTorrent where
  name := parsed.name
  v1Hash := parsed.v1Hash
  v2Hash := parsed.v2Hash
  files := parsed.files.map fun file => ⟨file.path, file.length⟩
  pieceLength := parsed.pieceLength
  pieceFiles := parsed.pieceFiles.map stored

/-- The hashes of a torrent are those of its views. -/
def HashesOfViews (metainfo : MetaInfo) : Prop :=
  metainfo.infoHash.v1?.isSome = metainfo.info.v1.isSome ∧ metainfo.infoHash.v2?.isSome =
    metainfo.info.v2.isSome

/-- Where a file without a layout begins. -/
def legacyStart (pieceLength : ℕ) (v2Only : Bool) : ℕ → ℕ :=
  if v2Only then alignUp pieceLength else id

theorem le_legacyStart {pieceLength : ℕ} (hpositive : 0 < pieceLength)
    (v2Only : Bool) (offset : ℕ) : offset ≤ legacyStart pieceLength v2Only offset := by
  unfold legacyStart
  split_ifs
  · exact le_alignUp hpositive offset
  · exact le_rfl

/-- The two ways to the intervals of the same files agree, while the ends are of 64 bits. -/
theorem intervals_agree {pieceLength : ℕ} (hpositive : 0 < pieceLength) (v2Only : Bool)
    (mapped : List ℕ) (files : List Model.Matching.TorrentFile) :
      ∀ {cursor : ℕ} {pieceFiles : List TorrentPieceFile},
      pieceFiles.map (fun file => (file.fileOrdinal, file.size)) = files.map (fun file =>
        (some file.ordinal, file.size)) →
      pieceFiles.map (fun file => (file.offset, file.size))
        = place (legacyStart pieceLength v2Only) cursor
          (files.map Model.Matching.TorrentFile.size) →
      finish (legacyStart pieceLength v2Only) cursor (files.map Model.Matching.TorrentFile.size) ≤
        u64Max →
      legacyIntervals pieceLength v2Only mapped cursor files
        = .ok ((pieceFiles.filter (Mapped mapped ·)).map fun file =>
          (file.offset, file.offset + file.size),
          finish (legacyStart pieceLength v2Only) cursor
            (files.map Model.Matching.TorrentFile.size)) := by
  induction files with
  | nil =>
    intro cursor pieceFiles hordinals hplaces hfinish
    obtain rfl : pieceFiles = [] := by simpa using hordinals
    rfl
  | cons file files ih =>
    intro cursor pieceFiles hordinals hplaces hfinish
    cases pieceFiles with
    | nil => cases hordinals
    | cons entry pieceFiles =>
      obtain ⟨hordinal, hordinals⟩ := List.cons.inj hordinals
      obtain ⟨hplace, hplaces⟩ := List.cons.inj hplaces
      obtain ⟨hordinal, hsize⟩ := Prod.mk.inj hordinal
      obtain ⟨hoffset, -⟩ := Prod.mk.inj hplace
      have hstop : entry.offset + file.size ≤ u64Max := by
        rw [hoffset]
        exact (le_finish (le_legacyStart hpositive v2Only) _ _).trans hfinish
      have hstart : (if v2Only = true
        then saturatingMul (divCeil cursor pieceLength) pieceLength else cursor)
          = entry.offset := by
        rw [hoffset, legacyStart]
        split_ifs with hv2
        · refine min_eq_left ?_
          rw [hoffset, legacyStart, if_pos hv2] at hstop
          exact (Nat.le_add_right _ _).trans hstop
        · rfl
      rw [← hoffset] at hplaces
      have hrest :=
        @ih (entry.offset + file.size) pieceFiles hordinals hplaces (by rw [hoffset]; exact hfinish)
      have htest : (file.ordinal ∈ mapped ∧ file.size > 0) ↔ Mapped mapped entry := by
        rw [Mapped, hordinal, hsize, Option.any_some, decide_eq_true_eq]
      rw [legacyIntervals, hstart, checkedAdd, if_pos hstop]
      simp only [bind, Except.bind, hrest, pure, Except.pure, List.filter_cons, decide_eq_true_eq]
      rw [List.map_cons, finish, ← hoffset]
      by_cases hmapped : Mapped mapped entry
      · rw [if_pos (htest.mpr hmapped), if_pos hmapped, List.map_cons, hsize]
      · rw [if_neg (mt htest.mp hmapped), if_neg hmapped]

section

variable {codec : Codec} {config : IngressConfig}

theorem manifestFile_eq_ok {ordinal : ℕ} {file : ParsedFile} {result : Model.Matching.TorrentFile}
    (h : manifestFile codec config ordinal file = .ok result) : result.ordinal = ordinal
      ∧ result.size = file.length := by
  unfold manifestFile at h
  split at h
  · cases h
  · simp only at h
    split_ifs at h
    obtain rfl := Except.ok.inj h
    exact ⟨rfl, rfl⟩

theorem manifestFiles_eq_ok (parsedFiles : List ParsedFile) :
    ∀ {first : ℕ} {files : List Model.Matching.TorrentFile},
      manifestFiles codec config first parsedFiles = .ok files →
      List.Forall₂ (fun entry file => manifestFile codec config entry.2 entry.1 =
        .ok file) (parsedFiles.zipIdx first)
        files := by
  induction parsedFiles with
  | nil =>
    intro first files h
    obtain rfl := Except.ok.inj h
    exact .nil
  | cons parsedFile parsedFiles ih =>
    intro first files h
    unfold manifestFiles at h
    obtain ⟨file, hfile, h⟩ := bind_eq_ok.mp h
    obtain ⟨rest, hrest, h⟩ := bind_eq_ok.mp h
    obtain rfl := Except.ok.inj h
    rw [List.zipIdx_cons]
    exact .cons hfile (ih hrest)

/-- What every file of a manifest has from its number and its parsed file, as a list. -/
theorem map_manifestFiles {β : Type} {f : Model.Matching.TorrentFile → β} {g : ParsedFile × ℕ → β}
    (hfile : ∀ {ordinal file result}, manifestFile codec config ordinal file = .ok result →
      f result = g (file, ordinal))
    {parsedFiles : List ParsedFile} {first : ℕ} {files : List Model.Matching.TorrentFile}
    (h : manifestFiles codec config first parsedFiles = .ok files) :
    files.map f = (parsedFiles.zipIdx first).map g := by
  have hmaps : List.Forall₂ Eq (files.map f) ((parsedFiles.zipIdx first).map g) := by
    rw [List.forall₂_map_left_iff, List.forall₂_map_right_iff]
    exact (manifestFiles_eq_ok parsedFiles h).flip.imp fun file entry heq => hfile heq
  rwa [List.forall₂_eq_eq_eq] at hmaps

/-- The files of a manifest are numbered, with the lengths of the parsed files. -/
theorem manifestFiles_numbered (parsedFiles : List ParsedFile) {first : ℕ}
    {files : List Model.Matching.TorrentFile}
    (h : manifestFiles codec config first parsedFiles = .ok files) :
    files.map (fun file => (file.ordinal, file.size))
      = (parsedFiles.zipIdx first).map fun entry => (entry.2, entry.1.length) :=
  map_manifestFiles (fun hfile => Prod.ext_iff.mpr (manifestFile_eq_ok hfile)) h

end

theorem numbered_of_ordinals (pieceFiles : List PieceFile)
    (h : ∀ file ∈ pieceFiles, file.fileOrdinal.isSome = true) :
    pieceFiles.map (fun file => (file.fileOrdinal, file.length))
      = (pieceFiles.filterMap PieceFile.numbered).map fun entry => (some entry.1, entry.2) := by
  induction pieceFiles with
  | nil => rfl
  | cons file pieceFiles ih =>
    obtain ⟨hfirst, hrest⟩ := List.forall_mem_cons.mp h
    obtain ⟨ordinal, hordinal⟩ := Option.isSome_iff_exists.mp hfirst
    have hnumbered : file.numbered = some (ordinal, file.length) := by
      rw [PieceFile.numbered, hordinal]; rfl
    rw [List.map_cons, ih hrest, List.filterMap_cons_some hnumbered, List.map_cons, hordinal]

/-- A layout that the sizes of the files determine. -/
theorem intervalsOf_legacy {codec : Codec} {config : IngressConfig}
    {parsed : Torrent.ParsedTorrent} {v2Only : Bool} {sizes : List ℕ}
    {files : List Model.Matching.TorrentFile} (hpositive : 0 < parsed.pieceLength)
    (hv2Only : (parsed.v1Hash.isNone && parsed.v2Hash.isSome) = v2Only)
    (hstored : parsed.pieceFiles ≠ []) (hplaced : Placed parsed.files parsed.pieceFiles)
    (hordinals : ∀ file ∈ parsed.pieceFiles, file.fileOrdinal.isSome = true)
    (hranges : parsed.pieceFiles.map PieceFile.range =
    place (legacyStart parsed.pieceLength v2Only) 0 sizes)
    (hfiles : manifestFiles codec config 0 (accepted parsed).files = .ok files) (mapped : List ℕ) :
    intervalsOf { manifestOf (accepted parsed) files with
      pieceFiles := [] } parsed.pieceLength mapped
      = intervalsOf (manifestOf (accepted parsed) files) parsed.pieceLength mapped := by
  have hnumbered : (parsed.pieceFiles.map stored).map (fun file => (file.fileOrdinal, file.size))
      = files.map fun file => (some file.ordinal, file.size) := by
    have hstart := numbered_of_ordinals parsed.pieceFiles hordinals
    have hmanifest :=
      congrArg (List.map fun entry : ℕ × ℕ =>
        (some entry.1, entry.2)) (manifestFiles_numbered _ hfiles)
    rw [hplaced.numbered, Torrent.numberedFiles] at hstart
    simp only [accepted, List.zipIdx_map, List.map_map] at hmanifest
    rw [List.map_map] at hstart ⊢
    exact hstart.trans hmanifest.symm
  have hsizes : files.map Model.Matching.TorrentFile.size = sizes := by
    have hmap := congrArg (List.map Prod.snd) hranges
    have hsecond := congrArg (List.map Prod.snd) hnumbered
    rw [map_snd_place, List.map_map] at hmap
    rw [List.map_map, List.map_map, List.map_map] at hsecond
    exact hsecond.symm.trans hmap
  have hplaces : (parsed.pieceFiles.map stored).map (fun file => (file.offset, file.size))
      = place (legacyStart parsed.pieceLength v2Only) 0
        (files.map Model.Matching.TorrentFile.size) := by
    rw [hsizes, List.map_map]
    exact hranges
  have hne : sizes ≠ [] := by
    rintro rfl
    exact hstored (by simpa [place] using hranges)
  have hfinish : largestEnd (parsed.pieceFiles.map stored)
      = finish (legacyStart parsed.pieceLength v2Only) 0
        (files.map Model.Matching.TorrentFile.size) := by
    have hmax := foldr_max_place (le_legacyStart hpositive v2Only) sizes hne 0
    rw [← hranges, List.map_map] at hmax
    rw [hsizes, largestEnd, List.map_map]
    exact hmax
  have hbounded : ∀ file ∈ parsed.pieceFiles.map stored, file.offset + file.size ≤ u64Max := by
    intro file hfile
    obtain ⟨entry, hentry, rfl⟩ := List.mem_map.mp hfile
    exact hplaced.bounded entry hentry
  have hlegacy := intervals_agree hpositive v2Only mapped files hnumbered hplaces (hfinish ▸
    largestEnd_le hbounded)
  have hpieceFiles : (manifestOf (accepted parsed) files).pieceFiles =
    parsed.pieceFiles.map stored := rfl
  rw [intervalsOf, intervalsOf, if_pos rfl,
    if_neg (by simpa [hpieceFiles] using hstored), hpieceFiles,
    storedIntervals_ok _ hbounded, hfinish, ← hlegacy, ← hv2Only]
  rfl

/-- The inspection reads the length of the pieces and the intervals. -/
theorem inspectPieces_congr {manifest manifest' : TorrentManifest} {mapped : List ℕ}
    {pieceLength : ℕ} (hlength : manifest.pieceLength = some pieceLength)
    (hlength' : manifest'.pieceLength = some pieceLength)
    (hintervals : intervalsOf manifest pieceLength mapped =
    intervalsOf manifest' pieceLength mapped)
    (states : List ℕ) : inspectPieces manifest mapped states =
      inspectPieces manifest' mapped states := by
  simp only [inspectPieces, hlength, hlength', hintervals]

/-- **Manifests without a layout.** The inspection of a torrent that is v1 only, without padding, or
v2 only, gives the same result without the layout that is stored. -/
theorem inspectPieces_legacy (metainfo : MetaInfo) (parsed : Torrent.ParsedTorrent)
    (hparsed : parseMetainfo metainfo = .ok parsed) (hhashes : HashesOfViews metainfo)
    (hversion : (parsed.version = .v1 ∧ ∀ file ∈ parsed.pieceFiles, file.fileOrdinal.isSome = true)
      ∨ parsed.version = .v2)
    (codec : Codec) (config : IngressConfig) (files : List Model.Matching.TorrentFile)
    (hfiles : manifestFiles codec config 0 (accepted parsed).files = .ok files)
    (mapped states : List ℕ) :
    inspectPieces { manifestOf (accepted parsed) files with pieceFiles := [] } mapped states
      = inspectPieces (manifestOf (accepted parsed) files) mapped states := by
  obtain ⟨horigin, hpieceLength, hv1Hash, hv2Hash, -⟩ := Torrent.parseMetainfo_eq_ok hparsed
  obtain ⟨hhash₁, hhash₂⟩ := hhashes
  have hpositive : 0 < parsed.pieceLength := hpieceLength ▸ metainfo.info.pieceLength_pos
  have hintervals : intervalsOf { manifestOf (accepted parsed) files with
    pieceFiles := [] } parsed.pieceLength mapped
      = intervalsOf (manifestOf (accepted parsed) files) parsed.pieceLength mapped := by
    have hstored := horigin.pieceFiles_ne_nil
    have hplaced := horigin.placed
    cases horigin with
    | v1 v1 hinfo hnone hv hview hpieces =>
      have hordinals : ∀ file ∈ parsed.pieceFiles, file.fileOrdinal.isSome = true := by
        rcases hversion with ⟨-, h⟩ | h
        · exact h
        · rw [hv] at h
          cases h
      have hv2Only : (parsed.v1Hash.isNone && parsed.v2Hash.isSome) = false := by
        rw [hv1Hash, ← Option.not_isSome, hhash₁, hinfo]
        rfl
      exact intervalsOf_legacy hpositive hv2Only hstored hplaced hordinals
        (Torrent.v1Files_eq_ok hview).1 hfiles mapped
    | v2 v2 hinfo hnone hv hview =>
      obtain ⟨hranges, -, -, hordinals⟩ := Torrent.v2Files_eq_ok metainfo.info.pieceLength_pos hview
      have hv2Only : (parsed.v1Hash.isNone && parsed.v2Hash.isSome) = true := by
        rw [hv1Hash, hv2Hash, ← Option.not_isSome, hhash₁, hhash₂, hinfo, hnone]
        rfl
      rw [← hpieceLength] at hranges
      exact intervalsOf_legacy hpositive hv2Only hstored hplaced hordinals hranges hfiles mapped
    | hybrid v1 v2 files pieceFiles hv =>
      rw [hv] at hversion
      rcases hversion with ⟨h, -⟩ | h <;> cases h
  exact inspectPieces_congr rfl rfl hintervals states

/-- A v2 torrent of three files, of which the second one is empty. -/
def treeMetainfo : MetaInfo where
  info :=
    { name := [114]
      pieceLength := 16384
      v1 := none
      v2 := some ⟨.dir [([97], .file 20000 (some 1)), ([98], .file 0 none),
        ([99], .file 5 (some 2))]⟩
      pieceLength_pos := Torrent.pieceLength_pos_16384
      has_view := .inr rfl }
  infoHash := .v2 3
  infoBytes := []

/-- A torrent with a tree of files, as it is parsed. -/
def treeParsed : Torrent.ParsedTorrent where
  version := .v2
  name := [114]
  infoBytes := []
  pieceLength := 16384
  v1Hash := none
  v2Hash := some 3
  v1Pieces := none
  files := [⟨[[114], [97]], 20000, some 1⟩, ⟨[[114], [98]], 0, none⟩, ⟨[[114], [99]], 5, some 2⟩]
  pieceFiles := [⟨some 0, 0, 20000⟩, ⟨some 1, 32768, 0⟩, ⟨some 2, 32768, 5⟩]

/-- The decoder of UTF-8 on ASCII; the ingress uses nothing else for a manifest. -/
def asciiCodec : Codec where
  unicode := .ascii
  parse _ := none
  fromUtf8 bytes := if bytes.all (· < 128)
    then some (String.ofList (bytes.map fun b => Char.ofNat b.toNat)) else none
  sha256 _ := 0
  manifestJson _ := "null"
  releaseJson _ := "null"
  workflowInputJson _ _ _ := "null"
  detailJson _ _ := "null"
  jsonValid _ := true

theorem inspectPieces_legacy_tree : ∃ files,
    manifestFiles asciiCodec ⟨8388608, 100000, 4096, fun _ => none⟩ 0 (accepted treeParsed).files
      = .ok files
      ∧ inspectPieces { manifestOf (accepted treeParsed) files with pieceFiles := [] } [2] [2, 0, 2]
        = inspectPieces (manifestOf (accepted treeParsed) files) [2] [2, 0, 2] := by
  have hparsed : parseMetainfo treeMetainfo = .ok treeParsed := by decide +kernel
  exact ⟨_, rfl, inspectPieces_legacy treeMetainfo treeParsed hparsed ⟨rfl,
    rfl⟩ (.inr rfl) asciiCodec
    ⟨8388608, 100000, 4096, fun _ => none⟩ _ rfl [2] [2, 0, 2]⟩

end Sporos.Service.PieceLayout
