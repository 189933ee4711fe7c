import Sporos.Lib.UnixPath
import Sporos.Matcher.Files

/-! # What validation accepts

`validate_manifest` looks for a path that is a directory of another one by building the directories
of every path, text by text, and looking each of them up among the paths. Here this search is
compared with what it is for: a path whose components come first in another path and are not all of
its components (`directoryAmong_eq_true`), and with it the whole of the validation
(`validateManifest_exact`).

`directoryScan` is the loop as the source has it, with the text that grows by one component in each
round; `directoryScan_eq` says that it answers `directoryAmong`. -/

namespace Sporos.Matcher.ManifestPaths

open Sporos.Lib.UnixPath (sep_notMem_of_mem_splitOn)
open Sporos.Model.Matching Sporos.Matcher.Release Sporos.Matcher.Files

/-! ### The loop -/

/-- The loop over the components of one path: `built` is the text of those before, and `count` their
number in the whole path. -/
def directoryScan (paths : List Str) (count : ℕ) : ℕ → List Str → Str → Bool
  | _, [], _ => false
  | index, component :: rest, built =>
    let built := (if 0 < index then built ++ ['/'] else built) ++ component
    (decide (index + 1 < count) && decide (built ∈ paths))
      || directoryScan paths count (index + 1) rest built

/-- What has been built after some components is their text. -/
theorem built_eq {before : List Str} {component : Str} :
    (if 0 < before.length then ['/'].intercalate before ++ ['/']
      else ['/'].intercalate before) ++ component
      = ['/'].intercalate (before ++ [component]) := by
  induction before with
  | nil => simp
  | cons first before ih =>
    cases before with
    | nil => simp [List.intercalate_cons_cons]
    | cons second before =>
      simp only [List.length_cons, Nat.zero_lt_succ, if_true, List.append_assoc] at ih ⊢
      simp only [List.cons_append, List.intercalate_cons_cons, List.append_assoc] at ih ⊢
      rw [ih]

theorem directoryScan_iff (paths : List Str) (count : ℕ) : ∀ (rest before : List Str),
    directoryScan paths count before.length rest (['/'].intercalate before) = true ↔
      ∃ index, before.length ≤ index ∧ index < (before ++ rest).length ∧ index + 1 < count ∧
        ['/'].intercalate ((before ++ rest).take (index + 1)) ∈ paths
  | [], before => by
    simp only [directoryScan, Bool.false_eq_true, List.append_nil, false_iff, not_exists, not_and]
    omega
  | component :: rest, before => by
    have hsplit : before ++ component :: rest = (before ++ [component]) ++ rest := by simp
    have hlength : (before ++ [component]).length = before.length + 1 := by simp
    have htake : (before ++ component :: rest).take (before.length + 1) =
        before ++ [component] := by
      rw [hsplit, ← hlength, List.take_left]
    have hrest := directoryScan_iff paths count rest (before ++ [component])
    rw [hlength, ← hsplit] at hrest
    simp only [directoryScan, built_eq, Bool.or_eq_true, Bool.and_eq_true, decide_eq_true_eq, hrest]
    constructor
    · rintro (⟨hcount, hmem⟩ | ⟨index, hle, hlt, hcount, hmem⟩)
      · exact ⟨before.length, le_rfl, by simp, hcount, htake ▸ hmem⟩
      · exact ⟨index, by omega, hlt, hcount, hmem⟩
    · rintro ⟨index, hle, hlt, hcount, hmem⟩
      rcases hle.eq_or_lt with rfl | hgt
      · exact .inl ⟨hcount, htake ▸ hmem⟩
      · exact .inr ⟨index, hgt, hlt, hcount, hmem⟩

/-- **The loop answers `directoryAmong`.** -/
theorem directoryScan_eq (paths : List Str) (path : Str) :
    directoryScan paths (components path).length 0 (components path) [] =
      directoryAmong paths path := by
  rw [Bool.eq_iff_iff]
  have hscan := directoryScan_iff paths (components path).length (components path) []
  simp only [List.length_nil, List.intercalate_nil, List.nil_append, Nat.zero_le, true_and] at hscan
  rw [hscan, directoryAmong, List.any_eq_true]
  simp only [List.mem_range, Bool.and_eq_true, decide_eq_true_eq]

/-! ### Directories of a path -/

/-- One path is a directory of another: its components come first in those of the other, which has
more. -/
def Above (directory path : Str) : Prop :=
  components directory <+: components path ∧ components directory ≠ components path

/-- The first components of a path, written as a path, are split into the same components. -/
theorem components_take {path : Str} {count : ℕ} (h : 0 < count) :
    components (['/'].intercalate ((components path).take count)) =
      (components path).take count := by
  refine List.splitOn_intercalate '/' (fun component hmem => ?_) fun hnil => ?_
  · exact sep_notMem_of_mem_splitOn (List.mem_of_mem_take hmem)
  · rcases List.take_eq_nil_iff.mp hnil with hzero | hnone
    · omega
    · exact List.splitOn_ne_nil _ _ hnone

/-- **The search finds exactly the directories that are among the paths.** -/
theorem directoryAmong_eq_true {paths : List Str} {path : Str} :
    directoryAmong paths path = true ↔ ∃ directory ∈ paths, Above directory path := by
  simp only [directoryAmong, List.any_eq_true, List.mem_range, Bool.and_eq_true, decide_eq_true_eq]
  constructor
  · rintro ⟨index, -, hcount, hmem⟩
    refine ⟨_, hmem, ?_⟩
    rw [Above, components_take (Nat.succ_pos index)]
    refine ⟨List.take_prefix _ _, fun heq => ?_⟩
    have hlength := congrArg List.length heq
    rw [List.length_take] at hlength
    omega
  · rintro ⟨directory, hmem, hstart, hne⟩
    have hlength : (components directory).length < (components path).length :=
      lt_of_le_of_ne hstart.length_le fun heq => hne (hstart.eq_of_length heq)
    have hpos : 0 < (components directory).length :=
      List.length_pos_iff.mpr (List.splitOn_ne_nil _ _)
    refine ⟨(components directory).length - 1, by omega, by omega, ?_⟩
    rw [Nat.sub_add_cancel hpos, ← List.prefix_iff_eq_take.mp hstart, components,
      List.intercalate_splitOn]
    exact hmem

/-! ### The whole validation -/

/-- **Validation accepts exactly the manifests it is meant to accept**: some file, no piece length
of zero, distinct ordinals, no unsafe path, distinct normalised paths, and none of them a directory
of another. -/
theorem validateManifest_exact (U : Unicode) (manifest : TorrentManifest) :
    validateManifest U manifest = none ↔
      manifest.files ≠ [] ∧ manifest.pieceLength ≠ some 0 ∧
      (manifest.files.map TorrentFile.ordinal).Nodup ∧
      (∀ file ∈ manifest.files, unsafePath U file.path = false) ∧
      (manifest.files.map fun file => U.nfc file.path).Nodup ∧
      ∀ file ∈ manifest.files, ∀ file' ∈ manifest.files,
        ¬Above (U.nfc file.path) (U.nfc file'.path) := by
  have hdirectories : ∀ file' : TorrentFile,
      directoryAmong (manifest.files.map fun file => U.nfc file.path) (U.nfc file'.path) = false ↔
        ∀ file ∈ manifest.files, ¬Above (U.nfc file.path) (U.nfc file'.path) := by
    intro file'
    rw [← Bool.not_eq_true, directoryAmong_eq_true]
    simp only [List.mem_map, exists_exists_and_eq_and, not_exists, not_and]
  rw [validateManifest_eq_none]
  refine and_congr_right fun _ => and_congr_right fun _ => ⟨fun h => ?_, ?_⟩
  · refine ⟨h.ordinals, h.safe, h.paths, fun file hfile file' hfile' => ?_⟩
    exact (hdirectories file').mp (h.directories file' hfile') file hfile
  · rintro ⟨hordinals, hsafe, hpaths, habove⟩
    exact ⟨hordinals, hpaths, hsafe, fun file' hfile' =>
      (hdirectories file').mpr fun file hfile => habove file hfile file' hfile'⟩

/-- A file and a directory of one name are refused, wherever they stand in the list. -/
example : validateManifest Unicode.ascii ⟨⟨none, none⟩, [⟨0, "a/b/c".toList, 1, false⟩,
    ⟨1, "d".toList, 1, false⟩, ⟨2, "a/b".toList, 1, false⟩], none, []⟩ =
      some .unsafeTorrentPath := by
  decide

end Sporos.Matcher.ManifestPaths
