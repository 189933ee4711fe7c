import Sporos.Lib.PrefixOrder
import Sporos.Service.Torrent

/-! # What the torrent parser accepts as paths

`validate_files` of `torrent.rs`, in both directions: the bounds on one path and on all of them
together, and the comparison of neighbours in the sorted list, which finds every pair of paths of
which one begins the other. -/

namespace Sporos.Service.TorrentPaths

open Sporos.Lib.Loop Sporos.Lib.PrefixOrder
open Sporos.Service.Tables Sporos.Service.Torrent

/-- The bytes of a path, written with its separators. -/
def pathBytes (path : List Bytes) : ℕ := ([47].intercalate path).length

/-- What is asked of a path by itself. -/
structure PathAccepted (path : List Bytes) : Prop where
  nonempty : path ≠ []
  components : path.length ≤ maxPathComponents
  component : ∀ component ∈ path, validateComponent component = .ok ()
  bytes : pathBytes path ≤ maxPathBytes

theorem pathBytes_eq (path : List Bytes) :
    path.length - 1 + (path.map List.length).sum = pathBytes path := by
  unfold pathBytes
  induction path with
  | nil => rfl
  | cons first path ih =>
    cases path with
    | nil => simp
    | cons second path =>
      rw [List.intercalate_cons_cons, List.length_append, List.length_append, ← ih]
      simp only [List.map_cons, List.sum_cons, List.length_cons, List.length_nil]
      omega

/-- **The loop over the paths** accepts those that are accepted one by one and keep the sum within
its bound. -/
theorem validatePaths_eq_ok : ∀ (files : List TorrentFile) (before : ℕ),
    before ≤ maxManifestPathBytes →
    (validatePaths before files = .ok () ↔ (∀ file ∈ files, PathAccepted file.path) ∧
      before + (files.map fun file => pathBytes file.path).sum ≤ maxManifestPathBytes)
  | [], before, hbefore => by simpa [validatePaths] using hbefore
  | file :: files, before, hbefore => by
    unfold validatePaths
    refine check_eq_ok.trans ?_
    rw [List.forall_mem_cons, List.map_cons, List.sum_cons, ← Nat.add_assoc]
    constructor
    · rintro ⟨hcount, h⟩
      obtain ⟨⟨⟩, hcomponents, h⟩ := bind_eq_ok.mp h
      obtain ⟨hbytes, h⟩ := check_eq_ok.mp h
      obtain ⟨hsum, h⟩ := check_eq_ok.mp h
      push Not at hcount
      rw [pathBytes_eq] at hbytes hsum h
      obtain ⟨hfiles, htotal⟩ := (validatePaths_eq_ok files _ (not_lt.mp hsum)).mp h
      exact ⟨⟨⟨hcount.1, hcount.2, forM_eq_ok.mp hcomponents, not_lt.mp hbytes⟩, hfiles⟩, htotal⟩
    · rintro ⟨⟨hpath, hfiles⟩, htotal⟩
      have hsum : before + pathBytes file.path ≤ maxManifestPathBytes :=
        (Nat.le_add_right _ _).trans htotal
      have hrest := (validatePaths_eq_ok files _ hsum).mpr ⟨hfiles, htotal⟩
      refine ⟨by rw [not_or]; exact ⟨hpath.nonempty, not_lt.mpr hpath.components⟩, ?_⟩
      refine bind_eq_ok.mpr ⟨(), forM_eq_ok.mpr hpath.component, ?_⟩
      refine check_eq_ok.mpr ⟨by rw [pathBytes_eq]; exact not_lt.mpr hpath.bytes, ?_⟩
      refine check_eq_ok.mpr ⟨by rw [pathBytes_eq]; exact not_lt.mpr hsum, ?_⟩
      rw [pathBytes_eq]
      exact hrest

theorem conflictFree_iff : ∀ (paths : List (List Bytes)),
    conflictFree paths = true ↔ paths.IsChain fun path next => ¬path <+: next
  | [] => by simp [conflictFree]
  | [path] => by simp [conflictFree]
  | path :: next :: paths => by
    rw [conflictFree, List.isChain_cons_cons, Bool.and_eq_true, conflictFree_iff (next :: paths)]
    simp only [Bool.not_eq_true', ← Bool.not_eq_true, List.isPrefixOf_iff_prefix]

/-- **The files that the parser accepts.** Some file and not too many, each path within its bounds
and made of accepted components, all of them within their bound together, and no path that is
another one or begins it. -/
theorem validateFiles_exact (files : List TorrentFile) :
    validateFiles files = .ok () ↔
      files ≠ [] ∧ files.length ≤ maxFiles
      ∧ (∀ file ∈ files, file.path ≠ [] ∧ file.path.length ≤ maxPathComponents
        ∧ (∀ component ∈ file.path, validateComponent component = .ok ())
        ∧ ([47].intercalate file.path).length ≤ maxPathBytes)
      ∧ (files.map fun file => ([47].intercalate file.path).length).sum ≤ maxManifestPathBytes
      ∧ files.Pairwise fun file other =>
        file.path ≠ other.path ∧ ¬file.path <+: other.path ∧ ¬other.path <+: file.path := by
  have hpath : ∀ file : TorrentFile, PathAccepted file.path ↔ file.path ≠ []
    ∧ file.path.length ≤ maxPathComponents
      ∧ (∀ component ∈ file.path, validateComponent component = .ok ())
      ∧ ([47].intercalate file.path).length ≤ maxPathBytes :=
    fun file => ⟨fun h => ⟨h.nonempty, h.components, h.component, h.bytes⟩,
      fun ⟨hne, hcount, hcomponent, hbytes⟩ => ⟨hne, hcount, hcomponent, hbytes⟩⟩
  have hapart : files.Pairwise (fun file other =>
      file.path ≠ other.path ∧ ¬file.path <+: other.path ∧ ¬other.path <+: file.path)
      ↔ (files.map TorrentFile.path).Pairwise Apart := by
    rw [List.pairwise_map]
    refine List.Pairwise.iff fun file other => ⟨And.right, fun h => ⟨fun heq => ?_, h⟩⟩
    exact h.1 (heq ▸ List.prefix_rfl)
  have hloop := validatePaths_eq_ok files 0 (Nat.zero_le _)
  simp only [Nat.zero_add, hpath] at hloop
  unfold validateFiles
  refine check_eq_ok.trans ?_
  rw [not_or, not_lt, and_assoc, hapart, ← isChain_insertionSort_iff, ← conflictFree_iff]
  refine and_congr_right fun _ => and_congr_right fun _ => bind_eq_ok.trans ?_
  constructor
  · rintro ⟨⟨⟩, hpaths, hconflicts⟩
    obtain ⟨hfiles, hsum⟩ := hloop.mp hpaths
    refine ⟨hfiles, hsum, ?_⟩
    split_ifs at hconflicts with hfree
    exact hfree
  · rintro ⟨hfiles, hsum, hfree⟩
    exact ⟨(), hloop.mpr ⟨hfiles, hsum⟩, if_pos hfree⟩

/-- A path and one that it begins, with another path between them in the list. -/
example : validateFiles [⟨[[97]], 1, none⟩, ⟨[[98]], 1, none⟩, ⟨[[97], [98]], 1, none⟩]
    = .error .conflictingPaths := by decide

end Sporos.Service.TorrentPaths
