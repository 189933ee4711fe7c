import Sporos.Matcher.Release

/-! # Files and manifests

What `matcher.rs` says about one file, about a pair of files, and about the file list of a
candidate: which files are required or primary, when two files may be paired and with which score,
and when a manifest is refused. -/

namespace Sporos.Matcher.Files

open Sporos.Model.Matching
open Sporos.Matcher.Release

/-! ### Paths -/

/-- The last component of a path. -/
def basename (path : Str) : Str := rsplitFirst (· == '/') path

/-- The last component of the parent. -/
def parentBasename (path : Str) : Option Str :=
  (rsplitOnce '/' path).map (fun split => rsplitFirst (· == '/') split.1)

/-- What stands behind the last dot of the last component. -/
def extension (path : Str) : Option Str := (rsplitOnce '.' (basename path)).map Prod.snd

/-- What stands before the last dot. -/
def stem (path : Str) : Str := ((rsplitOnce '.' path).map Prod.fst).getD path

/-- `str::split('/')`. -/
def components (path : Str) : List Str := path.splitOn '/'

section

variable (policy : MatchingPolicy)

/-- A path of a video: of a disc, or with one of the extensions. -/
def primaryPath (path : Str) : Bool :=
  let upper := toAsciiUppercase path
  "BDMV/".toList.isPrefixOf upper
    || contains upper "/BDMV/".toList
    || "VIDEO_TS/".toList.isPrefixOf upper
    || contains upper "/VIDEO_TS/".toList
    || (extension path).any (fun extension =>
        policy.primaryVideoExtensions.any (eqIgnoreAsciiCase · extension))

/-- A sample, or a file that the policy leaves to be downloaded. -/
def optional (path : Str) : Bool :=
  eqIgnoreAsciiCase (stem (basename path)) "sample".toList
    || (extension path).any (fun extension =>
        policy.optionalExtensions.any (eqIgnoreAsciiCase · extension))
    || (components path).any (fun component =>
        policy.optionalPathComponents.any (eqIgnoreAsciiCase · component))

/-- A file that a match has to have. -/
def required (file : TorrentFile) : Bool := !file.padding && !optional policy file.path

/-- A required file that is a video. -/
def primary (file : TorrentFile) : Bool :=
  !file.padding && !optional policy file.path && primaryPath policy file.path

theorem required_of_primary {file : TorrentFile} (h : primary policy file = true) :
    required policy file = true := by
  simp only [primary, Bool.and_eq_true] at h
  simp [required, h.1]

end

/-! ### The score of a pair of files -/

/-- `SCORE_EXACT_PATH`. -/
def scoreExactPath : ℕ := 1000000
/-- `SCORE_EXACT_BASENAME`. -/
def scoreExactBasename : ℕ := 100000
/-- `SCORE_EPISODE`. -/
def scoreEpisode : ℕ := 10000
/-- `SCORE_PRIMARY_EXTENSION`. -/
def scorePrimaryExtension : ℕ := 1000
/-- `SCORE_NORMALIZED_BASENAME`. -/
def scoreNormalizedBasename : ℕ := 100
/-- `SCORE_DIRECTORY`. -/
def scoreDirectory : ℕ := 10
/-- `SCORE_ROLE`. -/
def scoreRole : ℕ := 1

section

variable (U : Unicode)

/-- Some episode key belongs to both paths. -/
def episodeAgreement (candidatePath sourcePath : Str) : Bool :=
  (episodeKeys U candidatePath).any (fun key => (episodeKeys U sourcePath).contains key)

/-- The stems are the same when they are normalised. -/
def normalizedBasename (candidatePath sourcePath : Str) : Bool :=
  normalizeTitle U (stem (basename candidatePath)) = normalizeTitle U (stem (basename sourcePath))

/-- The parents are the same when they are normalised. -/
def directoryAgreement (candidatePath sourcePath : Str) : Bool :=
  match parentBasename candidatePath, parentBasename sourcePath with
  | some candidate, some source => normalizeTitle U candidate = normalizeTitle U source
  | _, _ => false

variable (policy : MatchingPolicy)

/-- `edge_score`: how well a source file fits a candidate file, if it may be assigned to it. -/
def edgeScore (seasonMode : Bool) (candidate : TorrentFile) (source : LocalSourceFile) : Option ℕ :=
  if candidate.size ≠ source.size then none
  else if primary policy candidate ≠ primaryPath policy source.path then none
  else if !primary policy candidate && extension candidate.path ≠ extension source.path then none
  else if !(episodeKeys U candidate.path).isEmpty && !(episodeKeys U source.path).isEmpty
      && !episodeAgreement U candidate.path source.path then none
  else if seasonMode && primary policy candidate
      && !episodeAgreement U candidate.path source.path then none
  else some (scoreRole
    + (candidate.path = source.path : Bool).toNat * scoreExactPath
    + (basename candidate.path = basename source.path : Bool).toNat * scoreExactBasename
    + (episodeAgreement U candidate.path source.path).toNat * scoreEpisode
    + (primary policy candidate && extension candidate.path = extension source.path : Bool).toNat
      * scorePrimaryExtension
    + (normalizedBasename U candidate.path source.path).toNat * scoreNormalizedBasename
    + (directoryAgreement U candidate.path source.path).toNat * scoreDirectory)

variable {U policy}

/-- What a score says about the pair. -/
theorem edgeScore_eq_some {seasonMode : Bool} {candidate : TorrentFile} {source : LocalSourceFile}
    {v : ℕ} (h : edgeScore U policy seasonMode candidate source = some v) :
    candidate.size = source.size ∧ primary policy candidate = primaryPath policy source.path ∧
      (primary policy candidate = false → extension candidate.path = extension source.path) ∧
      (seasonMode = true → primary policy candidate = true →
        episodeAgreement U candidate.path source.path = true) ∧ 0 < v := by
  unfold edgeScore at h
  split_ifs at h with h₁ h₂ h₃ h₄ h₅
  push Not at h₁ h₂
  refine ⟨h₁, h₂, fun hp => ?_, fun hs hp => ?_, ?_⟩
  · simpa [hp] using h₃
  · simpa [hs, hp] using h₅
  · rw [← Option.some.inj h]
    simp only [scoreRole]
    omega

theorem edgeScore_le {seasonMode : Bool} {file : TorrentFile} {source : LocalSourceFile} {v : ℕ}
    (h : edgeScore U policy seasonMode file source = some v) : v ≤ 1111111 := by
  have hle : ∀ b : Bool, b.toNat ≤ 1 := Bool.toNat_le
  unfold edgeScore at h
  split_ifs at h
  rw [← Option.some.inj h]
  have h₁ := hle (basename file.path = basename source.path : Bool)
  have h₂ := hle (episodeAgreement U file.path source.path)
  have h₃ := hle (primary policy file && extension file.path = extension source.path : Bool)
  have h₄ := hle (normalizedBasename U file.path source.path)
  have h₅ := hle (directoryAgreement U file.path source.path)
  have h₆ := hle (file.path = source.path : Bool)
  simp only [scoreRole, scoreExactPath, scoreExactBasename, scoreEpisode,
    scorePrimaryExtension, scoreNormalizedBasename, scoreDirectory]
  omega

end

/-! ### Manifests -/

section

variable (U : Unicode)

/-- A component that is `.` or `..`. -/
def isDots (component : Str) : Bool := component = ['.'] || component = ['.', '.']

/-- `unsafe_path`. -/
def unsafePath (path : Str) : Bool :=
  path.isEmpty
    || ['/'].isPrefixOf path
    || ['/', '/'].isPrefixOf path
    || path.contains '\\'
    || path.contains '\x00'
    || (bytes path)[1]? == some ':'.toUInt8
    || (components path).any (fun component =>
        component.isEmpty || isDots component || isDots (U.nfc component))

/-- The loop over the files of `validate_manifest`: the normalised paths, unless an ordinal or a
path occurs twice or a path is unsafe. -/
def collectPaths : List TorrentFile → List ℕ → List Str → Option (List Str)
  | [], _, paths => some paths
  | file :: files, ordinals, paths =>
    if file.ordinal ∈ ordinals || unsafePath U file.path then none
    else if U.nfc file.path ∈ paths then none
    else collectPaths files (file.ordinal :: ordinals) (U.nfc file.path :: paths)

/-- Some directory of `path` is itself one of the paths. -/
def directoryAmong (paths : List Str) (path : Str) : Bool :=
  (List.range (components path).length).any (fun index =>
    decide (index + 1 < (components path).length)
      && decide (['/'].intercalate ((components path).take (index + 1)) ∈ paths))

/-- `validate_manifest`: why a manifest is refused, if so. -/
def validateManifest (manifest : TorrentManifest) : Option MatchReason :=
  if manifest.files.isEmpty || manifest.pieceLength = some 0 then some .unsupportedTorrent
  else match collectPaths U manifest.files [] [] with
    | none => some .unsafeTorrentPath
    | some paths => if paths.any (directoryAmong paths) then some .unsafeTorrentPath else none

/-- What the two loops of `validateManifest` accept. -/
structure Accepted (files : List TorrentFile) : Prop where
  ordinals : (files.map TorrentFile.ordinal).Nodup
  paths : (files.map fun file => U.nfc file.path).Nodup
  safe : ∀ file ∈ files, unsafePath U file.path = false
  directories : ∀ file ∈ files,
    directoryAmong (files.map fun file => U.nfc file.path) (U.nfc file.path) = false

variable {U}

theorem collectPaths_eq_some :
    ∀ (files : List TorrentFile) (ordinals : List ℕ) (paths found : List Str),
    collectPaths U files ordinals paths = some found ↔
      found = (files.map fun file => U.nfc file.path).reverse ++ paths ∧
      (files.map TorrentFile.ordinal).Nodup ∧ (files.map fun file => U.nfc file.path).Nodup ∧
      ∀ file ∈ files, file.ordinal ∉ ordinals ∧ U.nfc file.path ∉ paths ∧
        unsafePath U file.path = false
  | [], ordinals, paths, found => by
    simp only [collectPaths, Option.some.injEq, List.map_nil, List.reverse_nil, List.nil_append,
      List.nodup_nil, List.not_mem_nil, false_imp_iff, implies_true, and_self, and_true]
    exact eq_comm
  | file :: files, ordinals, paths, found => by
    unfold collectPaths
    by_cases h₁ : file.ordinal ∈ ordinals ∨ unsafePath U file.path = true
    · rw [if_pos (by simpa using h₁)]
      simp only [reduceCtorEq, false_iff]
      rintro ⟨-, -, -, hall⟩
      obtain ⟨h₂, -, h₃⟩ := hall file (by simp)
      rw [h₃] at h₁
      exact h₁.elim h₂ (by simp)
    · rw [if_neg (by simpa using h₁)]
      push Not at h₁
      by_cases h₂ : U.nfc file.path ∈ paths
      · simp [h₂]
      · rw [if_neg h₂, collectPaths_eq_some files]
        simp only [List.map_cons, List.reverse_cons, List.append_assoc, List.singleton_append,
          List.nodup_cons, List.mem_cons, forall_eq_or_imp, h₁.1, h₂,
          Bool.eq_false_of_not_eq_true h₁.2, not_false_eq_true, and_self, true_and, List.mem_map,
          not_exists, not_and]
        constructor
        · rintro ⟨rfl, ho, hp, hall⟩
          refine ⟨rfl, ⟨fun f hf he => (hall f hf).1 (.inl he), ho⟩,
            ⟨fun f hf he => (hall f hf).2.1 (.inl he), hp⟩, fun f hf => ?_⟩
          obtain ⟨h₃, h₄, h₅⟩ := hall f hf
          push Not at h₃ h₄
          exact ⟨h₃.2, h₄.2, h₅⟩
        · rintro ⟨rfl, ⟨ho', ho⟩, ⟨hp', hp⟩, hall⟩
          refine ⟨rfl, ho, hp, fun f hf => ?_⟩
          obtain ⟨h₃, h₄, h₅⟩ := hall f hf
          push Not
          exact ⟨⟨ho' f hf, h₃⟩, ⟨hp' f hf, h₄⟩, h₅⟩

theorem directoryAmong_congr {paths paths' : List Str}
    (h : ∀ p, p ∈ paths ↔ p ∈ paths') (path : Str) :
    directoryAmong paths path = directoryAmong paths' path := by
  simp only [directoryAmong, h]

theorem validateManifest_eq_none {manifest : TorrentManifest} : validateManifest U manifest = none ↔
    manifest.files ≠ [] ∧ manifest.pieceLength ≠ some 0 ∧ Accepted U manifest.files := by
  unfold validateManifest
  by_cases h : manifest.files = [] ∨ manifest.pieceLength = some 0
  · rw [if_pos (by simpa using h)]
    simp only [reduceCtorEq, false_iff]
    rintro ⟨h₁, h₂, -⟩
    exact h.elim h₁ h₂
  · rw [if_neg (by simpa using h)]
    push Not at h
    simp only [h, ne_eq, not_false_eq_true, true_and]
    cases hc : collectPaths U manifest.files [] [] with
    | none =>
      simp only [reduceCtorEq, false_iff]
      intro ha
      have := (collectPaths_eq_some manifest.files [] [] _).mpr
        ⟨rfl, ha.ordinals, ha.paths, fun f hf => ⟨by simp, by simp, ha.safe f hf⟩⟩
      rw [hc] at this
      cases this
    | some found =>
      obtain ⟨rfl, ho, hp, hall⟩ := (collectPaths_eq_some _ _ _ _).mp hc
      have hmem : ∀ p, p ∈ (manifest.files.map fun file => U.nfc file.path).reverse ++ [] ↔
          p ∈ manifest.files.map fun file => U.nfc file.path := by simp
      simp only [ite_eq_right_iff, reduceCtorEq, imp_false, Bool.not_eq_true, List.any_eq_false,
        directoryAmong_congr hmem, hmem, List.forall_mem_map]
      constructor
      · exact fun hd => ⟨ho, hp, fun f hf => (hall f hf).2.2, hd⟩
      · exact fun ha => ha.directories

theorem Accepted.perm {files files' : List TorrentFile} (h : files.Perm files')
    (ha : Accepted U files) : Accepted U files' where
  ordinals := (h.map _).nodup_iff.mp ha.ordinals
  paths := (h.map _).nodup_iff.mp ha.paths
  safe file hf := ha.safe file (h.mem_iff.mpr hf)
  directories file hf := by
    rw [← directoryAmong_congr fun p => (h.map fun file => U.nfc file.path).mem_iff]
    exact ha.directories file (h.mem_iff.mpr hf)

/-- Files of an accepted candidate with one ordinal are one file. -/
theorem Accepted.ordinal_inj {files : List TorrentFile} (h : Accepted U files)
    {file file' : TorrentFile} (hf : file ∈ files) (hf' : file' ∈ files)
    (heq : file.ordinal = file'.ordinal) : file = file' :=
  List.inj_on_of_nodup_map h.ordinals hf hf' heq

/-- Validation does not depend on the order of the files. -/
theorem validateManifest_perm {manifest manifest' : TorrentManifest}
    (hfiles : manifest.files.Perm manifest'.files)
    (hlen : manifest'.pieceLength = manifest.pieceLength) :
    validateManifest U manifest' = validateManifest U manifest := by
  by_cases h : manifest.files = [] ∨ manifest.pieceLength = some 0
  · have h' : manifest'.files = [] ∨ manifest'.pieceLength = some 0 := by
      rw [hlen]
      exact h.imp_left fun he => List.perm_nil.mp (he ▸ hfiles).symm
    rw [validateManifest, validateManifest, if_pos (by simpa using h'), if_pos (by simpa using h)]
  · have h' : ¬(manifest'.files = [] ∨ manifest'.pieceLength = some 0) := by
      rw [hlen]
      exact fun hor => h (hor.imp_left fun he => List.perm_nil.mp (he ▸ hfiles : _))
    have hiff : validateManifest U manifest' = none ↔ validateManifest U manifest = none := by
      rw [validateManifest_eq_none, validateManifest_eq_none]
      push Not at h h'
      exact ⟨fun hv => ⟨h.1, h.2, hv.2.2.perm hfiles.symm⟩, fun hv =>
        ⟨h'.1, h'.2, hv.2.2.perm hfiles⟩⟩
    have hreason : ∀ m : TorrentManifest, ¬(m.files = [] ∨ m.pieceLength = some 0) →
        validateManifest U m ≠ none → validateManifest U m = some .unsafeTorrentPath := by
      intro m hm hne
      unfold validateManifest at hne ⊢
      rw [if_neg (by simpa using hm)] at hne ⊢
      cases hc : collectPaths U m.files [] [] with
      | none => rfl
      | some found =>
        rw [hc] at hne
        simp only at hne ⊢
        split_ifs at hne ⊢ with hany
        · rfl
        · exact absurd rfl hne
    by_cases hv : validateManifest U manifest = none
    · rw [hv, hiff.mpr hv]
    · rw [hreason _ h hv, hreason _ h' (hiff.not.mpr hv)]

end

end Sporos.Matcher.Files
