import Sporos.Lib.Traversal
import Sporos.Service.DataTree

/-! # The tree of a data root

What a scan reads of a data root, whatever the order in which the entries of its directories are
listed: which entries are releases, and which lead to directories that are scanned themselves. A
page of a directory is the page of a traversal of this tree (`scanDirectory_reads`). -/

namespace Sporos.Service.ScanTree

open Sporos.Model.Matching
open Sporos.Matcher.Release
open Sporos.Service.Tables
open Sporos.Service.DataTree
open Sporos.Lib.Loop
open Sporos.Lib.Lists
open Sporos.Lib.Paging
open Sporos.Lib.Traversal
open Sporos.Lib.UnixPath

scoped instance : LinearOrder Bytes where
  le_refl _ := Std.le_refl _
  le_trans _ _ _ := Std.le_trans
  le_antisymm _ _ := Std.le_antisymm
  le_total _ _ := Std.le_total
  lt_iff_le_not_ge _ _ := Std.lt_iff_le_and_not_ge
  toDecidableLE := inferInstance
  toDecidableLT := inferInstance
  toDecidableEq := inferInstance
  compare a b := compareOfLessAndEq a b
  compare_eq_compareOfLessAndEq _ _ := rfl

/-! ### Trees -/

/-- The same files, with the entries of each directory in any order. -/
structure SameTree (fs fs' : FileSystem) : Prop where
  metadata : fs'.symlinkMetadata = fs.symlinkMetadata
  entries : ∀ path, Agree List.Perm (fs.readDir path) (fs'.readDir path)

section

variable (fs : FileSystem)

/-- The entries of a directory, none where it cannot be read. -/
def listed (path : Bytes) : List Bytes :=
  match fs.readDir path with
  | .ok names => names
  | .error _ => []

/-- The type of what stands at a path. -/
def fileTypeAt (path : Bytes) : Option FileType :=
  match fs.symlinkMetadata path with
  | .ok metadata => some metadata.fileType
  | .error _ => none

/-- An entry that makes its directory look like a release. -/
def marksRelease (primaryExtensions : List Str) (path name : Bytes) : Bool :=
  fileTypeAt fs (join slash path name) = some .file
    ∧ primaryVideo (join slash path name) primaryExtensions
    ∨ fileTypeAt fs (join slash path name) = some .directory ∧ discName name

/-- One of the names in the directory makes it a release. -/
def looksLike (primaryExtensions : List Str) (path : Bytes) : Bool :=
  (listed fs path).any (marksRelease fs primaryExtensions path)

/-- An entry is a video, or a directory with one. -/
def hasVideoAt (primaryExtensions : List Str) (below : Visited → Bool) (entry : Visited) : Bool :=
  match fs.symlinkMetadata entry.path with
  | .error _ => false
  | .ok metadata =>
    match metadata.fileType with
    | .file => (scannedFile primaryExtensions entry metadata).any (·.kind = "video")
    | .directory => below entry
    | _ => false

/-- Some file of a directory, or below it, is a video. -/
def hasVideo (primaryExtensions : List Str) : ℕ → Visited → Bool
  | 0, _ => false
  | depth + 1, directory =>
    (listed fs directory.path).any fun name =>
      hasVideoAt fs primaryExtensions (hasVideo primaryExtensions depth) (directory.child name)

/-- The directory of the root with a relative path. -/
def directoryAt (root relative : Bytes) : Bytes := if relative = [] then root
    else join slash root relative

/-- The entry of a directory of the root is a release: a file that is a primary video, or a
directory that looks like a release and has a video. Its name is a text. -/
def isRelease (root : Bytes) (primaryExtensions : List Str) (relative name : Bytes) : Bool :=
  let path := join slash (directoryAt root relative) name
  ((fileName slash dot path).bind toStr).isSome
    && match fileTypeAt fs path with
      | some .file => primaryVideo path primaryExtensions
      | some .directory => looksLike fs primaryExtensions path
          && hasVideo fs primaryExtensions (maxFileDepth + 1) ⟨path,
            appendComponent relative name, []⟩
      | _ => false

/-- The entry of a directory of the root is a directory that does not look like a release. -/
def isPlainDirectory (root : Bytes) (primaryExtensions : List Str) (relative name : Bytes) : Bool :=
  let path := join slash (directoryAt root relative) name
  fileTypeAt fs path = some .directory && !looksLike fs primaryExtensions path

/-- The number of components of a relative path. -/
def depthOf (relative : Bytes) : ℕ := if relative = [] then 0 else relative.count slash + 1

theorem nodup_listed (path : Bytes) : (listed fs path).Nodup := by
  unfold listed
  cases h : fs.readDir path with
  | ok names => exact fs.nodup path names h
  | error error => exact List.nodup_nil

theorem normal_listed (path : Bytes) : ∀ name ∈ listed fs path, Normal slash dot name := by
  unfold listed
  cases h : fs.readDir path with
  | ok names => exact fs.normal path names h
  | error error => simp

/-- The directories of a root that are scanned: the root and, within `max_depth`, the directories
that do not look like a release. -/
def scanTree (settings : DataRoot) (primaryExtensions : List Str) : Tree Bytes Bytes Bytes where
  root := []
  entries relative := listed fs (directoryAt settings.path relative)
  key := id
  child relative name :=
    if isPlainDirectory fs settings.path primaryExtensions relative name
        ∧ depthOf relative < settings.maxDepth then
      some (appendComponent relative name)
    else none
  nodup relative := by simpa using nodup_listed fs (directoryAt settings.path relative)

/-- The directories that are scanned. -/
def directories (settings : DataRoot) (primaryExtensions : List Str) : Finset Bytes :=
  ((scanTree fs settings primaryExtensions).below settings.maxDepth []).toFinset

/-- The paths of the releases of a root. -/
def releasePaths (settings : DataRoot) (primaryExtensions : List Str) : Finset Bytes :=
  (directories fs settings primaryExtensions).biUnion fun relative =>
    (((listed fs (directoryAt settings.path relative)).filter
      (isRelease fs settings.path primaryExtensions relative)).map
        (appendComponent relative)).toFinset

/-- The names that `scan_directory` selects for a page. -/
def selectedNames (settings : DataRoot) (relative : Bytes) (cursor : Option Bytes) : List Bytes :=
  match joinBytes settings.path relative with
  | .error _ => []
  | .ok directory =>
    match fs.readDir directory with
    | .error _ => []
    | .ok names => (names.foldl (selectName cursor) ([], false)).1

end

/-! ### Paths -/

theorem appendComponent_eq (parent name : Bytes) :
    appendComponent parent name = (if parent = [] then [] else parent ++ [slash]) ++ name := by
  unfold appendComponent
  split_ifs <;> simp

/-- **A path below the root** tells its directory and its name. -/
theorem appendComponent_inj {parent parent' name name' : Bytes} (hname : Normal slash dot name)
    (hname' : Normal slash dot name')
    (h : appendComponent parent name = appendComponent parent' name') :
    parent = parent' ∧ name = name' := by
  have hend : ∀ parent : Bytes, (if parent = [] then [] else parent ++ [slash]) = []
      ∨ (if parent = [] then [] else parent ++ [slash]).getLast? = some slash := by
    intro parent
    split_ifs <;> simp
  rw [appendComponent_eq, appendComponent_eq] at h
  have hlast := congrArg (lastComponent slash) h
  rw [lastComponent_append hname.separator (hend parent),
    lastComponent_append hname'.separator (hend parent')] at hlast
  subst hlast
  have hbody := List.append_cancel_right h
  refine ⟨?_, rfl⟩
  by_cases hp : parent = [] <;> by_cases hp' : parent' = [] <;> simp_all

theorem appendComponent_ne_nil {parent name : Bytes} (hname : Normal slash dot name) :
    appendComponent parent name ≠ [] := by
  rw [appendComponent_eq]
  simp [hname.nonempty]

/-- An entry of a directory is one level below it. -/
theorem depthOf_appendComponent {parent name : Bytes} (hname : Normal slash dot name) :
    depthOf (appendComponent parent name) = depthOf parent + 1 := by
  have hcount : name.count slash = 0 := List.count_eq_zero.mpr hname.separator
  rw [depthOf, if_neg (appendComponent_ne_nil hname), depthOf, appendComponent_eq]
  split_ifs <;> simp [hcount]

/-- Scanned directories are within `max_depth`. -/
theorem bounded_scanTree (fs : FileSystem) (settings : DataRoot) (primaryExtensions : List Str) :
    (scanTree fs settings primaryExtensions).Bounded depthOf settings.maxDepth where
  root := rfl
  child relative name hname child hchild := by
    simp only [scanTree, Option.ite_none_right_eq_some, Option.some.injEq] at hchild
    obtain ⟨⟨-, hdepth⟩, rfl⟩ := hchild
    exact ⟨hdepth, depthOf_appendComponent (normal_listed fs _ name hname)⟩

theorem mem_directories {fs : FileSystem} {settings : DataRoot} {primaryExtensions : List Str}
    {relative : Bytes} :
    relative ∈ directories fs settings primaryExtensions
      ↔ (scanTree fs settings primaryExtensions).Reaches relative := by
  rw [directories, List.mem_toFinset]
  exact (bounded_scanTree fs settings primaryExtensions).mem_below_iff

/-! ### Any order -/

section

variable {fs fs' : FileSystem} {primaryExtensions : List Str}

theorem SameTree.refl (fs : FileSystem) : SameTree fs fs where
  metadata := rfl
  entries path := by
    cases fs.readDir path with
    | ok names => exact List.Perm.refl names
    | error error => rfl

theorem SameTree.listed_perm (h : SameTree fs fs') (path : Bytes) :
    (listed fs path).Perm (listed fs' path) := by
  unfold listed
  rcases (h.entries path).cases with ⟨error, hread, hread'⟩ | ⟨names, names', hread, hread', hperm⟩
  · rw [hread, hread']
  · rw [hread, hread']
    exact hperm

theorem SameTree.fileTypeAt (h : SameTree fs fs') : fileTypeAt fs' = fileTypeAt fs := by
  funext path
  rw [ScanTree.fileTypeAt, ScanTree.fileTypeAt, h.metadata]

theorem SameTree.looksLike (h : SameTree fs fs') :
    looksLike fs' primaryExtensions = looksLike fs primaryExtensions := by
  funext path
  have hmarks : marksRelease fs' primaryExtensions = marksRelease fs primaryExtensions := by
    funext path name
    rw [marksRelease, marksRelease, h.fileTypeAt]
  rw [ScanTree.looksLike, ScanTree.looksLike, hmarks, (h.listed_perm path).any_eq]

theorem SameTree.hasVideo (h : SameTree fs fs') :
    ∀ depth, hasVideo fs' primaryExtensions depth = hasVideo fs primaryExtensions depth
  | 0 => rfl
  | depth + 1 => by
    funext directory
    simp only [ScanTree.hasVideo, hasVideoAt]
    rw [h.hasVideo depth, h.metadata, (h.listed_perm directory.path).any_eq]

theorem SameTree.isRelease (h : SameTree fs fs') (root : Bytes) :
    isRelease fs' root primaryExtensions = isRelease fs root primaryExtensions := by
  funext relative name
  unfold ScanTree.isRelease
  rw [h.fileTypeAt, h.looksLike, h.hasVideo]

theorem SameTree.isPlainDirectory (h : SameTree fs fs') (root : Bytes) :
    isPlainDirectory fs' root primaryExtensions = isPlainDirectory fs root primaryExtensions := by
  funext relative name
  unfold ScanTree.isPlainDirectory
  rw [h.fileTypeAt, h.looksLike]

theorem SameTree.page (h : SameTree fs fs') (limit : ℕ) (cursor : Option Bytes) (path : Bytes) :
    page id limit cursor (listed fs' path) = page id limit cursor (listed fs path) :=
  (page_perm (h.listed_perm path) (by simpa using nodup_listed fs path) limit cursor).symm

theorem SameTree.length_after (h : SameTree fs fs') (cursor : Option Bytes) (path : Bytes) :
    (after id cursor (listed fs' path)).length = (after id cursor (listed fs path)).length :=
  ((h.listed_perm path).filter _).length_eq.symm

/-! ### What a page reads -/

theorem metadata_fileType {path : Bytes} {metadata : Metadata}
    (h : fs.metadata path = .ok metadata) : fileTypeAt fs path = some metadata.fileType := by
  rw [fileTypeAt, metadata_eq_ok.mp h]

theorem listed_of_entries {path : Bytes} {names : List Bytes} (h : fs.entries path = .ok names) :
    listed fs path = names := by
  rw [listed, entries_eq_ok.mp h]

/-- Where no entry fails, the answer does not depend on the order of the entries. -/
theorem looksLikeAmong_eq_ok {path : Bytes} {looks : Bool} :
    ∀ {names : List Bytes}, looksLikeAmong fs path primaryExtensions names = .ok looks →
      looks = names.any (marksRelease fs primaryExtensions path)
  | [], h => (Except.ok.inj h).symm
  | name :: names, h => by
    unfold looksLikeAmong at h
    obtain ⟨metadata, hmetadata, h⟩ := bind_eq_ok.mp h
    rw [List.any_cons, marksRelease, metadata_fileType hmetadata]
    simp only [Option.some.injEq]
    split_ifs at h with hmarks
    · rw [← Except.ok.inj h, decide_eq_true hmarks, Bool.true_or]
    · rw [decide_eq_false hmarks, Bool.false_or, looksLikeAmong_eq_ok h]

theorem looksLikeRelease_eq_ok {path : Bytes} {looks : Bool}
    (h : looksLikeRelease fs path primaryExtensions = .ok looks) :
      looks = looksLike fs primaryExtensions path := by
  obtain ⟨names, hnames, h⟩ := bind_eq_ok.mp h
  rw [looksLike, listed_of_entries hnames, looksLikeAmong_eq_ok h]

/-- Some file is a video. -/
def anyVideo (files : List ScannedFile) : Bool := files.any (·.kind = "video")

theorem anyVideo_append (files files' : List ScannedFile) :
    anyVideo (files ++ files') = (anyVideo files || anyVideo files') := List.any_append

/-- What `visitEntry` adds to the files that are kept, and to the directories to visit. -/
theorem visitEntry_eq_ok {maxFiles : ℕ} {directory : Visited}
    {found found' : List ScannedFile × List Visited} {name : Bytes} {depth : ℕ}
    (h : visitEntry fs maxFiles primaryExtensions directory found name = .ok found') :
    (anyVideo found'.1 || found'.2.any (hasVideo fs primaryExtensions depth))
      = ((anyVideo found.1 || found.2.any (hasVideo fs primaryExtensions depth))
        || hasVideoAt fs primaryExtensions (hasVideo fs primaryExtensions depth)
          (directory.child name)) := by
  unfold visitEntry at h
  obtain ⟨metadata, hmetadata, h⟩ := bind_eq_ok.mp h
  rw [hasVideoAt, metadata_eq_ok.mp hmetadata]
  dsimp only
  split at h
  · rename_i htype
    obtain rfl := Except.ok.inj h
    simp [htype]
  · rename_i htype
    obtain rfl := Except.ok.inj h
    simp [htype, Bool.or_assoc]
  · rename_i htype
    obtain rfl := Except.ok.inj h
    simp [htype]
  · rename_i htype
    split_ifs at h
    obtain rfl := Except.ok.inj h
    rw [htype, anyVideo_append]
    cases scannedFile primaryExtensions (directory.child name) metadata with
    | none => simp [anyVideo]
    | some file =>
      simp only [anyVideo, Option.toList_some, List.any_cons, List.any_nil,
        Bool.or_false, Option.any_some]
      rw [Bool.or_assoc, Bool.or_assoc, Bool.or_comm (decide _)]

/-- **The videos of a release.** -/
theorem visitDirectory_eq_ok {maxFiles : ℕ} :
    ∀ {depth : ℕ} {files files' : List ScannedFile} {directory : Visited},
      visitDirectory fs maxFiles primaryExtensions depth files directory = .ok files' →
        anyVideo files' = (anyVideo files || hasVideo fs primaryExtensions depth directory)
  | 0, _, _, _, h => by cases h
  | depth + 1, files, files', directory, h => by
    unfold visitDirectory at h
    obtain ⟨names, hnames, h⟩ := bind_eq_ok.mp h
    obtain ⟨⟨found, pending⟩, hfound, h⟩ := bind_eq_ok.mp h
    have hentries :=
        foldlM_invariant_mem (P := fun done (found : List ScannedFile × List Visited) =>
      (anyVideo found.1 || found.2.any (hasVideo fs primaryExtensions depth))
        = (anyVideo files || done.any fun name =>
          hasVideoAt fs primaryExtensions (hasVideo fs primaryExtensions depth)
            (directory.child name)))
      (fun done name _ before after hbefore hafter => by
        rw [visitEntry_eq_ok hafter, hbefore, List.any_append, List.any_cons, List.any_nil,
          Bool.or_false, Bool.or_assoc])
      (by simp) hfound
    have hbelow := foldlM_invariant_mem (P := fun done (files : List ScannedFile) =>
      anyVideo files = (anyVideo found || done.any (hasVideo fs primaryExtensions depth)))
      (fun done entry _ before after hbefore hafter => by
        rw [visitDirectory_eq_ok hafter, hbefore, List.any_append, List.any_cons,
          List.any_nil, Bool.or_false, Bool.or_assoc])
      (by simp) h
    rw [hbelow, List.any_reverse, hentries, hasVideo, listed_of_entries hnames]

theorem standaloneRelease_isSome {relativePath path : Bytes} {metadata : Metadata}
    {release : Option ScannedRelease}
    (h : standaloneRelease relativePath path metadata = .ok release) :
    release.isSome = ((fileName slash dot path).bind toStr).isSome := by
  unfold standaloneRelease at h
  split at h
  · rename_i hname
    rw [← Except.ok.inj h, hname]
    rfl
  · rename_i hname
    rw [hname]
    split at h
    · cases h
    · rw [← Except.ok.inj h]
      rfl

theorem directoryRelease_isSome {relativePath path : Bytes} {metadata : Metadata} {maxFiles : ℕ}
    {release : Option ScannedRelease}
    (h : directoryRelease fs relativePath path metadata maxFiles primaryExtensions = .ok release) :
    release.isSome = (((fileName slash dot path).bind toStr).isSome
      && hasVideo fs primaryExtensions (maxFileDepth + 1) ⟨path, relativePath, []⟩) := by
  unfold directoryRelease at h
  split at h
  · rename_i hname
    rw [← Except.ok.inj h, hname]
    rfl
  · rename_i hname
    obtain ⟨files, hfiles, h⟩ := bind_eq_ok.mp h
    have hvideo := visitDirectory_eq_ok hfiles
    have hsorted : anyVideo (files.insertionSort (ByKey ScannedFile.relativePath)) =
        anyVideo files :=
      (List.perm_insertionSort _ files).any_eq
    rw [hname, Option.isSome_some, Bool.true_and]
    rw [← hsorted, show anyVideo [] = false from rfl, Bool.false_or] at hvideo
    dsimp only at h
    split_ifs at h with hnone
    · have hfalse : anyVideo (files.insertionSort (ByKey ScannedFile.relativePath)) = false := by
        rw [anyVideo, List.any_eq_false]
        intro file hfile
        simpa using List.all_eq_true.mp hnone file hfile
      rw [← Except.ok.inj h, ← hvideo, hfalse]
      rfl
    · have htrue : anyVideo (files.insertionSort (ByKey ScannedFile.relativePath)) = true := by
        rw [anyVideo, List.any_eq_true]
        simpa using hnone
      obtain ⟨total, -, h⟩ := bind_eq_ok.mp h
      rw [← Except.ok.inj h, ← hvideo, htrue]
      rfl

/-- The names that are selected, and whether there are more. -/
theorem foldl_selectName (cursor : Option Bytes) {names : List Bytes} (hnodup : names.Nodup) :
    names.foldl (selectName cursor) ([], false)
      = (page id pageSize cursor names, decide (pageSize < (after id cursor names).length)) := by
  induction names using List.reverseRecOn with
  | nil => simp [page, after]
  | append_singleton names name ih =>
    rw [List.foldl_append, ih (hnodup.sublist (List.sublist_append_left _ _)), List.foldl_cons,
      List.foldl_nil, selectName]
    have hcursor : cursor.any (name ≤ ·) = !cursor.all (· < name) := by
      cases cursor with
      | none => rfl
      | some last => simp [← decide_not]
    rw [hcursor]
    cases hafter : cursor.all (· < name) with
    | false =>
      have hsame : after id cursor (names ++ [name]) = after id cursor names := by
        simp [after, hafter]
      rw [page, page, hsame]
      rfl
    | true =>
      have hmore : after id cursor (names ++ [name]) = after id cursor names ++ [name] := by
        simp [after, hafter]
      have hkey : ((after id cursor names ++ [name]).map id).Nodup := by
        rw [← hmore, List.map_id]
        exact hnodup.sublist (after_sublist _ _)
      have hpush : push id pageSize (page id pageSize cursor names) name =
          page id pageSize cursor (names ++ [name]) := by
        rw [page, page, hmore]
        exact push_take hkey
      have hlength : ((page id pageSize cursor names ++ [name]).insertionSort (· ≤ ·)).length
          = min pageSize (after id cursor names).length + 1 := by simp [length_page]
      rw [if_neg (by simp), ← hpush, hmore, List.length_append, List.length_singleton, push]
      dsimp only
      change _ = (if pageSize <
        ((page id pageSize cursor names ++ [name]).insertionSort (· ≤ ·)).length
        then ((page id pageSize cursor names ++ [name]).insertionSort (· ≤ ·)).dropLast
        else (page id pageSize cursor names ++ [name]).insertionSort (· ≤ ·), _)
      rw [hlength]
      split_ifs with hfull
      · exact Prod.ext rfl (by simp; omega)
      · exact Prod.ext rfl (by simp; omega)

theorem joinBytes_eq_ok {root relative directory : Bytes}
    (h : joinBytes root relative = .ok directory) : directory = directoryAt root relative := by
  unfold joinBytes at h
  unfold directoryAt
  split_ifs at h ⊢
  · exact (Except.ok.inj h).symm
  · exact (Except.ok.inj h).symm

theorem map_relativePath_toList {relativePath : Bytes} {release : Option ScannedRelease}
    (h : ∀ found ∈ release, ReleaseAt relativePath found) :
    release.toList.map ScannedRelease.relativePath = if release.isSome
      then [relativePath] else [] := by
  cases release with
  | none => rfl
  | some found => simp [(h found rfl).relativePath]

/-- What an entry adds to the releases and to the directories of a page. -/
theorem scanEntry_adds {settings : DataRoot} {relative : Bytes} {depth : ℕ}
    {found found' : List ScannedRelease × List Bytes} {name : Bytes} (hname : Normal slash dot name)
    (h : scanEntry fs (directoryAt settings.path relative) relative depth settings
      primaryExtensions found name
      = .ok found') :
    found'.1.map ScannedRelease.relativePath = found.1.map ScannedRelease.relativePath
        ++ (if isRelease fs settings.path primaryExtensions relative name
          then [appendComponent relative name] else [])
      ∧ found'.2 = found.2 ++ (if isPlainDirectory fs settings.path primaryExtensions relative name
        ∧ depth < settings.maxDepth then [appendComponent relative name] else []) := by
  unfold scanEntry at h
  obtain ⟨metadata, hmetadata, h⟩ := bind_eq_ok.mp h
  have htype := metadata_fileType hmetadata
  simp only [isRelease, isPlainDirectory, htype]
  dsimp only at h
  split at h
  · rename_i hfile
    obtain ⟨release, hrelease, h⟩ := bind_eq_ok.mp h
    obtain rfl := Except.ok.inj h
    have hpaths := map_relativePath_toList fun new (hnew : new ∈ release) =>
      standaloneRelease_at hname (hrelease.trans (by rw [hnew]))
    rw [List.map_append, hpaths, standaloneRelease_isSome hrelease, hfile.1]
    simp [hfile.2]
  · rename_i hfile
    split at h
    · rename_i hdirectory
      obtain ⟨looks, hlooks, h⟩ := bind_eq_ok.mp h
      have hlooks := looksLikeRelease_eq_ok hlooks
      rw [hdirectory, ← hlooks]
      split at h
      · rename_i hmarked
        obtain ⟨release, hrelease, h⟩ := bind_eq_ok.mp h
        obtain rfl := Except.ok.inj h
        have hpaths := map_relativePath_toList fun new (hnew : new ∈ release) =>
          directoryRelease_at (hrelease.trans (by rw [hnew]))
        rw [List.map_append, hpaths, directoryRelease_isSome hrelease, hmarked]
        simp
      · rename_i hmarked
        split at h
        · rename_i hdepth
          obtain rfl := Except.ok.inj h
          simp [hmarked, hdepth]
        · rename_i hdepth
          obtain rfl := Except.ok.inj h
          simp [hdepth, hmarked]
    · rename_i hdirectory
      obtain rfl := Except.ok.inj h
      cases htype : metadata.fileType with
      | file => simp [htype] at hfile; simp [hfile]
      | directory => exact absurd htype hdirectory
      | symlink => simp
      | other => simp

/-- The names of a page of a directory. -/
def pageNames (fs : FileSystem) (settings : DataRoot) (relative : Bytes)
    (cursor : Option Bytes) : List Bytes :=
  page id pageSize cursor (listed fs (directoryAt settings.path relative))

/-- What a page of a directory has. -/
structure PageReads (fs : FileSystem) (settings : DataRoot) (primaryExtensions : List Str)
    (relative : Bytes) (depth : ℕ) (cursor : Option Bytes) (page : DirectoryPage) : Prop where
  releases : page.releases.map ScannedRelease.relativePath
    = ((pageNames fs settings relative cursor).filter
      (isRelease fs settings.path primaryExtensions relative)).map (appendComponent relative)
  children : page.children
    = ((pageNames fs settings relative cursor).filter fun name =>
        isPlainDirectory fs settings.path primaryExtensions relative name
          ∧ depth < settings.maxDepth).map
      (appendComponent relative)
  lastName : page.lastName = (pageNames fs settings relative cursor).getLast?
  hasMore : page.hasMore
    = decide (pageSize < (after id cursor (listed fs (directoryAt settings.path relative))).length)

theorem ite_eq_map_filter {α β : Type*} {p : α → Prop} [DecidablePred p] {q : α → Bool} (f : α → β)
    (h : ∀ a, q a = true ↔ p a) (a : α) : (if p a then [f a] else []) = ([a].filter q).map f := by
  by_cases hp : p a
  · simp [hp, (h a).mpr hp]
  · simp [hp, (h a).not.mpr hp]

/-- **A page of a directory** has the first names after the cursor, with the releases and
directories among them. -/
theorem scanDirectory_reads {settings : DataRoot} {relative : Bytes} {depth : ℕ}
    {cursor : Option Bytes} {page : DirectoryPage}
    (h : scanDirectory fs settings relative depth cursor primaryExtensions = .ok page) :
    PageReads fs settings primaryExtensions relative depth cursor page := by
  unfold scanDirectory at h
  obtain ⟨directory, hdirectory, h⟩ := bind_eq_ok.mp h
  obtain rfl := joinBytes_eq_ok hdirectory
  obtain ⟨metadata, -, h⟩ := bind_eq_ok.mp h
  split_ifs at h
  · cases h
  · obtain ⟨names, hnames, h⟩ := bind_eq_ok.mp h
    have hlisted := listed_of_entries hnames
    rw [foldl_selectName cursor (fs.nodup _ names (entries_eq_ok.mp hnames)), ← hlisted] at h
    obtain ⟨⟨releases, children⟩, hfound, h⟩ := bind_eq_ok.mp h
    obtain rfl := Except.ok.inj h
    have hnormal : ∀ name ∈ pageNames fs settings relative cursor, Normal slash dot name :=
        fun name hname =>
      normal_listed fs _ name (mem_after.mp (mem_of_mem_page hname)).1
    have hadds := foldlM_invariant_mem
      (P := fun done (found : List ScannedRelease × List Bytes) =>
        found.1.map ScannedRelease.relativePath
            = (done.filter (isRelease fs settings.path primaryExtensions relative)).map
              (appendComponent relative)
          ∧ found.2 = (done.filter fun name =>
            isPlainDirectory fs settings.path primaryExtensions relative name
            ∧ depth < settings.maxDepth).map (appendComponent relative))
      (fun done name hname before after hbefore hafter => by
        obtain ⟨hreleases, hchildren⟩ := scanEntry_adds (hnormal name hname) hafter
        rw [hreleases, hchildren, hbefore.1, hbefore.2, List.filter_append, List.map_append,
          List.filter_append, List.map_append]
        have hrelease := ite_eq_map_filter (p := fun name =>
          isRelease fs settings.path primaryExtensions relative name)
          (appendComponent relative) (fun _ => Iff.rfl) name
        have hplain := ite_eq_map_filter (p := fun name =>
            isPlainDirectory fs settings.path primaryExtensions relative name
              ∧ depth < settings.maxDepth)
          (appendComponent relative) (fun _ => decide_eq_true_iff) name
        exact ⟨congrArg _ hrelease, congrArg _ hplain⟩)
      (by simp) hfound
    exact ⟨hadds.1, hadds.2, rfl, rfl⟩

/-- The names of a page are those that `scan_directory` selects. -/
theorem selectedNames_eq {settings : DataRoot} {relative : Bytes} {depth : ℕ}
    {cursor : Option Bytes} {page : DirectoryPage}
    (h : scanDirectory fs settings relative depth cursor primaryExtensions = .ok page) :
    selectedNames fs settings relative cursor = pageNames fs settings relative cursor := by
  unfold scanDirectory at h
  obtain ⟨directory, hdirectory, h⟩ := bind_eq_ok.mp h
  obtain rfl := joinBytes_eq_ok hdirectory
  obtain ⟨metadata, -, h⟩ := bind_eq_ok.mp h
  split_ifs at h
  · cases h
  · obtain ⟨names, hnames, -⟩ := bind_eq_ok.mp h
    have hread := entries_eq_ok.mp hnames
    rw [selectedNames, hdirectory]
    dsimp only
    rw [hread]
    dsimp only
    rw [foldl_selectName cursor (fs.nodup _ names hread), pageNames, listed_of_entries hnames]

theorem SameTree.pageReads (h : SameTree fs fs') {settings : DataRoot}
    {relative : Bytes} {depth : ℕ} {cursor : Option Bytes} {page : DirectoryPage}
    (hpage : PageReads fs' settings primaryExtensions relative depth cursor page) :
    PageReads fs settings primaryExtensions relative depth cursor page := by
  have hnames : pageNames fs' settings relative cursor = pageNames fs settings relative cursor :=
    h.page _ _ _
  have hreleases := hpage.releases
  have hchildren := hpage.children
  rw [hnames, h.isRelease] at hreleases
  rw [hnames, h.isPlainDirectory] at hchildren
  exact ⟨hreleases, hchildren, hnames ▸ hpage.lastName, h.length_after cursor _ ▸ hpage.hasMore⟩

end

end Sporos.Service.ScanTree
