import Sporos.Lib.Loop
import Sporos.Lib.Lists
import Sporos.Lib.UnixPath
import Sporos.Service.Sources

/-! # The files of a data root

What a data scan reads of the file system: a page of the entries of a directory, in the order of
their names, with the releases among them and the directories to scan next. The file system is what
`read_dir` and `symlink_metadata` answer. -/

namespace Sporos.Service.DataTree

open Sporos.Model.Matching
open Sporos.Matcher.Release
open Sporos.Service.Tables
open Sporos.Lib.Loop
open Sporos.Lib.Lists
open Sporos.Lib.UnixPath

/-! ### The file system -/

/-- The errors of the file system that the scan tells apart. -/
inductive IoError where
  | notFound
  | other
  deriving DecidableEq, Repr

/-- The types of entries that the scan tells apart. -/
inductive FileType where
  | file
  | directory
  | symlink
  | other
  deriving DecidableEq, Repr

/-- What is known of an entry. -/
structure Metadata where
  fileType : FileType
  len : ℕ
  dev : ℕ
  ino : ℕ
  mtime : ℤ
  deriving DecidableEq, Repr

/-- The bytes of `/` and of `.`. -/
abbrev slash : UInt8 := 47

/-- The byte of a dot. -/
abbrev dot : UInt8 := 46

/-- What the file system answers. The entries of a directory have the names that a directory may
list, each of them once. -/
structure FileSystem where
  readDir : Bytes → Except IoError (List Bytes)
  symlinkMetadata : Bytes → Except IoError Metadata
  normal : ∀ path names, readDir path = .ok names → ∀ name ∈ names, Normal slash dot name
  nodup : ∀ path names, readDir path = .ok names → names.Nodup

/-- A data root with its limits. -/
structure DataRoot where
  path : Bytes
  maxDepth : ℕ
  maxReleases : ℕ
  maxFilesPerRelease : ℕ
  deriving DecidableEq, Repr

/-- Why a directory or a release cannot be read. -/
inductive ScanFsError where
  | io (error : IoError)
  | unsafePath
  | nonUtf8
  | fileLimit
  | fileDepth
  | sizeOverflow
  deriving DecidableEq, Repr

/-- The code that is stored for an error. -/
def ScanFsError.reasonCode : ScanFsError → String
  | .io _ => "filesystem_error"
  | .unsafePath => "unsafe_path"
  | .nonUtf8 => "non_utf8_path"
  | .fileLimit => "file_limit"
  | .fileDepth => "file_depth_limit"
  | .sizeOverflow => "size_overflow"

/-- `PAGE_SIZE`. -/
def pageSize : ℕ := 100

/-- How deep the files of a release may lie. -/
def maxFileDepth : ℕ := 16

/-- A file of a release that has been found. -/
structure ScannedFile where
  relativePath : Bytes
  displayPath : String
  localPath : String
  size : ℕ
  kind : String
  device : ℕ
  inode : ℕ
  modifiedAt : ℤ
  deriving DecidableEq, Repr

/-- A release that has been found. -/
structure ScannedRelease where
  relativePath : Bytes
  kind : String
  name : String
  totalSize : ℕ
  device : ℕ
  inode : ℕ
  modifiedAt : ℤ
  files : List ScannedFile
  deriving DecidableEq, Repr

/-- What one page of a directory has given. -/
structure DirectoryPage where
  releases : List ScannedRelease
  children : List Bytes
  lastName : Option Bytes
  hasMore : Bool
  deriving DecidableEq, Repr

/-! ### Paths -/

/-- `OsStr::to_str`. -/
def toStr (path : Bytes) : Option String := (fromUtf8 path).map String.ofList

/-- The relative path of a child. -/
def appendComponent (parent name : Bytes) : Bytes :=
  if parent = [] then name else parent ++ slash :: name

/-- A path with one of the extensions of a video. -/
def primaryVideo (path : Bytes) (extensions : List Str) : Bool :=
  (((fileName slash dot path).bind (extension dot)).bind fromUtf8).any fun extension =>
    extensions.any (eqIgnoreAsciiCase · extension)

/-- A video object of a disc. -/
def discVideo (relative : Bytes) : Bool :=
  (components slash dot relative).any (fun component =>
    (fromUtf8 component).any (eqIgnoreAsciiCase · "VIDEO_TS".toList))
    && (((fileName slash dot relative).bind (extension dot)).bind fromUtf8).any
      (eqIgnoreAsciiCase · "vob".toList)

/-- The path of a directory of the root. A path that leaves the root is refused. -/
def joinBytes (root relative : Bytes) : Except ScanFsError Bytes :=
  if relative = [] then .ok root
  else if lenBeforeBody slash dot relative ≠ 0 ∨ [dot, dot] ∈ components slash dot relative then
    .error .unsafePath
  else .ok (join slash root relative)

section

variable (fs : FileSystem)

/-- The metadata of an entry, without following a link. -/
def FileSystem.metadata (path : Bytes) : Except ScanFsError Metadata :=
  (fs.symlinkMetadata path).mapError .io

/-- The names in a directory. -/
def FileSystem.entries (path : Bytes) : Except ScanFsError (List Bytes) :=
  (fs.readDir path).mapError .io

/-- No part of the path of the root is a symbolic link, and the root is a directory. -/
def safeRoot (root : Bytes) : Except ScanFsError Unit := do
  for ancestor in ancestors slash dot root do
    let metadata ← fs.metadata ancestor
    if metadata.fileType = .symlink then throw .unsafePath
  let metadata ← fs.metadata root
  if metadata.fileType = .directory then return () else throw .unsafePath

/-! ### Releases -/

/-- A directory that `directory_release` visits: its path, the part of it below the root, and the
part below the release. -/
structure Visited where
  path : Bytes
  relative : Bytes
  display : Bytes
  deriving DecidableEq, Repr

/-- The child of a directory that is visited. -/
def Visited.child (directory : Visited) (name : Bytes) : Visited where
  path := join slash directory.path name
  relative := appendComponent directory.relative name
  display := appendComponent directory.display name

/-- The names of a disc. -/
def discName (name : Bytes) : Bool :=
  (fromUtf8 name).any fun name => toAsciiUppercase name ∈ ["BDMV".toList, "VIDEO_TS".toList]

/-- Whether some of the names makes the directory a release. -/
def looksLikeAmong (path : Bytes) (primaryExtensions : List Str) : List Bytes →
    Except ScanFsError Bool
  | [] => .ok false
  | name :: names => do
    let metadata ← fs.metadata (join slash path name)
    if metadata.fileType = .file ∧ primaryVideo (join slash path name) primaryExtensions
        ∨ metadata.fileType = .directory ∧ discName name then return true
    else looksLikeAmong path primaryExtensions names

/-- `looks_like_release`. -/
def looksLikeRelease (path : Bytes) (primaryExtensions : List Str) : Except ScanFsError Bool := do
  looksLikeAmong fs path primaryExtensions (← fs.entries path)

/-- The path of the file below the root is the path of the release, which `strip_prefix` gives back.
-/
def standaloneRelease (relativePath path : Bytes) (metadata : Metadata) :
    Except ScanFsError (Option ScannedRelease) :=
  match (fileName slash dot path).bind toStr with
  | none => .ok none
  | some name =>
    match toStr path with
    | none => .error .nonUtf8
    | some localPath =>
      .ok (some
        { relativePath
          kind := "file"
          name
          totalSize := metadata.len
          device := metadata.dev
          inode := metadata.ino
          modifiedAt := metadata.mtime
          files := [
            { relativePath
              displayPath := name
              localPath
              size := metadata.len
              kind := "video"
              device := metadata.dev
              inode := metadata.ino
              modifiedAt := metadata.mtime }] })

/-- A file of a release, unless its path is no text. -/
def scannedFile (primaryExtensions : List Str) (entry : Visited) (metadata : Metadata) :
    Option ScannedFile :=
  match toStr entry.display, toStr entry.path with
  | some displayPath, some localPath =>
    some
      { relativePath := entry.relative
        displayPath
        localPath
        size := metadata.len
        kind := if primaryVideo entry.path primaryExtensions || discVideo entry.display then "video"
          else "other"
        device := metadata.dev
        inode := metadata.ino
        modifiedAt := metadata.mtime }
  | _, _ => none

/-- One entry of a directory of a release: a file that is kept, or a directory to visit. -/
def visitEntry (maxFiles : ℕ) (primaryExtensions : List Str) (directory : Visited)
    (found : List ScannedFile × List Visited) (name : Bytes) :
    Except ScanFsError (List ScannedFile × List Visited) := do
  let entry := directory.child name
  let metadata ← fs.metadata entry.path
  match metadata.fileType with
  | .symlink => return found
  | .directory => return (found.1, found.2 ++ [entry])
  | .other => return found
  | .file =>
    if found.1.length = maxFiles then throw .fileLimit
    else return (found.1 ++ (scannedFile primaryExtensions entry metadata).toList, found.2)

/-- The files of a directory and of those below it, with a bound on the depth. The directory that
was found last is visited first, with all that is below it, as the stack of the source has it. -/
def visitDirectory (maxFiles : ℕ) (primaryExtensions : List Str) :
    ℕ → List ScannedFile → Visited → Except ScanFsError (List ScannedFile)
  | 0, _, _ => .error .fileDepth
  | depth + 1, files, directory => do
    let names ← fs.entries directory.path
    let (files, pending) ← names.foldlM (visitEntry fs maxFiles primaryExtensions directory) (files,
      [])
    pending.reverse.foldlM (visitDirectory maxFiles primaryExtensions depth) files

/-- The sum of the sizes, unless it is no `u64`. -/
def totalSize (files : List ScannedFile) : Except ScanFsError ℕ :=
  files.foldlM (fun total file =>
    if total + file.size < 2 ^ 64 then .ok (total + file.size) else .error .sizeOverflow) 0

/-- The release that a directory is, if it has files. -/
def directoryRelease (relativePath path : Bytes) (metadata : Metadata) (maxFiles : ℕ)
    (primaryExtensions : List Str) : Except ScanFsError (Option ScannedRelease) :=
  match (fileName slash dot path).bind toStr with
  | none => .ok none
  | some name => do
    let files ← visitDirectory fs maxFiles primaryExtensions (maxFileDepth + 1) [] ⟨path,
      relativePath, []⟩
    let files := files.insertionSort (ByKey ScannedFile.relativePath)
    if files.all (·.kind ≠ "video") then return none
    let totalSize ← totalSize files
    return some
      { relativePath
        kind := "directory"
        name
        totalSize
        device := metadata.dev
        inode := metadata.ino
        modifiedAt := metadata.mtime
        files }

/-! ### Pages -/

/-- One entry more for a page, which keeps the smallest names. -/
def selectName (cursor : Option Bytes) (page : List Bytes × Bool) (name : Bytes) :
    List Bytes × Bool :=
  if cursor.any (name ≤ ·) then page
  else
    let selected := (page.1 ++ [name]).insertionSort (· ≤ ·)
    if selected.length > pageSize then (selected.dropLast, true) else (selected, page.2)

/-- One entry of a page. -/
def scanEntry (directory relative : Bytes) (depth : ℕ) (settings : DataRoot)
    (primaryExtensions : List Str) (found : List ScannedRelease × List Bytes) (name : Bytes) :
    Except ScanFsError (List ScannedRelease × List Bytes) := do
  let path := join slash directory name
  let metadata ← fs.metadata path
  let childRelative := appendComponent relative name
  if metadata.fileType = .file ∧ primaryVideo path primaryExtensions then
    let release ← standaloneRelease childRelative path metadata
    return (found.1 ++ release.toList, found.2)
  else if metadata.fileType = .directory then
    if ← looksLikeRelease fs path primaryExtensions then
      let release ← directoryRelease fs childRelative path metadata settings.maxFilesPerRelease
        primaryExtensions
      return (found.1 ++ release.toList, found.2)
    else if depth < settings.maxDepth then return (found.1, found.2 ++ [childRelative])
    else return found
  else return found

/-- `scan_directory`: the next page of a directory. -/
def scanDirectory (settings : DataRoot) (relative : Bytes) (depth : ℕ) (cursor : Option Bytes)
    (primaryExtensions : List Str) : Except ScanFsError DirectoryPage := do
  let directory ← joinBytes settings.path relative
  let metadata ← fs.metadata directory
  if metadata.fileType ≠ .directory then throw .unsafePath
  let names ← fs.entries directory
  let (selected, hasMore) := names.foldl (selectName cursor) ([], false)
  let (releases, children) ← selected.foldlM
    (scanEntry fs directory relative depth settings primaryExtensions) ([], [])
  return { releases, children, lastName := selected.getLast?, hasMore }

end

/-! ### What a page holds -/

section

variable {fs : FileSystem}

theorem metadata_eq_ok {path : Bytes} {metadata : Metadata} :
    fs.metadata path = .ok metadata ↔ fs.symlinkMetadata path = .ok metadata := mapError_eq_ok

theorem entries_eq_ok {path : Bytes} {names : List Bytes} :
    fs.entries path = .ok names ↔ fs.readDir path = .ok names := mapError_eq_ok

instance : IsTrans Bytes (· ≤ ·) := ⟨fun _ _ _ => Std.le_trans⟩

/-- The names of a page that are selected so far: in order, after the cursor, and among those that
were read. -/
structure Selects (cursor : Option Bytes) (read : List Bytes)
    (page : List Bytes × Bool) : Prop where
  sorted : page.1.Pairwise (· < ·)
  subset : ∀ name ∈ page.1, name ∈ read ∧ ∀ last ∈ cursor, last < name
  hasMore : page.2 = true → page.1 ≠ []

theorem Selects.step {cursor : Option Bytes} {read : List Bytes}
    {page : List Bytes × Bool} {name : Bytes} (h : Selects cursor read page) (hname : name ∉ read) :
    Selects cursor (read ++ [name]) (selectName cursor page name) := by
  have hsubset : ∀ other ∈ page.1, other ∈ read ++ [name] ∧ ∀ last ∈ cursor, last < other :=
      fun other hother =>
    ⟨List.mem_append_left _ (h.subset other hother).1, (h.subset other hother).2⟩
  unfold selectName
  split
  · exact ⟨h.sorted, hsubset, h.hasMore⟩
  · rename_i hcursor
    have hafter : ∀ last ∈ cursor, last < name := by
      rintro last rfl
      simpa using hcursor
    have hselected : ∀ other ∈ (page.1 ++ [name]).insertionSort (· ≤ ·),
        other ∈ read ++ [name] ∧ ∀ last ∈ cursor, last < other := by
      intro other hother
      rcases List.mem_append.mp ((List.mem_insertionSort _).mp hother) with hother | hother
      · exact hsubset other hother
      · obtain rfl := List.mem_singleton.mp hother
        exact ⟨by simp, hafter⟩
    have hnodup : ((page.1 ++ [name]).insertionSort (· ≤ ·)).Nodup := by
      refine (List.perm_insertionSort _ _).nodup_iff.mpr
        (List.Nodup.append h.sorted.nodup (by simp) ?_)
      simpa using fun hmem => hname (h.subset name hmem).1
    have hsorted : ((page.1 ++ [name]).insertionSort (· ≤ ·)).Pairwise (· < ·) :=
      ((List.pairwise_insertionSort _ _).and hnodup).imp fun h => Std.lt_of_le_of_ne h.1 h.2
    dsimp only
    split
    · rename_i hlength
      refine ⟨hsorted.sublist (List.dropLast_sublist _), fun other hother =>
        hselected other (List.dropLast_subset _ hother), fun _ hnil => ?_⟩
      have hone := congrArg List.length hnil
      rw [List.length_dropLast, List.length_nil] at hone
      unfold pageSize at hlength
      omega
    · refine ⟨hsorted, hselected, fun _ hnil => ?_⟩
      have hlength := congrArg List.length hnil
      simp at hlength

/-- **The names of a page.** -/
theorem selects_foldl (cursor : Option Bytes) {names : List Bytes} (hnodup : names.Nodup) :
    Selects cursor names (names.foldl (selectName cursor) ([], false)) := by
  have hfold : ∀ (rest read : List Bytes) (page : List Bytes × Bool), (read ++ rest).Nodup →
      Selects cursor read page →
        Selects cursor (read ++ rest) (rest.foldl (selectName cursor) page) := by
    intro rest
    induction rest with
    | nil => intro read page _ h; simpa using h
    | cons name rest ih =>
      intro read page hnodup h
      have hname : name ∉ read := fun hmem =>
        (List.nodup_append.mp hnodup).2.2 name hmem name (by simp) rfl
      have := ih (read ++ [name]) _ (by simpa using hnodup) (h.step hname)
      simpa using this
  exact hfold names [] ([], false) hnodup ⟨List.Pairwise.nil, by simp, by simp⟩

/-- The path of a file ends with a name. -/
def EndsWithName (localPath : String) : Prop :=
  ∃ path name, localPath.toList = path ++ name ∧ Normal '/' '.' name
    ∧ (path = [] ∨ path.getLast? = some '/')

theorem endsWithName_join {directory name : Bytes} {localPath : String}
    (hname : Normal slash dot name) (h : toStr (join slash directory name) = some localPath) :
      EndsWithName localPath := by
  obtain ⟨text, htext, rfl⟩ := Option.map_eq_some_iff.mp h
  obtain ⟨path, hjoin, hend⟩ := join_eq slash directory name
  obtain ⟨path', name', rfl, hname', hend'⟩ := exists_name_of_bytes hname hend
    ((fromUtf8_eq_some.mp htext).symm.trans hjoin)
  exact ⟨path', name', by simp, hname', hend'⟩

theorem scannedFile_endsWithName {primaryExtensions : List Str} {directory : Visited} {name : Bytes}
    {metadata : Metadata} {file : ScannedFile} (hname : Normal slash dot name)
    (h : scannedFile primaryExtensions (directory.child name) metadata = some file) :
    EndsWithName file.localPath := by
  unfold scannedFile at h
  split at h
  · rename_i displayPath localPath _ hpath
    obtain rfl := Option.some_inj.mp h
    exact endsWithName_join hname hpath
  · cases h

theorem visitEntry_endsWithName {maxFiles : ℕ} {primaryExtensions : List Str} {directory : Visited}
    {found found' : List ScannedFile × List Visited} {name : Bytes} (hname : Normal slash dot name)
    (hfound : ∀ file ∈ found.1, EndsWithName file.localPath)
    (h : visitEntry fs maxFiles primaryExtensions directory found name = .ok found') :
    ∀ file ∈ found'.1, EndsWithName file.localPath := by
  unfold visitEntry at h
  obtain ⟨metadata, -, h⟩ := bind_eq_ok.mp h
  split at h
  · obtain rfl := Except.ok.inj h
    exact hfound
  · obtain rfl := Except.ok.inj h
    exact hfound
  · obtain rfl := Except.ok.inj h
    exact hfound
  · split_ifs at h
    obtain rfl := Except.ok.inj h
    intro file hfile
    rcases List.mem_append.mp hfile with hfile | hfile
    · exact hfound file hfile
    · exact scannedFile_endsWithName hname (Option.mem_toList.mp hfile)

/-- **The files of a release** have paths that end with a name. -/
theorem visitDirectory_endsWithName {maxFiles : ℕ} {primaryExtensions : List Str} :
    ∀ (depth : ℕ) (files files' : List ScannedFile) (directory : Visited),
      (∀ file ∈ files, EndsWithName file.localPath) →
      visitDirectory fs maxFiles primaryExtensions depth files directory = .ok files' →
      ∀ file ∈ files', EndsWithName file.localPath
  | 0, files, files', directory, _, h => by cases h
  | depth + 1, files, files', directory, hfiles, h => by
    unfold visitDirectory at h
    obtain ⟨names, hnames, h⟩ := bind_eq_ok.mp h
    obtain ⟨⟨found, pending⟩, hfound, h⟩ := bind_eq_ok.mp h
    have hnormal := fs.normal _ names (entries_eq_ok.mp hnames)
    have hfound' := foldlM_invariant_mem (P := fun _ (found : List ScannedFile × List Visited) =>
      ∀ file ∈ found.1, EndsWithName file.localPath)
      (fun _ name hname before after hbefore hafter =>
        visitEntry_endsWithName (hnormal name hname) hbefore hafter) hfiles hfound
    exact foldlM_invariant_mem (P := fun _ (files : List ScannedFile) =>
      ∀ file ∈ files, EndsWithName file.localPath)
      (fun _ entry _ before after hbefore hafter =>
        visitDirectory_endsWithName depth before after entry hbefore hafter) hfound' h

/-- The release has the path of the entry, and its files have paths that end with a name. -/
structure ReleaseAt (relativePath : Bytes) (release : ScannedRelease) : Prop where
  relativePath : release.relativePath = relativePath
  files : ∀ file ∈ release.files, EndsWithName file.localPath

theorem standaloneRelease_at {relativePath directory name : Bytes} {metadata : Metadata}
    {release : ScannedRelease} (hname : Normal slash dot name)
    (h : standaloneRelease relativePath (join slash directory name) metadata = .ok (some release)) :
    ReleaseAt relativePath release := by
  unfold standaloneRelease at h
  split at h
  · cases h
  · split at h
    · cases h
    · rename_i localPath hpath
      obtain rfl := Option.some_inj.mp (Except.ok.inj h)
      refine ⟨rfl, fun file hfile => ?_⟩
      obtain rfl := List.mem_singleton.mp hfile
      exact endsWithName_join hname hpath

theorem directoryRelease_at {relativePath path : Bytes} {metadata : Metadata} {maxFiles : ℕ}
    {primaryExtensions : List Str} {release : ScannedRelease}
    (h : directoryRelease fs relativePath path metadata maxFiles primaryExtensions =
      .ok (some release)) :
    ReleaseAt relativePath release := by
  unfold directoryRelease at h
  split at h
  · cases h
  · obtain ⟨files, hfiles, h⟩ := bind_eq_ok.mp h
    dsimp only at h
    split_ifs at h
    · cases h
    · obtain ⟨total, -, h⟩ := bind_eq_ok.mp h
      obtain rfl := Option.some_inj.mp (Except.ok.inj h)
      refine ⟨rfl, fun file hfile => ?_⟩
      exact visitDirectory_endsWithName _ [] files _ (by simp) hfiles file
        ((List.mem_insertionSort _).mp hfile)

/-- What an entry of a page adds: a release with the path of the entry, or nothing. -/
theorem scanEntry_eq_ok {directory relative : Bytes} {depth : ℕ} {settings : DataRoot}
    {primaryExtensions : List Str} {found found' : List ScannedRelease × List Bytes} {name : Bytes}
    (hname : Normal slash dot name)
    (h : scanEntry fs directory relative depth settings primaryExtensions found name = .ok found') :
    ∃ release : Option ScannedRelease, found'.1 = found.1 ++ release.toList
      ∧ ∀ found ∈ release, ReleaseAt (appendComponent relative name) found := by
  have hsame : ∃ release : Option ScannedRelease, found.1 = found.1 ++ release.toList
      ∧ ∀ found ∈ release, ReleaseAt (appendComponent relative name) found :=
        ⟨none, by simp, by simp⟩
  unfold scanEntry at h
  obtain ⟨metadata, -, h⟩ := bind_eq_ok.mp h
  dsimp only at h
  split at h
  · obtain ⟨release, hrelease, h⟩ := bind_eq_ok.mp h
    obtain rfl := Except.ok.inj h
    exact ⟨release, rfl, fun new hnew => standaloneRelease_at hname (hrelease.trans (by rw [hnew]))⟩
  · split at h
    · obtain ⟨looksLike, -, h⟩ := bind_eq_ok.mp h
      split at h
      · obtain ⟨release, hrelease, h⟩ := bind_eq_ok.mp h
        obtain rfl := Except.ok.inj h
        exact ⟨release, rfl, fun new hnew => directoryRelease_at (hrelease.trans (by rw [hnew]))⟩
      · split at h <;> (obtain rfl := Except.ok.inj h; exact hsame)
    · obtain rfl := Except.ok.inj h
      exact hsame

/-- A page of a directory: the names that it covers, which are in order and come after the cursor,
and the releases among them, each at its name. -/
structure PageOf (relative : Bytes) (cursor : Option Bytes) (names : List Bytes)
    (page : DirectoryPage) : Prop where
  sorted : names.Pairwise (· < ·)
  normal : ∀ name ∈ names, Normal slash dot name
  after : ∀ name ∈ names, ∀ last ∈ cursor, last < name
  lastName : page.lastName = names.getLast?
  hasMore : page.hasMore = true → names ≠ []
  paths : (page.releases.map ScannedRelease.relativePath).Sublist
    (names.map (appendComponent relative))
  files : ∀ release ∈ page.releases, ∀ file ∈ release.files, EndsWithName file.localPath

/-- **A page of a directory.** -/
theorem scanDirectory_eq_ok {settings : DataRoot} {relative : Bytes} {depth : ℕ}
    {cursor : Option Bytes} {primaryExtensions : List Str} {page : DirectoryPage}
    (h : scanDirectory fs settings relative depth cursor primaryExtensions = .ok page) :
    ∃ names, PageOf relative cursor names page := by
  unfold scanDirectory at h
  obtain ⟨directory, -, h⟩ := bind_eq_ok.mp h
  obtain ⟨metadata, -, h⟩ := bind_eq_ok.mp h
  split_ifs at h
  · cases h
  · obtain ⟨names, hnames, h⟩ := bind_eq_ok.mp h
    have hread := entries_eq_ok.mp hnames
    have hselects := selects_foldl cursor (fs.nodup _ names hread)
    generalize names.foldl (selectName cursor) ([], false) = selected at h hselects
    obtain ⟨selected, hasMore⟩ := selected
    obtain ⟨⟨releases, children⟩, hfound, h⟩ := bind_eq_ok.mp h
    obtain rfl := Except.ok.inj h
    have hnormal : ∀ name ∈ selected, Normal slash dot name := fun name hname =>
      fs.normal _ names hread name (hselects.subset name hname).1
    have hreleases := foldlM_invariant_mem
      (P := fun done (found : List ScannedRelease × List Bytes) =>
        (found.1.map ScannedRelease.relativePath).Sublist (done.map (appendComponent relative))
          ∧ ∀ release ∈ found.1, ∀ file ∈ release.files, EndsWithName file.localPath)
      (fun done name hname before after hbefore hafter => by
        obtain ⟨release, hrelease, hat⟩ := scanEntry_eq_ok (hnormal name hname) hafter
        rw [hrelease, List.map_append, List.map_append]
        refine ⟨hbefore.1.append ?_, fun new hnew => ?_⟩
        · cases release with
          | none => exact List.nil_sublist _
          | some new => simp [(hat new rfl).relativePath]
        · rcases List.mem_append.mp hnew with hnew | hnew
          · exact hbefore.2 new hnew
          · exact (hat new (Option.mem_toList.mp hnew)).files)
      (by simp) hfound
    exact ⟨selected, hselects.sorted, hnormal, fun name hname =>
      (hselects.subset name hname).2, rfl,
      hselects.hasMore, hreleases.1, hreleases.2⟩

end

end Sporos.Service.DataTree
