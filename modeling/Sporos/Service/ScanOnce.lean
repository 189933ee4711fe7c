import Sporos.Service.ScanCoverage

/-! # Releases are stored once

A scan reads the names of a directory in order, behind a cursor that the transaction of a page moves
past the names of the page. Whatever the file system does between the pages, and however often an
execution is interrupted, a scan therefore stores no release twice (`once_run`): each release that
it has stored lies in a directory that it has read as far as the name of the release. -/

namespace Sporos.Service.ScanOnce

open Sporos.Service.Tables
open Sporos.Service.Sources
open Sporos.Service.DataTree
open Sporos.Service.DataScan
open Sporos.Service.ScanTree
open Sporos.Service.ScanCoverage
open Sporos.Lib.Table
open Sporos.Lib.Lists
open Sporos.Lib.UnixPath

/-- The directory has been read as far as a name. -/
def ReadTo (row : DirectoryRow) (name : Bytes) : Prop :=
  row.state = .completed ∨ ∃ last, row.cursorName = some last ∧ name ≤ last

/-- The release lies in a directory of the scan that has been read as far as its name. -/
def Covered (directories : List DirectoryRow) (operationId : Id) (path : Bytes) : Prop :=
  ∃ row ∈ directories, row.operationId = operationId ∧ ∃ name, Normal slash dot name
    ∧ path = appendComponent row.relativePath name ∧ ReadTo row name

/-- What holds between the statements of the scans. -/
structure Once (scans : Scans) : Prop where
  inputs : UniqueKey ScanInput.operationId scans.inputs
  stamped : ∀ input releases, .stamped input releases ∈ scans.effects → input ∈ scans.inputs
    ∧ ∀ release ∈ releases, ∀ file ∈ release.files, EndsWithName file.localPath
  directories : UniqueKey DirectoryRow.key scans.directories
  covered : ∀ operationId, ∀ path ∈ persistedPaths operationId scans.effects,
    Covered scans.directories operationId path
  once : ∀ operationId, (persistedPaths operationId scans.effects).Nodup

section

variable {codec : ScanCodec} {roots : String → Option DataRoot} {state state' : Store × Scans}
  {input : ScanInput} {directory : DirectoryRow} {page : DirectoryPage} {names : List Bytes}
  {directories : List DirectoryRow}

/-! ### A page -/

/-- The directories after a page: the one that has been read, and the others as they were. -/
theorem mem_pageDirectories {row : DirectoryRow} (hrow : row ∈ directories) :
    (if row.key = directory.key then turnPage page row else row)
      ∈ pageDirectories input directory page directories := by
  have hchildren : ∀ (children : List Bytes) (rows : List DirectoryRow), row ∈ rows →
      row ∈ children.foldl (fun directories child => insertOrIgnore DirectoryRow.key directories
        ⟨input.operationId, child, directory.depth + 1, none, .queued⟩) rows := by
    intro children
    induction children with
    | nil => exact fun _ h => h
    | cons child children ih => exact fun rows h => ih _ (mem_insertOrIgnore_of_mem h)
  exact mem_updateKey.mpr ⟨row, hchildren page.children directories hrow, rfl⟩

/-- A page reads its directory as far as each of its names. -/
theorem readTo_turnPage (hpage : PageOf directory.relativePath directory.cursorName names page)
    {name : Bytes} (hname : name ∈ names) : ReadTo (turnPage page directory) name := by
  unfold turnPage
  split_ifs
  · have hlast := List.getLast?_eq_some_getLast (List.ne_nil_of_mem hname)
    generalize names.getLast (List.ne_nil_of_mem hname) = last at hlast
    refine .inr ⟨last, hpage.lastName.trans hlast, ?_⟩
    obtain ⟨before, rfl⟩ := List.getLast?_eq_some_iff.mp hlast
    rcases List.mem_append.mp hname with hbefore | hlast
    · exact Std.le_of_lt
        ((List.pairwise_append.mp hpage.sorted).2.2 name hbefore last (List.mem_singleton_self _))
    · rw [List.mem_singleton.mp hlast]
  · exact .inl rfl

/-- What has been read of a directory stays read. -/
theorem ReadTo.turnPage (hpage : PageOf directory.relativePath directory.cursorName names page)
    (hopen : directory.state ≠ .completed) {name : Bytes} (h : ReadTo directory name) :
    ReadTo (turnPage page directory) name := by
  rcases h with hcompleted | ⟨cursor, hcursor, hle⟩
  · exact absurd hcompleted hopen
  · unfold DataScan.turnPage
    split_ifs with hmore
    · obtain ⟨next, hnext⟩ := List.exists_mem_of_ne_nil _ (hpage.hasMore hmore)
      have hread := readTo_turnPage hpage hnext
      unfold DataScan.turnPage at hread
      rw [if_pos hmore] at hread
      rcases hread with hcompleted | ⟨last, hlast, hnextLe⟩
      · cases hcompleted
      · exact .inr ⟨last, hlast, Std.le_trans hle
          (Std.le_trans (Std.le_of_lt (hpage.after next hnext cursor hcursor)) hnextLe)⟩
    · exact .inl rfl

theorem Covered.pageDirectories (hunique : UniqueKey DirectoryRow.key directories)
    (hdirectory : directory ∈ directories) (hopen : directory.state ≠ .completed)
    (hpage : PageOf directory.relativePath directory.cursorName names page)
    {operationId : Id} {path : Bytes} (h : Covered directories operationId path) :
    Covered (pageDirectories input directory page directories) operationId path := by
  obtain ⟨row, hrow, hoperation, name, hname, hpath, hread⟩ := h
  refine ⟨_, mem_pageDirectories hrow, ?_⟩
  split_ifs with hkey
  · obtain rfl := List.inj_on_of_nodup_map hunique hrow hdirectory hkey
    obtain ⟨hsameOperation, hsamePath⟩ := Prod.mk.inj (turnPage_key page row)
    exact ⟨hsameOperation.trans hoperation, name, hname, by rw [hsamePath, hpath],
      hread.turnPage hpage hopen⟩
  · exact ⟨hoperation, name, hname, hpath, hread⟩

/-- A release of a page lies in the directory of the page. -/
theorem mem_paths (hpage : PageOf directory.relativePath directory.cursorName names page)
    {path : Bytes} (hpath : path ∈ page.releases.map ScannedRelease.relativePath) :
    ∃ name ∈ names, path = appendComponent directory.relativePath name := by
  obtain ⟨name, hname, rfl⟩ := List.mem_map.mp (hpage.paths.subset hpath)
  exact ⟨name, hname, rfl⟩

/-- The releases of a page are told apart by their names. -/
theorem nodup_paths (hpage : PageOf directory.relativePath directory.cursorName names page) :
    (page.releases.map ScannedRelease.relativePath).Nodup := by
  have hnames : names.Nodup := hpage.sorted.imp Std.ne_of_lt
  refine hpage.paths.nodup (List.Nodup.map_on (fun name hname other hother heq => ?_) hnames)
  exact (appendComponent_inj (hpage.normal name hname) (hpage.normal other hother) heq).2

/-- What has been stored of a scan is not behind the cursor of a directory that is open. -/
theorem not_covered (hunique : UniqueKey DirectoryRow.key directories)
    (hdirectory : directory ∈ directories) (hopen : directory.state ≠ .completed)
    (hpage : PageOf directory.relativePath directory.cursorName names page) {name : Bytes}
    (hname : name ∈ names) : ¬ Covered directories directory.operationId
      (appendComponent directory.relativePath name) := by
  rintro ⟨row, hrow, hoperation, other, hother, hpath, hread⟩
  obtain ⟨hsame, rfl⟩ := appendComponent_inj (hpage.normal name hname) hother hpath
  obtain rfl : row = directory :=
    List.inj_on_of_nodup_map hunique hrow hdirectory (Prod.ext hoperation hsame.symm)
  rcases hread with hcompleted | ⟨last, hlast, hle⟩
  · exact hopen hcompleted
  · exact absurd hle (Std.not_le.mpr (hpage.after name hname last hlast))

/-! ### Steps and runs -/

theorem once_page (h : Once state.2) (hinput : input ∈ state.2.inputs)
    (hdirectory : directory ∈ state.2.directories)
    (hoperation : directory.operationId = input.operationId) (hopen : directory.state ≠ .completed)
    (hpage : PageOf directory.relativePath directory.cursorName names page) {scans : Scans}
    (hinputs : scans.inputs = state.2.inputs)
    (hdirectories : scans.directories = pageDirectories input directory page state.2.directories)
    (heffects : scans.effects = state.2.effects ++ [.stamped input page.releases]) :
    Once scans := by
  constructor
  case inputs => rw [hinputs]; exact h.inputs
  case stamped =>
    intro other releases hmem
    rw [hinputs]
    rw [heffects] at hmem
    rcases List.mem_append.mp hmem with hold | hnew
    · exact h.stamped other releases hold
    · obtain ⟨rfl, rfl⟩ := Effect.stamped.inj (List.mem_singleton.mp hnew)
      exact ⟨hinput, hpage.files⟩
  case directories => rw [hdirectories]; exact UniqueKey.pageDirectories h.directories
  case covered =>
    intro operationId path hpath
    rw [hdirectories]
    rw [heffects, persistedPaths_append] at hpath
    rcases List.mem_append.mp hpath with hold | hnew
    · exact (h.covered operationId path hold).pageDirectories h.directories hdirectory hopen hpage
    · split_ifs at hnew with hsame
      · obtain ⟨name, hname, rfl⟩ := mem_paths hpage hnew
        obtain ⟨hkey, hpath⟩ := Prod.mk.inj (turnPage_key page directory)
        have hmem := @mem_pageDirectories input directory page state.2.directories directory
          hdirectory
        rw [if_pos rfl] at hmem
        exact ⟨_, hmem, hkey.trans (hoperation.trans hsame), name, hpage.normal name hname,
          by rw [hpath], readTo_turnPage hpage hname⟩
      · cases hnew
  case once =>
    intro operationId
    rw [heffects, persistedPaths_append]
    refine List.Nodup.append (h.once operationId) ?_ fun path hold hnew => ?_
    · split_ifs
      · exact nodup_paths hpage
      · exact List.nodup_nil
    · split_ifs at hnew with hsame
      · obtain ⟨name, hname, rfl⟩ := mem_paths hpage hnew
        refine not_covered h.directories hdirectory hopen hpage hname ?_
        rw [hoperation, hsame]
        exact h.covered operationId _ hold
      · cases hnew

/-- An effect that stores no release changes nothing about what is stored. -/
theorem once_effect (h : Once state.2) {scans : Scans} (hinputs : scans.inputs = state.2.inputs)
    (hdirectories : scans.directories = state.2.directories) {effect : Effect}
    (heffects : scans.effects = state.2.effects ++ [effect])
    (hpaths : ∀ input releases, effect ≠ .stamped input releases) : Once scans := by
  have hpersisted : ∀ operationId, persistedPaths operationId scans.effects =
      persistedPaths operationId state.2.effects := by
    intro operationId
    rw [heffects, persistedPaths, List.flatMap_append, List.flatMap_singleton]
    cases effect with
    | stamped input releases => exact absurd rfl (hpaths input releases)
    | swept input => exact List.append_nil _
    | hidden input => exact List.append_nil _
  constructor
  case inputs => rw [hinputs]; exact h.inputs
  case stamped =>
    intro input releases hmem
    rw [heffects] at hmem
    rw [hinputs]
    rcases List.mem_append.mp hmem with hold | hnew
    · exact h.stamped input releases hold
    · exact absurd (List.mem_singleton.mp hnew).symm (hpaths input releases)
  case directories => rw [hdirectories]; exact h.directories
  case covered => simpa only [hpersisted, hdirectories] using h.covered
  case once => simpa only [hpersisted] using h.once

/-- **Every statement of the scans** keeps that no release is stored twice. -/
theorem once_step (h : Once state.2) (hstep : Step codec roots state state') : Once state'.2 := by
  cases hstep with
  | accept input _ _ hinputs hdirectories heffects =>
    constructor
    case inputs => rw [hinputs]; exact h.inputs.insertOrIgnore input
    case stamped =>
      rw [heffects, hinputs]
      exact fun other releases hmem => (h.stamped other releases hmem).imp_left
        mem_insertOrIgnore_of_mem
    case directories => rw [hdirectories]; exact h.directories.insertOrIgnore _
    case covered =>
      rw [heffects, hdirectories]
      intro operationId path hpath
      obtain ⟨row, hrow, hcovered⟩ := h.covered operationId path hpath
      exact ⟨row, mem_insertOrIgnore_of_mem hrow, hcovered⟩
    case once => rw [heffects]; exact h.once
  | control _ _ _ hinputs hdirectories heffects =>
    obtain ⟨hunique, hstamped, hrows, hcovered, honce⟩ := h
    exact ⟨hinputs ▸ hunique, by rw [heffects, hinputs]; exact hstamped, hdirectories ▸ hrows,
      by rw [heffects, hdirectories]; exact hcovered, by rw [heffects]; exact honce⟩
  | page input hinput root directory hdirectory hoperation hopen page names hpage _ _ _ _ _ _
      hinputs hdirectories heffects =>
    exact once_page h hinput hdirectory hoperation hopen hpage hinputs hdirectories heffects
  | hide input _ _ _ _ hinputs hdirectories heffects =>
    exact once_effect h hinputs hdirectories heffects fun _ _ hne => by cases hne
  | sweep input _ _ _ _ hinputs hdirectories heffects =>
    exact once_effect h hinputs hdirectories heffects fun _ _ hne => by cases hne

theorem once_init : Once Scans.init :=
  ⟨List.nodup_nil, fun _ _ hmem => absurd hmem List.not_mem_nil, List.nodup_nil,
    fun _ _ hmem => absurd hmem List.not_mem_nil, fun _ => List.nodup_nil⟩

/-- **No scan stores a release twice**, in any run. -/
theorem once_run (events : List Event) : Once (ScanSweeps.run codec roots events).2 :=
  ScanSweeps.run_invariant (P := fun state => Once state.2) once_init
    fun event _ _ h => once_step h (step_apply event)

end

end Sporos.Service.ScanOnce
