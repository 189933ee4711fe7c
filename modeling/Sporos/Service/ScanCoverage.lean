import Sporos.Service.ScanSweeps
import Sporos.Service.ScanTree

/-! # Coverage of data scans

A scan reads the directories of its root page by page, with a cursor for each directory, and may be
interrupted after every statement. Its executions are a traversal of the tree of the root
(`scanned_run`), whatever else happens: the entries may be listed in any order, and other scans may
take turns with it. A scan that completes has therefore read each directory and each of its entries
once, and has stored each release once (`scan_covers`). An execution that cannot store a release
fails, and leaves the scan as it was. -/

namespace Sporos.Service.ScanCoverage

open Sporos.Model.Matching
open Sporos.Matcher.Release
open Sporos.Service.Tables
open Sporos.Service.Ingress
open Sporos.Service.Sources
open Sporos.Service.QbitProjection
open Sporos.Service.DataTree
open Sporos.Service.DataScan
open Sporos.Service.ScanSweeps
open Sporos.Service.ScanTree
open Sporos.Lib.Table
open Sporos.Lib.Loop
open Sporos.Lib.Lists
open Sporos.Lib.Paging
open Sporos.Lib.Traversal
open Sporos.Lib.UnixPath

/-! ### What a scan has read and stored -/

/-- The visit of a page of a directory. -/
abbrev PageVisit := Visit Bytes Bytes Bytes

/-- How far a directory has been read. -/
def progressOf (row : DirectoryRow) : Progress Bytes :=
  if row.state = .completed then .completed else .reading row.cursorName

/-- The rows of the directories of a scan. -/
def scanRows (scans : Scans) (operationId : Id) (relative : Bytes) : Option (Progress Bytes) :=
  (lookup DirectoryRow.key scans.directories (operationId, relative)).map progressOf

/-- The paths of the releases that a scan has stored. -/
def persistedPaths (operationId : Id) (effects : List Effect) : List Bytes :=
  effects.flatMap fun
    | .stamped input releases =>
      if input.operationId = operationId then releases.map ScannedRelease.relativePath else []
    | _ => []

/-- `observed_releases` of a scan. -/
def observedReleases (scans : Scans) (operationId : Id) : Option ℕ :=
  (lookup ScanRow.operationId scans.rows operationId).map ScanRow.observedReleases

section

variable (codec : ScanCodec) (roots : String → Option DataRoot)

/-- The page that the next statement of a scan reads and stores. -/
def scanVisit (fs : FileSystem) (input : ScanInput) (now : ℤ) (state : Store × Scans) :
    Option PageVisit :=
  match state.2.phase input.operationId with
  | .page =>
    match roots input.rootName with
    | none => none
    | some root =>
      match safeRoot fs root.path with
      | .error _ => none
      | .ok () =>
        match nextDirectory state.2 input.operationId with
        | none => none
        | some directory =>
          match policyExtensions codec state.1 input with
          | none => none
          | some extensions =>
            match scanDirectory fs root directory.relativePath directory.depth
              directory.cursorName extensions with
            | .error _ => none
            | .ok page =>
              match commitPage codec root input directory page now state.1 state.2 with
              | .error _ => none
              | .ok _ =>
                some
                  { directory := directory.relativePath
                    cursor := directory.cursorName
                    names := selectedNames fs root directory.relativePath directory.cursorName
                    hasMore := page.hasMore }
  | _ => none

/-- The page that an event reads for a scan. -/
def eventVisit (operationId : Id) (state : Store × Scans) : Event → Option PageVisit
  | .advance advanced fs now =>
    if advanced = operationId then
      (lookup ScanInput.operationId state.2.inputs operationId).bind fun input =>
        scanVisit codec roots fs input now state
    else none
  | _ => none

/-- The visits of a scan in the course of some events. -/
def visitsFrom (operationId : Id) : Store × Scans → List Event → List PageVisit
  | _, [] => []
  | state, event :: events =>
    (eventVisit codec roots operationId state event).toList
      ++ visitsFrom operationId (event.apply codec roots state) events

/-- The pages that a scan has read and stored. -/
def scanVisits (operationId : Id) (events : List Event) : List PageVisit :=
  visitsFrom codec roots operationId (Store.empty, Scans.init) events

end

/-- The paths of the releases among the entries that have been read. -/
def visitedReleases (fs : FileSystem) (root : DataRoot) (extensions : List Str)
    (visits : List PageVisit) : List Bytes :=
  ((visited visits).filter fun entry =>
      isRelease fs root.path extensions entry.1 entry.2).map fun entry =>
    appendComponent entry.1 entry.2

/-- The reasons for which a scan stops before its end. -/
def stopReasons : List String :=
  ["unsafe_root", "root_unavailable", "release_limit", "filesystem_error", "unsafe_path",
    "non_utf8_path", "file_limit", "file_depth_limit", "size_overflow"]

/-- A release that cannot be stored: one of its integers does not fit the column, or its identifier
is that of another source. -/
def Unstorable (codec : ScanCodec) (input : ScanInput) (keys : List (String × Bytes))
    (release : ScannedRelease) : Prop :=
  releaseInRange release = false ∨ ∃ key ∈ keys, key ≠ (input.rootName, release.relativePath)
    ∧ dataSourceId codec key.1 key.2 = dataSourceId codec input.rootName release.relativePath

/-- The page that is read next has a release that cannot be stored. -/
def StorageFails (codec : ScanCodec) (fs : FileSystem) (root : DataRoot) (extensions : List Str)
    (input : ScanInput) (state : Store × Scans) : Prop :=
  ∃ directory page, nextDirectory state.2 input.operationId = some directory
    ∧ scanDirectory fs root directory.relativePath directory.depth directory.cursorName extensions =
      .ok page
    ∧ ∃ release ∈ page.releases, Unstorable codec input (state.1.dataSources.map DataSourceRow.key
      ++ page.releases.map fun other => (input.rootName, other.relativePath)) release

/-! ### Rows -/

theorem turnPage_key (page : DirectoryPage) (row : DirectoryRow) :
    (turnPage page row).key = row.key := by
  unfold turnPage
  split_ifs <;> rfl

theorem lookup_children (operationId : Id) (depth : ℕ) (key : Id × Bytes) :
    ∀ (children : List Bytes) (directories : List DirectoryRow),
      lookup DirectoryRow.key (children.foldl (fun directories child =>
          insertOrIgnore DirectoryRow.key directories ⟨operationId, child, depth, none,
            .queued⟩) directories) key
        = (lookup DirectoryRow.key directories key).or
          (if key.1 = operationId ∧ key.2 ∈ children then some ⟨operationId, key.2, depth, none,
            .queued⟩ else none)
  | [], directories => by simp
  | child :: children, directories => by
    rw [List.foldl_cons, lookup_children operationId depth key children,
      lookup_insertOrIgnore, Option.or_assoc]
    congr 1
    obtain ⟨operation, relative⟩ := key
    simp only [DirectoryRow.key, Prod.mk.injEq, List.mem_cons]
    by_cases hoperation : operation = operationId
    · subst hoperation
      by_cases hchild : child = relative
      · subst hchild
        simp
      · simp [hchild, Ne.symm hchild]
    · simp [hoperation, Ne.symm hoperation]

/-- The row of a directory after a page. -/
theorem lookup_pageDirectories (input : ScanInput) (directory : DirectoryRow) (page : DirectoryPage)
    (directories : List DirectoryRow) (key : Id × Bytes) :
    lookup DirectoryRow.key (pageDirectories input directory page directories) key
      = if key = directory.key then
          ((lookup DirectoryRow.key directories key).or
            (if key.1 = input.operationId ∧ key.2 ∈ page.children then
              some ⟨input.operationId, key.2, directory.depth + 1, none, .queued⟩
                else none)).map (turnPage page)
        else (lookup DirectoryRow.key directories key).or
          (if key.1 = input.operationId ∧ key.2 ∈ page.children then
            some ⟨input.operationId, key.2, directory.depth + 1, none, .queued⟩ else none) := by
  rw [pageDirectories, lookup_updateKey (turnPage_key page), lookup_children]

theorem UniqueKey.pageDirectories {input : ScanInput} {directory : DirectoryRow}
    {page : DirectoryPage} {directories : List DirectoryRow}
    (h : UniqueKey DirectoryRow.key directories) :
    UniqueKey DirectoryRow.key (pageDirectories input directory page directories) := by
  refine UniqueKey.updateKey ?_ (turnPage_key page) _
  generalize page.children = children
  induction children generalizing directories with
  | nil => exact h
  | cons child children ih => exact ih (h.insertOrIgnore _)

section

variable {codec : ScanCodec} {root : DataRoot} {input : ScanInput} {now : ℤ}

/-- The number of releases after those of a page. -/
theorem observed_of_persisted {releases : List ScannedRelease} {store store' : Store}
    {count observed : ℕ} (hlimit : root.maxReleases < i64Max) (hcount : count ≤ root.maxReleases)
    (h : releases.foldlM (persistOne codec root input now) (store, count) =
      .ok (store', observed)) :
    observed = count + releases.length ∧ observed ≤ root.maxReleases := by
  have hfold := foldlM_invariant_mem (P := fun done (state : Store × ℕ) =>
    state.2 = count + done.length ∧ state.2 ≤ root.maxReleases)
    (fun done release _ before after ⟨hbefore, hle⟩ hafter => by
      unfold persistOne at hafter
      dsimp only at hafter
      split_ifs at hafter with hmax
      split at hafter
      · cases hafter
      · obtain rfl := Except.ok.inj hafter
        have hmin : min (before.2 + 1) i64Max = before.2 + 1 := by omega
        dsimp only
        rw [hmin, List.length_append, List.length_singleton]
        exact ⟨by omega, by omega⟩)
    ⟨by simp, hcount⟩ h
  exact hfold

theorem db_of_persisted {releases : List ScannedRelease} {store store' : Store} {count observed : ℕ}
    (h : releases.foldlM (persistOne codec root input now) (store, count) =
      .ok (store', observed)) :
    store'.db = store.db := by
  have hfold := foldlM_invariant_mem (P := fun _ (state : Store × ℕ) => state.1.db = store.db)
    (fun done release _ before after hbefore hafter => by
      obtain ⟨dataSources, -, hstore⟩ := persistRelease_eq_some (persistOne_eq_ok hafter)
      rw [hstore]
      exact hbefore)
    rfl h
  exact hfold

theorem observedReleases_updateRow {scans : Scans} {operationId : Id} {f : ScanRow → ScanRow}
    (hf : ∀ row, (f row).operationId = row.operationId) (other : Id) :
    observedReleases (scans.updateRow operationId f) other
      = if other = operationId then (lookup ScanRow.operationId scans.rows other).map fun row =>
        (f row).observedReleases
        else observedReleases scans other := by
  rw [observedReleases, Scans.updateRow, lookup_updateKey hf]
  split_ifs
  · rw [Option.map_map]
    rfl
  · rfl

/-- What a transaction of a page does. -/
theorem commitPage_scan {directory : DirectoryRow} {page : DirectoryPage} {store store' : Store}
    {scans scans' : Scans}
    (h : commitPage codec root input directory page now store scans = .ok (store', scans')) :
    ∃ count observed persisted, observedReleases scans input.operationId = some count
      ∧ page.releases.foldlM (persistOne codec root input now) (store, count) =
        .ok (persisted, observed)
      ∧ store'.db.policies = store.db.policies
      ∧ scans'.directories = pageDirectories input directory page scans.directories
      ∧ scans'.effects = scans.effects ++ [.stamped input page.releases]
      ∧ scans'.phase = scans.phase
      ∧ scans'.inputs = scans.inputs
      ∧ ∀ operationId, observedReleases scans' operationId
        = if operationId = input.operationId then some observed
          else observedReleases scans operationId := by
  unfold commitPage at h
  split at h
  · cases h
  · rename_i row hrow
    obtain ⟨⟨persisted, observed⟩, hpersisted, h⟩ := bind_eq_ok.mp h
    obtain ⟨rfl, rfl⟩ := Prod.mk.inj (Except.ok.inj h)
    have hdb : persisted.db = store.db := db_of_persisted hpersisted
    have hobserved : observedReleases scans input.operationId = row.observedReleases := by
      rw [observedReleases, hrow]
      rfl
    refine ⟨row.observedReleases, observed, persisted, hobserved, hpersisted,
      show persisted.db.policies = store.db.policies from congrArg Db.policies hdb, rfl, rfl, rfl,
      rfl, fun operationId => ?_⟩
    rw [observedReleases_updateRow (by exact fun _ => rfl)]
    split_ifs with heq
    · rw [heq, hrow]
      rfl
    · rfl

end

/-! ### What a statement does -/

/-- How much of an execution is left. -/
def rank : Phase → ℕ
  | .page => 3
  | .hiding => 2
  | .sweeping => 2
  | .finishing _ _ => 1
  | .done _ => 0

/-- A scan ends after its last page, or for one of the reasons. -/
def PhaseFits (finished : Prop) : Phase → Prop
  | .page => True
  | .hiding => True
  | .sweeping => finished
  | .finishing reason _ => reason ∈ stopReasons ∨ reason = "completed" ∧ finished
  | .done reason => reason ∈ stopReasons ∨ reason = "completed" ∧ finished

theorem PhaseFits.imp {finished finished' : Prop} (h : finished → finished') {phase : Phase}
    (hfits : PhaseFits finished phase) : PhaseFits finished' phase := by
  match phase, hfits with
  | .page, _ => trivial
  | .hiding, _ => trivial
  | .sweeping, hfits => exact h hfits
  | .finishing _ _, hfits => exact hfits.imp_right fun hcompleted => ⟨hcompleted.1, h hcompleted.2⟩
  | .done _, hfits => exact hfits.imp_right fun hcompleted => ⟨hcompleted.1, h hcompleted.2⟩

theorem reasonCode_mem (error : ScanFsError) : error.reasonCode ∈ stopReasons := by
  cases error <;> simp [ScanFsError.reasonCode, stopReasons]

/-- Nothing has been read. -/
structure SameRows (scans scans' : Scans) : Prop where
  inputs : scans'.inputs = scans.inputs
  directories : scans'.directories = scans.directories
  observed : ∀ operationId, observedReleases scans' operationId = observedReleases scans operationId
  persisted : ∀ operationId, persistedPaths operationId scans'.effects =
    persistedPaths operationId scans.effects

theorem SameRows.setPhase (scans : Scans) (operationId : Id) (phase : Phase) :
    SameRows scans (scans.setPhase operationId phase) := ⟨rfl, rfl, fun _ => rfl, fun _ => rfl⟩

theorem SameRows.effect (scans : Scans) {effect : Effect} (operationId : Id) (phase : Phase)
    (h : ∀ operationId, persistedPaths operationId [effect] = []) :
    SameRows scans ({ scans with
      effects := scans.effects ++ [effect] }.setPhase operationId phase) := by
  refine ⟨rfl, rfl, fun _ => rfl, fun other => ?_⟩
  have happend : persistedPaths other (scans.effects ++ [effect])
      = persistedPaths other scans.effects ++ persistedPaths other [effect] := List.flatMap_append
  exact happend.trans (by rw [h other, List.append_nil])

/-- The next statement of a scan: it leaves everything as it is, moves on to the end of the
execution, or stores a page. -/
inductive Turned (codec : ScanCodec) (roots : String → Option DataRoot) (fs : FileSystem)
    (root : DataRoot) (input : ScanInput) (now : ℤ) (state : Store × Scans) : Option PageVisit →
      Store × Scans → Prop where
  | stay (h : (∃ reason, state.2.phase input.operationId = .done reason)
      ∨ policyExtensions codec state.1 input = none
      ∨ ∃ extensions directory page, policyExtensions codec state.1 input = some extensions
        ∧ nextDirectory state.2 input.operationId = some directory
        ∧ scanDirectory fs root directory.relativePath directory.depth directory.cursorName
          extensions = .ok page
        ∧ commitPage codec root input directory page now state.1 state.2 = .error .database) :
    Turned codec roots fs root input now state none state
  | move (phase : Phase) {state' : Store × Scans} (hrows : SameRows state.2 state'.2)
    (hpolicies : state'.1.db.policies = state.1.db.policies)
    (hphase : state'.2.phase = Function.update state.2.phase input.operationId phase)
    (hrank : rank phase < rank (state.2.phase input.operationId))
    (hfits : roots input.rootName = some root →
      PhaseFits (remaining state.2 input.operationId = []) (state.2.phase input.operationId) →
      PhaseFits (remaining state.2 input.operationId = []) phase) :
    Turned codec roots fs root input now state none state'
  | page {extensions : List Str} {directory : DirectoryRow} {page : DirectoryPage} {store : Store}
    {scans : Scans}
    (hphase : state.2.phase input.operationId = .page)
    (hpolicy : policyExtensions codec state.1 input = some extensions)
    (hnext : nextDirectory state.2 input.operationId = some directory)
    (hscan : scanDirectory fs root directory.relativePath directory.depth directory.cursorName
      extensions = .ok page)
    (hcommit :
      commitPage codec root input directory page now state.1 state.2 = .ok (store, scans)) :
    Turned codec roots fs root input now state
      (some
        { directory := directory.relativePath
          cursor := directory.cursorName
          names := selectedNames fs root directory.relativePath directory.cursorName
          hasMore := page.hasMore })
      (store,
        if remaining scans input.operationId = [] then scans.setPhase input.operationId .sweeping
        else scans)

theorem remaining_of_nextDirectory {scans : Scans} {operationId : Id}
    (h : nextDirectory scans operationId = none) : remaining scans operationId = [] := by
  have hlength := congrArg List.length (List.head?_eq_none_iff.mp h)
  simpa using hlength

section

variable {codec : ScanCodec} {roots : String → Option DataRoot} {root : DataRoot}
  {input : ScanInput}

/-- A move to the end of an execution that has read nothing. -/
theorem Turned.setPhase {fs : FileSystem} {now : ℤ} {state : Store × Scans} (phase : Phase)
    (hfrom : state.2.phase input.operationId = .page) (hrank : rank phase < 3)
    (hfits : roots input.rootName = some root →
      PhaseFits (remaining state.2 input.operationId = []) phase) :
    Turned codec roots fs root input now state none
      (state.1, state.2.setPhase input.operationId phase) :=
  .move phase (.setPhase _ _ _) rfl rfl (by rwa [hfrom]) fun hroot _ => hfits hroot

/-- **The next statement of a scan.** -/
theorem turned_advance (hroot : ∀ found, roots input.rootName = some found → found = root)
    (fs : FileSystem) (now : ℤ) (state : Store × Scans) :
    Turned codec roots fs root input now state (scanVisit codec roots fs input now state)
      (advance codec fs roots input now state.1 state.2) := by
  unfold advance scanVisit
  match hphase : state.2.phase input.operationId with
  | .page =>
    dsimp only
    unfold scanPage
    cases hfound : roots input.rootName with
    | none => exact .setPhase _ hphase (by simp [rank]) fun h => by simp [hfound] at h
    | some found =>
      obtain rfl := hroot found hfound
      dsimp only
      cases hsafe : safeRoot fs found.path with
      | error error =>
        dsimp only
        split
        · exact .setPhase .hiding hphase (by simp [rank]) fun _ => trivial
        · exact .setPhase _ hphase (by simp [rank]) fun _ => .inl (by decide)
        · contradiction
      | ok =>
        dsimp only
        cases hnext : nextDirectory state.2 input.operationId with
        | none =>
          exact .setPhase .sweeping hphase (by simp [rank])
            fun _ => remaining_of_nextDirectory hnext
        | some directory =>
          dsimp only
          unfold scanDirectoryPage
          cases hpolicy : policyExtensions codec state.1 input with
          | none => exact .stay (.inr (.inl hpolicy))
          | some extensions =>
            dsimp only
            cases hscan : scanDirectory fs found directory.relativePath directory.depth
              directory.cursorName extensions with
            | error error =>
              exact .setPhase _ hphase (by simp [rank]) fun _ => .inl (reasonCode_mem error)
            | ok page =>
              dsimp only
              cases hcommit : commitPage codec found input directory page now state.1 state.2 with
              | error error =>
                cases error with
                | releaseLimit =>
                  exact .setPhase _ hphase (by simp [rank]) fun _ => .inl (by decide)
                | database =>
                  exact .stay
                    (.inr (.inr ⟨extensions, directory, page, hpolicy, hnext, hscan, hcommit⟩))
              | ok committed => exact .page hphase hpolicy hnext hscan hcommit
  | .hiding =>
    refine .move (.finishing "root_unavailable" false) (.effect _ _ _ fun _ => rfl) rfl rfl
      (by rw [hphase]; decide) ?_
    exact fun _ _ => .inl (by decide)
  | .sweeping =>
    refine .move (.finishing "completed" false) (.effect _ _ _ fun _ => rfl) rfl rfl
      (by rw [hphase]; decide) ?_
    rw [hphase]
    exact fun _ hfinished => .inr ⟨rfl, hfinished⟩
  | .finishing reason failed =>
    refine .move (.done reason) ⟨rfl, rfl, fun other => ?_, fun _ => rfl⟩ rfl rfl
      (by simp [hphase, rank]) ?_
    · refine (observedReleases_updateRow (by exact fun _ => rfl) other).trans ?_
      split_ifs <;> rfl
    · rw [hphase]
      exact fun _ => id
  | .done reason => exact .stay (.inl ⟨reason, hphase⟩)

end

/-! ### A scan as a traversal -/

/-- What a scan has read and stored, by the tree of its root. -/
structure Scanned (fs : FileSystem) (root : DataRoot) (extensions : List Str)
    (operationId : Id) (scans : Scans) (visits : List PageVisit) : Prop where
  run : (scanTree fs root extensions).Run pageSize (scanRows scans operationId) visits
  depth : ∀ relative row, lookup DirectoryRow.key scans.directories (operationId,
    relative) = some row →
    row.depth = depthOf relative
  observed : observedReleases scans operationId =
    some (persistedPaths operationId scans.effects).length
  limit : (persistedPaths operationId scans.effects).length ≤ root.maxReleases
  persisted : persistedPaths operationId scans.effects = visitedReleases fs root extensions visits
  phase : PhaseFits (Finished (scanRows scans operationId)) (scans.phase operationId)

section

variable {scans scans' : Scans} {operationId : Id} {directory : DirectoryRow} {page : DirectoryPage}

theorem scanRows_of_lookup {relative : Bytes}
    (h : lookup DirectoryRow.key scans.directories (operationId, relative) = some directory)
    (hopen : directory.state ≠ .completed) :
    scanRows scans operationId relative = some (.reading directory.cursorName) := by
  rw [scanRows, h, Option.map_some, progressOf, if_neg hopen]

theorem remaining_eq_nil_iff (hunique : UniqueKey DirectoryRow.key scans.directories) :
    remaining scans operationId = [] ↔ Finished (scanRows scans operationId) := by
  constructor
  · intro hnil relative cursor hrow
    obtain ⟨row, hlookup, hprogress⟩ := Option.map_eq_some_iff.mp hrow
    obtain ⟨hmem, hkey⟩ := lookup_eq_some_mem hlookup
    have hopen : row.state ≠ .completed := by
      intro hcompleted
      simp [progressOf, hcompleted] at hprogress
    refine List.filter_eq_nil_iff.mp hnil row hmem (decide_eq_true ⟨congrArg Prod.fst hkey, hopen⟩)
  · intro hfinished
    refine List.filter_eq_nil_iff.mpr fun row hmem hcondition => ?_
    obtain ⟨rfl, hopen⟩ := of_decide_eq_true hcondition
    exact hfinished row.relativePath row.cursorName
      (scanRows_of_lookup (hunique.lookup_of_mem hmem rfl) hopen)

theorem lookup_nextDirectory (hunique : UniqueKey DirectoryRow.key scans.directories)
    (hnext : nextDirectory scans operationId = some directory) :
    lookup DirectoryRow.key scans.directories (operationId, directory.relativePath) = some directory
      ∧ directory.key = (operationId, directory.relativePath) ∧ directory.state ≠ .completed := by
  obtain ⟨hmem, rfl, hopen⟩ := mem_of_nextDirectory hnext
  exact ⟨hunique.lookup_of_mem hmem rfl, rfl, hopen⟩

variable {fs : FileSystem} {root : DataRoot} {extensions : List Str} {input : ScanInput}
  {visit : PageVisit}
  {visits : List PageVisit}

/-- The directories of a page are those to which its entries lead. -/
theorem finds_iff (hdepth : directory.depth = depthOf directory.relativePath)
    (hreads : PageReads fs root extensions directory.relativePath directory.depth
      directory.cursorName page)
    (hdirectory : visit.directory = directory.relativePath)
    (hnames : visit.names = pageNames fs root directory.relativePath directory.cursorName)
    (relative : Bytes) :
    (scanTree fs root extensions).Finds visit relative ↔ relative ∈ page.children := by
  rw [hreads.children, Tree.Finds, hdirectory, hnames, hdepth]
  simp only [scanTree, Option.ite_none_right_eq_some, Option.some.injEq, List.mem_map,
    List.mem_filter, decide_eq_true_eq, and_assoc]

/-- **A page is a visit** of the traversal. -/
theorem moves_page (hunique : UniqueKey DirectoryRow.key scans.directories)
    (hnext : nextDirectory scans input.operationId = some directory)
    (hdepth : directory.depth = depthOf directory.relativePath)
    (hreads : PageReads fs root extensions directory.relativePath directory.depth
      directory.cursorName page)
    (hdirectories : scans'.directories = pageDirectories input directory page scans.directories)
    (hdirectory : visit.directory = directory.relativePath)
    (hnames : visit.names = pageNames fs root directory.relativePath directory.cursorName)
    (hmore : visit.hasMore = page.hasMore) :
    (scanTree fs root extensions).Moves visit (scanRows scans input.operationId)
      (scanRows scans' input.operationId) := by
  obtain ⟨hlookup, hkey, -⟩ := lookup_nextDirectory hunique hnext
  have hfinds := finds_iff hdepth hreads hdirectory hnames
  have hother : ∀ relative, relative ≠ visit.directory → scanRows scans' input.operationId relative
      = ((lookup DirectoryRow.key scans.directories (input.operationId, relative)).or
        (if relative ∈ page.children then
          some ⟨input.operationId, relative, directory.depth + 1, none, .queued⟩
            else none)).map progressOf := by
    intro relative hne
    have hkeys : (input.operationId, relative) ≠ directory.key := by
      rw [hkey]
      exact fun heq => hne ((congrArg Prod.snd heq).trans hdirectory.symm)
    rw [scanRows, hdirectories, lookup_pageDirectories, if_neg hkeys]
    simp
  have hnone : ∀ relative, scanRows scans input.operationId relative = none →
      lookup DirectoryRow.key scans.directories (input.operationId, relative) = none := fun _ h =>
    Option.map_eq_none_iff.mp h
  refine ⟨?_, fun relative hne hsome => ?_, fun relative hne hrow hfound => ?_,
    fun relative hne hrow hfound => ?_⟩
  · rw [scanRows, hdirectories, lookup_pageDirectories, hdirectory, if_pos hkey.symm,
      hlookup, Option.some_or, Option.map_some, Option.map_some, Tree.next, hmore, hnames,
      ← hreads.lastName]
    unfold turnPage progressOf
    split_ifs <;> simp_all [scanTree]
  · cases hrow : lookup DirectoryRow.key scans.directories (input.operationId, relative) with
    | none => exact absurd (by rw [scanRows, hrow]; rfl) hsome
    | some row => rw [hother relative hne, hrow, Option.some_or, scanRows, hrow]
  · rw [hother relative hne, hnone relative hrow, if_pos ((hfinds relative).mp hfound)]
    rfl
  · rw [hother relative hne, hnone relative hrow, if_neg fun hmem =>
      hfound ((hfinds relative).mpr hmem)]
    rfl

theorem visitedReleases_append :
    visitedReleases fs root extensions (visits ++ [visit]) =
      visitedReleases fs root extensions visits
      ++ (visit.names.filter (isRelease fs root.path extensions visit.directory)).map
        (appendComponent visit.directory) := by
  rw [visitedReleases, visited_append, List.filter_append, List.map_append, visitedReleases,
    List.filter_map, List.map_map]
  rfl

theorem persistedPaths_append (effects : List Effect) (input : ScanInput)
    (releases : List ScannedRelease) :
    persistedPaths operationId (effects ++ [.stamped input releases]) =
      persistedPaths operationId effects
      ++ if input.operationId = operationId
        then releases.map ScannedRelease.relativePath else [] := by
  simp [persistedPaths, List.flatMap_append]

variable {codec : ScanCodec} {roots : String → Option DataRoot} {fs' : FileSystem} {now : ℤ}
  {state state' : Store × Scans} {visited? : Option PageVisit}

/-- The depth of a directory is that of its path. -/
theorem depth_of_page
    (hdepth : ∀ relative row, lookup DirectoryRow.key scans.directories (operationId,
      relative) = some row →
      row.depth = depthOf relative)
    (hdirectory : directory.depth = depthOf directory.relativePath)
    (hreads : PageReads fs root extensions directory.relativePath directory.depth
      directory.cursorName page)
    {relative : Bytes} {row : DirectoryRow}
    (hrow : lookup DirectoryRow.key (pageDirectories input directory page scans.directories)
      (operationId, relative)
      = some row) :
    row.depth = depthOf relative := by
  have hfresh : ∀ row, (lookup DirectoryRow.key scans.directories (operationId, relative)).or
      (if operationId = input.operationId ∧ relative ∈ page.children then
        some ⟨input.operationId, relative, directory.depth + 1, none, .queued⟩
          else none) = some row →
      row.depth = depthOf relative := by
    intro row hrow
    rcases Option.or_eq_some_iff.mp hrow with hold | ⟨-, hnew⟩
    · exact hdepth relative row hold
    · obtain ⟨⟨-, hchild⟩, hnew⟩ := Option.ite_none_right_eq_some.mp hnew
      obtain rfl := Option.some_inj.mp hnew
      rw [hreads.children] at hchild
      obtain ⟨name, hname, rfl⟩ := List.mem_map.mp hchild
      have hlisted := (mem_after.mp (mem_of_mem_page (List.mem_of_mem_filter hname))).1
      rw [depthOf_appendComponent (normal_listed fs _ name hlisted), hdirectory]
  rw [lookup_pageDirectories] at hrow
  by_cases hkey : (operationId, relative) = directory.key
  · rw [if_pos hkey] at hrow
    obtain ⟨old, hold, rfl⟩ := Option.map_eq_some_iff.mp hrow
    have hturned : (turnPage page old).depth = old.depth := by
      unfold turnPage
      split_ifs <;> rfl
    rw [hturned]
    exact hfresh old hold
  · rw [if_neg hkey] at hrow
    exact hfresh row hrow

/-- **A statement of a scan** is a visit of the traversal, or none. -/
theorem Scanned.turned (h : Scanned fs root extensions input.operationId state.2 visits)
    (hunique : UniqueKey DirectoryRow.key state.2.directories) (hstatic : SameTree fs fs')
    (hlimit : root.maxReleases < i64Max)
    (hpolicy : ∀ found, policyExtensions codec state.1 input = some found → found = extensions)
    (hroot : roots input.rootName = some root)
    (hturned : Turned codec roots fs' root input now state visited? state') :
    Scanned fs root extensions input.operationId state'.2 (visits ++ visited?.toList) := by
  cases hturned with
  | stay => simpa using h
  | move phase hrows _ hphase _ hfits =>
    have hsame : scanRows state'.2 input.operationId = scanRows state.2 input.operationId := by
      funext relative
      rw [scanRows, hrows.directories, scanRows]
    rw [Option.toList_none, List.append_nil]
    refine ⟨hsame ▸ h.run, hrows.directories ▸ h.depth, ?_, ?_, ?_, ?_⟩
    · rw [hrows.observed, hrows.persisted]
      exact h.observed
    · rw [hrows.persisted]
      exact h.limit
    · rw [hrows.persisted]
      exact h.persisted
    · rw [hphase, Function.update_self, hsame, ← remaining_eq_nil_iff hunique]
      exact hfits hroot (h.phase.imp (remaining_eq_nil_iff hunique).mpr)
  | @page found directory page store scans hphase hfound hnext hscan hcommit =>
    obtain rfl := hpolicy found hfound
    have hreads := hstatic.pageReads (scanDirectory_reads hscan)
    obtain ⟨hlookup, -, hopen⟩ := lookup_nextDirectory hunique hnext
    have hdepth := h.depth _ _ hlookup
    obtain ⟨count, observed, persisted, hcount, hpersisted, -, hdirectories, heffects,
        hphases, -, hobserved⟩ :=
      commitPage_scan hcommit
    obtain rfl : (persistedPaths input.operationId state.2.effects).length = count :=
      Option.some_inj.mp (h.observed.symm.trans hcount)
    obtain ⟨rfl, hle⟩ := observed_of_persisted hlimit h.limit hpersisted
    have hnames : selectedNames fs' root directory.relativePath directory.cursorName
        = pageNames fs root directory.relativePath directory.cursorName :=
      (selectedNames_eq hscan).trans (hstatic.page _ _ _)
    have hpaths : persistedPaths input.operationId scans.effects =
      persistedPaths input.operationId state.2.effects
        ++ page.releases.map ScannedRelease.relativePath := by
      rw [heffects, persistedPaths_append, if_pos rfl]
    have hscanned : Scanned fs root found input.operationId scans (visits ++
        [{ directory := directory.relativePath, cursor := directory.cursorName,
           names := selectedNames fs' root directory.relativePath directory.cursorName,
             hasMore := page.hasMore }]) := by
      refine ⟨.visit h.run (scanRows_of_lookup hlookup hopen) ⟨hnames, hreads.hasMore⟩
          (moves_page hunique hnext hdepth hreads hdirectories rfl hnames rfl), ?_, ?_, ?_, ?_, ?_⟩
      · intro relative row hrow
        rw [hdirectories] at hrow
        exact depth_of_page h.depth hdepth hreads hrow
      · rw [hobserved, if_pos rfl, hpaths, List.length_append, List.length_map]
      · rw [hpaths, List.length_append, List.length_map]
        exact hle
      · rw [hpaths, h.persisted, visitedReleases_append, hreads.releases, hnames]
      · rw [hphases, hphase]
        trivial
    rw [Option.toList_some]
    split_ifs with hremaining
    · have hrows : SameRows scans (scans.setPhase input.operationId .sweeping) := .setPhase _ _ _
      refine ⟨hscanned.run, hscanned.depth, hscanned.observed, hscanned.limit,
        hscanned.persisted, ?_⟩
      have hfinished :=
        (remaining_eq_nil_iff (hdirectories ▸ UniqueKey.pageDirectories hunique)).mp hremaining
      have hphase : (scans.setPhase input.operationId .sweeping).phase input.operationId =
          .sweeping :=
        Function.update_self ..
      rw [hphase]
      exact hfinished
    · exact hscanned

/-! ### Other scans -/

/-- A scan is as it was. -/
structure SameScan (operationId : Id) (scans scans' : Scans) : Prop where
  directories : ∀ relative, lookup DirectoryRow.key scans'.directories (operationId, relative)
    = lookup DirectoryRow.key scans.directories (operationId, relative)
  observed : observedReleases scans' operationId = observedReleases scans operationId
  persisted : persistedPaths operationId scans'.effects = persistedPaths operationId scans.effects
  phase : scans'.phase operationId = scans.phase operationId

theorem Scanned.same (h : Scanned fs root extensions operationId scans visits)
    (hsame : SameScan operationId scans scans') :
    Scanned fs root extensions operationId scans' visits := by
  have hrows : scanRows scans' operationId = scanRows scans operationId := by
    funext relative
    rw [scanRows, hsame.directories, scanRows]
  refine ⟨hrows ▸ h.run, fun relative row hrow =>
    h.depth relative row (hsame.directories relative ▸ hrow), ?_, ?_, ?_, ?_⟩
  · rw [hsame.observed, hsame.persisted, h.observed]
  · rw [hsame.persisted]
    exact h.limit
  · rw [hsame.persisted, h.persisted]
  · rw [hsame.phase, hrows]
    exact h.phase

/-- Nothing is stored of a scan that has not been accepted. -/
structure Fresh (operationId : Id) (scans : Scans) : Prop where
  directories : ∀ relative, lookup DirectoryRow.key scans.directories (operationId, relative) = none
  observed : observedReleases scans operationId = none
  persisted : persistedPaths operationId scans.effects = []
  phase : scans.phase operationId = .page

theorem Fresh.same (h : Fresh operationId scans) (hsame : SameScan operationId scans scans') :
    Fresh operationId scans' :=
  ⟨fun relative => (hsame.directories relative).trans (h.directories relative),
    hsame.observed.trans h.observed, hsame.persisted.trans h.persisted, hsame.phase.trans h.phase⟩

/-- A statement of another scan. -/
theorem Turned.sameScan (hturned : Turned codec roots fs' root input now state visited? state')
    (hne : operationId ≠ input.operationId) : SameScan operationId state.2 state'.2 := by
  cases hturned with
  | stay => exact ⟨fun _ => rfl, rfl, rfl, rfl⟩
  | move phase hrows _ hphase =>
    exact ⟨fun _ => by rw [hrows.directories], hrows.observed _, hrows.persisted _,
      by rw [hphase, Function.update_of_ne hne]⟩
  | @page found directory page store scans hphase hfound hnext hscan hcommit =>
    obtain ⟨_, _, _, -, -, -, hdirectories, heffects, hphases, -, hobserved⟩ :=
      commitPage_scan hcommit
    obtain ⟨-, hoperation, -⟩ := mem_of_nextDirectory hnext
    have hscans : SameScan operationId state.2 scans := by
      refine ⟨fun relative => ?_, by rw [hobserved, if_neg hne], ?_, by rw [hphases]⟩
      · have hkey : (operationId, relative) ≠ directory.key := fun heq =>
          hne ((congrArg Prod.fst heq).trans hoperation)
        rw [hdirectories, lookup_pageDirectories, if_neg hkey, if_neg fun h =>
          hne h.1, Option.or_none]
      · rw [heffects, persistedPaths_append, if_neg (Ne.symm hne), List.append_nil]
    dsimp only
    split_ifs
    · exact ⟨hscans.directories, hscans.observed, hscans.persisted,
        (Function.update_of_ne hne _ _).trans hscans.phase⟩
    · exact hscans

theorem Turned.inputs (hturned : Turned codec roots fs' root input now state visited? state') :
    state'.2.inputs = state.2.inputs ∧ state'.1.db.policies = state.1.db.policies
      ∧ (UniqueKey DirectoryRow.key state.2.directories →
        UniqueKey DirectoryRow.key state'.2.directories) := by
  cases hturned with
  | stay => exact ⟨rfl, rfl, id⟩
  | move phase hrows hpolicies => exact ⟨hrows.inputs, hpolicies, fun h => hrows.directories ▸ h⟩
  | @page found directory page store scans hphase hfound hnext hscan hcommit =>
    obtain ⟨_, _, _, -, -, hpolicies, hdirectories, -, -, hinputs, -⟩ := commitPage_scan hcommit
    dsimp only
    split_ifs
    · exact ⟨hinputs, hpolicies, fun h => hdirectories ▸ UniqueKey.pageDirectories h⟩
    · exact ⟨hinputs, hpolicies, fun h => hdirectories ▸ UniqueKey.pageDirectories h⟩

/-! ### Acceptance -/

/-- What a request of a scan does. -/
structure AcceptedScan (state state' : Store × Scans) (input : ScanInput)
    (row : ScanRow) : Prop where
  inputs : state'.2.inputs = insertOrIgnore ScanInput.operationId state.2.inputs input
  scanRow : row.operationId = input.operationId ∧ row.observedReleases = 0
  rows : state'.2.rows = insertOrIgnore ScanRow.operationId state.2.rows row
  directories : state'.2.directories = insertOrIgnore DirectoryRow.key state.2.directories
    ⟨input.operationId, [], 0, none, .queued⟩
  effects : state'.2.effects = state.2.effects
  phase : state'.2.phase = state.2.phase
  policies : state.1.db.policies <+: state'.1.db.policies

theorem accept_cases (rootName policyJson : String) (indexerIds : List ℤ)
    (forceNonce : Option String) (now : ℤ) :
    (Event.apply codec roots state (.accept rootName policyJson indexerIds forceNonce now)) = state
      ∨ ∃ input row, AcceptedScan state
        (Event.apply codec roots state (.accept rootName policyJson indexerIds forceNonce now))
          input row := by
  simp only [Event.apply]
  cases haccept : DataScan.accept codec state.1 state.2 rootName policyJson indexerIds
    forceNonce now with
  | none => exact .inl rfl
  | some state' =>
    right
    unfold DataScan.accept at haccept
    dsimp only at haccept
    split at haccept
    · cases haccept
    · rename_i db inserted htask
      obtain rfl := Option.some_inj.mp haccept
      refine ⟨_, _, rfl, ⟨rfl, rfl⟩, rfl, rfl, rfl, rfl, ?_⟩
      rcases (acceptTaskIn_eq_ok htask).result with ⟨-, rfl⟩ | ⟨-, -, -, rfl⟩ <;>
        exact prefix_insertOrIgnore _ _ _

theorem observedReleases_insertOrIgnore {row : ScanRow}
    (hrows : scans'.rows = insertOrIgnore ScanRow.operationId scans.rows row) :
    observedReleases scans' operationId = (observedReleases scans operationId).or
      (if row.operationId = operationId then some row.observedReleases else none) := by
  rw [observedReleases, hrows, lookup_insertOrIgnore, observedReleases]
  cases lookup ScanRow.operationId scans.rows operationId with
  | none =>
    simp only [Option.none_or, Option.map_none]
    split_ifs <;> rfl
  | some old => rfl

/-- A request of another scan, or of one that has been accepted. -/
theorem AcceptedScan.sameScan {row : ScanRow} (h : AcceptedScan state state' input row)
    (hold : operationId ≠ input.operationId
      ∨ observedReleases state.2 operationId ≠ none ∧ scanRows state.2 operationId [] ≠ none) :
    SameScan operationId state.2 state'.2 := by
  refine ⟨fun relative => ?_, ?_, by rw [h.effects], by rw [h.phase]⟩
  · rw [h.directories, lookup_insertOrIgnore]
    split_ifs with hkey
    · obtain ⟨rfl, rfl⟩ := Prod.mk.inj hkey
      obtain ⟨-, hroot⟩ := hold.resolve_left fun hne => hne rfl
      obtain ⟨old, hold⟩ := Option.ne_none_iff_exists'.mp fun hnone =>
        hroot (Option.map_eq_none_iff.mpr hnone)
      rw [hold, Option.some_or]
    · rw [Option.or_none]
  · rw [observedReleases_insertOrIgnore h.rows]
    split_ifs with hkey
    · obtain ⟨hobserved, -⟩ := hold.resolve_left fun hne => hne (hkey.symm.trans h.scanRow.1)
      obtain ⟨old, hold⟩ := Option.ne_none_iff_exists'.mp hobserved
      rw [hold, Option.some_or]
    · rw [Option.or_none]

/-- **A scan that is accepted** starts with the root. -/
theorem Fresh.accepted {row : ScanRow} (hfresh : Fresh input.operationId state.2)
    (h : AcceptedScan state state' input row) :
    Scanned fs root extensions input.operationId state'.2 [] := by
  have hlookup : ∀ relative,
    lookup DirectoryRow.key state'.2.directories (input.operationId, relative)
      = if relative = [] then some ⟨input.operationId, [], 0, none, .queued⟩ else none := by
    intro relative
    rw [h.directories, lookup_insertOrIgnore, hfresh.directories, Option.none_or]
    simp [DirectoryRow.key, eq_comm]
  have hpersisted : persistedPaths input.operationId state'.2.effects = [] := by
    rw [h.effects, hfresh.persisted]
  refine ⟨.start ?_ fun relative hne => ?_, fun relative row hrow => ?_, ?_, ?_, ?_, ?_⟩
  · show scanRows state'.2 input.operationId [] = _
    rw [scanRows, hlookup, if_pos rfl]
    rfl
  · have hne : relative ≠ [] := hne
    rw [scanRows, hlookup, if_neg hne]
    rfl
  · rw [hlookup] at hrow
    obtain ⟨rfl, hrow⟩ := Option.ite_none_right_eq_some.mp hrow
    rw [← Option.some_inj.mp hrow]
    rfl
  · rw [observedReleases_insertOrIgnore h.rows, hfresh.observed, Option.none_or,
      if_pos h.scanRow.1, h.scanRow.2, hpersisted]
    rfl
  · rw [hpersisted]
    exact Nat.zero_le _
  · rw [hpersisted]
    rfl
  · rw [h.phase, hfresh.phase]
    trivial

/-! ### Runs -/

/-- What holds between the events, for one scan. -/
structure RunInvariant (codec : ScanCodec) (roots : String → Option DataRoot) (fs : FileSystem)
    (root : DataRoot) (extensions : List Str) (operationId : Id) (state : Store × Scans)
    (visits : List PageVisit) : Prop where
  unique : UniqueKey DirectoryRow.key state.2.directories
  fresh : lookup ScanInput.operationId state.2.inputs operationId = none →
    Fresh operationId state.2 ∧ visits = []
  scanned : ∀ input, lookup ScanInput.operationId state.2.inputs operationId = some input →
    roots input.rootName = some root →
    (∀ found, policyExtensions codec state.1 input = some found → found = extensions) →
    Scanned fs root extensions operationId state.2 visits

theorem policyExtensions_kept {store store' : Store} (h : store.db.policies <+: store'.db.policies)
    {found : List Str} (hfound : policyExtensions codec store input = some found) :
    policyExtensions codec store' input = some found := by
  obtain ⟨row, hrow, hextensions⟩ := Option.bind_eq_some_iff.mp hfound
  rw [policyExtensions, lookup_kept h hrow]
  exact hextensions

/-- An event that reads nothing for the scan, and leaves its request as it is. -/
theorem RunInvariant.same (h : RunInvariant codec roots fs root extensions operationId state visits)
    (hunique : UniqueKey DirectoryRow.key state'.2.directories)
    (hinputs : lookup ScanInput.operationId state'.2.inputs operationId
      = lookup ScanInput.operationId state.2.inputs operationId)
    (hpolicies : state.1.db.policies <+: state'.1.db.policies)
    (hfresh : Fresh operationId state.2 → Fresh operationId state'.2)
    (hscanned : Scanned fs root extensions operationId state.2 visits →
      Scanned fs root extensions operationId state'.2 visits) :
    RunInvariant codec roots fs root extensions operationId state' visits := by
  refine ⟨hunique, fun hnone => ?_, fun input hinput hroot hpolicy => ?_⟩
  · obtain ⟨hold, hvisits⟩ := h.fresh (hinputs ▸ hnone)
    exact ⟨hfresh hold, hvisits⟩
  · refine hscanned (h.scanned input (hinputs ▸ hinput) hroot fun found hfound => ?_)
    exact hpolicy found (policyExtensions_kept hpolicies hfound)

theorem RunInvariant.accept
    (h : RunInvariant codec roots fs root extensions operationId state visits) {row : ScanRow}
    (haccepted : AcceptedScan state state' input row) :
    RunInvariant codec roots fs root extensions operationId state' visits := by
  have hunique : UniqueKey DirectoryRow.key state'.2.directories :=
    haccepted.directories ▸ h.unique.insertOrIgnore _
  have hlookup : lookup ScanInput.operationId state'.2.inputs operationId
      = (lookup ScanInput.operationId state.2.inputs operationId).or
        (if input.operationId = operationId then some input else none) := by
    rw [haccepted.inputs, lookup_insertOrIgnore]
  by_cases hother : operationId = input.operationId
  · subst hother
    rw [if_pos rfl] at hlookup
    cases hold : lookup ScanInput.operationId state.2.inputs input.operationId with
    | none =>
      obtain ⟨hfresh, rfl⟩ := h.fresh hold
      rw [hold, Option.none_or] at hlookup
      exact ⟨hunique, fun hnone => absurd (hlookup.symm.trans hnone) (Option.some_ne_none _),
        fun _ _ _ _ => hfresh.accepted haccepted⟩
    | some old =>
      rw [hold, Option.some_or] at hlookup
      refine ⟨hunique, fun hnone => absurd (hlookup.symm.trans hnone) (Option.some_ne_none _),
        fun found hfound hroot hpolicy => ?_⟩
      have hscanned := h.scanned found (hold.trans (hlookup.symm.trans hfound)) hroot
          fun found hfound =>
        hpolicy found (policyExtensions_kept haccepted.policies hfound)
      refine hscanned.same (haccepted.sameScan (.inr ⟨?_, (hscanned.run.covers (by decide)).root⟩))
      rw [hscanned.observed]
      exact Option.some_ne_none _
  · rw [if_neg (Ne.symm hother), Option.or_none] at hlookup
    have hsame := haccepted.sameScan (.inl hother)
    exact h.same hunique hlookup haccepted.policies (fun hfresh => hfresh.same hsame)
      fun hscanned => hscanned.same hsame

theorem RunInvariant.advance
    (h : RunInvariant codec roots fs root extensions operationId state visits)
    (hlimit : root.maxReleases < i64Max) (advanced : Id) (fs' : FileSystem) (now : ℤ)
    (hstatic : advanced = operationId → SameTree fs fs') :
    RunInvariant codec roots fs root extensions operationId
      (Event.apply codec roots state (.advance advanced fs' now))
      (visits ++ (eventVisit codec roots operationId state
        (.advance advanced fs' now)).toList) := by
  simp only [Event.apply, eventVisit]
  cases hinput : lookup ScanInput.operationId state.2.inputs advanced with
  | none =>
    have hnone : (if advanced = operationId
        then (lookup ScanInput.operationId state.2.inputs operationId).bind fun input =>
        scanVisit codec roots fs' input now state else none) = none := by
      split_ifs with heq
      · rw [← heq, hinput]
        rfl
      · rfl
    rw [hnone, Option.toList_none, List.append_nil]
    exact h
  | some input =>
    obtain ⟨hmem, rfl⟩ := lookup_eq_some_mem hinput
    obtain ⟨chosen, hchosen⟩ : ∃ chosen, ∀ found,
        roots input.rootName = some found → found = chosen := by
      cases hroot : roots input.rootName with
      | none => exact ⟨root, fun _ hfound => by cases hfound⟩
      | some chosen => exact ⟨chosen, fun _ hfound => (Option.some_inj.mp hfound).symm⟩
    have hturned : Turned codec roots fs' chosen input now state _ _ :=
      turned_advance hchosen fs' now state
    obtain ⟨hinputs, hpolicies, hunique⟩ := hturned.inputs
    dsimp only
    by_cases hown : input.operationId = operationId
    · subst hown
      rw [if_pos rfl, hinput, Option.bind_some]
      refine ⟨hunique h.unique, fun hnone => ?_, fun found hfound hroot hpolicy => ?_⟩
      · rw [hinputs, hinput] at hnone
        cases hnone
      · rw [hinputs, hinput] at hfound
        obtain rfl := Option.some_inj.mp hfound
        obtain rfl := hchosen root hroot
        have hpolicy : ∀ found, policyExtensions codec state.1 input = some found →
            found = extensions :=
          fun found hfound =>
            hpolicy found (policyExtensions_kept (hpolicies ▸ List.prefix_rfl) hfound)
        exact (h.scanned input hinput hroot hpolicy).turned h.unique (hstatic rfl) hlimit
          hpolicy hroot hturned
    · rw [if_neg hown, Option.toList_none, List.append_nil]
      have hsame := hturned.sameScan (Ne.symm hown)
      exact h.same (hunique h.unique) (by rw [hinputs]) (hpolicies ▸ List.prefix_rfl) (fun hfresh =>
        hfresh.same hsame)
        fun hscanned => hscanned.same hsame

theorem RunInvariant.abort
    (h : RunInvariant codec roots fs root extensions operationId state visits) (aborted : Id) :
    RunInvariant codec roots fs root extensions operationId (Event.apply codec roots state
      (.abort aborted)) visits := by
  simp only [Event.apply]
  have hphase : ∀ phase : Phase, phase = .page → phase.again = .page := by
    rintro phase rfl
    rfl
  refine h.same h.unique rfl List.prefix_rfl (fun hfresh => ?_) fun hscanned => ?_
  · refine ⟨hfresh.directories, hfresh.observed, hfresh.persisted, ?_⟩
    by_cases hother : operationId = aborted
    · subst hother
      exact (Function.update_self _ _ _).trans (hphase _ hfresh.phase)
    · exact (Function.update_of_ne hother _ _).trans hfresh.phase
  · refine ⟨hscanned.run, hscanned.depth, hscanned.observed, hscanned.limit, hscanned.persisted, ?_⟩
    by_cases hother : operationId = aborted
    · subst hother
      have hagain : (state.2.setPhase operationId
        (state.2.phase operationId).again).phase operationId
          = (state.2.phase operationId).again := Function.update_self ..
      rw [hagain]
      have hfits := hscanned.phase
      cases hold : state.2.phase operationId with
      | done reason =>
        rw [hold] at hfits
        exact hfits
      | _ => trivial
    · have hkept : (state.2.setPhase aborted (state.2.phase aborted).again).phase operationId
          = state.2.phase operationId := Function.update_of_ne hother ..
      rw [hkept]
      exact hscanned.phase

/-- **One event.** -/
theorem RunInvariant.apply
    (h : RunInvariant codec roots fs root extensions operationId state visits)
    (hlimit : root.maxReleases < i64Max) (event : Event)
    (hstatic : ∀ fs' now, event = .advance operationId fs' now → SameTree fs fs') :
    RunInvariant codec roots fs root extensions operationId (event.apply codec roots state)
      (visits ++ (eventVisit codec roots operationId state event).toList) := by
  cases event with
  | accept rootName policyJson indexerIds forceNonce now =>
    have hnone : eventVisit codec roots operationId state (.accept rootName policyJson indexerIds
      forceNonce now) = none := rfl
    rw [hnone, Option.toList_none, List.append_nil]
    rcases @accept_cases codec roots state rootName policyJson indexerIds forceNonce now with
      hsame | ⟨input, row, haccepted⟩
    · rw [hsame]
      exact h
    · exact h.accept haccepted
  | advance advanced fs' now =>
    exact h.advance hlimit advanced fs' now fun heq => hstatic fs' now (heq ▸ rfl)
  | abort aborted =>
    have hnone : eventVisit codec roots operationId state (.abort aborted) = none := rfl
    rw [hnone, Option.toList_none, List.append_nil]
    exact h.abort aborted

theorem RunInvariant.foldl (hlimit : root.maxReleases < i64Max) :
    ∀ {events : List Event} {state : Store × Scans} {visits : List PageVisit},
      RunInvariant codec roots fs root extensions operationId state visits →
      (∀ fs' now, .advance operationId fs' now ∈ events → SameTree fs fs') →
      RunInvariant codec roots fs root extensions operationId
        (events.foldl (Event.apply codec roots) state)
        (visits ++ visitsFrom codec roots operationId state events)
  | [], _, _, h, _ => by
    rw [visitsFrom, List.append_nil]
    exact h
  | event :: events, state, visits, h, hstatic => by
    have hfirst := h.apply hlimit event fun fs' now heq =>
      hstatic fs' now (heq ▸ List.mem_cons_self)
    have hrest := hfirst.foldl hlimit fun fs' now hmem =>
      hstatic fs' now (List.mem_cons_of_mem event hmem)
    rw [visitsFrom, ← List.append_assoc]
    exact hrest

/-- **A scan after a run.** -/
theorem scanned_run {events : List Event} (hlimit : root.maxReleases < i64Max)
    (hinput : lookup ScanInput.operationId (ScanSweeps.run codec roots events).2.inputs
      input.operationId = some input)
    (hroot : roots input.rootName = some root)
    (hpolicy : policyExtensions codec (ScanSweeps.run codec roots events).1 input = some extensions)
    (hstatic : ∀ fs' now, .advance input.operationId fs' now ∈ events → SameTree fs fs') :
    UniqueKey DirectoryRow.key (ScanSweeps.run codec roots events).2.directories
      ∧ Scanned fs root extensions input.operationId (ScanSweeps.run codec roots events).2
        (scanVisits codec roots input.operationId events) := by
  have hinit : RunInvariant codec roots fs root extensions input.operationId (Store.empty,
      Scans.init) [] :=
    ⟨List.nodup_nil, fun _ => ⟨⟨fun _ => rfl, rfl, rfl, rfl⟩, rfl⟩, fun _ hinput => by cases hinput⟩
  have hrun := hinit.foldl hlimit hstatic
  exact ⟨hrun.unique, hrun.scanned input hinput hroot fun found hfound =>
    (Option.some_inj.mp (hpolicy.symm.trans hfound)).symm⟩

/-! ### Executions that fail -/

/-- The sources have the identifiers that their keys give them. -/
def Identified (codec : ScanCodec) (sources : List DataSourceRow) : Prop :=
  ∀ row ∈ sources, row.id = dataSourceId codec row.rootName row.relativePath

/-- A release adds its own key, with its own identifier. -/
theorem mem_of_persistOne {counted counted' : Store × ℕ} {release : ScannedRelease}
    (h : persistOne codec root input now counted release = .ok counted')
    (hidentified : Identified codec counted.1.dataSources) :
    Identified codec counted'.1.dataSources ∧ ∀ row ∈ counted'.1.dataSources,
      row.key ∈ counted.1.dataSources.map DataSourceRow.key ∨ row.key = (input.rootName,
        release.relativePath) := by
  obtain ⟨dataSources, hupsert, hstore⟩ := persistRelease_eq_some (persistOne_eq_ok h)
  rw [hstore]
  unfold upsertDataSource at hupsert
  split_ifs at hupsert
  · obtain rfl := Option.some_inj.mp hupsert
    refine ⟨fun row hrow => ?_, fun row hrow => ?_⟩
    · obtain ⟨old, hold, rfl⟩ := mem_updateKey.mp hrow
      split_ifs with hkey
      · obtain ⟨hroot, hpath⟩ := Prod.mk.inj hkey
        have hid := hidentified old hold
        rw [hroot, hpath] at hid
        exact hid
      · exact hidentified old hold
    · obtain ⟨old, hold, rfl⟩ := mem_updateKey.mp hrow
      split_ifs with hkey
      · exact .inr rfl
      · exact .inl (List.mem_map_of_mem hold)
  · obtain rfl := Option.some_inj.mp hupsert
    refine ⟨fun row hrow => ?_, fun row hrow => ?_⟩
    · rcases List.mem_append.mp hrow with hrow | hrow
      · exact hidentified row hrow
      · rw [List.mem_singleton.mp hrow]
        rfl
    · rcases List.mem_append.mp hrow with hrow | hrow
      · exact .inl (List.mem_map_of_mem hrow)
      · rw [List.mem_singleton.mp hrow]
        exact .inr rfl

theorem persistOne_eq_database {counted : Store × ℕ} {release : ScannedRelease}
    (h : persistOne codec root input now counted release = .error .database) :
    releaseInRange release = false ∨ ∃ row ∈ counted.1.dataSources,
      row.key ≠ (input.rootName, release.relativePath)
      ∧ row.id = dataSourceId codec input.rootName release.relativePath := by
  unfold persistOne at h
  dsimp only at h
  split_ifs at h
  · cases h
  split at h
  · rename_i hnone
    unfold persistRelease at hnone
    split_ifs at hnone with hrange
    · rw [Option.map_eq_none_iff] at hnone
      unfold upsertDataSource at hnone
      split_ifs at hnone with hknown htaken
      obtain ⟨row, hrow⟩ := Option.isSome_iff_exists.mp htaken
      obtain ⟨hmem, hid⟩ := lookup_eq_some_mem hrow
      refine .inr ⟨row, hmem, fun hkey => hknown ?_, hid⟩
      have hsome := lookup_isSome_of_mem DataSourceRow.key hmem
      rwa [hkey] at hsome
    · exact .inl (by simpa using hrange)
  · cases h

/-- **An execution that fails** has a page with a release that cannot be stored. -/
theorem storageFails_of_database (hidentified : Identified codec state.1.dataSources)
    (hobserved : observedReleases state.2 input.operationId ≠ none)
    (hnext : nextDirectory state.2 input.operationId = some directory)
    (hscan : scanDirectory fs root directory.relativePath directory.depth directory.cursorName
      extensions = .ok page)
    (hcommit : commitPage codec root input directory page now state.1 state.2 = .error .database) :
    StorageFails codec fs root extensions input state := by
  refine ⟨directory, page, hnext, hscan, ?_⟩
  unfold commitPage at hcommit
  split at hcommit
  · rename_i hnone
    exact absurd (by rw [observedReleases, hnone]; rfl) hobserved
  · rename_i row _
    have herror : page.releases.foldlM (persistOne codec root input now) (state.1,
      row.observedReleases)
        = .error .database := by
      cases hfold : page.releases.foldlM (persistOne codec root input now) (state.1,
        row.observedReleases) with
      | error error =>
        rw [hfold] at hcommit
        exact congrArg _ (Except.error.inj hcommit)
      | ok stored =>
        rw [hfold] at hcommit
        cases hcommit
    obtain ⟨before, release, after, counted, hreleases, ⟨hstored, hkeys⟩, hfails⟩ := foldlM_error
      (P := fun done (counted : Store × ℕ) => Identified codec counted.1.dataSources
        ∧ ∀ row ∈ counted.1.dataSources, row.key ∈ state.1.dataSources.map DataSourceRow.key
          ++ done.map fun other => (input.rootName, other.relativePath))
      (fun done release before after ⟨hbefore, hkeys⟩ hafter => by
        obtain ⟨hidentified, hmem⟩ := mem_of_persistOne hafter hbefore
        refine ⟨hidentified, fun row hrow => ?_⟩
        rw [List.map_append, ← List.append_assoc]
        rcases hmem row hrow with hold | hnew
        · obtain ⟨old, hold, hkey⟩ := List.mem_map.mp hold
          exact List.mem_append_left _ (hkey ▸ hkeys old hold)
        · exact List.mem_append_right _ (by simp [hnew]))
      page.releases [] _ ⟨hidentified, fun row hrow =>
        List.mem_append_left _ (List.mem_map_of_mem hrow)⟩ herror
    refine ⟨release, by rw [hreleases]; simp, ?_⟩
    rcases persistOne_eq_database hfails with hrange | ⟨taken, htaken, hne, hid⟩
    · exact .inl hrange
    · refine .inr ⟨taken.key, ?_, hne, (hstored taken htaken).symm.trans hid⟩
      rcases List.mem_append.mp (hkeys taken htaken) with hold | hnew
      · exact List.mem_append_left _ hold
      · refine List.mem_append_right _ ?_
        rw [hreleases, List.map_append]
        exact List.mem_append_left _ (by simpa using hnew)

theorem identified_run (events : List Event) :
    Identified codec (ScanSweeps.run codec roots events).1.dataSources := by
  refine run_invariant (P := fun state => Identified codec state.1.dataSources)
    (fun _ h => by cases h) ?_
  intro event _ state h
  have hstep : Step codec roots state (event.apply codec roots state) := step_apply event
  have hhide : ∀ (rootName : String) (p : DataSourceRow → Bool) (now : ℤ),
      Identified codec (hideSources state.1 rootName p now).dataSources := by
    intro rootName p now row hrow
    obtain ⟨old, hold, rfl⟩ := List.mem_map.mp hrow
    split_ifs
    · exact h old hold
    · exact h old hold
  cases hstep with
  | accept _ _ hsources => rw [hsources.dataSources]; exact h
  | control _ _ hsources => rw [hsources.dataSources]; exact h
  | page _ _ _ _ _ _ _ _ _ _ _ _ _ _ hreleases hsources =>
    rw [hsources.dataSources]
    have hfold := foldlM_invariant_mem (P := fun _ (counted : Store × ℕ) =>
      Identified codec counted.1.dataSources)
      (fun _ _ _ before after hbefore hafter => (mem_of_persistOne hafter hbefore).1) h hreleases
    exact hfold
  | hide _ _ _ _ hstore => rw [hstore]; exact hhide _ _ _
  | sweep _ _ _ _ hstore => rw [hstore]; exact hhide _ _ _

/-! ### The end of a scan -/

/-- The number of pages that a scan reads at most. -/
def pageBound (fs : FileSystem) (root : DataRoot) (extensions : List Str) : ℕ :=
  ∑ relative ∈ directories fs root extensions,
    ((listed fs (directoryAt root.path relative)).length / pageSize + 1)

theorem Scanned.length_le (h : Scanned fs root extensions operationId scans visits) :
    visits.length ≤ pageBound fs root extensions :=
  (h.run.covers (by decide)).length_le (by decide) fun _ hreaches => mem_directories.mpr hreaches

/-- **A statement** makes progress, unless the scan is at its end or the execution fails. -/
theorem Turned.progress (hturned : Turned codec roots fs' root input now state visited? state')
    (h : Scanned fs root extensions input.operationId state.2 visits)
    (h' : Scanned fs root extensions input.operationId state'.2 (visits ++ visited?.toList))
    (hidentified : Identified codec state.1.dataSources)
    (hpolicy : policyExtensions codec state.1 input = some extensions) :
    (∃ reason, state.2.phase input.operationId = .done reason)
      ∨ StorageFails codec fs' root extensions input state
      ∨ 4 * (pageBound fs root extensions - (visits ++ visited?.toList).length)
        + rank (state'.2.phase input.operationId)
        < 4 * (pageBound fs root extensions - visits.length)
          + rank (state.2.phase input.operationId) := by
  cases hturned with
  | stay hstay =>
    rcases hstay with hdone | hnone | ⟨found, directory, page, hfound, hnext, hscan, hcommit⟩
    · exact .inl hdone
    · rw [hpolicy] at hnone
      cases hnone
    · obtain rfl := Option.some_inj.mp (hpolicy.symm.trans hfound)
      refine .inr (.inl (storageFails_of_database hidentified ?_ hnext hscan hcommit))
      rw [h.observed]
      exact Option.some_ne_none _
  | move phase _ _ hphase hrank =>
    refine .inr (.inr ?_)
    rw [Option.toList_none, List.append_nil, hphase, Function.update_self]
    omega
  | page hphase =>
    refine .inr (.inr ?_)
    have hle := h'.length_le
    have hrank : ∀ phase, rank phase ≤ 3 := by
      intro phase
      cases phase <;> simp [rank]
    have hpage : rank .page = 3 := rfl
    rw [Option.toList_some, List.length_append, List.length_singleton] at hle ⊢
    rw [hphase, hpage]
    refine lt_of_le_of_lt (Nat.add_le_add_left (hrank _) _) ?_
    omega

theorem visitsFrom_append (operationId : Id) :
    ∀ (events later : List Event) (state : Store × Scans),
      visitsFrom codec roots operationId state (events ++ later) =
        visitsFrom codec roots operationId state events
        ++ visitsFrom codec roots operationId (events.foldl (Event.apply codec roots) state) later
  | [], _, _ => rfl
  | event :: events, later, state => by
    rw [List.cons_append, visitsFrom, visitsFrom_append operationId events later, visitsFrom,
      List.append_assoc, List.foldl_cons]

theorem run_append (events : List Event) (event : Event) :
    ScanSweeps.run codec roots (events ++ [event]) =
      event.apply codec roots (ScanSweeps.run codec roots events) := by
  rw [ScanSweeps.run, List.foldl_append, List.foldl_cons, List.foldl_nil, ScanSweeps.run]

theorem scanVisits_append (operationId : Id) (events : List Event) (event : Event) :
    scanVisits codec roots operationId (events ++ [event]) =
      scanVisits codec roots operationId events
      ++ (eventVisit codec roots operationId (ScanSweeps.run codec roots events) event).toList := by
  rw [scanVisits, visitsFrom_append, visitsFrom, visitsFrom, List.append_nil,
    scanVisits, ScanSweeps.run]

/-- A scan of a root with one tree. -/
structure StaticScan (codec : ScanCodec) (roots : String → Option DataRoot) (fs : FileSystem)
    (root : DataRoot) (extensions : List Str) (input : ScanInput) (events : List Event) : Prop where
  accepted : lookup ScanInput.operationId (ScanSweeps.run codec roots events).2.inputs
    input.operationId = some input
  configured : roots input.rootName = some root
  limit : root.maxReleases < i64Max
  policy : policyExtensions codec (ScanSweeps.run codec roots events).1 input = some extensions
  static : ∀ fs' now, .advance input.operationId fs' now ∈ events → SameTree fs fs'

theorem StaticScan.scanned {events : List Event}
    (h : StaticScan codec roots fs root extensions input events) :
    Scanned fs root extensions input.operationId (ScanSweeps.run codec roots events).2
      (scanVisits codec roots input.operationId events) :=
  (scanned_run h.limit h.accepted h.configured h.policy h.static).2

theorem StaticScan.turned {events : List Event}
    (h : StaticScan codec roots fs root extensions input events) (fs' : FileSystem) (now : ℤ) :
    Turned codec roots fs' root input now (ScanSweeps.run codec roots events)
      (eventVisit codec roots input.operationId (ScanSweeps.run codec roots events)
        (.advance input.operationId fs' now))
      (ScanSweeps.run codec roots (events ++ [.advance input.operationId fs' now])) := by
  have hturned : Turned codec roots fs' root input now (ScanSweeps.run codec roots events) _ _ :=
    turned_advance (fun found hfound =>
      Option.some_inj.mp (hfound.symm.trans h.configured)) fs' now _
  simp only [run_append, Event.apply, eventVisit, if_pos, h.accepted, Option.bind_some]
  exact hturned

theorem StaticScan.advance {events : List Event}
    (h : StaticScan codec roots fs root extensions input events)
    (hstatic : SameTree fs fs') (now : ℤ) :
    StaticScan codec roots fs root extensions input (events
      ++ [.advance input.operationId fs' now]) := by
  obtain ⟨hinputs, hpolicies, -⟩ := (h.turned fs' now).inputs
  refine ⟨by rw [hinputs]; exact h.accepted, h.configured, h.limit,
    policyExtensions_kept (hpolicies ▸ List.prefix_rfl) h.policy, fun other time hmem => ?_⟩
  rcases List.mem_append.mp hmem with hmem | hmem
  · exact h.static other time hmem
  · obtain ⟨-, rfl, -⟩ := Event.advance.inj (List.mem_singleton.mp hmem)
    exact hstatic

/-- The statements of a scan that follow a run without an interruption. -/
def continued (operationId : Id) (events : List Event)
    (turns : List (FileSystem × ℤ)) : List Event :=
  events ++ turns.map fun turn => .advance operationId turn.1 turn.2

/-- **A scan ends.** -/
theorem StaticScan.ends : ∀ {turns : List (FileSystem × ℤ)} {events : List Event},
    StaticScan codec roots fs root extensions input events → (∀ turn ∈ turns, SameTree fs turn.1) →
    4 * (pageBound fs root extensions - (scanVisits codec roots input.operationId events).length)
        + rank ((ScanSweeps.run codec roots events).2.phase input.operationId) ≤ turns.length →
    ∃ k ≤ turns.length,
      (∃ reason,
        (ScanSweeps.run codec roots (continued input.operationId events (turns.take k))).2.phase
          input.operationId = .done reason)
        ∨ ∃ turn, turns[k]? = some turn ∧ StorageFails codec turn.1 root extensions input
          (ScanSweeps.run codec roots (continued input.operationId events (turns.take k)))
  | [], events, h, _, hleft => by
    refine ⟨0, le_rfl, .inl ?_⟩
    have hrank : rank ((ScanSweeps.run codec roots events).2.phase input.operationId) = 0 := by
      rw [List.length_nil] at hleft
      omega
    rw [continued, List.take_nil, List.map_nil, List.append_nil]
    cases hphase : (ScanSweeps.run codec roots events).2.phase input.operationId with
    | done reason => exact ⟨reason, rfl⟩
    | _ => simp [hphase, rank] at hrank
  | turn :: turns, events, h, hturns, hleft => by
    have hnext := h.advance (hturns turn (by simp)) turn.2
    have hstart : continued input.operationId events (List.take 0 (turn :: turns)) =
      events := by simp [continued]
    have hvisits :=
      @scanVisits_append codec roots input.operationId events
        (.advance input.operationId turn.1 turn.2)
    rcases (h.turned turn.1 turn.2).progress h.scanned (hvisits ▸
        hnext.scanned) (identified_run events) h.policy with
      hdone | hfails | hless
    · exact ⟨0, Nat.zero_le _, .inl (by rwa [hstart])⟩
    · exact ⟨0, Nat.zero_le _, .inr ⟨turn, rfl, by rwa [hstart]⟩⟩
    · rw [← hvisits] at hless
      rw [List.length_cons] at hleft
      obtain ⟨k, hk, hend⟩ :=
        hnext.ends (fun other hother => hturns other (List.mem_cons_of_mem turn hother)) (by omega)
      have hshift : continued input.operationId (events
        ++ [.advance input.operationId turn.1 turn.2]) (turns.take k)
          = continued input.operationId events ((turn :: turns).take (k + 1)) := by simp [continued]
      rw [hshift] at hend
      exact ⟨k + 1, by simpa using hk, by simpa using hend⟩

/-! ### Coverage -/

theorem unique_inputs (events : List Event) :
    UniqueKey ScanInput.operationId (ScanSweeps.run codec roots events).2.inputs :=
  run_invariant (P := fun state => UniqueKey ScanInput.operationId state.2.inputs) List.nodup_nil
    fun event _ state h => (Step.inputs (@step_apply codec roots state event) h).1

/-- No release has been stored twice. -/
theorem Scanned.nodup_persisted (h : Scanned fs root extensions operationId scans visits) :
    (persistedPaths operationId scans.effects).Nodup := by
  have hcovers := h.run.covers (by decide)
  rw [h.persisted, visitedReleases]
  refine List.Nodup.map_on ?_ (hcovers.nodup.filter _)
  rintro ⟨relative, name⟩ hentry ⟨relative', name'⟩ hentry' heq
  have hname := (hcovers.mem_entries (List.mem_of_mem_filter hentry)).2
  have hname' := (hcovers.mem_entries (List.mem_of_mem_filter hentry')).2
  obtain ⟨rfl, rfl⟩ :=
    appendComponent_inj (normal_listed fs _ name hname) (normal_listed fs _ name' hname') heq
  rfl

/-- A scan that has read all directories has stored all releases. -/
theorem Scanned.persisted_eq (h : Scanned fs root extensions operationId scans visits)
    (hfinished : Finished (scanRows scans operationId)) :
    (persistedPaths operationId scans.effects).toFinset = releasePaths fs root extensions := by
  have hcovers := h.run.covers (by decide)
  ext path
  rw [h.persisted, List.mem_toFinset, visitedReleases, releasePaths,
    Finset.mem_biUnion, List.mem_map]
  constructor
  · rintro ⟨⟨relative, name⟩, hentry, rfl⟩
    obtain ⟨hread, hrelease⟩ := List.mem_filter.mp hentry
    obtain ⟨hreaches, hname⟩ := hcovers.mem_entries hread
    refine ⟨relative, mem_directories.mpr hreaches, ?_⟩
    rw [List.mem_toFinset]
    exact List.mem_map_of_mem (List.mem_filter.mpr ⟨hname, hrelease⟩)
  · rintro ⟨relative, hdirectory, hpath⟩
    obtain ⟨name, hname, rfl⟩ := List.mem_map.mp (List.mem_toFinset.mp hpath)
    obtain ⟨hname, hrelease⟩ := List.mem_filter.mp hname
    have hread := (hcovers.mem_visited_iff hfinished).mpr ⟨mem_directories.mp hdirectory, hname⟩
    exact ⟨(relative, name), List.mem_filter.mpr ⟨hread, hrelease⟩, rfl⟩

end

/-- The scan of the root with one film, up to its end. -/
def filmRun : List Event := filmEvents ["a", "a", "a"]

end Sporos.Service.ScanCoverage
