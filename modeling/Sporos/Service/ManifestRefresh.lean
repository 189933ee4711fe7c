import Mathlib.Data.Prod.Lex
import Sporos.Lib.Lists
import Sporos.Service.QbitProjection

/-! # The refresh of manifests

`refresh_manifests` of `qbit_sync.rs` loads the manifests of the sources that are stale or whose
load has been interrupted, in the order of their last update. A load that fails ends the call, and
it leaves the source where it was in that order. So the sources whose loads succeed are loaded,
within as many calls as there are sources, if and only if none of them comes behind one whose load
fails (`refresh_iff`). -/

namespace Sporos.Service.ManifestRefresh

open Sporos.Service.Tables
open Sporos.Service.Inventory
open Sporos.Service.Sources
open Sporos.Service.QbitProjection
open Sporos.Lib.Table
open Sporos.Lib.Lists
open Sporos.Lib.Loop

/-- Why a round of the synchronisation fails. -/
inductive SyncError where
  | qbittorrent
  | projection (error : ProjectionError)
  | parse
  | nonContiguousFileIndex (expected actual : ℕ)
  | fileCountChanged
  deriving DecidableEq, Repr

/-- The body of a response: the files that the parser emits, and the count that it returns, if it
does not fail after them. -/
structure FilesBody where
  files : List InventoryFile
  parsed : Option ℕ
  deriving DecidableEq, Repr

/-- A call: its time, and what qBittorrent answers about the files of a torrent. A request without
an answer fails. -/
structure RefreshCall where
  now : ℤ
  torrentFiles : String → Option FilesBody

/-- The order of the query. -/
def staleOrder (row : TorrentRow) : ℤ ×ₗ ℕ := toLex (row.updatedAt, row.id.toNat)

/-- The sources that wait for their manifests. -/
def staleRows (store : Store) : List TorrentRow :=
  store.torrents.filter fun row =>
    row.available && (row.fileManifestState = .stale || row.fileManifestState = .loading)

/-- `stale_qbit_manifests`. -/
def staleQbitManifests (store : Store) (limit : ℕ) : Except ProjectionError (List Id) := do
  let limit ← toI64 limit "manifest limit"
  return (((staleRows store).insertionSort (ByKey staleOrder)).take limit).map TorrentRow.id

/-! ### Loads -/

/-- The loop over the files: those that are received are projected in batches, and the rest at the
end. What has been committed before an error stays. -/
def receiveFiles (databaseBatchSize : ℕ) (target : ManifestTarget) :
    List InventoryFile → List InventoryFile → ℕ → Store → Store × Except SyncError ℕ
  | [], batch, count, store =>
    if batch = [] then (store, .ok count)
    else
      match projectQbitFiles store target batch with
      | .error error => (store, .error (.projection error))
      | .ok store => (store, .ok count)
  | file :: files, batch, count, store =>
    if file.index ≠ count then (store, .error (.nonContiguousFileIndex count file.index))
    else if (batch ++ [file]).length = databaseBatchSize then
      match projectQbitFiles store target (batch ++ [file]) with
      | .error error => (store, .error (.projection error))
      | .ok store => receiveFiles databaseBatchSize target files [] (count + 1) store
    else receiveFiles databaseBatchSize target files (batch ++ [file]) (count + 1) store

/-- `load_manifest_inner`. -/
def loadManifestInner (databaseBatchSize : ℕ) (call : RefreshCall) (store : Store) (sourceId : Id) :
    Store × Except SyncError ℕ :=
  match prepareQbitManifest store sourceId with
  | .error error => (store, .error (.projection error))
  | .ok (store, target) =>
    match call.torrentFiles target.qbitId with
    | none => (store, .error .qbittorrent)
    | some body =>
      match receiveFiles databaseBatchSize target body.files [] 0 store with
      | (store, .error error) => (store, .error error)
      | (store, .ok count) =>
        match body.parsed with
        | none => (store, .error .parse)
        | some parsed =>
          if parsed ≠ count then (store, .error .fileCountChanged)
          else
            match finishQbitManifest store target count call.now with
            | .error error => (store, .error (.projection error))
            | .ok store => (store, .ok count)

/-- `load_manifest`: a manifest that cannot be loaded is stale again. -/
def loadManifest (databaseBatchSize : ℕ) (call : RefreshCall) (store : Store) (sourceId : Id) :
    Store × Except SyncError ℕ :=
  match loadManifestInner databaseBatchSize call store sourceId with
  | (store, .error error) => (failQbitManifest store sourceId, .error error)
  | (store, .ok count) => (store, .ok count)

/-- The loop over the sources. -/
def loadAll (databaseBatchSize : ℕ) (call : RefreshCall) : List Id → Store →
    Store × Except SyncError Unit
  | [], store => (store, .ok ())
  | sourceId :: sources, store =>
    match loadManifest databaseBatchSize call store sourceId with
    | (store, .error error) => (store, .error error)
    | (store, .ok _) => loadAll databaseBatchSize call sources store

/-- `refresh_manifests`. -/
def refreshManifests (databaseBatchSize limit : ℕ) (store : Store) (call : RefreshCall) :
    Store × Except SyncError ℕ :=
  match staleQbitManifests store limit with
  | .error error => (store, .error (.projection error))
  | .ok sources =>
    match loadAll databaseBatchSize call sources store with
    | (store, .error error) => (store, .error error)
    | (store, .ok ()) => (store, .ok sources.length)

/-- The store after calls with one limit. -/
def refreshes (databaseBatchSize limit : ℕ) (store : Store) (calls : List RefreshCall) : Store :=
  calls.foldl (fun store call => (refreshManifests databaseBatchSize limit store call).1) store

/-! ### The loads that succeed -/

/-- The load of a source succeeds: qBittorrent sends its files, all of them, in the order of their
indices, and the version, the sizes and the number of files are within their range. -/
def loads (call : RefreshCall) (row : TorrentRow) : Bool :=
  row.fileManifestVersion + 1 ≤ i64Max
    ∧ (call.torrentFiles row.qbitId).any fun body =>
      body.files.map InventoryFile.index = List.range body.files.length
        ∧ (∀ file ∈ body.files, file.size ≤ i64Max) ∧ body.parsed = some body.files.length
        ∧ body.files.length ≤ i64Max

section

variable {databaseBatchSize : ℕ} {call : RefreshCall} {store : Store} {target : ManifestTarget}

/-- The index and the size of a file are within the range of their columns. -/
def Fits (file : InventoryFile) : Prop := file.index ≤ i64Max ∧ file.size ≤ i64Max

theorem stageFile_cases (target : ManifestTarget) (files : List SourceFileRow)
    (file : InventoryFile) :
    (Fits file ∧ stageFile target files file
        = .ok (upsertFile files (stagedFile target file) (restage (stagedFile target file))))
      ∨ (¬ Fits file ∧ ∃ error, stageFile target files file = .error error) := by
  unfold stageFile toI64 Fits
  by_cases hindex : file.index > i64Max
  · rw [if_pos hindex]
    exact .inr ⟨by omega, _, rfl⟩
  · rw [if_neg hindex]
    by_cases hsize : file.size > i64Max
    · rw [if_pos hsize]
      exact .inr ⟨by omega, _, rfl⟩
    · rw [if_neg hsize]
      exact .inl ⟨⟨not_lt.mp hindex, not_lt.mp hsize⟩, rfl⟩

/-- A batch is projected if its files fit; the torrents stay as they are. -/
theorem projectQbitFiles_cases (store : Store) (hversion : target.version ≤ i64Max)
    (files : List InventoryFile) :
    ((∀ file ∈ files, Fits file) ∧ ∃ rows, projectQbitFiles store target files =
      .ok { store with files := rows })
      ∨ ((∃ file ∈ files, ¬ Fits file) ∧ ∃ error,
        projectQbitFiles store target files = .error error) := by
  have hfold : ∀ rows : List SourceFileRow,
      ((∀ file ∈ files, Fits file) ∧ ∃ rows', files.foldlM (stageFile target) rows = .ok rows')
        ∨ ((∃ file ∈ files, ¬ Fits file) ∧ ∃ error,
          files.foldlM (stageFile target) rows = .error error) := by
    induction files with
    | nil => exact fun rows => .inl ⟨by simp, rows, rfl⟩
    | cons file files ih =>
      intro rows
      rw [List.foldlM_cons]
      rcases stageFile_cases target rows file with ⟨hfits, hok⟩ | ⟨hnot, error, herror⟩
      · rw [hok]
        rcases ih (upsertFile rows (stagedFile target file) (restage (stagedFile target file)))
          with ⟨hall, rows', hrows'⟩ | ⟨⟨file', hfile', hnot⟩, error, herror⟩
        · exact .inl ⟨List.forall_mem_cons.mpr ⟨hfits, hall⟩, rows', hrows'⟩
        · exact .inr ⟨⟨file', List.mem_cons_of_mem _ hfile', hnot⟩, error, herror⟩
      · rw [herror]
        exact .inr ⟨⟨file, by simp, hnot⟩, error, rfl⟩
  unfold projectQbitFiles
  rw [toI64, if_neg (not_lt.mpr hversion)]
  rcases hfold store.files with ⟨hall, rows, hrows⟩ | ⟨hnot, error, herror⟩
  · exact .inl ⟨hall, rows, by simp only [bind, Except.bind, hrows]; rfl⟩
  · exact .inr ⟨hnot, error, by simp only [bind, Except.bind, herror]⟩

/-- **The files of a load**: they are all received if they come in order and fit. -/
theorem receiveFiles_cases (hversion : target.version ≤ i64Max)
    (files batch : List InventoryFile) (count : ℕ) (store : Store) :
    ∃ store' result, receiveFiles databaseBatchSize target files batch count store = (store',
      result)
      ∧ store'.torrents = store.torrents
      ∧ ((files.map InventoryFile.index = List.range' count files.length
        ∧ ∀ file ∈ batch ++ files, Fits file)
          ∧ result = .ok (count + files.length)
        ∨ ¬ (files.map InventoryFile.index = List.range' count files.length
          ∧ ∀ file ∈ batch ++ files, Fits file)
          ∧ ∃ error, result = .error error) := by
  induction files generalizing batch count store with
  | nil =>
    rw [receiveFiles]
    by_cases hbatch : batch = []
    · rw [if_pos hbatch]
      exact ⟨_, _, rfl, rfl, .inl ⟨by simp [hbatch], rfl⟩⟩
    · rw [if_neg hbatch]
      rcases projectQbitFiles_cases store hversion batch with ⟨hall, rows,
        hrows⟩ | ⟨⟨file, hfile, hnot⟩, error, herror⟩
      · rw [hrows]
        exact ⟨_, _, rfl, rfl, .inl ⟨⟨rfl, by simpa using hall⟩, rfl⟩⟩
      · rw [herror]
        exact ⟨_, _, rfl, rfl, .inr ⟨fun h => hnot (h.2 file (by simpa using hfile)), _, rfl⟩⟩
  | cons file files ih =>
    have hindices : (file :: files).map InventoryFile.index =
      List.range' count (file :: files).length
        ↔ file.index = count ∧ files.map InventoryFile.index =
          List.range' (count + 1) files.length := by
      simp [List.range'_succ]
    rw [receiveFiles]
    by_cases hindex : file.index = count
    · rw [if_neg (not_not.mpr hindex)]
      by_cases hfull : (batch ++ [file]).length = databaseBatchSize
      · rw [if_pos hfull]
        rcases projectQbitFiles_cases store hversion (batch ++ [file])
          with ⟨hall, rows, hrows⟩ | ⟨⟨file', hfile', hnot⟩, error, herror⟩
        · rw [hrows]
          obtain ⟨store', result, hreceive, htorrents, hcases⟩ :=
            ih [] (count + 1) { store with files := rows }
          refine ⟨store', result, hreceive, htorrents, ?_⟩
          have hiff : (∀ file' ∈ batch ++ file :: files, Fits file')
              ↔ ∀ file' ∈ [] ++ files, Fits file' := by
            rw [List.append_cons, List.forall_mem_append, List.nil_append]
            exact and_iff_right hall
          rw [hindices, hiff, and_iff_right hindex, List.length_cons,
            show count + (files.length + 1) = count + 1 + files.length by omega]
          exact hcases
        · rw [herror]
          refine ⟨_, _, rfl, rfl, .inr ⟨fun h => hnot (h.2 file' ?_), _, rfl⟩⟩
          rw [List.append_cons]
          exact List.mem_append_left _ hfile'
      · rw [if_neg hfull]
        obtain ⟨store', result, hreceive, htorrents, hcases⟩ :=
          ih (batch ++ [file]) (count + 1) store
        refine ⟨store', result, hreceive, htorrents, ?_⟩
        rw [hindices, List.append_cons, and_iff_right hindex, List.length_cons,
          show count + (files.length + 1) = count + 1 + files.length by omega]
        exact hcases
    · rw [if_pos hindex]
      exact ⟨_, _, rfl, rfl, .inr ⟨fun h => hindex (hindices.mp h.1).1, _, rfl⟩⟩

/-- The row of a source that is being loaded. -/
def loadingRow (row : TorrentRow) : TorrentRow := { row with fileManifestState := .loading }

/-- The row of a source whose load has failed. -/
def staleRow (row : TorrentRow) : TorrentRow := { row with fileManifestState := .stale }

theorem updateKey_loading (torrents : List TorrentRow) (id : Id) {g : TorrentRow → TorrentRow}
    (hg : ∀ row, g (loadingRow row) = g row) :
    updateKey TorrentRow.id (updateKey TorrentRow.id torrents id loadingRow) id g
      = updateKey TorrentRow.id torrents id g := by
  have hkey : ∀ row : TorrentRow, (loadingRow row).id = row.id := fun _ => rfl
  rw [updateKey_updateKey hkey, show g ∘ loadingRow = g from funext hg]

theorem prepareQbitManifest_cases (hids : UniqueKey TorrentRow.id store.torrents) {row : TorrentRow}
    (hrow : row ∈ store.torrents) (havailable : row.available = true) :
    (row.fileManifestVersion + 1 ≤ i64Max ∧ ∃ store', prepareQbitManifest store row.id
          = .ok (store', ⟨row.id, row.qbitId, row.fileManifestVersion + 1⟩)
        ∧ store'.torrents = updateKey TorrentRow.id store.torrents row.id loadingRow)
      ∨ (¬ row.fileManifestVersion + 1 ≤ i64Max ∧ ∃ error,
        prepareQbitManifest store row.id = .error error) := by
  have hfind : (store.torrents.find? fun row' => row'.id = row.id ∧ row'.available) = some row := by
    have hsome : (store.torrents.find? fun row' => row'.id = row.id
        ∧ row'.available).isSome = true :=
      List.find?_isSome.mpr ⟨row, hrow, by simp [havailable]⟩
    obtain ⟨row', hrow'⟩ := Option.isSome_iff_exists.mp hsome
    have hcondition := List.find?_some hrow'
    simp only [decide_eq_true_eq] at hcondition
    rw [hrow', List.inj_on_of_nodup_map hids (List.mem_of_find?_eq_some hrow') hrow hcondition.1]
  unfold prepareQbitManifest
  rw [hfind]
  simp only [toI64]
  by_cases hversion : row.fileManifestVersion + 1 ≤ i64Max
  · rw [if_neg (not_lt.mpr hversion)]
    exact .inl ⟨hversion, _, rfl, rfl⟩
  · rw [if_pos (not_le.mp hversion)]
    exact .inr ⟨hversion, _, rfl⟩

theorem finishQbitManifest_cases (store : Store) (hversion : target.version ≤ i64Max)
    (count : ℕ) (now : ℤ) :
    (count ≤ i64Max ∧ ∃ store', finishQbitManifest store target count now = .ok store'
        ∧ store'.torrents =
          updateKey TorrentRow.id store.torrents target.sourceId (publishedRow target.version now))
      ∨ (¬ count ≤ i64Max ∧ ∃ error, finishQbitManifest store target count now = .error error) := by
  unfold finishQbitManifest
  rw [toI64, if_neg (not_lt.mpr hversion), toI64]
  by_cases hcount : count ≤ i64Max
  · rw [if_neg (not_lt.mpr hcount)]
    exact .inl ⟨hcount, _, rfl, rfl⟩
  · rw [if_pos (not_le.mp hcount)]
    exact .inr ⟨hcount, _, rfl⟩

theorem loads_iff {row : TorrentRow} {body : FilesBody}
    (hversion : row.fileManifestVersion + 1 ≤ i64Max)
    (hanswer : call.torrentFiles row.qbitId = some body) :
    loads call row = true
      ↔ (body.files.map InventoryFile.index = List.range' 0 body.files.length
          ∧ ∀ file ∈ [] ++ body.files, Fits file)
        ∧ body.parsed = some body.files.length ∧ body.files.length ≤ i64Max := by
  simp only [loads, hanswer, Option.any_some, hversion, true_and, decide_eq_true_eq,
    ← List.range_eq_range', List.nil_append]
  constructor
  · rintro ⟨hindices, hsizes, hparsed, hlength⟩
    refine ⟨⟨hindices, fun file hfile => ⟨?_, hsizes file hfile⟩⟩, hparsed, hlength⟩
    have hindex : file.index ∈ List.range body.files.length := hindices ▸ List.mem_map_of_mem hfile
    exact (List.mem_range.mp hindex).le.trans hlength
  · rintro ⟨⟨hindices, hfits⟩, hparsed, hlength⟩
    exact ⟨hindices, fun file hfile => (hfits file hfile).2, hparsed, hlength⟩

/-- What a load does before it reports its failure, by its result. -/
def InnerResult (call : RefreshCall) (store : Store) (row : TorrentRow)
    (result : Store × Except SyncError ℕ) : Prop :=
  (loads call row = true ∧ (∃ count, result.2 = .ok count)
      ∧ result.1.torrents = updateKey TorrentRow.id store.torrents row.id
        (publishedRow (row.fileManifestVersion + 1) call.now))
    ∨ (loads call row = false ∧ (∃ error, result.2 = .error error)
      ∧ (result.1.torrents = store.torrents
        ∨ result.1.torrents = updateKey TorrentRow.id store.torrents row.id loadingRow))

theorem loadManifestInner_result (hids : UniqueKey TorrentRow.id store.torrents) {row : TorrentRow}
    (hrow : row ∈ store.torrents) (havailable : row.available = true) :
    InnerResult call store row (loadManifestInner databaseBatchSize call store row.id) := by
  unfold loadManifestInner
  rcases prepareQbitManifest_cases hids hrow havailable
    with ⟨hversion, store₁, hprepare, htorrents₁⟩ | ⟨hversion, error, hprepare⟩
  · rw [hprepare]
    simp only
    cases hanswer : call.torrentFiles row.qbitId with
    | none => exact .inr ⟨by simp [loads, hanswer], ⟨_, rfl⟩, .inr htorrents₁⟩
    | some body =>
      obtain ⟨store₂, result, hreceive, htorrents₂, hcases⟩ := @receiveFiles_cases databaseBatchSize
        ⟨row.id, row.qbitId, row.fileManifestVersion + 1⟩ hversion body.files [] 0 store₁
      have hloads := loads_iff hversion hanswer
      have htorrents := htorrents₂.trans htorrents₁
      simp only [hreceive]
      rcases hcases with ⟨hfiles, rfl⟩ | ⟨hfiles, error, rfl⟩
      · rw [and_iff_right hfiles] at hloads
        simp only [Nat.zero_add]
        cases hparsed : body.parsed with
        | none => exact .inr ⟨by simpa [hparsed] using hloads, ⟨_, rfl⟩, .inr htorrents⟩
        | some parsed =>
          rw [hparsed, Option.some_inj] at hloads
          simp only
          by_cases hcount : parsed = body.files.length
          · rw [if_neg (not_not.mpr hcount)]
            rw [and_iff_right hcount] at hloads
            rcases @finishQbitManifest_cases ⟨row.id, row.qbitId,
              _⟩ store₂ hversion body.files.length call.now
              with ⟨hlength, store₃, hfinish, htorrents₃⟩ | ⟨hlength, error, hfinish⟩
            · rw [hfinish]
              refine .inl ⟨hloads.mpr hlength, ⟨_, rfl⟩, ?_⟩
              rw [htorrents₃, htorrents]
              exact updateKey_loading _ _ fun _ => rfl
            · rw [hfinish]
              exact .inr ⟨by simpa using mt hloads.mp hlength, ⟨_, rfl⟩, .inr htorrents⟩
          · rw [if_pos hcount]
            exact .inr ⟨by simpa [hcount] using hloads, ⟨_, rfl⟩, .inr htorrents⟩
      · exact .inr ⟨Bool.eq_false_iff.mpr fun h => hfiles (hloads.mp h).1, ⟨_, rfl⟩, .inr htorrents⟩
  · rw [hprepare]
    exact .inr ⟨by simp [loads, hversion], ⟨_, rfl⟩, .inl rfl⟩

/-- What a load does to the torrents, by its result. -/
def LoadResult (call : RefreshCall) (store : Store) (row : TorrentRow)
    (result : Store × Except SyncError ℕ) : Prop :=
  (loads call row = true ∧ (∃ count, result.2 = .ok count)
      ∧ result.1.torrents = updateKey TorrentRow.id store.torrents row.id
        (publishedRow (row.fileManifestVersion + 1) call.now))
    ∨ (loads call row = false ∧ (∃ error, result.2 = .error error)
      ∧ result.1.torrents = updateKey TorrentRow.id store.torrents row.id staleRow)

/-- **A load** publishes the manifest of the source, or leaves the source stale. -/
theorem loadManifest_result (hids : UniqueKey TorrentRow.id store.torrents) {row : TorrentRow}
    (hrow : row ∈ store.torrents) (havailable : row.available = true) :
    LoadResult call store row (loadManifest databaseBatchSize call store row.id) := by
  have hinner := @loadManifestInner_result databaseBatchSize call store hids row hrow havailable
  unfold loadManifest
  generalize loadManifestInner databaseBatchSize call store row.id = inner at hinner
  obtain ⟨store', result⟩ := inner
  rcases hinner with ⟨hloads, ⟨count, hok⟩, htorrents⟩ | ⟨hloads, ⟨error, herror⟩, htorrents⟩
  · obtain rfl : result = .ok count := hok
    exact .inl ⟨hloads, ⟨count, rfl⟩, htorrents⟩
  · obtain rfl : result = .error error := herror
    refine .inr ⟨hloads, ⟨error, rfl⟩, ?_⟩
    have hfailed : (failQbitManifest store' row.id).torrents
        = updateKey TorrentRow.id store'.torrents row.id staleRow := rfl
    rw [hfailed]
    rcases htorrents with hsame | hloading
    · rw [hsame]
    · rw [hloading]
      exact updateKey_loading _ _ fun _ => rfl

/-! ### Calls -/

/-- A row after a call that loads sources one after the other until a load fails. -/
def afterLoads (call : RefreshCall) : List TorrentRow → TorrentRow → TorrentRow
  | [], row => row
  | first :: rows, row =>
    if loads call first then
      if row.id = first.id then publishedRow (first.fileManifestVersion + 1) call.now row
      else afterLoads call rows row
    else if row.id = first.id then staleRow row
    else row

theorem afterLoads_of_notMem {rows : List TorrentRow} {row : TorrentRow}
    (h : row.id ∉ rows.map TorrentRow.id) : afterLoads call rows row = row := by
  induction rows with
  | nil => rfl
  | cons first rows ih =>
    obtain ⟨hfirst, hrows⟩ : row.id ≠ first.id ∧ row.id ∉ rows.map TorrentRow.id := by simpa using h
    simp only [afterLoads, if_neg hfirst, ih hrows, ite_self]

/-- A source behind one whose load fails is left alone. -/
theorem afterLoads_behind {before after : List TorrentRow} {failing row : TorrentRow}
    (hfails : loads call failing = false) (hbefore : row.id ∉ before.map TorrentRow.id)
    (hne : row.id ≠ failing.id) : afterLoads call (before ++ failing :: after) row = row := by
  induction before with
  | nil => simp [afterLoads, hfails, hne]
  | cons first before ih =>
    obtain ⟨hfirst, hrest⟩ : row.id ≠ first.id ∧ row.id ∉ before.map TorrentRow.id := by
      simpa using hbefore
    simp only [List.cons_append, afterLoads, if_neg hfirst, ih hrest, ite_self]

/-- A source that loads, behind sources that load, is published. -/
theorem afterLoads_reached {before after : List TorrentRow} {row : TorrentRow}
    (hbefore : ∀ other ∈ before, loads call other = true) (hloads : loads call row = true)
    (hne : row.id ∉ before.map TorrentRow.id) :
    afterLoads call (before ++ row :: after) row =
      publishedRow (row.fileManifestVersion + 1) call.now row := by
  induction before with
  | nil => simp [afterLoads, hloads]
  | cons first before ih =>
    obtain ⟨hfirst, hrest⟩ : row.id ≠ first.id
      ∧ row.id ∉ before.map TorrentRow.id := by simpa using hne
    rw [List.cons_append, afterLoads, if_pos (hbefore first (by simp)), if_neg hfirst]
    exact ih (fun other hother => hbefore other (List.mem_cons_of_mem _ hother)) hrest

/-- A source whose load fails is left alone or is stale. -/
theorem afterLoads_failing {rows : List TorrentRow} {row : TorrentRow}
    (hfails : ∀ other ∈ rows, other.id = row.id → loads call other = false) :
    afterLoads call rows row = row ∨ afterLoads call rows row = staleRow row := by
  induction rows with
  | nil => exact .inl rfl
  | cons first rows ih =>
    rw [afterLoads]
    by_cases hid : row.id = first.id
    · rw [if_neg (by simp [hfails first (by simp) hid.symm]), if_pos hid]
      exact .inr rfl
    · rw [if_neg hid, if_neg hid]
      split_ifs
      · exact ih fun other hother => hfails other (List.mem_cons_of_mem _ hother)
      · exact .inl rfl

theorem afterLoads_id (rows : List TorrentRow) (row : TorrentRow) :
    (afterLoads call rows row).id = row.id := by
  induction rows with
  | nil => rfl
  | cons first rows ih =>
    rw [afterLoads]
    split_ifs
    · rfl
    · exact ih
    · rfl
    · rfl

/-- **The loop** changes the rows as `afterLoads` says. -/
theorem loadAll_torrents (rows : List TorrentRow) (store : Store)
    (hids : UniqueKey TorrentRow.id store.torrents) (hdistinct : (rows.map TorrentRow.id).Nodup)
    (hrows : ∀ row ∈ rows, row ∈ store.torrents ∧ row.available = true) :
    (loadAll databaseBatchSize call (rows.map TorrentRow.id) store).1.torrents
      = store.torrents.map (afterLoads call rows) := by
  induction rows generalizing store with
  | nil => simp [loadAll, afterLoads]
  | cons first rows ih =>
    obtain ⟨hfirst, hdistinct⟩ := List.nodup_cons.mp hdistinct
    have hresult :=
      @loadManifest_result databaseBatchSize call store hids first (hrows first (by simp)).1
      (hrows first (by simp)).2
    rw [List.map_cons, loadAll]
    generalize loadManifest databaseBatchSize call store first.id = load at hresult
    obtain ⟨store', result⟩ := load
    rcases hresult with ⟨hloads, ⟨count, hok⟩, htorrents⟩ | ⟨hloads, ⟨error, herror⟩, htorrents⟩
    · obtain rfl : result = .ok count := hok
      have hne : ∀ row ∈ rows, row.id ≠ first.id := fun row hrow heq =>
        hfirst (heq ▸ List.mem_map_of_mem hrow)
      have hids' : UniqueKey TorrentRow.id store'.torrents := by
        rw [htorrents]
        exact hids.updateKey (publishedRow_id _ _) _
      simp only
      rw [ih store' hids' hdistinct fun row hrow =>
        ⟨?_, (hrows row (List.mem_cons_of_mem _ hrow)).2⟩]
      · rw [htorrents, updateKey, List.map_map]
        refine List.map_congr_left fun row _ => ?_
        simp only [Function.comp, afterLoads, hloads, if_true]
        by_cases hid : row.id = first.id
        · rw [if_pos hid, if_pos hid, afterLoads_of_notMem]
          rwa [publishedRow_id, hid]
        · rw [if_neg hid, if_neg hid]
      · rw [htorrents, mem_updateKey]
        exact ⟨row, (hrows row (List.mem_cons_of_mem _ hrow)).1, by rw [if_neg (hne row hrow)]⟩
    · obtain rfl : result = .error error := herror
      simp only
      rw [htorrents, updateKey]
      refine List.map_congr_left fun row _ => ?_
      simp [afterLoads, hloads]

/-- The sources that a call takes. -/
def batch (limit : ℕ) (store : Store) : List TorrentRow :=
  ((staleRows store).insertionSort (ByKey staleOrder)).take limit

theorem mem_staleRows {row : TorrentRow} : row ∈ staleRows store ↔ row ∈ store.torrents
    ∧ row.available = true
    ∧ (row.fileManifestState = .stale ∨ row.fileManifestState = .loading) := by
  simp [staleRows]

theorem nodup_staleOrder (hids : UniqueKey TorrentRow.id store.torrents) :
    ((staleRows store).map staleOrder).Nodup := by
  have hstale : ((staleRows store).map TorrentRow.id).Nodup :=
    hids.sublist (List.filter_sublist.map _)
  rw [List.Nodup, List.pairwise_map] at hstale ⊢
  refine hstale.imp fun hne heq => hne ?_
  exact BitVec.eq_of_toNat_eq (congrArg Prod.snd heq)

theorem nodup_batch (hids : UniqueKey TorrentRow.id store.torrents) (limit : ℕ) :
    ((batch limit store).map TorrentRow.id).Nodup :=
  nodup_take_insertionSort (hids.sublist (List.filter_sublist.map _)) staleOrder _

/-- **A call** changes the rows of its batch, if its limit is within the range of the query. -/
theorem refreshManifests_torrents (hids : UniqueKey TorrentRow.id store.torrents) (limit : ℕ) :
    (refreshManifests databaseBatchSize limit store call).1.torrents
      = if limit ≤ i64Max then store.torrents.map (afterLoads call (batch limit store))
        else store.torrents := by
  unfold refreshManifests staleQbitManifests toI64
  by_cases hlimit : limit ≤ i64Max
  · rw [if_pos hlimit, if_neg (not_lt.mpr hlimit)]
    have hloop :=
      @loadAll_torrents databaseBatchSize call (batch limit store) store hids
        (nodup_batch hids limit)
      fun row hrow => by
        have hmem := mem_staleRows.mp (mem_of_mem_take_insertionSort hrow)
        exact ⟨hmem.1, hmem.2.1⟩
    rw [← hloop]
    simp only [bind, Except.bind, pure, Except.pure]
    rw [show (((staleRows store).insertionSort (ByKey staleOrder)).take limit) =
      batch limit store from rfl]
    generalize loadAll databaseBatchSize call ((batch limit store).map TorrentRow.id) store = result
    obtain ⟨store', _ | _⟩ := result <;> rfl
  · rw [if_neg hlimit, if_pos (not_le.mp hlimit)]
    rfl

theorem unique_refreshManifests (hids : UniqueKey TorrentRow.id store.torrents) (limit : ℕ)
    (call : RefreshCall) :
    UniqueKey TorrentRow.id (refreshManifests databaseBatchSize limit store call).1.torrents := by
  refine hids.of_map_eq ?_
  rw [refreshManifests_torrents hids]
  split_ifs
  · rw [List.map_map]
    exact List.map_congr_left fun row _ => afterLoads_id _ row
  · rfl

/-- A row of the store with the identifier of one of the batch is that one. -/
theorem mem_batch_of_id (hids : UniqueKey TorrentRow.id store.torrents) {limit : ℕ}
    {row : TorrentRow} (hrow : row ∈ store.torrents)
    (hid : row.id ∈ (batch limit store).map TorrentRow.id) : row ∈ batch limit store := by
  obtain ⟨other, hother, heq⟩ := List.mem_map.mp hid
  have hmem := (mem_staleRows.mp (mem_of_mem_take_insertionSort hother)).1
  rwa [← List.inj_on_of_nodup_map hids hmem hrow heq]

/-- A source behind one whose load fails is left alone by a call. -/
theorem afterLoads_blocked (hids : UniqueKey TorrentRow.id store.torrents) {limit : ℕ}
    {failing row : TorrentRow} (hfailing : failing ∈ staleRows store)
    (hfails : loads call failing = false) (hrow : row ∈ store.torrents)
    (hlt : staleOrder failing < staleOrder row) :
    afterLoads call (batch limit store) row = row := by
  by_cases hbatch : row ∈ batch limit store
  · obtain ⟨before, after, hsplit⟩ := List.append_of_mem hbatch
    have hbefore := (mem_before_iff (nodup_staleOrder hids) hsplit).mpr ⟨hfailing, hlt⟩
    obtain ⟨before₁, before₂, rfl⟩ := List.append_of_mem hbefore
    have hdistinct := nodup_batch hids limit
    rw [hsplit, List.append_assoc, List.cons_append] at hdistinct ⊢
    rw [List.map_append, List.map_cons, List.map_append, List.map_cons] at hdistinct
    refine afterLoads_behind hfails (fun hin => ?_) fun heq => ?_
    · exact (List.nodup_append.mp hdistinct).2.2 _ hin _ (by simp) rfl
    · rw [← heq] at hdistinct
      exact (List.nodup_cons.mp (List.nodup_append.mp hdistinct).2.1).1 (by simp)
  · exact afterLoads_of_notMem fun hid => hbatch (mem_batch_of_id hids hrow hid)

/-- The manifest of the source is loaded. -/
def IsLoaded (store : Store) (id : Id) : Prop :=
  ∃ row ∈ store.torrents, row.id = id ∧ row.fileManifestState = .loaded

theorem not_isLoaded_of_stale (hids : UniqueKey TorrentRow.id store.torrents) {row : TorrentRow}
    (hrow : row ∈ staleRows store) : ¬ IsLoaded store row.id := by
  rintro ⟨other, hother, hid, hloaded⟩
  obtain ⟨hmem, -, hstate⟩ := mem_staleRows.mp hrow
  rw [List.inj_on_of_nodup_map hids hother hmem hid] at hloaded
  rw [hloaded] at hstate
  rcases hstate with hstate | hstate <;> cases hstate

/-- **A source behind one that always fails** is never loaded. -/
theorem not_isLoaded_refreshes {limit : ℕ} {row : TorrentRow}
    (calls : List RefreshCall) {store : Store} (hids : UniqueKey TorrentRow.id store.torrents)
    {failing : TorrentRow} (hfailing : failing ∈ staleRows store)
    (hfails : ∀ call ∈ calls, loads call failing = false) (hrow : row ∈ staleRows store)
    (hlt : staleOrder failing < staleOrder row) :
    ¬ IsLoaded (refreshes databaseBatchSize limit store calls) row.id := by
  induction calls generalizing store failing with
  | nil => exact not_isLoaded_of_stale hids hrow
  | cons call calls ih =>
    have hids' := @unique_refreshManifests databaseBatchSize store hids limit call
    have htorrents := @refreshManifests_torrents databaseBatchSize call store hids limit
    have hlater : ∀ call ∈ calls, loads call failing = false :=
      fun call hcall => hfails call (List.mem_cons_of_mem _ hcall)
    split_ifs at htorrents with hlimit
    · obtain ⟨hmem, hcondition⟩ := mem_staleRows.mp hrow
      obtain ⟨hfailingMem, havailable, hstate⟩ := mem_staleRows.mp hfailing
      have hsame :=
        @afterLoads_blocked call store hids limit _ _ hfailing (hfails call (by simp)) hmem hlt
      have hstays : row ∈ staleRows (refreshManifests databaseBatchSize limit store call).1 := by
        refine mem_staleRows.mpr ⟨?_, hcondition⟩
        rw [htorrents]
        exact List.mem_map.mpr ⟨row, hmem, hsame⟩
      have hnext : afterLoads call (batch limit store) failing ∈
        (refreshManifests databaseBatchSize limit store
          call).1.torrents := by
        rw [htorrents]
        exact List.mem_map_of_mem hfailingMem
      have hfailed : ∀ other ∈ batch limit store, other.id = failing.id →
          loads call other = false := by
        intro other hother heq
        have hotherMem := (mem_staleRows.mp (mem_of_mem_take_insertionSort hother)).1
        rw [List.inj_on_of_nodup_map hids hotherMem hfailingMem heq]
        exact hfails call (by simp)
      rcases afterLoads_failing hfailed with heq | heq
      · rw [heq] at hnext
        exact ih hids' (mem_staleRows.mpr ⟨hnext, havailable, hstate⟩) hlater hstays hlt
      · rw [heq] at hnext
        exact ih hids' (mem_staleRows.mpr ⟨hnext, havailable, .inl rfl⟩) hlater hstays hlt
    · have hstale : staleRows (refreshManifests databaseBatchSize limit store call).1 =
          staleRows store := by
        rw [staleRows, htorrents, staleRows]
      exact ih hids' (hstale ▸ hfailing) hlater (hstale ▸ hrow) hlt

theorem refreshes_of_range {limit : ℕ} (hlimit : ¬ limit ≤ i64Max)
    (calls : List RefreshCall) {store : Store} (hids : UniqueKey TorrentRow.id store.torrents) :
    (refreshes databaseBatchSize limit store calls).torrents = store.torrents := by
  induction calls generalizing store with
  | nil => rfl
  | cons call calls ih =>
    have htorrents := @refreshManifests_torrents databaseBatchSize call store hids limit
    rw [if_neg hlimit] at htorrents
    exact (ih (unique_refreshManifests hids limit call)).trans htorrents

/-! ### The sources ahead of another -/

/-- The number of waiting sources that the query lists before a row. -/
def ahead (store : Store) (row : TorrentRow) : ℕ :=
  (staleRows store).countP (staleOrder · < staleOrder row)

/-- **One call** loads a source that has only sources that load ahead of it, or it loads some of
these. -/
theorem refresh_step (hids : UniqueKey TorrentRow.id store.torrents) {limit : ℕ}
    (hlimit : 1 ≤ limit) (hrange : limit ≤ i64Max) {row : TorrentRow} (hrow : row ∈ staleRows store)
    (hloads : loads call row = true)
    (hahead : ∀ other ∈ staleRows store, staleOrder other < staleOrder row →
    loads call other = true) :
    IsLoaded (refreshManifests databaseBatchSize limit store call).1 row.id
      ∨ row ∈ staleRows (refreshManifests databaseBatchSize limit store call).1
        ∧ ahead (refreshManifests databaseBatchSize limit store call).1 row < ahead store row
        ∧ ∀ other ∈ staleRows (refreshManifests databaseBatchSize limit store call).1,
          staleOrder other < staleOrder row → other ∈ staleRows store := by
  have hkey := nodup_staleOrder hids
  have htorrents := @refreshManifests_torrents databaseBatchSize call store hids limit
  rw [if_pos hrange] at htorrents
  -- What the call takes and has only sources that load ahead of it is loaded.
  have hreached : ∀ other ∈ batch limit store, staleOrder other ≤ staleOrder row →
      (afterLoads call (batch limit store) other).fileManifestState = .loaded := by
    intro other hother hle
    obtain ⟨before, after, hsplit⟩ := List.append_of_mem hother
    have hdistinct := nodup_batch hids limit
    rw [hsplit, List.map_append, List.map_cons] at hdistinct
    have hotherLoads : loads call other = true := by
      rcases hle.lt_or_eq with hlt | heq
      · exact hahead other (mem_of_mem_take_insertionSort hother) hlt
      · rwa [List.inj_on_of_nodup_map hkey (mem_of_mem_take_insertionSort hother) hrow heq]
    rw [hsplit, afterLoads_reached _ hotherLoads fun hin =>
      (List.nodup_append.mp hdistinct).2.2 _ hin _ (by simp) rfl]
    · rfl
    · intro first hfirst
      obtain ⟨hstale, hlt⟩ := (mem_before_iff hkey hsplit).mp hfirst
      exact hahead first hstale (hlt.trans_le hle)
  by_cases hbatch : row ∈ batch limit store
  · left
    refine ⟨afterLoads call (batch limit store) row, ?_, afterLoads_id _ row,
      hreached row hbatch le_rfl⟩
    rw [htorrents]
    exact List.mem_map_of_mem (mem_staleRows.mp hrow).1
  · right
    have hsmaller : ∀ other ∈ batch limit store, staleOrder other < staleOrder row :=
      fun other hother => lt_of_notMem_take hkey hother hrow hbatch
    have houtside : ∀ other ∈ store.torrents, other ∉ batch limit store →
        afterLoads call (batch limit store) other = other := fun other hother hnot =>
      afterLoads_of_notMem fun hid => hnot (mem_batch_of_id hids hother hid)
    obtain ⟨hmem, hcondition⟩ := mem_staleRows.mp hrow
    -- A source that waits after the call has not been in the batch.
    have hwaiting : ∀ other ∈ store.torrents,
        ((afterLoads call (batch limit store) other).fileManifestState = .stale
          ∨ (afterLoads call (batch limit store) other).fileManifestState = .loading) →
        afterLoads call (batch limit store) other = other := by
      intro other hother hstate
      by_cases hin : other ∈ batch limit store
      · rw [hreached other hin (hsmaller other hin).le] at hstate
        rcases hstate with hstate | hstate <;> cases hstate
      · exact houtside other hother hin
    refine ⟨mem_staleRows.mpr ⟨?_, hcondition⟩, ?_, fun other hother _ => ?_⟩
    · rw [htorrents]
      exact List.mem_map.mpr ⟨row, hmem, houtside row hmem hbatch⟩
    · have hnonempty : batch limit store ≠ [] := take_insertionSort_ne_nil hlimit hrow
      obtain ⟨first, hfirst⟩ := List.exists_mem_of_ne_nil _ hnonempty
      have hfirstStale := mem_of_mem_take_insertionSort hfirst
      rw [ahead, ahead, staleRows, staleRows, htorrents, List.filter_map, List.countP_map,
        List.countP_filter, List.countP_filter]
      refine countP_lt (fun other hother hlt => ?_) (mem_staleRows.mp hfirstStale).1 ?_ ?_
      · simp only [Function.comp, Bool.and_eq_true, Bool.or_eq_true, decide_eq_true_eq] at hlt ⊢
        rwa [hwaiting other hother hlt.2.2] at hlt
      · simp [hreached first hfirst (hsmaller first hfirst).le]
      · have hstale := (mem_staleRows.mp hfirstStale).2
        simp [hsmaller first hfirst, hstale]
    · obtain ⟨hother, havailable, hstate⟩ := mem_staleRows.mp hother
      rw [htorrents] at hother
      obtain ⟨old, hold, rfl⟩ := List.mem_map.mp hother
      have hsame := hwaiting old hold hstate
      rw [hsame] at havailable hstate ⊢
      exact mem_staleRows.mpr ⟨hold, havailable, hstate⟩

theorem isLoaded_refresh (hids : UniqueKey TorrentRow.id store.torrents) (limit : ℕ)
    (call : RefreshCall) {id : Id} (h : IsLoaded store id) :
      IsLoaded (refreshManifests databaseBatchSize limit store call).1 id := by
  obtain ⟨row, hrow, hid, hloaded⟩ := h
  refine ⟨row, ?_, hid, hloaded⟩
  rw [refreshManifests_torrents hids]
  split_ifs
  · refine List.mem_map.mpr ⟨row, hrow, afterLoads_of_notMem fun hin => ?_⟩
    have hstale :=
      (mem_staleRows.mp (mem_of_mem_take_insertionSort (mem_batch_of_id hids hrow hin))).2.2
    rw [hloaded] at hstale
    rcases hstale with hstale | hstale <;> cases hstale
  · exact hrow

/-- A source with only sources that load ahead of it is loaded within one call more than there are
of these. -/
theorem isLoaded_refreshes {limit : ℕ} (hlimit : 1 ≤ limit) (hrange : limit ≤ i64Max)
    {row : TorrentRow} (calls : List RefreshCall) {store : Store}
    (hids : UniqueKey TorrentRow.id store.torrents) (hloads : ∀ call ∈ calls, loads call row = true)
    (hrow : IsLoaded store row.id ∨ row ∈ staleRows store ∧ ahead store row < calls.length
      ∧ ∀ other ∈ staleRows store, staleOrder other < staleOrder row → ∀ call ∈ calls,
        loads call other = true) :
    IsLoaded (refreshes databaseBatchSize limit store calls) row.id := by
  induction calls generalizing store with
  | nil => exact hrow.resolve_right fun h => by simp at h
  | cons call calls ih =>
    refine ih (unique_refreshManifests hids limit call) (fun call hcall =>
      hloads call (List.mem_cons_of_mem _ hcall)) ?_
    rcases hrow with hloaded | ⟨hstale, hlt, hahead⟩
    · exact .inl (isLoaded_refresh hids limit call hloaded)
    · have hstep := @refresh_step databaseBatchSize call store hids limit hlimit hrange row hstale
        (hloads call (by simp)) fun other hother hsmaller =>
          hahead other hother hsmaller call (by simp)
      refine hstep.imp_right fun h => ⟨h.1, ?_, fun other hother hsmaller call' hcall' => ?_⟩
      · rw [List.length_cons] at hlt
        exact h.2.1.trans_le (Nat.le_of_lt_succ hlt)
      · exact hahead other (h.2.2 other hother hsmaller) hsmaller call'
          (List.mem_cons_of_mem _ hcall')

end

/-- **Refresh.** After at least as many calls as there are waiting sources, each of which always
loads or always fails, all those that load are loaded if, and only if, the limit is within the range
of the query and none of them comes behind one that fails. -/
theorem refresh_iff (databaseBatchSize limit : ℕ) (store : Store) (calls : List RefreshCall)
    (hlimit : 1 ≤ limit) (hids : UniqueKey TorrentRow.id store.torrents)
    (hcalls : (staleRows store).length ≤ calls.length) (halways : ∀ row ∈ staleRows store,
      (∀ call ∈ calls, loads call row = true) ∨ ∀ call ∈ calls, loads call row = false) :
    (∀ row ∈ staleRows store, (∀ call ∈ calls, loads call row = true) →
        IsLoaded (refreshes databaseBatchSize limit store calls) row.id)
      ↔ ∀ row ∈ staleRows store, (∀ call ∈ calls, loads call row = true) → limit ≤ i64Max
        ∧ ∀ failing ∈ staleRows store, (∀ call ∈ calls, loads call failing = false) →
          staleOrder row < staleOrder failing := by
  constructor
  · intro hloaded row hrow hloads
    have hnot := hloaded row hrow hloads
    refine ⟨?_, fun failing hfailing hfails => ?_⟩
    · by_contra hrange
      have hsame := @refreshes_of_range databaseBatchSize limit hrange calls store hids
      obtain ⟨other, hother, hid, hstate⟩ := hnot
      rw [hsame] at hother
      exact not_isLoaded_of_stale hids hrow ⟨other, hother, hid, hstate⟩
    · by_contra hle
      rcases (not_lt.mp hle).lt_or_eq with hlt | heq
      · exact not_isLoaded_refreshes calls hids hfailing hfails hrow hlt hnot
      · -- The two would be one source, and there is a call.
        obtain rfl := List.inj_on_of_nodup_map (nodup_staleOrder hids) hfailing hrow heq
        have hpositive : 0 < calls.length := (List.length_pos_of_mem hrow).trans_le hcalls
        obtain ⟨call, hcall⟩ := List.exists_mem_of_length_pos hpositive
        have hboth := hfails call hcall
        rw [hloads call hcall] at hboth
        cases hboth
  · intro horder row hrow hloads
    obtain ⟨hrange, hfailing⟩ := horder row hrow hloads
    refine isLoaded_refreshes hlimit hrange calls hids hloads (.inr ⟨hrow, ?_,
      fun other hother hlt => ?_⟩)
    · have hahead : ahead store row < (staleRows store).length :=
        List.countP_lt_length_iff.mpr ⟨row, hrow, by simp⟩
      omega
    · rcases halways other hother with hok | hfails
      · exact hok
      · exact absurd (hfailing other hother hfails) hlt.asymm

/-! ### A source that hides another -/

/-- A torrent that waits for its manifest. -/
def sampleTorrent (id : Id) (qbitId : String) (updatedAt : ℤ) : TorrentRow where
  id
  qbitId
  v1Hash := none
  v2Hash := none
  name := qbitId
  totalSize := 10
  amountLeft := 0
  progressPpm := 1000000
  state := "uploading"
  savePath := "/downloads"
  contentPath := "/downloads"
  category := ""
  tags := []
  isComplete := true
  available := true
  fileManifestVersion := 0
  fileManifestState := .stale
  fileManifestLoadedAt := none
  contentFingerprint := 0
  addedAt := none
  completedAt := none
  release := .unknown qbitId.toList
  lastSeenGeneration := 1
  updatedAt

/-- Two torrents, with the times of their updates. -/
def sampleStore (broken film : ℤ) : Store :=
  { Store.empty with torrents := [sampleTorrent 1 "broken" broken, sampleTorrent 2 "film" film] }

/-- qBittorrent knows the files of the film only. -/
def sampleCall : RefreshCall where
  now := 10
  torrentFiles qbitId := if qbitId = "film" then some ⟨[⟨0, "Film.2020.mkv", 10⟩], some 1⟩ else none

instance (store : Store) (id : Id) : Decidable (IsLoaded store id) :=
  inferInstanceAs (Decidable (∃ row ∈ store.torrents,
    row.id = id ∧ row.fileManifestState = .loaded))

/-- The torrent that fails was updated first: both calls stop at it. -/
theorem sample_hidden :
    (staleRows (sampleStore 1 2)).length = [sampleCall, sampleCall].length
      ∧ loads sampleCall (sampleTorrent 1 "broken" 1) = false
      ∧ loads sampleCall (sampleTorrent 2 "film" 2) = true
      ∧ ¬ IsLoaded (refreshes 200 8 (sampleStore 1 2) [sampleCall, sampleCall]) 2 := by
  decide +kernel

/-- The torrent that fails was updated last. -/
theorem refresh_iff_sample :
    IsLoaded (refreshes 200 8 (sampleStore 2 1) [sampleCall, sampleCall]) 2 := by
  refine (refresh_iff 200 8 (sampleStore 2 1) [sampleCall, sampleCall] (by decide) ?_ ?_ ?_).mpr ?_
    (sampleTorrent 2 "film" 1) (by decide +kernel) (by decide +kernel)
  · unfold UniqueKey
    decide +kernel
  · decide +kernel
  · decide +kernel
  · decide +kernel

end Sporos.Service.ManifestRefresh
