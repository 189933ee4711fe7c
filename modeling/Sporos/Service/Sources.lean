import Sporos.Service.TaskControl

/-! # The tables of the sources

The torrents of qBittorrent with the state of their inventory, the completions with their
operations, the data sources, and the files of both kinds of sources. A column that holds JSON is
its value; the columns that are computed from the release are not kept apart from it. The primary
key of a file is the row identifier that SQLite gives. -/

namespace Sporos.Service.Sources

open Sporos.Model.Matching
open Sporos.Service.Tables
open Sporos.Lib.Table

/-- The values of `file_manifest_state`. -/
inductive ManifestState where
  | unloaded
  | stale
  | loading
  | loaded
  deriving DecidableEq, Repr

/-- A row of `sporos_qbit_torrent`. -/
structure TorrentRow where
  id : Id
  qbitId : String
  v1Hash : Option Bytes
  v2Hash : Option Bytes
  name : String
  totalSize : ℕ
  amountLeft : ℕ
  progressPpm : ℤ
  state : String
  savePath : String
  contentPath : String
  category : String
  tags : List String
  isComplete : Bool
  available : Bool
  fileManifestVersion : ℕ
  fileManifestState : ManifestState
  fileManifestLoadedAt : Option ℤ
  contentFingerprint : Digest
  addedAt : Option ℤ
  completedAt : Option ℤ
  release : ReleaseDescriptor
  lastSeenGeneration : ℕ
  updatedAt : ℤ
  deriving DecidableEq, Repr

/-- The row of `sporos_qbit_inventory_state`. -/
structure InventoryState where
  responseId : Option ℕ
  generation : ℕ
  baselineAt : Option ℤ
  lastSuccessAt : Option ℤ
  lastFullReconcileAt : Option ℤ
  reconcileRequestedAt : Option ℤ
  deriving DecidableEq, Repr

/-- A row of `sporos_operation`. -/
structure OperationRow where
  id : Id
  kind : String
  state : String
  instanceId : String
  requestJson : String
  createdAt : ℤ
  updatedAt : ℤ
  deriving DecidableEq, Repr

/-- A row of `sporos_qbit_completion`. -/
structure CompletionRow where
  sourceId : Id
  completedAt : ℤ
  operationId : Id
  taskId : Id
  createdAt : ℤ
  deriving DecidableEq, Repr

/-- The primary key of a completion. -/
def CompletionRow.key (row : CompletionRow) : Id × ℤ := (row.sourceId, row.completedAt)

/-- A row of `sporos_source_file`. -/
structure SourceFileRow where
  id : ℕ
  sourceId : Id
  manifestVersion : ℕ
  relativePath : Bytes
  displayPath : String
  size : ℕ
  fileKind : String
  episodeKey : Option String
  localPath : Option String
  device : Option ℕ
  inode : Option ℕ
  modifiedAt : Option ℤ
  available : Bool
  ordinal : ℕ
  deriving DecidableEq, Repr

/-- The unique columns of a file. -/
def SourceFileRow.key (row : SourceFileRow) : Id × ℕ × ℕ :=
  (row.sourceId, row.manifestVersion, row.ordinal)

/-- A row of `sporos_data_source`. -/
structure DataSourceRow where
  id : Id
  rootName : String
  relativePath : Bytes
  kind : String
  name : String
  totalSize : ℕ
  release : ReleaseDescriptor
  device : ℕ
  inode : ℕ
  modifiedAt : ℤ
  available : Bool
  lastSeenGeneration : ℕ
  updatedAt : ℤ
  deriving DecidableEq, Repr

/-- The unique columns of a data source. -/
def DataSourceRow.key (row : DataSourceRow) : String × Bytes := (row.rootName, row.relativePath)

/-- The tables of the sources, with those of the tasks. -/
structure Store where
  db : Db
  operations : List OperationRow
  inventory : InventoryState
  torrents : List TorrentRow
  completions : List CompletionRow
  dataSources : List DataSourceRow
  files : List SourceFileRow
  deriving DecidableEq, Repr

/-- The tables after the migrations. -/
def Store.empty : Store where
  db := Db.empty
  operations := []
  inventory := ⟨none, 0, none, none, none, none⟩
  torrents := []
  completions := []
  dataSources := []
  files := []

/-- The row of a torrent. -/
def Store.torrent (store : Store) (qbitId : String) : Option TorrentRow :=
  lookup TorrentRow.qbitId store.torrents qbitId

/-- Update the torrent with an identifier. -/
def Store.updateTorrent (store : Store) (id : Id) (f : TorrentRow → TorrentRow) : Store :=
  { store with torrents := updateKey TorrentRow.id store.torrents id f }

/-- The row identifier SQLite gives to the next file. -/
def nextFileId (files : List SourceFileRow) : ℕ := (files.map SourceFileRow.id).foldr max 0 + 1

/-- `INSERT INTO sporos_source_file … ON CONFLICT(source_id, manifest_version, ordinal) DO UPDATE`,
where `set` updates the row that is there. -/
def upsertFile (files : List SourceFileRow) (row : SourceFileRow)
    (set : SourceFileRow → SourceFileRow) : List SourceFileRow :=
  if (lookup SourceFileRow.key files row.key).isSome
    then updateKey SourceFileRow.key files row.key set
  else files ++ [{ row with id := nextFileId files }]

section

variable {files : List SourceFileRow} {row : SourceFileRow} {set : SourceFileRow → SourceFileRow}

/-- The row of a file after an upsert, and those of the others. -/
theorem lookup_upsertFile (files : List SourceFileRow) (row : SourceFileRow)
    (hset : ∀ old, (set old).key = old.key) (key : Id × ℕ × ℕ) :
    lookup SourceFileRow.key (upsertFile files row set) key
      = if key = row.key then
          some (((lookup SourceFileRow.key files key).map set).getD { row with
            id := nextFileId files })
        else lookup SourceFileRow.key files key := by
  have hnew : SourceFileRow.key { row with id := nextFileId files } = row.key := rfl
  unfold upsertFile
  by_cases hknown : (lookup SourceFileRow.key files row.key).isSome = true
  · rw [if_pos hknown, lookup_updateKey hset]
    split
    · rename_i heq
      subst heq
      obtain ⟨old, hold⟩ := Option.isSome_iff_exists.mp hknown
      rw [hold]
      rfl
    · rfl
  · rw [if_neg hknown, lookup_append, lookup_singleton, hnew]
    split
    · rename_i heq
      rw [heq] at hknown
      rw [Option.not_isSome_iff_eq_none.mp hknown, if_pos heq.symm]
      rfl
    · rename_i hne
      rw [if_neg fun h => hne h.symm, Option.or_none]

theorem unique_upsertFile (hset : ∀ old, (set old).key = old.key)
    (hunique : UniqueKey SourceFileRow.key files) :
    UniqueKey SourceFileRow.key (upsertFile files row set) := by
  unfold upsertFile
  split
  · exact hunique.updateKey hset row.key
  · rename_i hnone
    exact unique_append hunique (Option.not_isSome_iff_eq_none.mp hnone)

end

end Sporos.Service.Sources
