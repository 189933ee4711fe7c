import Sporos.Service.Completion
import Sporos.Service.Inventory

/-! # The projection of the inventory

`qbit_projection.rs`: the upsert of a torrent from a partial record and the row that is there,
batches of changes, and the ends of a synchronisation and of a reconciliation; and the manifests of
the torrents, which are staged file by file and then published.

Each function is one transaction; an error rolls it back. -/

namespace Sporos.Service.QbitProjection

open Sporos.Model.Matching
open Sporos.Matcher.Release
open Sporos.Service.Tables
open Sporos.Service.Ingress
open Sporos.Service.TaskControl
open Sporos.Service.Inventory
open Sporos.Service.Sources
open Sporos.Service.Completion
open Sporos.Lib.Table
open Sporos.Lib.Loop

/-- Why a batch is not stored. -/
inductive ProjectionError where
  | database
  | missingField (field : String)
  | range (field : String)
  | invalidHash (field : String)
  | invalidProgress
  | missingSource
  deriving DecidableEq, Repr

/-- What the projection calls outside the tables. -/
structure QbitCodec where
  unicode : Unicode
  completion : CompletionCodec

/-- The codec on texts of ASCII characters. -/
def QbitCodec.ascii : QbitCodec := ⟨Unicode.ascii, CompletionCodec.serde⟩

/-- A torrent that has just completed, and what has been started for it. -/
structure CompletionTransition where
  sourceId : Id
  completedAt : ℤ
  operationId : Id
  taskId : Id
  deriving DecidableEq, Repr

/-- What a batch has changed. -/
structure ProjectionBatch where
  changed : ℕ
  completions : List CompletionTransition
  manifestsNeeded : List Id
  deriving DecidableEq, Repr

/-- The version of a manifest that is being loaded. -/
structure ManifestTarget where
  sourceId : Id
  qbitId : String
  version : ℕ
  deriving DecidableEq, Repr

/-! ### The fields of a record -/

/-- A number that has to be an integer of a column. -/
def toI64 (value : ℕ) (field : String) : Except ProjectionError ℕ :=
  if value > i64Max then .error (.range field) else .ok value

theorem toI64_eq_ok {value value' : ℕ} {field : String} (h : toI64 value field = .ok value') :
    value = value' ∧ value ≤ i64Max := by
  unfold toI64 at h
  split_ifs at h with hrange
  exact ⟨Except.ok.inj h, not_lt.mp hrange⟩

/-- The value of the record, or that of the row. -/
def required {α : Type} (value existing : Option α) (field : String) : Except ProjectionError α :=
  match value.or existing with
  | some a => .ok a
  | none => .error (.missingField field)

/-- The new value, or the one that is there. -/
def integer (value existing : Option ℕ) (field : String) : Except ProjectionError ℕ :=
  match value with
  | some value => toI64 value field
  | none => required none existing field

/-- A time of the record counts if it is positive. -/
def timestamp (value existing : Option ℤ) : Option ℤ := (value.filter (0 < ·)).or existing

/-- The parts per million of a finite progress; the product is not rounded to a double first. -/
def progressPpm (value : ℚ) : Except ProjectionError ℤ :=
  if 0 ≤ value ∧ value ≤ 1 then .ok ⌊value * 1000000 + 1 / 2⌋ else .error .invalidProgress

/-- The new progress, or the one that is there. -/
def progress (value : Option ℚ) (existing : Option ℤ) : Except ProjectionError ℤ :=
  match value with
  | some value => progressPpm value
  | none => required none existing "progress"

/-- The tags of a list with commas. -/
def tagList (value : String) : List String :=
  ((value.toList.splitOn ',').map fun tag => String.ofList (trim tag)).filter (· ≠ "")

/-- Pairs of hexadecimal digits. -/
def hexPairs : Bytes → Option Bytes
  | high :: low :: rest => do
    let high ← hexValue high
    let low ← hexValue low
    let rest ← hexPairs rest
    return (16 * high + low).toUInt8 :: rest
  | _ => some []

/-- `decode_hex`. -/
def decodeHex (value : String) (bytes : ℕ) (field : String) : Except ProjectionError Bytes :=
  if (utf8 value).length ≠ bytes * 2 then .error (.invalidHash field)
  else match hexPairs (utf8 value) with
    | none => .error (.invalidHash field)
    | some hash => .ok hash

/-- `optional_hash`: an empty hash is none. -/
def optionalHash (value : Option String) (bytes : ℕ) (field : String) :
    Except ProjectionError (Option Bytes) :=
  match value.filter (· ≠ "") with
  | none => .ok none
  | some value => (decodeHex value bytes field).map some

/-- The download is complete. -/
def complete (amountLeft : ℕ) (progressPpm : ℤ) (state : String) : Bool :=
  amountLeft = 0 ∧ progressPpm = 1000000
    ∧ state ∈ ["uploading", "stoppedUP", "queuedUP", "stalledUP", "checkingUP", "forcedUP"]

section

variable (codec : QbitCodec)

/-- The id of a torrent. -/
def sourceId (qbitId : String) : Id := first16 (codec.completion.sha256 (utf8 ("qbit:" ++ qbitId)))

/-- The text that `fingerprint` hashes. -/
def fingerprintBytes (values : List Bytes) : Bytes :=
  values.flatMap fun value => generationBytes value.length ++ value

/-- What tells whether the files of a torrent may have changed. -/
def fingerprint (v1 v2 : Option Bytes) (name : String) (totalSize : ℕ)
    (savePath contentPath : String) : Digest :=
  codec.completion.sha256 (fingerprintBytes
    [v1.getD [], v2.getD [], utf8 name, generationBytes totalSize, utf8 savePath, utf8 contentPath])

/-! ### Torrents -/

/-- The fields of a torrent. -/
structure Fields where
  v1Hash : Option Bytes
  v2Hash : Option Bytes
  name : String
  totalSize : ℕ
  amountLeft : ℕ
  progressPpm : ℤ
  state : String
  savePath : String
  contentPath : String
  category : String
  tags : List String
  deriving DecidableEq, Repr

/-- The fields of a record, with those of the row that is there where the record has none. -/
def mergeFields (existing : Option TorrentRow) (delta : InventoryDelta) :
    Except ProjectionError Fields := do
  let v1 ← optionalHash delta.infohashV1 20 "infohash_v1"
  let v2 ← optionalHash delta.infohashV2 32 "infohash_v2"
  let v1Hash := v1.or (existing.bind TorrentRow.v1Hash)
  let v2Hash := v2.or (existing.bind TorrentRow.v2Hash)
  if v1Hash.isNone ∧ v2Hash.isNone then throw (.missingField "infohash")
  let name ← required delta.name (existing.map TorrentRow.name) "name"
  let totalSize ← integer delta.totalSize (existing.map TorrentRow.totalSize) "total_size"
  let amountLeft ← integer delta.amountLeft (existing.map TorrentRow.amountLeft) "amount_left"
  let progressPpm ← progress delta.progress (existing.map TorrentRow.progressPpm)
  let state ← required delta.state (existing.map TorrentRow.state) "state"
  let savePath ← required delta.savePath (existing.map TorrentRow.savePath) "save_path"
  let contentPath ← required delta.contentPath (existing.map TorrentRow.contentPath) "content_path"
  let category ← required delta.category (existing.map TorrentRow.category) "category"
  let tags ← required (delta.tags.map tagList) (existing.map TorrentRow.tags) "tags"
  return ⟨v1Hash, v2Hash, name, totalSize, amountLeft, progressPpm, state, savePath, contentPath,
    category, tags⟩

/-- The download is complete. -/
def Fields.isComplete (fields : Fields) : Bool :=
  complete fields.amountLeft fields.progressPpm fields.state

/-- The time of the completion: that of the record, that of the row, or the present. -/
def Fields.completedAt (fields : Fields) (existing : Option TorrentRow) (delta : InventoryDelta)
    (now : ℤ) : Option ℤ :=
  if fields.isComplete then
    some ((timestamp delta.completionOn (existing.bind TorrentRow.completedAt)).getD now)
  else existing.bind TorrentRow.completedAt

/-- The torrent was known and not complete, and is complete now. -/
def Fields.becameComplete (fields : Fields) (existing : Option TorrentRow)
    (detectCompletions : Bool) : Bool :=
  detectCompletions && existing.any (!·.isComplete) && fields.isComplete

/-- The time of the completion that the record brings about. -/
def Fields.completion (fields : Fields) (existing : Option TorrentRow) (delta : InventoryDelta)
    (detectCompletions : Bool) (now : ℤ) : Option ℤ :=
  if fields.becameComplete existing detectCompletions then fields.completedAt existing delta now
  else none

/-- The fingerprint of the fields. -/
def Fields.fingerprint (fields : Fields) : Digest :=
  QbitProjection.fingerprint codec fields.v1Hash fields.v2Hash fields.name fields.totalSize
    fields.savePath fields.contentPath

/-- The manifest is out of date: the torrent has just been completed, or its content has changed
since a manifest was published. -/
def Fields.manifestNeeded (fields : Fields) (existing : Option TorrentRow)
    (detectCompletions : Bool) : Bool :=
  fields.becameComplete existing detectCompletions
    || existing.any fun row =>
      row.contentFingerprint ≠ fields.fingerprint codec && 0 < row.fileManifestVersion

/-- The row of a record. -/
def Fields.row (fields : Fields) (existing : Option TorrentRow) (qbitId : String)
    (delta : InventoryDelta) (generation : ℕ) (detectCompletions : Bool) (now : ℤ) :
      TorrentRow where
  id := sourceId codec qbitId
  qbitId
  v1Hash := fields.v1Hash
  v2Hash := fields.v2Hash
  name := fields.name
  totalSize := fields.totalSize
  amountLeft := fields.amountLeft
  progressPpm := fields.progressPpm
  state := fields.state
  savePath := fields.savePath
  contentPath := fields.contentPath
  category := fields.category
  tags := fields.tags
  isComplete := fields.isComplete
  available := true
  fileManifestVersion := (existing.map TorrentRow.fileManifestVersion).getD 0
  fileManifestState :=
    if fields.manifestNeeded codec existing detectCompletions then .stale
    else (existing.map TorrentRow.fileManifestState).getD .unloaded
  fileManifestLoadedAt := none
  contentFingerprint := fields.fingerprint codec
  addedAt := timestamp delta.addedOn (existing.bind TorrentRow.addedAt)
  completedAt := fields.completedAt existing delta now
  release := parseRelease codec.unicode fields.name.toList
  lastSeenGeneration := generation
  updatedAt := now

/-- The row that `DO UPDATE` leaves: the identifier, the version of the manifest and the time of its
load are not in its list. -/
def updatedRow (row old : TorrentRow) : TorrentRow :=
  { row with
    id := old.id
    fileManifestVersion := old.fileManifestVersion
    fileManifestLoadedAt := old.fileManifestLoadedAt }

/-- Another torrent has one of the hashes of the row. -/
def HashTaken (torrents : List TorrentRow) (row : TorrentRow) : Prop :=
  ∃ other ∈ torrents, other.qbitId ≠ row.qbitId
    ∧ ((row.v1Hash.isSome ∧ other.v1Hash = row.v1Hash)
      ∨ (row.v2Hash.isSome ∧ other.v2Hash = row.v2Hash))

instance (torrents : List TorrentRow) (row : TorrentRow) : Decidable (HashTaken torrents row) :=
  inferInstanceAs (Decidable (∃ other ∈ torrents, other.qbitId ≠ row.qbitId
    ∧ ((row.v1Hash.isSome ∧ other.v1Hash = row.v1Hash)
      ∨ (row.v2Hash.isSome ∧ other.v2Hash = row.v2Hash))))

/-- `INSERT INTO sporos_qbit_torrent … ON CONFLICT(qbit_id) DO UPDATE`. A hash that another row has
is an error, and so is the identifier of another row. -/
def upsertTorrent (torrents : List TorrentRow) (row : TorrentRow) : Option (List TorrentRow) :=
  if HashTaken torrents row then none
  else if (lookup TorrentRow.qbitId torrents row.qbitId).isSome then
    some (updateKey TorrentRow.qbitId torrents row.qbitId (updatedRow row))
  else if (lookup TorrentRow.id torrents row.id).isSome then none
  else some (torrents ++ [row])

/-- `project_torrent`: the store, the completion that is new, and whether the manifest is needed.
The titles and the external identifiers of the source, which it replaces as well, are not modelled.
-/
def projectTorrent (store : Store) (qbitId : String) (delta : InventoryDelta) (generation : ℕ)
    (detectCompletions : Bool) (now : ℤ) :
    Except ProjectionError (Store × Option CompletionTransition × Bool) := do
  let existing := store.torrent qbitId
  let fields ← mergeFields existing delta
  let row := fields.row codec existing qbitId delta generation detectCompletions now
  match upsertTorrent store.torrents row with
  | none => throw .database
  | some torrents =>
    let store := { store with torrents }
    let manifestNeeded := fields.manifestNeeded codec existing detectCompletions
    match fields.completion existing delta detectCompletions now with
    | none => return (store, none, manifestNeeded)
    | some completedAt =>
      match accept codec.completion store (sourceId codec qbitId) completedAt now with
      | none => throw .database
      | some (store, accepted) =>
        let completion := if accepted.duplicate then none
          else some ⟨sourceId codec qbitId, completedAt, accepted.operationId, accepted.taskId⟩
        return (store, completion, manifestNeeded)

/-- The row of a torrent that qBittorrent does not have any more. -/
def removedRow (now : ℤ) (row : TorrentRow) : TorrentRow :=
  { row with available := false, updatedAt := now }

/-- `UPDATE sporos_qbit_torrent SET available = 0 … WHERE qbit_id = ?`. -/
def removeTorrent (store : Store) (qbitId : String) (now : ℤ) : Store :=
  { store with torrents := updateKey TorrentRow.qbitId store.torrents qbitId (removedRow now) }

/-- One change of a batch. -/
def projectChange (generation : ℕ) (detectCompletions : Bool) (now : ℤ) :
    Store × ProjectionBatch → InventoryChange → Except ProjectionError (Store × ProjectionBatch)
  | (store, batch), .upsert qbitId delta => do
    let (store, completion, manifestNeeded) ←
      projectTorrent codec store qbitId delta generation detectCompletions now
    return (store,
      { changed := batch.changed + 1
        completions := batch.completions ++ completion.toList
        manifestsNeeded :=
          batch.manifestsNeeded ++ if manifestNeeded then [sourceId codec qbitId] else [] })
  | (store, batch), .removed qbitId =>
    .ok (removeTorrent store qbitId now, { batch with changed := batch.changed + 1 })

/-- `project_qbit_batch`. -/
def projectQbitBatch (store : Store) (changes : List InventoryChange) (generation : ℕ)
    (detectCompletions : Bool) (now : ℤ) : Except ProjectionError (Store × ProjectionBatch) := do
  let generation ← toI64 generation "generation"
  changes.foldlM (projectChange codec generation detectCompletions now) (store, ⟨0, [], []⟩)

end

/-! ### What a change does -/

section

variable {codec : QbitCodec} {store store' : Store} {qbitId : String} {delta : InventoryDelta}
  {generation : ℕ} {detectCompletions : Bool} {now : ℤ}

/-- What the upsert of a torrent does: the update of its row, or a new row. -/
theorem upsertTorrent_eq_some {torrents torrents' : List TorrentRow} {row : TorrentRow}
    (h : upsertTorrent torrents row = some torrents') :
    ¬ HashTaken torrents row
      ∧ (((lookup TorrentRow.qbitId torrents row.qbitId).isSome = true
          ∧ torrents' = updateKey TorrentRow.qbitId torrents row.qbitId (updatedRow row))
        ∨ (lookup TorrentRow.qbitId torrents row.qbitId = none
          ∧ lookup TorrentRow.id torrents row.id = none ∧ torrents' = torrents ++ [row])) := by
  unfold upsertTorrent at h
  split_ifs at h with htaken hknown hid
  · exact ⟨htaken, .inl ⟨hknown, (Option.some_inj.mp h).symm⟩⟩
  · exact ⟨htaken, .inr ⟨by simpa using hknown, by simpa using hid, (Option.some_inj.mp h).symm⟩⟩

theorem updatedRow_qbitId (row old : TorrentRow) : (updatedRow row old).qbitId = row.qbitId := rfl

theorem removedRow_qbitId (now : ℤ) (row : TorrentRow) :
    (removedRow now row).qbitId = row.qbitId := rfl

@[simp] theorem row_qbitId (fields : Fields) (existing : Option TorrentRow) :
    (fields.row codec existing qbitId delta generation detectCompletions now).qbitId = qbitId := rfl

/-- The row of a torrent after an upsert, and those of the others. -/
theorem lookup_upsertTorrent {torrents torrents' : List TorrentRow} {row : TorrentRow}
    (h : upsertTorrent torrents row = some torrents') (qbitId : String) :
    lookup TorrentRow.qbitId torrents' qbitId
      = if qbitId = row.qbitId then
          some (((lookup TorrentRow.qbitId torrents qbitId).map (updatedRow row)).getD row)
        else lookup TorrentRow.qbitId torrents qbitId := by
  rcases (upsertTorrent_eq_some h).2 with ⟨hknown, rfl⟩ | ⟨hnew, -, rfl⟩
  · rw [lookup_updateKey_at fun old _ => updatedRow_qbitId row old]
    split
    · rename_i heq
      subst heq
      obtain ⟨old, hold⟩ := Option.isSome_iff_exists.mp hknown
      rw [hold]
      rfl
    · rfl
  · rw [lookup_append, lookup_singleton]
    split
    · rename_i heq
      subst heq
      rw [hnew, if_pos rfl]
      rfl
    · rename_i hne
      rw [if_neg fun h => hne h.symm, Option.or_none]

/-- An upsert keeps the identifiers of the torrents unique. -/
theorem unique_upsertTorrent {torrents torrents' : List TorrentRow} {row : TorrentRow}
    (h : upsertTorrent torrents row = some torrents')
    (hunique : UniqueKey TorrentRow.qbitId torrents) : UniqueKey TorrentRow.qbitId torrents' := by
  rcases (upsertTorrent_eq_some h).2 with ⟨-, rfl⟩ | ⟨hnew, -, rfl⟩
  · rw [UniqueKey, map_key_updateKey fun old _ => updatedRow_qbitId row old]
    exact hunique
  · exact unique_append hunique hnew

/-- What `project_torrent` does: the upsert of the merged row and, if the torrent has just been
completed, the acceptance of its completion. -/
theorem projectTorrent_eq_ok {completion : Option CompletionTransition} {manifestNeeded : Bool}
    (h : projectTorrent codec store qbitId delta generation detectCompletions now
      = .ok (store', completion, manifestNeeded)) :
    ∃ fields torrents, mergeFields (store.torrent qbitId) delta = .ok fields
      ∧ upsertTorrent store.torrents
          (fields.row codec (store.torrent qbitId) qbitId delta generation detectCompletions now)
        = some torrents
      ∧ ((fields.completion (store.torrent qbitId) delta detectCompletions now = none
          ∧ store' = { store with torrents })
        ∨ ∃ completedAt accepted,
          fields.completion (store.torrent qbitId) delta detectCompletions now = some completedAt
            ∧ accept codec.completion { store with
              torrents } (sourceId codec qbitId) completedAt now
              = some (store', accepted)) := by
  unfold projectTorrent at h
  obtain ⟨fields, hfields, h⟩ := bind_eq_ok.mp h
  dsimp only at h
  cases hupsert : upsertTorrent store.torrents
      (fields.row codec (store.torrent qbitId) qbitId delta generation detectCompletions now) with
  | none => simp [hupsert, throw, throwThe, MonadExceptOf.throw] at h
  | some torrents =>
    refine ⟨fields, torrents, hfields, hupsert, ?_⟩
    simp only [hupsert] at h
    cases hcompletion : fields.completion (store.torrent qbitId) delta detectCompletions now with
    | none =>
      simp only [hcompletion, pure, Except.pure, Except.ok.injEq, Prod.mk.injEq] at h
      exact .inl ⟨rfl, h.1.symm⟩
    | some completedAt =>
      simp only [hcompletion] at h
      cases haccept : accept codec.completion { store with torrents } (sourceId codec qbitId)
          completedAt now with
      | none => simp [haccept, throw, throwThe, MonadExceptOf.throw] at h
      | some result =>
        obtain ⟨store₁, accepted⟩ := result
        simp only [haccept, pure, Except.pure, Except.ok.injEq, Prod.mk.injEq] at h
        obtain ⟨rfl, -⟩ := h
        exact .inr ⟨completedAt, accepted, rfl, haccept⟩

/-- When `project_torrent` is no error. -/
theorem projectTorrent_ok_iff :
    (∃ result, projectTorrent codec store qbitId delta generation detectCompletions
      now = .ok result)
      ↔ ∃ fields torrents, mergeFields (store.torrent qbitId) delta = .ok fields
        ∧ upsertTorrent store.torrents
            (fields.row codec (store.torrent qbitId) qbitId delta generation detectCompletions now)
          = some torrents
        ∧ ∀ completedAt,
          fields.completion (store.torrent qbitId) delta detectCompletions now = some completedAt →
            (accept codec.completion { store with torrents } (sourceId codec qbitId) completedAt
              now).isSome = true := by
  constructor
  · rintro ⟨⟨store', completion, manifestNeeded⟩, h⟩
    obtain ⟨fields, torrents, hfields, hupsert, hresult⟩ := projectTorrent_eq_ok h
    refine ⟨fields, torrents, hfields, hupsert, fun completedAt hcompletedAt => ?_⟩
    rcases hresult with ⟨hnone, -⟩ | ⟨completedAt', accepted, hsome, haccept⟩
    · rw [hnone] at hcompletedAt
      cases hcompletedAt
    · obtain rfl : completedAt' = completedAt := Option.some_inj.mp (hsome.symm.trans hcompletedAt)
      rw [haccept]
      rfl
  · rintro ⟨fields, torrents, hfields, hupsert, haccept⟩
    unfold projectTorrent
    simp only [hfields, hupsert, bind, Except.bind]
    cases hcompletion : fields.completion (store.torrent qbitId) delta detectCompletions now with
    | none => exact ⟨_, rfl⟩
    | some completedAt =>
      obtain ⟨result, haccept⟩ := Option.isSome_iff_exists.mp (haccept completedAt hcompletion)
      simp only [haccept]
      exact ⟨_, rfl⟩

end

/-! ### The end of an update -/

/-- `UPDATE sporos_qbit_torrent SET available = 0 … WHERE available = 1 AND last_seen_generation <>
?`. -/
def sweep (store : Store) (generation : ℕ) (now : ℤ) : Store :=
  { store with torrents := store.torrents.map fun row =>
      if row.available = true ∧ row.lastSeenGeneration ≠ generation
        then removedRow now row else row }

/-- `finish_qbit_sync`. -/
def finishQbitSync (store : Store) (responseId : ℕ) (fullGeneration : Option ℕ) (now : ℤ) :
    Except ProjectionError Store := do
  let responseId ← toI64 responseId "response ID"
  match fullGeneration with
  | some generation =>
    let generation ← toI64 generation "generation"
    let store := sweep store generation now
    return { store with inventory :=
      { store.inventory with
        responseId := some responseId
        generation
        baselineAt := store.inventory.baselineAt.or (some now)
        lastSuccessAt := some now
        lastFullReconcileAt := some now } }
  | none =>
    return { store with inventory :=
      { store.inventory with responseId := some responseId, lastSuccessAt := some now } }

/-- `finish_qbit_reconcile`. -/
def finishQbitReconcile (store : Store) (generation : ℕ) (now : ℤ) :
    Except ProjectionError Store := do
  let generation ← toI64 generation "generation"
  let store := sweep store generation now
  return { store with inventory :=
    { store.inventory with
      generation
      baselineAt := store.inventory.baselineAt.or (some now)
      lastSuccessAt := some now
      lastFullReconcileAt := some now
      reconcileRequestedAt := none } }

/-! ### Manifests -/

/-- `UPDATE sporos_source_file SET available = ?` for the files of a source that a condition
selects. -/
def setAvailable (files : List SourceFileRow) (sourceId : Id) (p : SourceFileRow → Bool)
    (available : Bool) : List SourceFileRow :=
  files.map fun row => if row.sourceId = sourceId ∧ p row then { row with available } else row

/-- `prepare_qbit_manifest`. -/
def prepareQbitManifest (store : Store) (sourceId : Id) :
    Except ProjectionError (Store × ManifestTarget) :=
  match store.torrents.find? fun row => row.id = sourceId ∧ row.available with
  | none => .error .missingSource
  | some row => do
    let version ← toI64 (row.fileManifestVersion + 1) "manifest version"
    let store := store.updateTorrent sourceId fun row => { row with fileManifestState := .loading }
    let files := setAvailable store.files sourceId (·.manifestVersion = version) false
    return ({ store with files }, ⟨sourceId, row.qbitId, version⟩)

/-- A file that is staged. -/
def stagedFile (target : ManifestTarget) (file : InventoryFile) : SourceFileRow where
  id := 0
  sourceId := target.sourceId
  manifestVersion := target.version
  relativePath := utf8 file.name
  displayPath := file.name
  size := file.size
  fileKind := "unknown"
  episodeKey := none
  localPath := none
  device := none
  inode := none
  modifiedAt := none
  available := false
  ordinal := file.index

/-- The columns that `DO UPDATE` sets when a file is staged again. -/
def restage (new old : SourceFileRow) : SourceFileRow :=
  { old with
    relativePath := new.relativePath
    displayPath := new.displayPath
    size := new.size
    fileKind := new.fileKind
    available := false }

/-- The row of one more file. -/
def stageFile (target : ManifestTarget) (files : List SourceFileRow) (file : InventoryFile) :
    Except ProjectionError (List SourceFileRow) := do
  let _ ← toI64 file.index "file ordinal"
  let _ ← toI64 file.size "file size"
  return upsertFile files (stagedFile target file) (restage (stagedFile target file))

/-- `project_qbit_files`. -/
def projectQbitFiles (store : Store) (target : ManifestTarget) (files : List InventoryFile) :
    Except ProjectionError Store := do
  let _ ← toI64 target.version "manifest version"
  let files ← files.foldlM (stageFile target) store.files
  return { store with files }

/-- `finish_qbit_manifest`. -/
def finishQbitManifest (store : Store) (target : ManifestTarget) (fileCount : ℕ) (now : ℤ) :
    Except ProjectionError Store := do
  let version ← toI64 target.version "manifest version"
  let fileCount ← toI64 fileCount "manifest file count"
  let files := setAvailable store.files target.sourceId (fun _ => true) false
  let files := setAvailable files target.sourceId
    (fun row => row.manifestVersion = version ∧ row.ordinal < fileCount) true
  let store := store.updateTorrent target.sourceId fun row =>
    { row with
      fileManifestVersion := version
      fileManifestState := .loaded
      fileManifestLoadedAt := some now }
  return { store with files }

/-- `fail_qbit_manifest`. -/
def failQbitManifest (store : Store) (sourceId : Id) : Store :=
  store.updateTorrent sourceId fun row => { row with fileManifestState := .stale }

/-- `request_manifest` of the evaluation of a candidate. -/
def requestManifest (store : Store) (sourceId : Id) : Store :=
  store.updateTorrent sourceId fun row =>
    if row.fileManifestState = .unloaded then { row with fileManifestState := .stale } else row

/-! ### What the statements of a load do -/

section

variable {store store' : Store} {sourceId : Id} {target : ManifestTarget}

theorem prepareQbitManifest_eq_ok (h : prepareQbitManifest store sourceId = .ok (store', target)) :
    ∃ row ∈ store.torrents, row.id = sourceId ∧ row.available = true
      ∧ target = ⟨sourceId, row.qbitId, row.fileManifestVersion + 1⟩
      ∧ store' = { store.updateTorrent sourceId fun row =>
          { row with fileManifestState := .loading } with
          files := setAvailable store.files sourceId (·.manifestVersion =
            row.fileManifestVersion + 1)
            false } := by
  unfold prepareQbitManifest at h
  split at h
  · cases h
  · rename_i row hfind
    have hcondition := List.find?_some hfind
    simp only [decide_eq_true_eq] at hcondition
    obtain ⟨version, hversion, h⟩ := bind_eq_ok.mp h
    obtain ⟨rfl, -⟩ := toI64_eq_ok hversion
    obtain ⟨rfl, rfl⟩ := Prod.mk.inj (Except.ok.inj h)
    exact ⟨row, List.mem_of_find?_eq_some hfind, hcondition.1, hcondition.2, rfl, rfl⟩

theorem projectQbitFiles_eq_ok {files : List InventoryFile}
    (h : projectQbitFiles store target files = .ok store') :
    ∃ files', files.foldlM (stageFile target) store.files = .ok files'
      ∧ store' = { store with files := files' } := by
  unfold projectQbitFiles at h
  obtain ⟨version, -, h⟩ := bind_eq_ok.mp h
  obtain ⟨files', hfiles, h⟩ := bind_eq_ok.mp h
  exact ⟨files', hfiles, (Except.ok.inj h).symm⟩

/-- The row of a torrent whose manifest is published. -/
def publishedRow (version : ℕ) (now : ℤ) (row : TorrentRow) : TorrentRow :=
  { row with
    fileManifestVersion := version
    fileManifestState := .loaded
    fileManifestLoadedAt := some now }

theorem publishedRow_id (version : ℕ) (now : ℤ) (row : TorrentRow) :
    (publishedRow version now row).id = row.id := rfl

theorem publishedRow_qbitId (version : ℕ) (now : ℤ) (row : TorrentRow) :
    (publishedRow version now row).qbitId = row.qbitId := rfl

theorem finishQbitManifest_eq_ok {fileCount : ℕ} {now : ℤ}
    (h : finishQbitManifest store target fileCount now = .ok store') :
    store' = { store.updateTorrent target.sourceId (publishedRow target.version now) with
      files := setAvailable (setAvailable store.files target.sourceId (fun _ => true) false)
        target.sourceId (fun row => row.manifestVersion = target.version ∧ row.ordinal < fileCount)
        true } := by
  unfold finishQbitManifest at h
  obtain ⟨version, hversion, h⟩ := bind_eq_ok.mp h
  obtain ⟨rfl, -⟩ := toI64_eq_ok hversion
  obtain ⟨count, hcount, h⟩ := bind_eq_ok.mp h
  obtain ⟨rfl, -⟩ := toI64_eq_ok hcount
  exact (Except.ok.inj h).symm

end

end Sporos.Service.QbitProjection
