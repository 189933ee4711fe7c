import Sporos.Service.Listings

/-! # Following the cursors of the listings

Each query of a listing is a page of the rows that match, in the order of their places
(`taskRows_eq`, `operationRows_eq`, `torrentRows_eq`), and what a request answers is the page with a
look-ahead (`respond_page`). So a client who follows the cursors gets each row once, in order
(`listings_complete`). -/

namespace Sporos.Service.ListingRuns

open Sporos.Model.Matching (Str)
open Sporos.Service.Tables (Id)
open Sporos.Service.Ingress (idBytes)
open Sporos.Service.ForcedOperations (Problem)
open Sporos.Service.Search (I64)
open Sporos.Lib.Lists (ByKey)
open Sporos.Lib.Paging
open Sporos.Service.Listings

/-! ### Places -/

/-- The creation time and the identifier of a place. -/
def timeOf (p : Place) : I64 := (ofLex (OrderDual.ofDual p)).1

/-- The id that a place ends with. -/
def idOf (p : Place) : Id := BitVec.ofFin (ofLex (OrderDual.ofDual p)).2

theorem place_lt_iff {p : Place} {createdAt : I64} {id : Id} :
    p < place createdAt id ↔ createdAt.val < (timeOf p).val
      ∨ (createdAt.val = (timeOf p).val ∧ id < idOf p) := by
  have hlt : p < place createdAt id ↔ toLex (createdAt, id.toFin) < OrderDual.ofDual p := Iff.rfl
  rw [hlt, Prod.Lex.lt_iff]
  exact or_congr Iff.rfl (and_congr Subtype.ext_iff Iff.rfl)

/-- The order of the listings of tasks and operations: the newest first, and of those the largest
identifier. -/
theorem place_lt_place {createdAt createdAt' : I64} {id id' : Id} :
    place createdAt id < place createdAt' id'
      ↔ createdAt'.val < createdAt.val ∨ (createdAt'.val = createdAt.val ∧ id' < id) := place_lt_iff

theorem nodup_places {Row : Type} {id : Row → Id} {createdAt : Row → I64} {rows : List Row}
    (hids : (rows.map id).Nodup) : (rows.map fun row => place (createdAt row) (id row)).Nodup := by
  refine List.Nodup.of_map idOf ?_
  rw [List.map_map]
  exact hids

/-! ### Queries -/

/-- The condition of a cursor, and the rows that match. -/
theorem taskRows_eq (rows : List TaskRow) (cursor : Option Place)
    (state : Option String) (fetch : ℕ) :
    taskRows rows (cursor.map fun p => ((timeOf p).val, idOf p)) state fetch
      = page TaskRow.place fetch cursor (rows.filter fun row => state.all fun filter =>
        row.state = filter) := by
  have hafter : ∀ (p : Place) (row : TaskRow), p < row.place ↔ row.createdAt.val < (timeOf p).val
      ∨ (row.createdAt.val = (timeOf p).val ∧ row.id < idOf p) := fun p row => place_lt_iff
  cases cursor <;> cases state <;>
    simp only [taskRows, page, after, Option.map_some, Option.map_none, Option.all_some,
      Option.all_none, hafter, List.filter_true, List.filter_filter, Bool.decide_and,
      Bool.and_comm, Bool.true_and]

theorem operationRows_eq (rows : List OperationRow) (cursor : Option Place) (fetch : ℕ) :
    operationRows rows (cursor.map fun p => ((timeOf p).val, idOf p)) fetch
      = page OperationRow.place fetch cursor rows := by
  have hafter : ∀ (p : Place) (row : OperationRow), p < row.place
    ↔ row.createdAt.val < (timeOf p).val
      ∨ (row.createdAt.val = (timeOf p).val ∧ row.id < idOf p) := fun p row => place_lt_iff
  cases cursor <;>
    simp only [operationRows, page, after, Option.map_some, Option.map_none, Option.all_some,
      Option.all_none, hafter, List.filter_true]

theorem torrentRows_eq (rows : List TorrentRow) (cursor : Option (Fin (2 ^ 128)))
    (available complete : Option Bool) (fetch : ℕ) :
      torrentRows rows (cursor.map BitVec.ofFin) available complete fetch
      = page TorrentRow.place fetch cursor (rows.filter fun row =>
          (available.all fun available => row.available = available)
            && complete.all fun complete => row.isComplete = complete) := by
  have hafter : ∀ (n : Fin (2 ^ 128)) (row : TorrentRow), BitVec.ofFin n < row.id ↔ n < row.place :=
    fun n row => Iff.rfl
  cases cursor <;>
    simp only [torrentRows, page, after, Option.map_some, Option.map_none, Option.all_some,
      Option.all_none, hafter, List.filter_filter, Bool.decide_and, Bool.decide_eq_true,
      decide_true, Bool.true_and]

/-! ### Requests -/

theorem mapM_eq_filterMap {α β : Type} {view : α → Option β} : ∀ {l : List α},
    (∀ a ∈ l, (view a).isSome = true) →
    l.mapM view = some (l.filterMap view)
  | [], _ => rfl
  | a :: l, h => by
    obtain ⟨b, hb⟩ := Option.isSome_iff_exists.mp (h a List.mem_cons_self)
    rw [List.mapM_cons, hb, mapM_eq_filterMap fun a' ha' => h a' (List.mem_cons_of_mem a ha'),
      List.filterMap_cons_some hb]
    rfl

section

variable {Row View κ : Type} [LinearOrder κ] {key : Row → κ} {view : Row → Option View}
  {encode : κ → Str}
variable {limit : ℕ} {rows : List Row}

theorem isSome_of_mem_page (hview : ∀ row ∈ rows, (view row).isSome = true) {cursor : Option κ} :
    ∀ row ∈ (page key (limit + 1) cursor rows).take limit, (view row).isSome = true :=
  fun row hrow => hview row (mem_after.mp (mem_of_mem_page (List.mem_of_mem_take hrow))).1

/-- The answer from a page with one row more is the one with a look-ahead. -/
theorem respond_page (hview : ∀ row ∈ rows, (view row).isSome = true) (cursor : Option κ)
    (requestId : String) :
    respond view (encode ∘ key) limit (page key (limit + 1) cursor rows) requestId
      = .ok (lookAhead key view encode limit cursor rows) := by
  simp only [respond, mapM_eq_filterMap (isSome_of_mem_page hview)]
  rfl

theorem checkLimit_eq_ok (hlimit : 1 ≤ limit ∧ limit ≤ 200) (requestId : String) :
    checkLimit limit requestId = .ok () := if_pos hlimit

end

theorem readCursor_encode {κ γ : Type} {encode : κ → Str} {decode : Str → Option γ} {f : κ → γ}
    (hdecode : ∀ c, decode (encode c) = some (f c)) (detail : String) (cursor : Option κ)
    (requestId : String) :
    readCursor decode detail (cursor.map encode) requestId = .ok (cursor.map f) := by
  cases cursor with
  | none => rfl
  | some c => simp only [readCursor, Option.map_some, hdecode c]

/-- The cursor of a place. -/
def encodePlace (p : Place) : Str := encodeCursor (timeOf p) (idOf p)

theorem readCursor_place (cursor : Option Place) (requestId : String) :
    readCursor decodeCursor "the pagination cursor is invalid" (cursor.map encodePlace) requestId
      = .ok (cursor.map fun p => ((timeOf p).val, idOf p)) :=
  readCursor_encode (fun p => decodeCursor_encodeCursor (timeOf p) (idOf p)) _ cursor requestId

theorem listTasks_eq (table : TaskTable) (state : Option String) {limit : ℕ}
    (hlimit : 1 ≤ limit ∧ limit ≤ 200) (requestId : String) (cursor : Option Place) :
    listTasks table.rows { limit, cursor := cursor.map encodePlace, state } requestId
      = .ok (lookAhead TaskRow.place taskView encodePlace limit cursor
          (table.rows.filter fun row => state.all fun filter => row.state = filter)) := by
  have hview : ∀ row ∈ table.rows.filter fun row => state.all fun filter => row.state = filter,
      (taskView row).isSome = true := by
    intro row hrow
    rw [taskView, Option.isSome_map]
    exact table.instances row (List.mem_filter.mp hrow).1
  have hcursor := readCursor_place cursor requestId
  rw [← respond_page hview cursor requestId, ← taskRows_eq]
  simp only [listTasks, bind, Except.bind, checkLimit_eq_ok hlimit, hcursor]
  rfl

theorem listOperations_eq (table : OperationTable) {limit : ℕ} (hlimit : 1 ≤ limit ∧ limit ≤ 200)
    (requestId : String) (cursor : Option Place) :
    listOperations table.rows { limit, cursor := cursor.map encodePlace } requestId
      = .ok (lookAhead OperationRow.place operationView encodePlace limit cursor table.rows) := by
  have hcursor := readCursor_place cursor requestId
  rw [← respond_page (fun _ _ => rfl) cursor requestId, ← operationRows_eq]
  simp only [listOperations, bind, Except.bind, checkLimit_eq_ok hlimit, hcursor]
  rfl

/-- The last of the views is that of the last row. -/
theorem getLast?_filterMap {α β : Type} {view : α → Option β} {l : List α}
    (h : ∀ a ∈ l, (view a).isSome = true) : (l.filterMap view).getLast? = l.getLast?.bind view := by
  rcases hlast : l.getLast? with _ | a
  · rw [List.getLast?_eq_none_iff.mp hlast]
    rfl
  · obtain ⟨front, rfl⟩ := List.getLast?_eq_some_iff.mp hlast
    obtain ⟨b, hb⟩ := Option.isSome_iff_exists.mp (h a (by simp))
    simp [List.filterMap_append, hb]

theorem listInventoryTorrents_eq {Json : Type} {fromStr : String → Option Json}
    (table : TorrentTable fromStr) (available complete : Option Bool) {limit : ℕ}
    (hlimit : 1 ≤ limit ∧ limit ≤ 200) (requestId : String) (cursor : Option (Fin (2 ^ 128))) :
    listInventoryTorrents fromStr table.rows
        { limit, cursor := cursor.map fun n => encodeHex (idBytes (BitVec.ofFin n)), available,
          complete } requestId
      = .ok (lookAhead TorrentRow.place (inventoryView fromStr) (fun n =>
        encodeHex (idBytes (BitVec.ofFin n))) limit
          cursor (table.rows.filter fun row => (available.all fun available =>
            row.available = available)
            && complete.all fun complete => row.isComplete = complete)) := by
  set rows := table.rows.filter fun row => (available.all fun available =>
    row.available = available)
    && complete.all fun complete => row.isComplete = complete with hrows
  have hview : ∀ row ∈ rows, (inventoryView fromStr row).isSome = true := by
    intro row hrow
    rw [inventoryView, Option.isSome_map]
    exact table.tags row (List.mem_filter.mp hrow).1
  have hpage : ∀ row ∈ (page TorrentRow.place (limit + 1) cursor rows).take limit,
      (inventoryView fromStr row).isSome = true := isSome_of_mem_page hview
  have hcursor : readCursor parseId "the inventory cursor must be a source ID"
      (cursor.map fun n => encodeHex (idBytes (BitVec.ofFin n))) requestId =
        .ok (cursor.map BitVec.ofFin) :=
    readCursor_encode (fun n => parseId_encodeHex (BitVec.ofFin n)) _ cursor requestId
  -- the identifier of the last view is that of the last row
  have hlast : (((page TorrentRow.place (limit + 1) cursor rows).take limit).filterMap
        (inventoryView fromStr)).getLast?.map InventoryView.id
      = ((page TorrentRow.place (limit + 1) cursor rows).take limit).getLast?.map
          ((fun n => encodeHex (idBytes (BitVec.ofFin n))) ∘ TorrentRow.place) := by
    rw [getLast?_filterMap hpage]
    rcases hrow : ((page TorrentRow.place (limit + 1) cursor rows).take limit).getLast? with _ | row
    · rfl
    · obtain ⟨item, hitem⟩ := Option.isSome_iff_exists.mp (hpage row (List.mem_of_getLast? hrow))
      obtain ⟨tags, -, rfl⟩ := Option.map_eq_some_iff.mp hitem
      rw [Option.bind_some, hitem]
      rfl
  simp only [listInventoryTorrents, bind, Except.bind, checkLimit_eq_ok hlimit, hcursor,
    torrentRows_eq, ← hrows, mapM_eq_filterMap hpage, hlast]
  rfl

/-! ### All pages -/

/-- **The listings are complete**: from any table of which the identifiers differ, a client who
follows the cursors of tasks, operations or torrents, with any filter and any limit that is
accepted, gets each row that matches once, the newest first or by identifier, in no more requests
than rows and one; and a cursor is read back. -/
theorem listings_complete {Json : Type} (fromStr : String → Option Json) {limit : ℕ}
    (hlimit : 1 ≤ limit ∧ limit ≤ 200) (requestId : String) :
    (∀ (table : TaskTable) (state : Option String),
      Yields (fun cursor => listTasks table.rows { limit, cursor, state } requestId) taskView
        (fun a b => b.createdAt.val < a.createdAt.val
          ∨ (b.createdAt.val = a.createdAt.val ∧ b.id < a.id))
        (table.rows.filter fun row => state.all fun filter => row.state = filter))
    ∧ (∀ table : OperationTable,
      Yields (fun cursor => listOperations table.rows { limit, cursor } requestId) operationView
        (fun a b => b.createdAt.val < a.createdAt.val ∨ (b.createdAt.val = a.createdAt.val
          ∧ b.id < a.id)) table.rows)
    ∧ (∀ (table : TorrentTable fromStr) (available complete : Option Bool),
      Yields (fun cursor =>
          listInventoryTorrents fromStr table.rows { limit, cursor, available, complete } requestId)
        (inventoryView fromStr) (fun a b => a.id < b.id)
        (table.rows.filter fun row => (available.all fun available => row.available = available)
          && complete.all fun complete => row.isComplete = complete))
    ∧ ∀ (createdAt : I64) (id : Id), decodeCursor (encodeCursor createdAt id) =
      some (createdAt.val, id) := by
  refine ⟨fun table state => ?_, fun table => ?_, fun table available complete => ?_,
    decodeCursor_encodeCursor⟩
  · have hplaces : ((table.rows.filter fun row => state.all fun filter =>
        row.state = filter).map TaskRow.place).Nodup :=
      (nodup_places table.ids).sublist (List.filter_sublist.map _)
    refine (yields_lookAhead hplaces hlimit.1
      (fun row hrow => ?_) (listTasks_eq table state hlimit requestId)).imp
      fun a b => place_lt_place.mp
    rw [taskView, Option.isSome_map]
    exact table.instances row (List.mem_filter.mp hrow).1
  · exact (yields_lookAhead (nodup_places table.ids) hlimit.1 (fun _ _ => rfl)
      (listOperations_eq table hlimit requestId)).imp fun a b => place_lt_place.mp
  · have hplaces : (table.rows.map TorrentRow.place).Nodup := by
      refine List.Nodup.of_map BitVec.ofFin ?_
      rw [List.map_map]
      exact table.ids
    refine (yields_lookAhead (hplaces.sublist (List.filter_sublist.map _)) hlimit.1
      (fun row hrow => ?_)
      (listInventoryTorrents_eq table available complete hlimit requestId)).imp fun a b h => h
    rw [inventoryView, Option.isSome_map]
    exact table.tags row (List.mem_filter.mp hrow).1

/-- An operation that has completed. -/
def operation (id : Id) (createdAt : I64) : OperationRow where
  id
  kind := "data_scan"
  state := "completed"
  producedTasks := 0
  completedTasks := 0
  failedTasks := 0
  createdAt
  updatedAt := 9

theorem five_isI64 : -(2 ^ 63) ≤ (5 : ℤ) ∧ (5 : ℤ) ≤ Tables.i64Max := by decide

/-- Three operations, two of which were created at one time. -/
def tiedOperations : OperationTable where
  rows := [operation 1 ⟨5, five_isI64⟩, operation 2 ⟨5, five_isI64⟩, operation 3 ⟨4, by decide⟩]
  ids := by decide

/-- The pages of one operation each: the tie is between the first two. -/
theorem listings_complete_tied :
    Yields (fun cursor =>
        listOperations tiedOperations.rows { limit := 1, cursor } "req_0000000000000000")
      operationView
      (fun a b => b.createdAt.val < a.createdAt.val
        ∨ (b.createdAt.val = a.createdAt.val ∧ b.id < a.id))
      tiedOperations.rows :=
  (listings_complete (fun tags => if tags = "[]" then some ([] : List String)
    else none) ⟨le_rfl, by decide⟩
    "req_0000000000000000").2.1 tiedOperations

end Sporos.Service.ListingRuns
