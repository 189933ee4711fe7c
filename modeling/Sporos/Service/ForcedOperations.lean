import Sporos.Lib.UnixPath
import Sporos.Service.DataScan
import Sporos.Service.TaskControl

/-! # Forced operations

The requests that start an inventory search or a data scan, over any number of processes on one
database. An operation is named by a digest of the request and the policy. A forced request adds its
own number to the text, which the process counts from one, so that its operation is new if, and only
if, no forced request of an earlier process with the same content, the same policy and the same
number was valid (`forced_new_iff`). -/

namespace Sporos.Service.ForcedOperations

open Sporos.Service.Tables
open Sporos.Service.Ingress
open Sporos.Service.Sources
open Sporos.Service.TaskProjection
open Sporos.Service.TaskControl
open Sporos.Service.DataScan
open Sporos.Lib.Table
open Sporos.Lib.Loop

/-! ### Backfills -/

/-- Which sources a backfill searches for. -/
structure BackfillSelection where
  hashes : List String
  includeCategories : List String
  excludeCategories : List String
  includeTags : List String
  excludeTags : List String
  deriving DecidableEq, Repr

/-- The input of a backfill workflow. -/
structure BackfillInput where
  operationId : Id
  taskId : Id
  policySnapshotId : Id
  selection : BackfillSelection
  indexerIds : List ℤ
  cursor : Option Id
  deriving DecidableEq, Repr

/-- SHA-256, `json_valid` and the encoders of JSON, of the scans, of the task control and of the
backfills. -/
structure AdminCodec where
  scan : ScanCodec
  control : ControlCodec
  backfillJson : BackfillSelection → List ℤ → Bool → String
  backfillInputJson : BackfillInput → String
  sha256_eq : control.sha256 = scan.sha256
  jsonValid_eq : control.jsonValid = scan.jsonValid

/-- What the caller learns of an accepted operation. -/
structure AcceptedOperation where
  operationId : Id
  taskId : Id
  duplicate : Bool
  deriving DecidableEq, Repr

section

variable (codec : AdminCodec)

/-- The input of a backfill, with its ids. -/
def backfillInput (policyJson : String) (selection : BackfillSelection) (indexerIds : List ℤ)
    (forceNonce : Option String) : BackfillInput :=
  let policyId := first16 (codec.scan.sha256 (utf8 policyJson))
  let operationId := first16 (codec.scan.sha256 (utf8 "inventory-search-operation-v1"
    ++ utf8 (codec.backfillJson selection indexerIds forceNonce.isSome) ++ idBytes policyId
    ++ (forceNonce.map utf8).getD []))
  { operationId
    taskId := first16 (codec.scan.sha256 (utf8 "inventory-search-task-v1" ++ idBytes operationId))
    policySnapshotId := policyId
    selection
    indexerIds
    cursor := none }

/-- The instance of a backfill. -/
def backfillInstanceId (input : BackfillInput) : String :=
  "inventory-search-v1:" ++ encodeHex input.operationId

/-- The task of a backfill. -/
def backfillTask (input : BackfillInput) (policyJson : String) (now : ℤ) : NewTask where
  id := input.taskId
  key := codec.scan.sha256 (utf8 "inventory-search-task-v1" ++ idBytes input.operationId)
  kind := "inventory_search"
  policy :=
    { id := input.policySnapshotId
      configHash := codec.scan.sha256 (utf8 policyJson)
      matcherVersion := "sporos-matcher/1"
      payloadJson := policyJson
      createdAt := now }
  orchestrationName := "ProduceInventorySearch"
  orchestrationVersion := "1.0.0"
  instanceId := backfillInstanceId input
  inputJson := codec.backfillInputJson input
  createdAt := now

/-- `accept_backfill`: the task and the operation, unless they are there. -/
def acceptBackfill (store : Store) (policyJson : String) (selection : BackfillSelection)
    (indexerIds : List ℤ) (forceNonce : Option String) (now : ℤ) :
      Option (Store × AcceptedOperation) :=
  let input := backfillInput codec policyJson selection indexerIds forceNonce
  match acceptTaskIn codec.scan.jsonValid store.db (backfillTask codec input policyJson now) with
  | .error _ => none
  | .ok (db, inserted) =>
    let operation : OperationRow :=
      { id := input.operationId
        kind := "inventory_search"
        state := "queued"
        instanceId := backfillInstanceId input
        requestJson := codec.backfillJson selection indexerIds forceNonce.isSome
        createdAt := now
        updatedAt := now }
    some
      ({ store with
          db, operations := insertOrIgnore OperationRow.id store.operations operation },
        ⟨input.operationId, input.taskId, !inserted⟩)

/-- `data_scan::accept`, with what it returns. -/
def acceptDataScan (store : Store) (scans : Scans) (rootName policyJson : String)
    (indexerIds : List ℤ) (forceNonce : Option String) (now : ℤ) :
      Option (Store × Scans × AcceptedOperation) :=
  let input := scanInput codec.scan rootName policyJson indexerIds forceNonce
  match acceptTaskIn codec.scan.jsonValid store.db (scanTask codec.scan input policyJson now),
    DataScan.accept codec.scan store scans rootName policyJson indexerIds forceNonce now with
  | .ok (_, inserted), some (store, scans) =>
    some (store, scans, ⟨input.operationId, input.taskId, !inserted⟩)
  | _, _ => none

end

/-! ### Requests -/

/-- An error that is answered. -/
structure Problem where
  status : ℕ
  code : String
  title : String
  detail : String
  requestId : String
  deriving DecidableEq, Repr

/-- The answer when the database fails. -/
def Problem.database (requestId : String) : Problem :=
  ⟨500, "database_unavailable", "Database unavailable",
    "the task projection could not be read", requestId⟩

/-- A request for a backfill. -/
structure InventorySearchRequest where
  kind : String
  selection : BackfillSelection
  indexerIds : List ℤ
  force : Bool
  dryRun : Bool
  deriving DecidableEq, Repr

/-- A request for a scan. -/
structure DataScanRequest where
  root : String
  indexerIds : List ℤ
  force : Bool
  dryRun : Bool
  deriving DecidableEq, Repr

/-- The parts of the state of a process that the requests read. The policy is its JSON, with and
without the dry run. -/
structure Process where
  prowlarrConfigured : Bool
  prowlarrClient : Bool
  dataRoots : List String
  searchPolicy : Bool → String

/-- What a request finds outside of the tables below: whether Prowlarr has answered, whether its
indexers could be projected, and the eligible indexers, unless the query fails. -/
structure Surroundings where
  indexers : Bool
  projected : Bool
  eligible : ℤ → Option Bool

/-- `RequestId::next`, for a number of the sequence. -/
def requestId (sequence : BitVec 64) : String :=
  "req_" ++ String.ofList ((List.range 16).map fun i =>
    hexDigit (sequence.extractLsb' (4 * (15 - i)) 4).toNat)

/-- A hash in lower case, of either version. -/
def validInfoHash (value : String) : Bool :=
  ((utf8 value).length = 40 ∨ (utf8 value).length = 64)
    ∧ (utf8 value).all fun b => (48 ≤ b && b ≤ 57) || (97 ≤ b && b ≤ 102)

/-- The indexers that a request selects are eligible. -/
def checkIndexers (around : Surroundings) (requestId : String) : List ℤ → Except Problem Unit
  | [] => .ok ()
  | indexerId :: indexerIds =>
    match around.eligible indexerId with
    | none => .error (.database requestId)
    | some true => checkIndexers around requestId indexerIds
    | some false => .error ⟨422, "indexer_ineligible", "Indexer is not eligible",
        "an explicitly selected Prowlarr indexer is absent or unsafe", requestId⟩

/-- The checks of `start_inventory_search`. -/
def InventorySearchRequest.validate (request : InventorySearchRequest) (process : Process)
    (around : Surroundings) (requestId : String) : Except Problem Unit :=
  if !process.prowlarrConfigured then
    .error ⟨503, "prowlarr_not_configured", "Prowlarr not configured",
      "the Prowlarr integration is not configured",
      requestId⟩
  else if request.indexerIds ≠ [] ∧ process.prowlarrClient ∧ !around.indexers then
    .error ⟨503, "prowlarr_unavailable", "Prowlarr unavailable",
      "the Prowlarr indexer projection could not be refreshed", requestId⟩
  else if request.indexerIds ≠ [] ∧ process.prowlarrClient ∧ !around.projected
    then .error (.database requestId)
  else if request.kind ≠ "qbittorrent" ∨ request.indexerIds.length > 100
    ∨ request.selection.hashes.length > 10000
      ∨ ¬ request.selection.hashes.all validInfoHash then
    .error ⟨400, "invalid_inventory_search", "Invalid inventory search",
      "source selection, hashes, or indexer IDs are invalid", requestId⟩
  else checkIndexers around requestId request.indexerIds

/-- The checks of `start_data_scan`. -/
def DataScanRequest.validate (request : DataScanRequest) (process : Process) (around : Surroundings)
    (requestId : String) : Except Problem Unit :=
  if request.root ∉ process.dataRoots then
    .error ⟨422, "data_root_not_configured", "Data root not configured",
      "root must name a configured data scan root", requestId⟩
  else if request.indexerIds.length > 100 then
    .error ⟨400, "invalid_data_scan", "Invalid data scan",
      "at most 100 Prowlarr indexers may be selected", requestId⟩
  else checkIndexers around requestId request.indexerIds

/-- The answer to a request for an operation. -/
structure OperationResponse where
  status : ℕ
  operationId : String
  taskId : String
  duplicate : Bool
  state : String
  deriving DecidableEq, Repr

/-- The answer to a request that is accepted, or has been before. -/
def AcceptedOperation.response (accepted : AcceptedOperation) : OperationResponse :=
  ⟨if accepted.duplicate then 200 else 202, encodeHex accepted.operationId,
    encodeHex accepted.taskId, accepted.duplicate, "queued"⟩

/-! ### Processes -/

/-- The content of a request that starts an operation. -/
inductive Content where
  | search (selection : BackfillSelection) (indexerIds : List ℤ)
  | scan (rootName : String) (indexerIds : List ℤ)
  deriving DecidableEq, Repr

/-- What an operation is named by: the content of the request, the JSON of the policy, and the
number of the request if it is forced. -/
structure Name where
  content : Content
  policyJson : String
  force : Option (BitVec 64)
  deriving DecidableEq, Repr

/-- The database, a process and its next number, with the names of the valid requests so far and the
texts of which the digests have been taken, which no function reads. -/
structure Sys where
  store : Store
  scans : Scans
  process : Process
  sequence : BitVec 64
  names : List Name
  hashed : List Bytes

/-- The first process. -/
def Sys.init (process : Process) : Sys := ⟨Store.empty, Scans.init, process, 1, [], []⟩

/-- The requests, each of which takes a number, the starts of processes, and the writes of the
workers to tasks. -/
inductive Event where
  | search (request : InventorySearchRequest) (around : Surroundings) (now : ℤ)
  | scan (request : DataScanRequest) (around : Surroundings) (now : ℤ)
  | retry (taskId : Id) (now : ℤ)
  | cancel (taskId : Id) (now : ℤ)
  | other
  | restart (process : Process)
  | project (update : ProjectionUpdate)
  | terminal (taskId : Id) (state reason : String) (now : ℤ)

section

variable (fromStr : String → Bool) (codec : AdminCodec)

/-- `start_inventory_search`. -/
def startInventorySearch (sys : Sys) (request : InventorySearchRequest)
    (around : Surroundings) (now : ℤ) : Sys × Except Problem OperationResponse :=
  let id := requestId sys.sequence
  match request.validate sys.process around id with
  | .error problem => (sys, .error problem)
  | .ok () =>
    match acceptBackfill codec sys.store (sys.process.searchPolicy request.dryRun) request.selection
      request.indexerIds (if request.force then some id else none) now with
    | none => (sys, .error (.database id))
    | some (store, accepted) => ({ sys with store }, .ok accepted.response)

/-- `start_data_scan`. -/
def startDataScan (sys : Sys) (request : DataScanRequest) (around : Surroundings) (now : ℤ) :
    Sys × Except Problem OperationResponse :=
  let id := requestId sys.sequence
  match request.validate sys.process around id with
  | .error problem => (sys, .error problem)
  | .ok () =>
    match acceptDataScan codec sys.store sys.scans request.root
      (sys.process.searchPolicy request.dryRun)
      request.indexerIds (if request.force then some id else none) now with
    | none => (sys, .error (.database id))
    | some (store, scans, accepted) => ({ sys with store, scans }, .ok accepted.response)

/-- The answer to a request that starts an operation. -/
def Event.answer (sys : Sys) : Event → Option (Except Problem OperationResponse)
  | .search request around now => some (startInventorySearch codec sys request around now).2
  | .scan request around now => some (startDataScan codec sys request around now).2
  | _ => none

/-- The tables after an event: what fails is rolled back. -/
def Event.perform (sys : Sys) : Event → Sys
  | .search request around now => (startInventorySearch codec sys request around now).1
  | .scan request around now => (startDataScan codec sys request around now).1
  | .retry taskId now =>
    match TaskControl.retry codec.control sys.store.db taskId now with
    | .error _ => sys
    | .ok (db, _) => { sys with store := { sys.store with db } }
  | .cancel taskId now =>
    match requestCancel codec.control sys.store.db taskId now with
    | .error _ => sys
    | .ok (db, _) => { sys with store := { sys.store with db } }
  | .other => sys
  | .restart process => { sys with process }
  | .project update =>
    match projectTask fromStr codec.scan.jsonValid sys.store.db update with
    | .error _ => sys
    | .ok (db, _) => { sys with store := { sys.store with db } }
  | .terminal taskId state reason now =>
    match recordTerminal codec.control sys.store.db taskId state reason now with
    | .error _ => sys
    | .ok db => { sys with store := { sys.store with db } }

/-- The next number: a process begins at one, and a request takes a number. -/
def Event.nextSequence (sequence : BitVec 64) : Event → BitVec 64
  | .restart _ => 1
  | .project _ | .terminal .. => sequence
  | .search .. | .scan .. | .retry .. | .cancel .. | .other => sequence + 1

/-- The name of a request that starts an operation, if it is valid. -/
def Event.name? (sys : Sys) : Event → Option Name
  | .search request around _ =>
    if (request.validate sys.process around (requestId sys.sequence)).isOk then
      some ⟨.search request.selection request.indexerIds, sys.process.searchPolicy request.dryRun,
        if request.force then some sys.sequence else none⟩
    else none
  | .scan request around _ =>
    if (request.validate sys.process around (requestId sys.sequence)).isOk then
      some ⟨.scan request.root request.indexerIds, sys.process.searchPolicy request.dryRun,
        if request.force then some sys.sequence else none⟩
    else none
  | _ => none

/-! ### Names -/

/-- The kind of an operation. -/
def Content.kind : Content → String
  | .search .. => "inventory-search"
  | .scan .. => "data-scan"

/-- The request as it is stored. -/
def Content.requestJson : Content → Bool → String
  | .search selection indexerIds, force => codec.backfillJson selection indexerIds force
  | .scan rootName indexerIds, force => codec.scan.requestJson rootName indexerIds force

/-- The id of the policy of a name. -/
def Name.policyId (name : Name) : Id := first16 (codec.scan.sha256 (utf8 name.policyJson))

/-- The text that names the operation. -/
def Name.text (name : Name) : Bytes :=
  utf8 (name.content.kind ++ "-operation-v1")
    ++ utf8 (name.content.requestJson codec name.force.isSome)
    ++ idBytes (name.policyId codec) ++ (name.force.map fun sequence =>
      utf8 (requestId sequence)).getD []

/-- The id of the operation of a name. -/
def Name.operationId (name : Name) : Id := first16 (codec.scan.sha256 (name.text codec))

/-- The text that names the task. -/
def Name.taskText (name : Name) : Bytes :=
  utf8 (name.content.kind ++ "-task-v1") ++ idBytes (name.operationId codec)

/-- The texts of which a request takes the digests. -/
def Name.texts (name : Name) : List Bytes :=
  [utf8 name.policyJson, name.text codec, name.taskText codec]

/-- The task of a name. -/
def Name.task (name : Name) (now : ℤ) : NewTask :=
  match name.content with
  | .search selection indexerIds =>
    backfillTask codec (backfillInput codec name.policyJson selection indexerIds
      (name.force.map requestId))
      name.policyJson now
  | .scan rootName indexerIds =>
    scanTask codec.scan (scanInput codec.scan rootName name.policyJson indexerIds
      (name.force.map requestId))
      name.policyJson now

/-- What the key of a retry is a hash of. -/
def retryText (oldKey : Digest) (generation : ℕ) : Bytes :=
  utf8 "task-retry-v1" ++ digestBytes oldKey ++ generationBytes generation

/-- What the key of a cancellation is a hash of. -/
def cancelText (taskId : Id) (generation : ℕ) : Bytes :=
  utf8 "task-cancellation-v1" ++ idBytes taskId ++ generationBytes generation

/-- The texts of which an event may take the digests. -/
def Event.texts (sys : Sys) (event : Event) : List Bytes :=
  match event with
  | .retry taskId _ =>
    match sys.store.db.task taskId with
    | none => []
    | some row =>
      ((lookup OutboxRow.instanceId sys.store.db.outbox row.instanceId).map fun start =>
        retryText start.taskKey (row.projectionGeneration + 1)).toList
  | .cancel taskId _ =>
    match sys.store.db.task taskId with
    | none => []
    | some row => [cancelText taskId (row.projectionGeneration + 1)]
  | event => ((event.name? sys).map (Name.texts codec)).getD []

/-- The system after an event, with the names and the texts that are hashed. -/
def Event.apply (sys : Sys) (event : Event) : Sys :=
  { event.perform fromStr codec sys with
    sequence := event.nextSequence sys.sequence
    names := sys.names ++ (event.name? sys).toList
    hashed := sys.hashed ++ event.texts codec sys }

/-- The state before the event at a position. -/
def sysAt (process : Process) (history : List Event) (n : ℕ) : Sys :=
  (history.take n).foldl (Event.apply fromStr codec) (Sys.init process)

/-- The request creates an operation and a task that were not there, and is answered so. -/
def CreatesNew (sys : Sys) (event : Event) : Prop :=
  ∃ accepted : AcceptedOperation, event.answer codec sys = some (.ok accepted.response)
    ∧ accepted.duplicate = false
    ∧ lookup OperationRow.id sys.store.operations accepted.operationId = none
    ∧ (lookup OperationRow.id (event.apply fromStr codec sys).store.operations
      accepted.operationId).isSome
    ∧ sys.store.db.task accepted.taskId = none
    ∧ ((event.apply fromStr codec sys).store.db.task accepted.taskId).isSome

/-- What the requests of a history need of SHA-256 and of JSON: no two of the texts have digests
with the same first bytes, two contents have different texts, the text of a forced request does not
begin one that is not forced, and what the encoders write is JSON. -/
structure Lawful (names : List Name) (texts : List Bytes) : Prop where
  sha256 : Set.InjOn (fun text => first16 (codec.scan.sha256 text)) {text | text ∈ texts}
  requestJson : ∀ name ∈ names, ∀ name' ∈ names, ∀ force, name.content.kind = name'.content.kind →
    name.content.requestJson codec force = name'.content.requestJson codec force →
      name.content = name'.content
  apart : ∀ name ∈ names, ∀ name' ∈ names, name.content.kind = name'.content.kind →
    ¬ utf8 (name.content.requestJson codec true) <+: utf8 (name'.content.requestJson codec false)
  valid : ∀ name ∈ names, codec.scan.jsonValid name.policyJson = true
    ∧ codec.scan.jsonValid (name.task codec 0).inputJson = true

end

/-! ### The texts of names -/

theorem requestId_injective : Function.Injective requestId := by
  intro sequence sequence' h
  have hdigits := congrArg String.toList h
  simp only [requestId, String.toList_append, String.toList_ofList,
    List.append_cancel_left_eq] at hdigits
  refine @eq_of_chunks 64 4 16 (by decide) (by decide) _ _ fun i hi => ?_
  have hmap := List.map_inj_left.mp hdigits i (List.mem_range.mpr hi)
  exact BitVec.eq_of_toNat_eq (hexDigit_inj (BitVec.isLt _) (BitVec.isLt _) hmap)

theorem length_utf8_hexDigit {n : ℕ} (hn : n < 16) :
    (String.utf8EncodeChar (hexDigit n)).length = 1 := by
  have hall : ∀ n < 16, (String.utf8EncodeChar (hexDigit n)).length = 1 := by decide
  exact hall n hn

theorem length_utf8_requestId (sequence : BitVec 64) : (utf8 (requestId sequence)).length = 20 := by
  have hdigits : ∀ indices : List ℕ, (indices.map fun i =>
      (String.utf8EncodeChar (hexDigit (sequence.extractLsb' (4 * (15 - i)) 4).toNat)).length).sum
        = indices.length := by
    intro indices
    induction indices with
    | nil => rfl
    | cons i indices ih =>
      rw [List.map_cons, List.sum_cons, ih, length_utf8_hexDigit (BitVec.isLt _),
        List.length_cons, Nat.add_comm]
  simp only [utf8, requestId, String.toList_append, String.toList_ofList, Matcher.Release.bytes,
    List.flatMap_append, List.length_append, List.length_flatMap, List.map_map,
    Function.comp_def, hdigits]
  decide

theorem utf8_inj {s s' : String} (h : utf8 s = utf8 s') : s = s' :=
  String.toList_injective (Lib.UnixPath.utf8_injective h)

section

variable {codec : AdminCodec}

theorem operationId_search (policyJson : String) (selection : BackfillSelection)
    (indexerIds : List ℤ) (force : Option (BitVec 64)) :
    (backfillInput codec policyJson selection indexerIds (force.map requestId)).operationId
      = (Name.mk (.search selection indexerIds) policyJson force).operationId codec := by
  cases force <;> rfl

theorem operationId_scan (policyJson rootName : String) (indexerIds : List ℤ)
    (force : Option (BitVec 64)) :
    (scanInput codec.scan rootName policyJson indexerIds (force.map requestId)).operationId
      = (Name.mk (.scan rootName indexerIds) policyJson force).operationId codec := by
  cases force <;> rfl

theorem task_id (name : Name) (now : ℤ) :
    (name.task codec now).id = first16 (codec.scan.sha256 (name.taskText codec)) := by
  obtain ⟨content, policyJson, force⟩ := name
  cases content <;> cases force <;> rfl

theorem task_key (name : Name) (now : ℤ) :
    (name.task codec now).key = codec.scan.sha256 (name.taskText codec) := by
  obtain ⟨content, policyJson, force⟩ := name
  cases content <;> cases force <;> rfl

theorem task_policy (name : Name) (now : ℤ) : (name.task codec now).policy
    = ⟨name.policyId codec, codec.scan.sha256 (utf8 name.policyJson), "sporos-matcher/1",
      name.policyJson, now⟩ := by
  obtain ⟨content, policyJson, force⟩ := name
  cases content <;> cases force <;> rfl

theorem task_inputJson (name : Name) (now : ℤ) :
    (name.task codec now).inputJson = (name.task codec 0).inputJson := by
  obtain ⟨content, policyJson, force⟩ := name
  cases content <;> rfl

/-- What the instances of the task of an operation begin with. -/
def Name.stem (codec : AdminCodec) (name : Name) : List Char :=
  match name.content with
  | .search .. => "inventory-search-v1:".toList ++ (encodeHex (name.operationId codec)).toList
  | .scan .. => "data-scan-v1:".toList ++ (encodeHex (name.operationId codec)).toList

theorem stem_prefix_task (name : Name) (now : ℤ) :
    name.stem codec <+: (name.task codec now).instanceId.toList := by
  obtain ⟨content, policyJson, force⟩ := name
  cases content with
  | search selection indexerIds =>
    have hinstance : ((Name.mk (.search selection indexerIds) policyJson force).task
      codec now).instanceId
        = "inventory-search-v1:"
          ++ encodeHex ((Name.mk (.search selection indexerIds) policyJson
            force).operationId codec) := by
      rw [← operationId_search]
      rfl
    rw [hinstance, String.toList_append]
    exact List.prefix_rfl
  | scan rootName indexerIds =>
    have hinstance : ((Name.mk (.scan rootName indexerIds) policyJson force).task
      codec now).instanceId
        = "data-scan-v1:"
          ++ encodeHex ((Name.mk (.scan rootName indexerIds) policyJson force).operationId codec)
          ++ ":" ++ rootName := by
      rw [← operationId_scan]
      rfl
    rw [hinstance, String.toList_append, String.toList_append, String.toList_append,
      List.append_assoc _ ":".toList]
    exact List.prefix_append _ _

theorem length_encodeHex (id : Id) : (encodeHex id).toList.length = 32 := by simp [encodeHex]

/-- Instances tell the operations apart. -/
theorem operationId_of_stems {name name' : Name} {text : List Char} (h : name.stem codec <+: text)
    (h' : name'.stem codec <+: text) : name.operationId codec = name'.operationId codec := by
  obtain ⟨content, policyJson, force⟩ := name
  obtain ⟨content', policyJson', force'⟩ := name'
  obtain ⟨rest, rfl⟩ := h
  obtain ⟨rest', heq⟩ := h'
  cases content <;> cases content' <;> simp [Name.stem] at heq
  · exact encodeHex_injective
      (String.toList_injective (List.append_inj heq (by simp only [length_encodeHex])).1.symm)
  · exact encodeHex_injective
      (String.toList_injective (List.append_inj heq (by simp only [length_encodeHex])).1.symm)

theorem not_cancel_stem {name : Name} {text : List Char} (h : name.stem codec <+: text) :
    ¬ "cancel-task:".toList <+: text := by
  rintro ⟨rest', heq⟩
  obtain ⟨rest, rfl⟩ := h
  obtain ⟨content, policyJson, force⟩ := name
  cases content <;> simp [Name.stem] at heq

/-! ### Names that differ -/

theorem length_idBytes (id : Id) : (idBytes id).length = 16 := by simp [idBytes]

/-- The first byte of the texts of an operation. -/
def Content.first : Content → UInt8
  | .search .. => 105
  | .scan .. => 100

theorem kind_of_first {content content' : Content} (h : content.first = content'.first) :
    content.kind = content'.kind := by
  cases content <;> cases content' <;> simp [Content.first, Content.kind] at h ⊢

theorem head?_kind (content : Content) (rest : String) :
    (utf8 (content.kind ++ rest)).head? = some content.first := by
  have hsearch : (utf8 "inventory-search").head? = some 105 := by decide
  have hscan : (utf8 "data-scan").head? = some 100 := by decide
  rw [utf8, String.toList_append, Matcher.Release.bytes, List.flatMap_append, List.head?_append]
  cases content with
  | search => exact Option.or_of_isSome (Option.isSome_of_eq_some hsearch) |>.trans hsearch
  | scan => exact Option.or_of_isSome (Option.isSome_of_eq_some hscan) |>.trans hscan

theorem head?_text (name : Name) : (name.text codec).head? = some name.content.first := by
  simp only [Name.text, List.head?_append, head?_kind, Option.some_or]

theorem head?_taskText (name : Name) : (name.taskText codec).head? = some name.content.first := by
  simp only [Name.taskText, List.head?_append, head?_kind, Option.some_or]

theorem kind_of_text {name name' : Name} (h : name.text codec = name'.text codec) :
    name.content.kind = name'.content.kind := by
  have hhead := congrArg List.head? h
  rw [head?_text, head?_text] at hhead
  exact kind_of_first (Option.some.inj hhead)

theorem kind_of_taskText {name name' : Name} (h : name.taskText codec = name'.taskText codec) :
    name.content.kind = name'.content.kind := by
  have hhead := congrArg List.head? h
  rw [head?_taskText, head?_taskText] at hhead
  exact kind_of_first (Option.some.inj hhead)

theorem not_task_taskText (name : Name) : ¬ utf8 "task-" <+: name.taskText codec := by
  intro h
  have hhead := @head?_taskText codec name
  obtain ⟨rest, heq⟩ := h
  have htask : (utf8 "task-").head? = some 116 := by decide
  rw [← heq, List.head?_append, htask, Option.some_or] at hhead
  cases hcontent : name.content <;> simp [hcontent, Content.first] at hhead

theorem operationId_of_taskText {name name' : Name}
    (h : name.taskText codec = name'.taskText codec) :
    name.operationId codec = name'.operationId codec := by
  have hkind := kind_of_taskText h
  rw [Name.taskText, Name.taskText, hkind] at h
  exact idBytes_injective (List.append_cancel_left h)

/-- The texts of forced and of other requests are different. -/
theorem force_of_append {json json' policy policy' nonce : Bytes} (hpolicy : policy.length = 16)
    (hpolicy' : policy'.length = 16) (hnonce : nonce.length = 20)
    (h : json ++ policy ++ nonce = json' ++ policy') : json <+: json' := by
  have hlength := congrArg List.length h
  simp only [List.length_append, hpolicy, hpolicy', hnonce] at hlength
  refine List.prefix_of_prefix_length_le ?_ (List.prefix_append json' policy') (by omega)
  rw [← h, List.append_assoc]
  exact List.prefix_append _ _

section

variable {names : List Name} {texts : List Bytes} {name name' : Name}

theorem Lawful.text_parts (h : Lawful codec names texts) (hname : name ∈ names)
    (hname' : name' ∈ names) (htext : name.text codec = name'.text codec) :
    name.content = name'.content ∧ name.policyId codec = name'.policyId codec
      ∧ name.force = name'.force := by
  have hkind := kind_of_text htext
  obtain ⟨content, policyJson, force⟩ := name
  obtain ⟨content', policyJson', force'⟩ := name'
  simp only at hkind
  simp only [Name.text, hkind, List.append_assoc, List.append_cancel_left_eq] at htext
  simp only [← List.append_assoc] at htext
  cases force with
  | none =>
    cases force' with
    | none =>
      simp only [Option.map_none, Option.getD_none, List.append_nil, Option.isSome_none] at htext
      obtain ⟨hjson, hpolicy⟩ := List.append_inj' htext (by rw [length_idBytes, length_idBytes])
      exact ⟨h.requestJson _ hname _ hname' false hkind (utf8_inj hjson),
        idBytes_injective hpolicy, rfl⟩
    | some sequence' =>
      simp only [Option.map_none, Option.getD_none, List.append_nil, Option.isSome_none,
        Option.map_some, Option.getD_some, Option.isSome_some] at htext
      exact absurd (force_of_append (length_idBytes _) (length_idBytes _)
        (length_utf8_requestId _) htext.symm)
        (h.apart _ hname' _ hname hkind.symm)
  | some sequence =>
    cases force' with
    | none =>
      simp only [Option.map_none, Option.getD_none, List.append_nil, Option.isSome_none,
        Option.map_some, Option.getD_some, Option.isSome_some] at htext
      exact absurd (force_of_append (length_idBytes _) (length_idBytes _)
        (length_utf8_requestId _) htext)
        (h.apart _ hname _ hname' hkind)
    | some sequence' =>
      simp only [Option.map_some, Option.getD_some, Option.isSome_some] at htext
      obtain ⟨hfront, hnonce⟩ :=
        List.append_inj' htext (by rw [length_utf8_requestId, length_utf8_requestId])
      obtain ⟨hjson, hpolicy⟩ := List.append_inj' hfront (by rw [length_idBytes, length_idBytes])
      exact ⟨h.requestJson _ hname _ hname' true hkind (utf8_inj hjson), idBytes_injective hpolicy,
        congrArg some (requestId_injective (utf8_inj hnonce))⟩

theorem Lawful.policyJson_eq (h : Lawful codec names texts)
    (htexts : ∀ text ∈ name.texts codec, text ∈ texts)
    (htexts' : ∀ text ∈ name'.texts codec, text ∈ texts)
    (heq : name.policyId codec = name'.policyId codec) : name.policyJson = name'.policyJson :=
  utf8_inj (h.sha256 (htexts _ (by simp [Name.texts])) (htexts' _ (by simp [Name.texts])) heq)

/-- Operations tell the names apart. -/
theorem Lawful.name_eq (h : Lawful codec names texts) (hname : name ∈ names)
    (hname' : name' ∈ names) (htexts : ∀ text ∈ name.texts codec, text ∈ texts)
    (htexts' : ∀ text ∈ name'.texts codec, text ∈ texts)
    (heq : name.operationId codec = name'.operationId codec) : name = name' := by
  have htext := h.sha256 (htexts _ (by simp [Name.texts])) (htexts' _ (by simp [Name.texts])) heq
  obtain ⟨hcontent, hpolicy, hforce⟩ := h.text_parts hname hname' htext
  have hjson := h.policyJson_eq htexts htexts' hpolicy
  obtain ⟨content, policyJson, force⟩ := name
  obtain ⟨content', policyJson', force'⟩ := name'
  simp only at hcontent hjson hforce
  rw [hcontent, hjson, hforce]

end

/-! ### Acceptance -/

/-- A task of which nothing is there is accepted, and it is new. -/
theorem acceptTaskIn_of_new {jsonValid : String → Bool} {db : Db} {task : NewTask}
    (hpayload : jsonValid task.policy.payloadJson = true) (hinput : jsonValid task.inputJson = true)
    (hpolicy : ∀ row ∈ db.policies, row.id = task.policy.id →
      row.configHash = task.policy.configHash
      ∧ row.matcherVersion = task.policy.matcherVersion ∧ row.payloadJson = task.policy.payloadJson)
    (htask : db.task task.id = none) (hkey : lookup OutboxRow.taskKey db.outbox task.key = none)
    (hinstance : lookup OutboxRow.instanceId db.outbox task.instanceId = none) :
    acceptTaskIn jsonValid db task = .ok ({ insertRows db task with
      outbox := db.outbox ++ [task.start (nextOutboxId db.outbox)] }, true) := by
  have hverifyPolicy : verifyPolicy { db with
    policies := insertOrIgnore PolicyRow.id db.policies task.policy }
      task.policy = .ok () := by
    refine verifyPolicy_eq_ok.mpr ⟨_, lookup_insertOrIgnore_self db.policies task.policy, ?_⟩
    cases hold : lookup PolicyRow.id db.policies task.policy.id with
    | none => exact ⟨rfl, rfl, rfl⟩
    | some row => exact hpolicy row (lookup_eq_some_mem hold).1 (lookup_eq_some_mem hold).2
  have hverifyTask : ∀ policies,
      verifyTask (insertTask { db with policies } task) task = .ok () := by
    intro policies
    refine verifyTask_eq_ok.mpr ⟨_, lookup_insertOrIgnore_self db.tasks task.row, ?_⟩
    have hnone : lookup TaskRow.id db.tasks task.row.id = none := htask
    rw [hnone]
    exact ⟨rfl, rfl, rfl⟩
  have hverifyOutbox : verifyOutbox { insertRows db task with
      outbox := db.outbox ++ [task.start (nextOutboxId db.outbox)] } task = .ok () := by
    refine verifyOutbox_eq_ok.mpr ⟨task.start (nextOutboxId db.outbox), ?_, rfl, rfl, rfl, rfl, rfl⟩
    rw [lookup_append, hkey, Option.none_or]
    exact lookup_singleton.trans (if_pos rfl)
  unfold acceptTaskIn insertPolicy
  rw [if_pos hpayload]
  simp only [bind, Except.bind, hverifyPolicy, hverifyTask]
  simp only [insertTask, insertQueued, insertStart, hinput, hkey, hinstance, Bool.not_true,
    Bool.false_eq_true, if_false, Option.isSome_none]
  have hrows := hverifyOutbox
  simp only [insertRows] at hrows ⊢
  rw [hrows]
  rfl

end

section

variable {fromStr : String → Bool} {codec : AdminCodec} {sys : Sys} {event : Event} {name : Name}

theorem eq_ok_of_isOk {ε : Type} {result : Except ε Unit}
    (h : result.isOk = true) : result = .ok () := by
  cases result with
  | error => cases h
  | ok => rfl

theorem name?_search {request : InventorySearchRequest} {around : Surroundings} {now : ℤ}
    (h : (Event.search request around now).name? sys = some name) :
    request.validate sys.process around (requestId sys.sequence) = .ok ()
      ∧ name = ⟨.search request.selection request.indexerIds,
        sys.process.searchPolicy request.dryRun,
        if request.force then some sys.sequence else none⟩ := by
  by_cases hvalid : (request.validate sys.process around (requestId sys.sequence)).isOk = true
  · rw [Event.name?, if_pos hvalid] at h
    exact ⟨eq_ok_of_isOk hvalid, (Option.some.inj h).symm⟩
  · rw [Event.name?, if_neg hvalid] at h
    cases h

theorem name?_scan {request : DataScanRequest} {around : Surroundings} {now : ℤ}
    (h : (Event.scan request around now).name? sys = some name) :
    request.validate sys.process around (requestId sys.sequence) = .ok ()
      ∧ name = ⟨.scan request.root request.indexerIds, sys.process.searchPolicy request.dryRun,
        if request.force then some sys.sequence else none⟩ := by
  by_cases hvalid : (request.validate sys.process around (requestId sys.sequence)).isOk = true
  · rw [Event.name?, if_pos hvalid] at h
    exact ⟨eq_ok_of_isOk hvalid, (Option.some.inj h).symm⟩
  · rw [Event.name?, if_neg hvalid] at h
    cases h

/-- A valid request accepts the task of its name and inserts its operation, or it changes nothing.
-/
theorem perform_of_name (h : event.name? sys = some name) :
    ∃ now,
      (∃ error, acceptTaskIn codec.scan.jsonValid sys.store.db (name.task codec now) = .error error
        ∧ event.perform fromStr codec sys = sys
        ∧ event.answer codec sys = some (.error (.database (requestId sys.sequence))))
      ∨ ∃ db inserted scans row,
        acceptTaskIn codec.scan.jsonValid sys.store.db (name.task codec now) = .ok (db, inserted)
        ∧ row.id = name.operationId codec
        ∧ event.perform fromStr codec sys = { sys with
            store := { sys.store with
              db, operations := insertOrIgnore OperationRow.id sys.store.operations row }
            scans }
        ∧ event.answer codec sys = some (.ok (AcceptedOperation.mk (name.operationId codec)
            (name.task codec now).id (!inserted)).response) := by
  have hnonce : ∀ force : Bool, (if force = true then some (requestId sys.sequence) else none)
      = (if force = true then some sys.sequence else none).map requestId := by
    intro force
    cases force <;> rfl
  cases event with
  | search request around now =>
    obtain ⟨hok, rfl⟩ := name?_search h
    refine ⟨now, ?_⟩
    simp only [Event.perform, Event.answer, startInventorySearch, hok, acceptBackfill,
      hnonce, Name.task]
    cases haccept : acceptTaskIn codec.scan.jsonValid sys.store.db
      (backfillTask codec (backfillInput codec
      (sys.process.searchPolicy request.dryRun) request.selection request.indexerIds
      ((if request.force = true then some sys.sequence else none).map requestId))
      (sys.process.searchPolicy request.dryRun) now) with
    | error error => exact .inl ⟨error, rfl, rfl, rfl⟩
    | ok result =>
      refine .inr ⟨result.1, result.2, sys.scans, _, rfl, ?_, rfl, ?_⟩
      · exact operationId_search _ _ _ _
      · rw [← operationId_search]
        rfl
  | scan request around now =>
    obtain ⟨hok, rfl⟩ := name?_scan h
    refine ⟨now, ?_⟩
    simp only [Event.perform, Event.answer, startDataScan, hok, acceptDataScan, DataScan.accept,
      hnonce, Name.task]
    cases haccept : acceptTaskIn codec.scan.jsonValid sys.store.db
      (scanTask codec.scan (scanInput codec.scan
      request.root (sys.process.searchPolicy request.dryRun) request.indexerIds
      ((if request.force = true then some sys.sequence else none).map requestId))
      (sys.process.searchPolicy request.dryRun) now) with
    | error error => exact .inl ⟨error, rfl, rfl, rfl⟩
    | ok result =>
      refine .inr ⟨result.1, result.2, _, _, rfl, ?_, rfl, ?_⟩
      · exact operationId_scan _ _ _ _
      · rw [← operationId_scan]
        rfl
  | _ => simp [Event.name?] at h

/-! ### What the tables hold -/

/-- The key of a start request, of a task of an operation or of the task control. -/
def KeyOf (codec : AdminCodec) (texts : List Bytes) (known : List Name) (key : Digest) : Prop :=
  ∃ text ∈ texts, key = codec.scan.sha256 text
    ∧ ((∃ name ∈ known, text = name.taskText codec) ∨ utf8 "task-" <+: text)

/-- An instance, of a task of an operation or of a cancellation. -/
def InstanceOf (codec : AdminCodec) (known : List Name) (instanceId : String) : Prop :=
  (∃ name ∈ known, name.stem codec <+: instanceId.toList) ∨ "cancel-task:".toList <+:
    instanceId.toList

/-- Every row belongs to a known name, and every known name has its operation. -/
structure Inv (codec : AdminCodec) (texts : List Bytes) (known : List Name)
    (store : Store) : Prop where
  digests : ∀ name ∈ known, ∀ text ∈ name.texts codec, text ∈ texts
  policies : ∀ row ∈ store.db.policies, ∃ name ∈ known, row.id = name.policyId codec
    ∧ row.configHash = codec.scan.sha256 (utf8 name.policyJson) ∧ row.matcherVersion =
      "sporos-matcher/1"
    ∧ row.payloadJson = name.policyJson
  tasks : ∀ row ∈ store.db.tasks, ∃ name ∈ known,
    row.id = first16 (codec.scan.sha256 (name.taskText codec))
  operations : ∀ row ∈ store.operations, ∃ name ∈ known, row.id = name.operationId codec
  keys : ∀ row ∈ store.db.outbox, KeyOf codec texts known row.taskKey
  instances : ∀ row ∈ store.db.outbox, InstanceOf codec known row.instanceId
  created : ∀ name ∈ known,
    (lookup OperationRow.id store.operations (name.operationId codec)).isSome = true

variable {names known : List Name} {texts : List Bytes} {store : Store}

/-- A name that is not known meets nothing in the tables. -/
theorem Inv.accept_new (h : Inv codec texts known store) (hlawful : Lawful codec names texts)
    (hknown : ∀ name ∈ known, name ∈ names) (hname : name ∈ names)
    (htexts : ∀ text ∈ name.texts codec, text ∈ texts) (hnew : name ∉ known) (now : ℤ) :
    lookup OperationRow.id store.operations (name.operationId codec) = none
      ∧ store.db.task (name.task codec now).id = none
      ∧ acceptTaskIn codec.scan.jsonValid store.db (name.task codec now)
        = .ok ({ insertRows store.db (name.task codec now) with
          outbox :=
            store.db.outbox ++ [(name.task codec now).start (nextOutboxId store.db.outbox)] },
              true) := by
  have hdifferent : ∀ name' ∈ known, name'.operationId codec ≠ name.operationId codec := by
    intro name' hname' heq
    obtain rfl := hlawful.name_eq (hknown name' hname') hname (h.digests name' hname') htexts heq
    exact hnew hname'
  have hsha256 : ∀ text ∈ texts, first16 (codec.scan.sha256 text) =
    first16 (codec.scan.sha256 (name.taskText codec)) →
      text = name.taskText codec := by
    intro text htext heq
    exact hlawful.sha256 htext (htexts _ (by simp [Name.texts])) heq
  have hoperation : lookup OperationRow.id store.operations (name.operationId codec) = none := by
    refine lookup_eq_none.mpr fun row hrow heq => ?_
    obtain ⟨name', hname', hid⟩ := h.operations row hrow
    exact hdifferent name' hname' (hid.symm.trans heq)
  have htask : store.db.task (name.task codec now).id = none := by
    refine lookup_eq_none.mpr fun row hrow heq => ?_
    obtain ⟨name', hname', hid⟩ := h.tasks row hrow
    rw [hid, task_id] at heq
    have htext := hsha256 _ (h.digests name' hname' _ (by simp [Name.texts])) heq
    exact hdifferent name' hname' (operationId_of_taskText htext)
  have hkey : lookup OutboxRow.taskKey store.db.outbox (name.task codec now).key = none := by
    refine lookup_eq_none.mpr fun row hrow heq => ?_
    obtain ⟨text, htext, hkey, hof⟩ := h.keys row hrow
    rw [hkey, task_key] at heq
    obtain rfl := hsha256 text htext (congrArg first16 heq)
    rcases hof with ⟨name', hname', htext'⟩ | htag
    · exact hdifferent name' hname' (operationId_of_taskText htext'.symm)
    · exact not_task_taskText name htag
  have hinstance : lookup OutboxRow.instanceId store.db.outbox (name.task codec now).instanceId =
      none := by
    refine lookup_eq_none.mpr fun row hrow heq => ?_
    have hstem := @stem_prefix_task codec name now
    rcases h.instances row hrow with ⟨name', hname', hstem'⟩ | hcancel
    · rw [heq] at hstem'
      exact hdifferent name' hname' (operationId_of_stems hstem' hstem)
    · rw [heq] at hcancel
      exact not_cancel_stem hstem hcancel
  refine ⟨hoperation, htask, acceptTaskIn_of_new ?_ ?_ ?_ htask hkey hinstance⟩
  · rw [task_policy]
    exact (hlawful.valid name hname).1
  · rw [task_inputJson]
    exact (hlawful.valid name hname).2
  · rw [task_policy]
    intro row hrow hid
    obtain ⟨name', hname', hid', hhash, hversion, hpayload⟩ := h.policies row hrow
    have hjson := hlawful.policyJson_eq (h.digests name' hname') htexts (hid'.symm.trans hid)
    exact ⟨hhash.trans (by rw [hjson]), hversion, hpayload.trans hjson⟩

theorem KeyOf.mono {known' : List Name} {key : Digest} (h : KeyOf codec texts known key)
    (hsub : ∀ name ∈ known, name ∈ known') : KeyOf codec texts known' key := by
  obtain ⟨text, htext, hkey, hof⟩ := h
  exact ⟨text, htext, hkey, hof.imp_left fun ⟨name, hname, heq⟩ => ⟨name, hsub name hname, heq⟩⟩

theorem InstanceOf.mono {known' : List Name} {instanceId : String}
    (h : InstanceOf codec known instanceId) (hsub : ∀ name ∈ known, name ∈ known') :
      InstanceOf codec known' instanceId :=
  h.imp_left fun ⟨name, hname, hstem⟩ => ⟨name, hsub name hname, hstem⟩

/-- **An accepted request** keeps the tables in order, with its name. -/
theorem Inv.accepted (h : Inv codec texts known store)
    (htexts : ∀ text ∈ name.texts codec, text ∈ texts) {now : ℤ} {db : Db} {inserted : Bool}
    {row : OperationRow}
    (haccept : acceptTaskIn codec.scan.jsonValid store.db (name.task codec now) =
    .ok (db, inserted))
    (hrow : row.id = name.operationId codec) :
    Inv codec texts (known ++ [name])
      { store with db, operations := insertOrIgnore OperationRow.id store.operations row } := by
  have hsub : ∀ name' ∈ known, name' ∈ known ++ [name] :=
    fun name' hname' => List.mem_append_left _ hname'
  have hself : name ∈ known ++ [name] := List.mem_append_right _ (List.mem_singleton_self name)
  have hin := acceptTaskIn_eq_ok haccept
  have hdb : db.policies =
    insertOrIgnore PolicyRow.id store.db.policies (name.task codec now).policy
      ∧ db.tasks = insertOrIgnore TaskRow.id store.db.tasks (name.task codec now).row
      ∧ (db.outbox = store.db.outbox
        ∨ db.outbox = store.db.outbox
          ++ [(name.task codec now).start (nextOutboxId store.db.outbox)]) := by
    rcases hin.result with ⟨-, rfl⟩ | ⟨-, -, -, rfl⟩
    · exact ⟨rfl, rfl, .inl rfl⟩
    · exact ⟨rfl, rfl, .inr rfl⟩
  have houtbox : ∀ start ∈ db.outbox, start ∈ store.db.outbox
      ∨ start = (name.task codec now).start (nextOutboxId store.db.outbox) := by
    intro start hstart
    rcases hdb.2.2 with heq | heq
    · exact .inl (heq ▸ hstart)
    · simpa [heq] using hstart
  refine ⟨?_, ?_, ?_, ?_, ?_, ?_, ?_⟩
  · intro name' hname'
    rcases List.mem_append.mp hname' with hold | hnew
    · exact h.digests name' hold
    · obtain rfl := List.mem_singleton.mp hnew
      exact htexts
  · intro policy hpolicy
    rw [hdb.1] at hpolicy
    rcases mem_insertOrIgnore hpolicy with hold | ⟨rfl, -⟩
    · obtain ⟨name', hname', hrest⟩ := h.policies policy hold
      exact ⟨name', hsub name' hname', hrest⟩
    · rw [task_policy]
      exact ⟨name, hself, rfl, rfl, rfl, rfl⟩
  · intro task htask
    rw [hdb.2.1] at htask
    rcases mem_insertOrIgnore htask with hold | ⟨rfl, -⟩
    · obtain ⟨name', hname', hid⟩ := h.tasks task hold
      exact ⟨name', hsub name' hname', hid⟩
    · exact ⟨name, hself, task_id name now⟩
  · intro operation hoperation
    rcases mem_insertOrIgnore hoperation with hold | ⟨rfl, -⟩
    · obtain ⟨name', hname', hid⟩ := h.operations operation hold
      exact ⟨name', hsub name' hname', hid⟩
    · exact ⟨name, hself, hrow⟩
  · intro start hstart
    rcases houtbox start hstart with hold | rfl
    · exact (h.keys start hold).mono hsub
    · exact ⟨name.taskText codec, htexts _ (by simp [Name.texts]), task_key name now,
        .inl ⟨name, hself, rfl⟩⟩
  · intro start hstart
    rcases houtbox start hstart with hold | rfl
    · exact (h.instances start hold).mono hsub
    · exact .inl ⟨name, hself, stem_prefix_task name now⟩
  · intro name' hname'
    rcases List.mem_append.mp hname' with hold | hnew
    · obtain ⟨operation, hlookup⟩ := Option.isSome_iff_exists.mp (h.created name' hold)
      exact Option.isSome_of_eq_some (lookup_insertOrIgnore_of_some hlookup)
    · obtain rfl := List.mem_singleton.mp hnew
      rw [← hrow]
      exact Option.isSome_of_eq_some (lookup_insertOrIgnore_self _ row)

/-- Only the set of the known names matters. -/
theorem Inv.of_known (h : Inv codec texts known store) {known' : List Name}
    (hknown : ∀ name, name ∈ known' ↔ name ∈ known) : Inv codec texts known' store := by
  have hsub : ∀ name ∈ known, name ∈ known' := fun name => (hknown name).mpr
  refine ⟨fun name hname => h.digests name ((hknown name).mp hname), ?_, ?_, ?_,
    fun row hrow => (h.keys row hrow).mono hsub, fun row hrow => (h.instances row hrow).mono hsub,
    fun name hname => h.created name ((hknown name).mp hname)⟩
  · intro row hrow
    obtain ⟨name, hname, hrest⟩ := h.policies row hrow
    exact ⟨name, hsub name hname, hrest⟩
  · intro row hrow
    obtain ⟨name, hname, hid⟩ := h.tasks row hrow
    exact ⟨name, hsub name hname, hid⟩
  · intro row hrow
    obtain ⟨name, hname, hid⟩ := h.operations row hrow
    exact ⟨name, hsub name hname, hid⟩

/-- Writes to tasks and start requests of the task control keep the tables in order. -/
theorem Inv.of_db (h : Inv codec texts known store) {db : Db}
    (hpolicies : db.policies = store.db.policies)
    (htasks : ∀ row ∈ db.tasks, ∃ old ∈ store.db.tasks, row.id = old.id)
    (houtbox : ∀ row ∈ db.outbox, row ∈ store.db.outbox
      ∨ (KeyOf codec texts known row.taskKey ∧ InstanceOf codec known row.instanceId)) :
    Inv codec texts known { store with db } := by
  refine ⟨h.digests, ?_, ?_, h.operations, ?_, ?_, h.created⟩
  · rw [hpolicies]
    exact h.policies
  · intro row hrow
    obtain ⟨old, hold, hid⟩ := htasks row hrow
    rw [hid]
    exact h.tasks old hold
  · exact fun row hrow => (houtbox row hrow).elim (h.keys row) And.left
  · exact fun row hrow => (houtbox row hrow).elim (h.instances row) And.right

theorem task_of_updateTask {db : Db} {taskId : Id} {f : TaskRow → TaskRow} {row : TaskRow}
    (hrow : row ∈ (db.updateTask taskId f).tasks) (hf : ∀ row, (f row).id = row.id) :
    ∃ old ∈ db.tasks, row.id = old.id := by
  obtain ⟨old, hold, rfl⟩ := List.mem_map.mp hrow
  refine ⟨old, hold, ?_⟩
  split_ifs
  · exact hf old
  · rfl

theorem InstanceOf.append {instanceId : String} (h : InstanceOf codec known instanceId)
    (rest : String) : InstanceOf codec known (instanceId ++ rest) := by
  have happend : instanceId.toList <+: (instanceId ++ rest).toList := by
    rw [String.toList_append]
    exact List.prefix_append _ _
  rcases h with ⟨name, hname, hstem⟩ | hcancel
  · exact .inl ⟨name, hname, hstem.trans happend⟩
  · exact .inr (hcancel.trans happend)

theorem Inv.retry (h : Inv codec texts known sys.store) {taskId : Id} {now : ℤ} {db : Db}
    {instanceId : String} (htexts : ∀ text ∈ (Event.retry taskId now).texts codec sys, text ∈ texts)
    (hretry : TaskControl.retry codec.control sys.store.db taskId now = .ok (db, instanceId)) :
    Inv codec texts known { sys.store with db } := by
  obtain ⟨row, start, htask, hstart, -, -, -, hwrite⟩ := retry_eq_ok hretry
  obtain ⟨-, -, -, rfl⟩ := write_eq_some hwrite
  refine h.of_db rfl (fun _ hrow => task_of_updateTask hrow fun _ => rfl) fun outbox houtbox => ?_
  rcases List.mem_append.mp houtbox with hold | hnew
  · exact .inl hold
  · obtain rfl := List.mem_singleton.mp hnew
    refine .inr ⟨⟨retryText start.taskKey (row.projectionGeneration + 1), ?_, ?_, .inr ?_⟩, ?_⟩
    · exact htexts _ (by simp [Event.texts, htask, hstart])
    · exact congrFun codec.sha256_eq _
    · exact ⟨utf8 "retry-v1" ++ digestBytes start.taskKey
          ++ generationBytes (row.projectionGeneration + 1), by
        rw [← List.append_assoc, ← List.append_assoc]; rfl⟩
    · have hinstance := h.instances start (lookup_eq_some_mem hstart).1
      exact (hinstance.append ":retry:").append (toString (row.projectionGeneration + 1))

theorem Inv.cancel (h : Inv codec texts known sys.store) {taskId : Id} {now : ℤ} {db : Db}
    {accepted : CancelAccepted}
    (htexts : ∀ text ∈ (Event.cancel taskId now).texts codec sys, text ∈ texts)
    (hcancel : requestCancel codec.control sys.store.db taskId now = .ok (db, accepted)) :
    Inv codec texts known { sys.store with db } := by
  obtain ⟨row, htask, -, ⟨-, rfl⟩ | ⟨-, hwrite⟩⟩ := requestCancel_eq_ok hcancel
  · exact h
  · obtain ⟨-, -, -, rfl⟩ := write_eq_some hwrite
    refine h.of_db rfl (fun _ hrow => task_of_updateTask hrow fun _ => rfl) fun outbox houtbox => ?_
    rcases List.mem_append.mp houtbox with hold | hnew
    · exact .inl hold
    · obtain rfl := List.mem_singleton.mp hnew
      refine .inr ⟨⟨cancelText taskId (row.projectionGeneration + 1), ?_, ?_, .inr ?_⟩, .inr ?_⟩
      · exact htexts _ (by simp [Event.texts, htask])
      · exact congrFun codec.sha256_eq _
      · exact ⟨utf8 "cancellation-v1" ++ idBytes taskId
            ++ generationBytes (row.projectionGeneration + 1), by
          rw [← List.append_assoc, ← List.append_assoc]; rfl⟩
      · simp only [cancelStart, outboxRow, cancelInstance, String.toList_append, List.append_assoc]
        exact List.prefix_append _ _

theorem validate_of_name?_search {request : InventorySearchRequest}
    {around : Surroundings} {now : ℤ} (h : (Event.search request around now).name? sys = none) :
    ∃ problem, request.validate sys.process around (requestId sys.sequence) = .error problem := by
  cases hvalid : request.validate sys.process around (requestId sys.sequence) with
  | error problem => exact ⟨problem, rfl⟩
  | ok => simp [Event.name?, hvalid, Except.isOk, Except.toBool] at h

theorem validate_of_name?_scan {request : DataScanRequest} {around : Surroundings} {now : ℤ}
    (h : (Event.scan request around now).name? sys = none) :
    ∃ problem, request.validate sys.process around (requestId sys.sequence) = .error problem := by
  cases hvalid : request.validate sys.process around (requestId sys.sequence) with
  | error problem => exact ⟨problem, rfl⟩
  | ok => simp [Event.name?, hvalid, Except.isOk, Except.toBool] at h

/-- An event that names no operation. -/
theorem Inv.of_not_named (h : Inv codec texts known sys.store)
    (htexts : ∀ text ∈ event.texts codec sys, text ∈ texts) (hname : event.name? sys = none) :
    Inv codec texts known (event.apply fromStr codec sys).store := by
  cases event with
  | search request around now =>
    obtain ⟨problem, hproblem⟩ := validate_of_name?_search hname
    simpa only [Event.apply, Event.perform, startInventorySearch, hproblem] using h
  | scan request around now =>
    obtain ⟨problem, hproblem⟩ := validate_of_name?_scan hname
    simpa only [Event.apply, Event.perform, startDataScan, hproblem] using h
  | retry taskId now =>
    simp only [Event.apply, Event.perform]
    split
    · exact h
    · rename_i hretry
      exact h.retry htexts hretry
  | cancel taskId now =>
    simp only [Event.apply, Event.perform]
    split
    · exact h
    · rename_i hcancel
      exact h.cancel htexts hcancel
  | other => exact h
  | restart process => exact h
  | project update =>
    simp only [Event.apply, Event.perform]
    split
    · exact h
    · rename_i hproject
      rcases projectTask_eq_ok hproject with rfl | ⟨row, -, -, -, -, rfl⟩
      · exact h
      · exact h.of_db rfl (fun _ hrow => task_of_updateTask hrow fun _ => rfl) fun _ => .inl
  | terminal taskId state reason now =>
    simp only [Event.apply, Event.perform]
    split
    · exact h
    · rename_i hterminal
      rcases recordTerminal_eq_ok hterminal with rfl | ⟨row, -, -, -, -, rfl⟩
      · exact h
      · exact h.of_db rfl (fun _ hrow => task_of_updateTask hrow fun _ => rfl) fun _ => .inl

/-- **One event** keeps the tables in order. -/
theorem Inv.step (h : Inv codec texts sys.names sys.store) (hlawful : Lawful codec names texts)
    (hknown : ∀ name ∈ (event.apply fromStr codec sys).names, name ∈ names)
    (htexts : ∀ text ∈ (event.apply fromStr codec sys).hashed, text ∈ texts) :
    Inv codec texts (event.apply fromStr codec sys).names
      (event.apply fromStr codec sys).store := by
  have htexts' : ∀ text ∈ event.texts codec sys, text ∈ texts := fun text htext =>
    htexts text (List.mem_append_right _ htext)
  cases hname : event.name? sys with
  | some name =>
    have hnames : (event.apply fromStr codec sys).names = sys.names ++ [name] := by
      rw [Event.apply, hname]
      rfl
    rw [hnames] at hknown ⊢
    have hdigests : ∀ text ∈ name.texts codec, text ∈ texts := by
      have heq : event.texts codec sys = name.texts codec := by
        cases event <;> simp [Event.name?] at hname <;> simp [Event.texts, Event.name?, hname]
      exact fun text htext => htexts' text (heq ▸ htext)
    obtain ⟨now, hresult⟩ := @perform_of_name fromStr codec _ _ _ hname
    rcases hresult with ⟨error, herror, hperform, -⟩ | ⟨db, inserted, scans, row, haccept,
      hrow, hperform, -⟩
    · -- A request of a name that is not known is accepted.
      have hold : name ∈ sys.names := by
        by_contra hnew
        have hok :=
          (h.accept_new hlawful (fun name' hname' => hknown name' (List.mem_append_left _ hname'))
          (hknown name (by simp)) hdigests hnew now).2.2
        rw [herror] at hok
        cases hok
      have hsame : (event.apply fromStr codec sys).store = sys.store := by
        rw [Event.apply, hperform]
      rw [hsame]
      refine h.of_known fun name' => ?_
      rw [List.mem_append, List.mem_singleton]
      exact or_iff_left_of_imp fun heq => heq ▸ hold
    · have hstore : (event.apply fromStr codec sys).store = { sys.store with
          db, operations := insertOrIgnore OperationRow.id sys.store.operations row } := by
        rw [Event.apply, hperform]
      rw [hstore]
      exact h.accepted hdigests haccept hrow
  | none =>
    have hnames : (event.apply fromStr codec sys).names = sys.names := by
      rw [Event.apply, hname]
      exact List.append_nil _
    rw [hnames]
    exact h.of_not_named htexts' hname

/-! ### Histories -/

variable {process : Process} {history : List Event} {m n : ℕ}

theorem sysAt_succ (h : history[n]? = some event) :
    sysAt fromStr codec process history (n + 1) =
      event.apply fromStr codec (sysAt fromStr codec process history n) := by
  rw [sysAt, List.take_add_one, h, List.foldl_append]
  rfl

theorem sysAt_mono (hmn : m ≤ n) (hn : n ≤ history.length) :
    (sysAt fromStr codec process history m).names <+: (sysAt fromStr codec process history n).names
      ∧ (sysAt fromStr codec process history m).hashed <+:
        (sysAt fromStr codec process history n).hashed := by
  induction n, hmn using Nat.le_induction with
  | base => exact ⟨List.prefix_rfl, List.prefix_rfl⟩
  | succ n hmn ih =>
    obtain ⟨hnames, hhashed⟩ := ih (by omega)
    rw [sysAt_succ (List.getElem?_eq_getElem hn)]
    exact ⟨hnames.trans (List.prefix_append _ _), hhashed.trans (List.prefix_append _ _)⟩

/-- The names are those of the valid requests so far. -/
theorem mem_names_iff (hn : n ≤ history.length) :
    name ∈ (sysAt fromStr codec process history n).names
    ↔ ∃ j < n, ∃ event, history[j]? = some event
      ∧ event.name? (sysAt fromStr codec process history j) = some name := by
  induction n with
  | zero => simp [sysAt, Sys.init]
  | succ n ih =>
    have hevent := List.getElem?_eq_getElem hn
    have hnames : (sysAt fromStr codec process history (n + 1)).names =
      (sysAt fromStr codec process history n).names
        ++ ((history[n]).name? (sysAt fromStr codec process history n)).toList := by
      rw [sysAt_succ hevent]
      rfl
    rw [hnames, List.mem_append, ih (by omega), Option.mem_toList]
    constructor
    · rintro (⟨j, hj, event, hj', hname⟩ | hname)
      · exact ⟨j, by omega, event, hj', hname⟩
      · exact ⟨n, Nat.lt_succ_self n, history[n], hevent, hname⟩
    · rintro ⟨j, hj, event, hj', hname⟩
      rcases Nat.lt_succ_iff_lt_or_eq.mp hj with hlt | rfl
      · exact .inl ⟨j, hlt, event, hj', hname⟩
      · obtain rfl := Option.some.inj (hevent.symm.trans hj')
        exact .inr hname

/-- **Any history** keeps the tables in order. -/
theorem inv_sysAt (hlawful : Lawful codec (sysAt fromStr codec process history history.length).names
      (sysAt fromStr codec process history history.length).hashed) (hn : n ≤ history.length) :
    Inv codec (sysAt fromStr codec process history history.length).hashed
      (sysAt fromStr codec process history n).names
        (sysAt fromStr codec process history n).store := by
  induction n with
  | zero => constructor <;> simp [sysAt, Sys.init, Store.empty, Db.empty]
  | succ n ih =>
    obtain ⟨hnames, hhashed⟩ := @sysAt_mono fromStr codec process history _ _ hn le_rfl
    rw [sysAt_succ (List.getElem?_eq_getElem hn)] at hnames hhashed ⊢
    exact (ih (by omega)).step hlawful (fun name hname => hnames.subset hname) fun text htext =>
      hhashed.subset htext

end

/-- **Forced operations.** In any history of requests, over any number of processes, a valid forced
request creates a new operation and a new task, and is answered so, if, and only if, no forced
request before it with the same content, the same policy and the same number was valid. -/
theorem forced_new_iff (fromStr : String → Bool) (codec : AdminCodec) (process : Process)
    (history : List Event)
    (hlawful : Lawful codec (sysAt fromStr codec process history history.length).names
      (sysAt fromStr codec process history history.length).hashed)
    (i : ℕ) (event : Event) (content : Content) (policyJson : String) (sequence : BitVec 64)
    (hevent : history[i]? = some event)
    (hname : event.name? (sysAt fromStr codec process history i) = some ⟨content, policyJson,
      some sequence⟩) :
    CreatesNew fromStr codec (sysAt fromStr codec process history i) event
      ↔ ¬ ∃ j < i, ∃ event', history[j]? = some event'
        ∧ event'.name? (sysAt fromStr codec process history j) = some ⟨content,
          policyJson, some sequence⟩ := by
  have hi : i < history.length := (List.getElem?_eq_some_iff.mp hevent).1
  have hinv := inv_sysAt hlawful hi.le
  rw [← mem_names_iff hi.le]
  obtain ⟨now, hresult⟩ := @perform_of_name fromStr codec _ _ _ hname
  constructor
  · rintro ⟨accepted, hanswer, -, hfree, -⟩ hknown
    rcases hresult with ⟨error, -, -, herror⟩ | ⟨db, inserted, scans, row, -, -, -, hok⟩
    · rw [herror] at hanswer
      cases hanswer
    · rw [hok] at hanswer
      have hresponse := Except.ok.inj (Option.some.inj hanswer)
      have hid := encodeHex_injective (congrArg OperationResponse.operationId hresponse)
      have hcreated := hinv.created _ hknown
      rw [← hid] at hfree
      simp only [hfree, Option.isSome_none, Bool.false_eq_true] at hcreated
  · intro hnew
    obtain ⟨hnames, hhashed⟩ := @sysAt_mono fromStr codec process history _ _ hi le_rfl
    have hafter := inv_sysAt hlawful hi
    rw [sysAt_succ hevent] at hnames hhashed hafter
    have hmem : Name.mk content policyJson (some sequence)
        ∈ (event.apply fromStr codec (sysAt fromStr codec process history i)).names := by
      rw [Event.apply, hname]
      exact List.mem_append_right _ (List.mem_singleton_self _)
    obtain ⟨hoperation, htask, haccept⟩ := hinv.accept_new hlawful
      (fun name hname => (sysAt_mono hi.le le_rfl).1.subset hname) (hnames.subset hmem)
        (hafter.digests _ hmem) hnew now
    rcases hresult with ⟨error, herror, -⟩ | ⟨db, inserted, scans, row, hok, hrow,
      hperform, hanswer⟩
    · rw [haccept] at herror
      cases herror
    · have hdb := hok.symm.trans haccept
      simp only [Except.ok.injEq, Prod.mk.injEq] at hdb
      obtain ⟨rfl, rfl⟩ := hdb
      refine ⟨_, hanswer, rfl, hoperation, hafter.created _ hmem, htask, ?_⟩
      rw [Event.apply, hperform]
      exact Option.isSome_of_eq_some (lookup_insertOrIgnore_self _ (Name.task codec _ now).row)

/-! ### Two processes -/

/-- SHA-256 and the encoders of `serde_json`, on texts of ASCII characters that need no escapes. -/
def AdminCodec.serde : AdminCodec :=
  let array (values : List String) := "[" ++ ",".intercalate values ++ "]"
  let texts (values : List String) := array (values.map fun value => "\"" ++ value ++ "\"")
  let bytes (id : Id) := array ((idBytes id).map fun b => toString b.toNat)
  { scan := ScanCodec.serde
    control := .plain ScanCodec.serde.sha256
    backfillJson selection indexerIds force :=
      "\x7b\"force\":" ++ (if force then "true" else "false") ++ ",\"indexerIds\":"
        ++ array (indexerIds.map toString)
        ++ ",\"source\":\x7b\"excludeCategories\":" ++ texts selection.excludeCategories
        ++ ",\"excludeTags\":" ++ texts selection.excludeTags ++ ",\"hashes\":"
        ++ texts selection.hashes
        ++ ",\"includeCategories\":" ++ texts selection.includeCategories
        ++ ",\"includeTags\":" ++ texts selection.includeTags ++ "\x7d\x7d"
    backfillInputJson input :=
      "\x7b\"operation_id\":" ++ bytes input.operationId ++ ",\"task_id\":" ++ bytes input.taskId
        ++ ",\"policy_snapshot_id\":" ++ bytes input.policySnapshotId
        ++ ",\"selection\":\x7b\"hashes\":" ++ texts input.selection.hashes
        ++ ",\"includeCategories\":" ++ texts input.selection.includeCategories
        ++ ",\"excludeCategories\":" ++ texts input.selection.excludeCategories
        ++ ",\"includeTags\":" ++ texts input.selection.includeTags
        ++ ",\"excludeTags\":" ++ texts input.selection.excludeTags
        ++ "\x7d,\"indexer_ids\":" ++ array (input.indexerIds.map toString)
        ++ ",\"cursor\":" ++ (input.cursor.map bytes).getD "null" ++ "\x7d"
    sha256_eq := rfl
    jsonValid_eq := rfl }

/-- A process with one data root and a short policy. -/
def filmProcess : Process := ⟨false, false, ["films"], fun _ => "\x7b\x7d"⟩

/-- A forced scan of the films. -/
def filmScan : Event := .scan ⟨"films", [], true, false⟩ ⟨true, true, fun _ => some true⟩ 10

/-- The name of the scan with a number. -/
def filmName (sequence : BitVec 64) : Name := ⟨.scan "films" [], "\x7b\x7d", some sequence⟩

/-- Another request comes first in the second process. -/
def filmHistory : List Event := [filmScan, .restart filmProcess, .other, filmScan]

theorem names_filmHistory :
    (sysAt (fun _ => true) .serde filmProcess filmHistory filmHistory.length).names
    = [filmName 1, filmName 2] := by decide +kernel

theorem lawful_filmHistory :
    Lawful .serde (sysAt (fun _ => true) .serde filmProcess filmHistory filmHistory.length).names
      (sysAt (fun _ => true) .serde filmProcess filmHistory filmHistory.length).hashed := by
  have hsha256 : ∀ text ∈ (sysAt
    (fun _ => true) .serde filmProcess filmHistory filmHistory.length).hashed,
      ∀ text' ∈ (sysAt (fun _ => true) .serde filmProcess filmHistory filmHistory.length).hashed,
      first16 (AdminCodec.serde.scan.sha256 text) = first16 (AdminCodec.serde.scan.sha256 text') →
        text = text' := by
    decide +kernel
  refine ⟨fun text htext text' htext' => hsha256 text htext text' htext', ?_, ?_,
    fun _ _ => ⟨rfl, rfl⟩⟩ <;>
    rw [names_filmHistory]
  · intro name hname name' hname' force hkind hjson
    rcases List.mem_pair.mp hname with rfl | rfl <;>
      rcases List.mem_pair.mp hname' with rfl | rfl <;> rfl
  · have hapart : ¬ utf8 ((Content.scan "films" []).requestJson .serde true)
        <+: utf8 ((Content.scan "films" []).requestJson .serde false) := by decide +kernel
    intro name hname name' hname' hkind
    rcases List.mem_pair.mp hname with rfl | rfl <;>
      rcases List.mem_pair.mp hname' with rfl | rfl <;> exact hapart

theorem film_scanned_again : CreatesNew (fun _ => true) .serde
    (sysAt (fun _ => true) .serde filmProcess filmHistory 3) filmScan := by
  refine (forced_new_iff
    (fun _ => true) .serde filmProcess filmHistory lawful_filmHistory 3 filmScan
    (.scan "films" []) "\x7b\x7d" 2 rfl (by decide +kernel)).mpr ?_
  rw [← mem_names_iff (by decide)]
  decide +kernel

/-- The first request of the second process has the number, and so the operation, of the one before.
-/
theorem forced_duplicate :
    filmScan.name? (sysAt (fun _ => true) .serde filmProcess [filmScan,
      .restart filmProcess, filmScan] 2)
      = some ⟨.scan "films" [], "\x7b\x7d", some 1⟩
    ∧ ¬ CreatesNew (fun _ => true) .serde
      (sysAt (fun _ => true) .serde filmProcess [filmScan, .restart filmProcess,
        filmScan] 2) filmScan := by
  have hduplicate : (filmScan.answer .serde
      (sysAt (fun _ => true) .serde filmProcess [filmScan, .restart filmProcess, filmScan] 2)).bind
        (fun answer => answer.toOption.map OperationResponse.duplicate) =
          some true := by decide +kernel
  refine ⟨by decide +kernel, ?_⟩
  rintro ⟨accepted, hanswer, hnew, -⟩
  rw [hanswer] at hduplicate
  exact absurd (hnew.symm.trans (Option.some.inj hduplicate)) (by decide)

end Sporos.Service.ForcedOperations
