import Sporos.Lib.Loop
import Sporos.Matcher.Release
import Sporos.Service.Tables

/-! # Durable ingress

`accept_task` of `durable_ingress.rs` and `CandidateIngress::accept` of `candidate.rs`. Each call is
one transaction: it inserts with `ON CONFLICT DO NOTHING`, reads back what the tables hold under its
identities, and is rolled back when they hold something else.

SHA-256, the JSON encoders, `json_valid` of SQLite and the torrent parser are the fields of `Codec`;
nothing is assumed about them, so that digests may collide. -/

namespace Sporos.Service.Ingress

open Sporos.Model.Matching
open Sporos.Matcher.Release
open Sporos.Service.Tables
open Sporos.Lib.Table
open Sporos.Lib.Loop

/-! ### Tasks -/

/-- A policy as it is stored. -/
abbrev PolicySnapshot := PolicyRow

/-- A task that is to be accepted. -/
structure NewTask where
  id : Id
  key : Digest
  kind : String
  policy : PolicySnapshot
  orchestrationName : String
  orchestrationVersion : String
  instanceId : String
  inputJson : String
  createdAt : ℤ
  deriving DecidableEq, Repr

/-- The answer to a task. -/
structure AcceptedTask where
  id : Id
  duplicate : Bool
  deriving DecidableEq, Repr

/-- Why a task is not accepted. -/
inductive DurableIngressError where
  | database
  | policyIdentityCollision
  | taskIdentityCollision
  | taskKeyCollision
  | outboxIdentityCollision
  deriving DecidableEq, Repr

section

variable (jsonValid : String → Bool)

/-- The policy is stored unless it is there. -/
def insertPolicy (db : Db) (policy : PolicySnapshot) : Except DurableIngressError Db :=
  if jsonValid policy.payloadJson then
    .ok { db with policies := insertOrIgnore PolicyRow.id db.policies policy }
  else .error .database

/-- The stored policy is the expected one. -/
def verifyPolicy (db : Db) (expected : PolicySnapshot) : Except DurableIngressError Unit :=
  match lookup PolicyRow.id db.policies expected.id with
  | none => .error .database
  | some row =>
    if row.configHash = expected.configHash ∧ row.matcherVersion = expected.matcherVersion
        ∧ row.payloadJson = expected.payloadJson then .ok ()
    else .error .policyIdentityCollision

/-- The row of an accepted task. -/
def NewTask.row (task : NewTask) : TaskRow where
  id := task.id
  kind := task.kind
  state := "queued"
  projectionGeneration := 0
  instanceId := task.instanceId
  executionId := none
  policySnapshotId := task.policy.id
  reasonCode := none
  lastErrorClass := none
  lastErrorMessage := none
  observedRetryCount := 0
  createdAt := task.createdAt
  updatedAt := task.createdAt
  terminalAt := none
  repairCheckedAt := none

/-- The task is stored unless it is there. -/
def insertTask (db : Db) (task : NewTask) : Db :=
  { db with tasks := insertOrIgnore TaskRow.id db.tasks task.row }

/-- The stored task is the expected one. -/
def verifyTask (db : Db) (expected : NewTask) : Except DurableIngressError Unit :=
  match db.task expected.id with
  | none => .error .database
  | some row =>
    if row.kind = expected.kind ∧ row.instanceId = expected.instanceId
        ∧ row.policySnapshotId = expected.policy.id then .ok ()
    else .error .taskIdentityCollision

/-- The first event of a task. -/
def NewTask.event (task : NewTask) : EventRow where
  taskId := task.id
  sequence := 0
  state := "queued"
  reasonCode := none
  detailJson := none
  createdAt := task.createdAt

/-- The first event of the task is stored unless it is there. -/
def insertQueued (db : Db) (task : NewTask) : Db :=
  { db with events := insertOrIgnore EventRow.key db.events task.event }

/-- The start request of a task. -/
def NewTask.start (task : NewTask) (id : ℕ) : OutboxRow where
  id
  taskId := task.id
  taskKey := task.key
  orchestrationName := task.orchestrationName
  orchestrationVersion := task.orchestrationVersion
  instanceId := task.instanceId
  inputJson := task.inputJson
  visibleAt := task.createdAt
  attemptCount := 0
  leaseToken := none
  leaseUntil := none
  dispatchedAt := none
  permanentFailureAt := none
  lastError := none

/-- Insert the start request, unless its key is taken. The instance is unique as well, but a
conflict on it is an error. -/
def insertStart (db : Db) (task : NewTask) : Except DurableIngressError (Db × Bool) :=
  if !jsonValid task.inputJson then .error .database
  else if (lookup OutboxRow.taskKey db.outbox task.key).isSome then .ok (db, false)
  else if (lookup OutboxRow.instanceId db.outbox task.instanceId).isSome then .error .database
  else .ok ({ db with outbox := db.outbox ++ [task.start (nextOutboxId db.outbox)] }, true)

/-- The stored start is the expected one. -/
def verifyOutbox (db : Db) (expected : NewTask) : Except DurableIngressError Unit :=
  match lookup OutboxRow.taskKey db.outbox expected.key with
  | none => .error .database
  | some row =>
    if row.taskId ≠ expected.id then .error .taskKeyCollision
    else if row.orchestrationName = expected.orchestrationName
        ∧ row.orchestrationVersion = expected.orchestrationVersion
        ∧ row.instanceId = expected.instanceId ∧ row.inputJson = expected.inputJson then .ok ()
    else .error .outboxIdentityCollision

/-- `accept_task_in`: whether the start request was inserted. -/
def acceptTaskIn (db : Db) (task : NewTask) : Except DurableIngressError (Db × Bool) := do
  let db ← insertPolicy jsonValid db task.policy
  verifyPolicy db task.policy
  let db := insertTask db task
  verifyTask db task
  let db := insertQueued db task
  let (db, inserted) ← insertStart jsonValid db task
  verifyOutbox db task
  return (db, inserted)

/-- `accept_task`: one transaction. -/
def acceptTask (db : Db) (task : NewTask) : Except DurableIngressError (Db × AcceptedTask) := do
  let (db, inserted) ← acceptTaskIn jsonValid db task
  return (db, ⟨task.id, !inserted⟩)

/-- The policy is bound to its content. -/
def BoundPolicy (db : Db) (policy : PolicySnapshot) : Prop :=
  ∃ row, lookup PolicyRow.id db.policies policy.id = some row ∧ row.configHash = policy.configHash
    ∧ row.matcherVersion = policy.matcherVersion ∧ row.payloadJson = policy.payloadJson

/-- The identifier of the task is bound to its content. -/
def BoundRow (db : Db) (task : NewTask) : Prop :=
  ∃ row, db.task task.id = some row ∧ row.kind = task.kind ∧ row.instanceId = task.instanceId
    ∧ row.policySnapshotId = task.policy.id

/-- The key of the task is bound to its start request. -/
def BoundStart (db : Db) (task : NewTask) : Prop :=
  ∃ row, lookup OutboxRow.taskKey db.outbox task.key = some row ∧ row.taskId = task.id
    ∧ row.orchestrationName = task.orchestrationName
    ∧ row.orchestrationVersion = task.orchestrationVersion
    ∧ row.instanceId = task.instanceId ∧ row.inputJson = task.inputJson

theorem verifyPolicy_eq_ok {db : Db} {policy : PolicySnapshot} :
    verifyPolicy db policy = .ok () ↔ BoundPolicy db policy := by
  unfold verifyPolicy BoundPolicy
  cases lookup PolicyRow.id db.policies policy.id <;> simp

theorem verifyTask_eq_ok {db : Db} {task : NewTask} :
    verifyTask db task = .ok () ↔ BoundRow db task := by
  unfold verifyTask BoundRow
  cases db.task task.id <;> simp

theorem verifyOutbox_eq_ok {db : Db} {task : NewTask} :
    verifyOutbox db task = .ok () ↔ BoundStart db task := by
  unfold verifyOutbox BoundStart
  cases lookup OutboxRow.taskKey db.outbox task.key with
  | none => simp
  | some row => by_cases hid : row.taskId = task.id <;> simp [hid]

/-- The tables after the rows of the policy, the task and its first event. -/
def insertRows (db : Db) (task : NewTask) : Db :=
  { db with
    policies := insertOrIgnore PolicyRow.id db.policies task.policy
    tasks := insertOrIgnore TaskRow.id db.tasks task.row
    events := insertOrIgnore EventRow.key db.events task.event }

/-- What a successful `accept_task_in` has done. -/
structure AcceptedIn (db : Db) (task : NewTask) (db' : Db) (inserted : Bool) : Prop where
  payload : jsonValid task.policy.payloadJson = true
  input : jsonValid task.inputJson = true
  policy : BoundPolicy db' task.policy
  row : BoundRow db' task
  start : BoundStart db' task
  result : (inserted = false ∧ db' = insertRows db task)
    ∨ (inserted = true ∧ lookup OutboxRow.taskKey db.outbox task.key = none
      ∧ lookup OutboxRow.instanceId db.outbox task.instanceId = none
      ∧ db' = { insertRows db task with
          outbox := db.outbox ++ [task.start (nextOutboxId db.outbox)] })

variable {jsonValid}

theorem insertStart_eq_ok {db db' : Db} {task : NewTask} {inserted : Bool}
    (h : insertStart jsonValid db task = .ok (db', inserted)) :
    jsonValid task.inputJson = true ∧ ((inserted = false ∧ db' = db)
      ∨ (inserted = true ∧ lookup OutboxRow.taskKey db.outbox task.key = none
        ∧ lookup OutboxRow.instanceId db.outbox task.instanceId = none
        ∧ db' = { db with outbox := db.outbox ++ [task.start (nextOutboxId db.outbox)] })) := by
  unfold insertStart at h
  split_ifs at h with hjson hkey hinstance
  · refine ⟨by simpa using hjson, .inl ?_⟩
    simp only [Except.ok.injEq, Prod.mk.injEq] at h
    exact ⟨h.2.symm, h.1.symm⟩
  · refine ⟨by simpa using hjson, .inr ?_⟩
    simp only [Except.ok.injEq, Prod.mk.injEq] at h
    exact ⟨h.2.symm, by simpa using hkey, by simpa using hinstance, h.1.symm⟩

theorem acceptTaskIn_eq_ok {db db' : Db} {task : NewTask} {inserted : Bool}
    (h : acceptTaskIn jsonValid db task = .ok (db', inserted)) :
    AcceptedIn jsonValid db task db' inserted := by
  unfold acceptTaskIn at h
  obtain ⟨db₁, hpolicy, h⟩ := bind_eq_ok.mp h
  obtain ⟨⟨⟩, hverifyPolicy, h⟩ := bind_eq_ok.mp h
  obtain ⟨⟨⟩, hverifyTask, h⟩ := bind_eq_ok.mp h
  obtain ⟨⟨db₂, inserted₂⟩, hstart, h⟩ := bind_eq_ok.mp h
  obtain ⟨⟨⟩, hverifyOutbox, h⟩ := bind_eq_ok.mp h
  obtain ⟨rfl, rfl⟩ : db₂ = db' ∧ inserted₂ = inserted := by simpa [pure, Except.pure] using h
  unfold insertPolicy at hpolicy
  split_ifs at hpolicy with hjson
  obtain rfl : _ = db₁ := by simpa using hpolicy
  obtain ⟨hinput, hresult⟩ := insertStart_eq_ok hstart
  have hdb₂ : db₂.policies = insertOrIgnore PolicyRow.id db.policies task.policy
      ∧ db₂.tasks = insertOrIgnore TaskRow.id db.tasks task.row := by
    rcases hresult with ⟨-, rfl⟩ | ⟨-, -, -, rfl⟩ <;> exact ⟨rfl, rfl⟩
  refine ⟨hjson, hinput, ?_, ?_, verifyOutbox_eq_ok.mp hverifyOutbox, ?_⟩
  · rw [BoundPolicy, hdb₂.1]
    exact verifyPolicy_eq_ok.mp hverifyPolicy
  · rw [BoundRow, Db.task, hdb₂.2]
    exact verifyTask_eq_ok.mp hverifyTask
  · exact hresult

theorem acceptTask_eq_ok {db db' : Db} {t : NewTask}
    {accepted : AcceptedTask} (h : acceptTask jsonValid db t = .ok (db', accepted)) :
    AcceptedIn jsonValid db t db' (!accepted.duplicate) := by
  unfold acceptTask at h
  obtain ⟨⟨db₁, inserted⟩, hin, h⟩ := bind_eq_ok.mp h
  obtain ⟨rfl, rfl⟩ : db₁ = db' ∧ _ = accepted := by simpa [pure, Except.pure] using h
  rw [Bool.not_not]
  exact acceptTaskIn_eq_ok hin

end

/-! ### Candidates -/

/-- What the torrent parser returns. -/
structure ParsedFile where
  path : List Bytes
  length : ℕ
  deriving DecidableEq, Repr

/-- What the parser makes of a torrent file. -/
structure ParsedTorrent where
  name : Bytes
  v1Hash : Option (BitVec 160)
  v2Hash : Option (BitVec 256)
  files : List ParsedFile
  pieceLength : ℕ
  pieceFiles : List TorrentPieceFile
  deriving DecidableEq, Repr

/-- The code outside the transaction that ingress relies on. -/
structure Codec where
  unicode : Unicode
  parse : Bytes → Option ParsedTorrent
  fromUtf8 : Bytes → Option String
  sha256 : Bytes → Digest
  manifestJson : TorrentManifest → String
  releaseJson : ReleaseDescriptor → String
  workflowInputJson : Id → Id → Id → String
  detailJson : Option String → List String → String
  jsonValid : String → Bool

/-- The configuration of `CandidateIngress`: the limits, and the encoded policy for a dry run or a
real one, if the link root is mapped. -/
structure IngressConfig where
  maxTorrentBytes : ℕ
  maxFilesPerTorrent : ℕ
  maxPathBytes : ℕ
  policyJson : Bool → Option String

/-- A candidate that is handed in, and where it comes from. -/
structure CandidateSubmission where
  bytes : Bytes
  announcementName : Option String
  indexer : Option String
  indexerId : Option ℤ
  trigger : String
  releaseHint : Option ReleaseDescriptor
  category : Option String
  tags : List String
  requestId : String
  dryRun : Bool
  receivedAt : ℤ
  deriving DecidableEq, Repr

/-- The answer to a candidate. -/
structure AcceptedCandidate where
  candidateId : Id
  taskId : Id
  duplicate : Bool
  deriving DecidableEq, Repr

/-- Why a candidate is not accepted. -/
inductive CandidateError where
  | torrentTooLarge
  | tooManyFiles
  | pathTooLong
  | invalidUtf8Name
  | invalidUtf8Path
  | torrent
  | database
  | durableIngress (error : DurableIngressError)
  | blobCollision
  | candidateCollision
  | candidateTaskCollision
  | unmappedLinkRoot
  deriving DecidableEq, Repr

/-- The first 16 bytes of a digest. -/
def first16 (hash : Digest) : Id := hash.extractLsb' 128 128

/-- The bytes of an identifier. -/
def idBytes (id : Id) : Bytes :=
  (List.range 16).map (fun i => (id.extractLsb' (8 * (15 - i)) 8).toNat.toUInt8)

theorem toUInt8_inj {m n : ℕ} (hm : m < 256) (hn : n < 256)
    (h : m.toUInt8 = n.toUInt8) : m = n := by
  have h := congrArg UInt8.toNat h
  simpa [Nat.toUInt8, Nat.mod_eq_of_lt hm, Nat.mod_eq_of_lt hn] using h

/-- A bit vector is the sequence of its chunks. -/
theorem eq_of_chunks {n w k : ℕ} (hw : 0 < w) (hn : n ≤ w * k) {a b : BitVec n}
    (h : ∀ i < k, a.extractLsb' (w * (k - 1 - i)) w = b.extractLsb' (w * (k - 1 - i)) w) :
      a = b := by
  refine BitVec.eq_of_getLsbD_eq fun j hj => ?_
  have hchunk : j / w < k := Nat.div_lt_of_lt_mul (hj.trans_le hn)
  have hlast : k - 1 < k := Nat.sub_lt (Nat.zero_lt_of_lt hchunk) Nat.one_pos
  have hbit :=
    congrArg (BitVec.getLsbD · (j % w)) (h (k - 1 - j / w) ((Nat.sub_le _ _).trans_lt hlast))
  have hplace : w * (k - 1 - (k - 1 - j / w)) + j % w = j := by
    rw [Nat.sub_sub_self (Nat.le_sub_one_of_lt hchunk)]
    exact Nat.div_add_mod j w
  simpa [hplace, Nat.mod_lt _ hw] using hbit

theorem idBytes_injective : Function.Injective idBytes := by
  intro id id' h
  refine eq_of_chunks (w := 8) (k := 16) (by decide) (by decide) fun i hi => ?_
  have hmap := List.map_inj_left.mp h i (List.mem_range.mpr hi)
  exact BitVec.eq_of_toNat_eq (toUInt8_inj (BitVec.isLt _) (BitVec.isLt _) hmap)

/-- A hexadecimal digit. -/
def hexDigit (n : ℕ) : Char := "0123456789abcdef".toList.getD n '0'

/-- `encode_hex` of an identifier. -/
def encodeHex (id : Id) : String :=
  String.ofList ((List.range 32).map (fun i => hexDigit (id.extractLsb' (4 * (31 - i)) 4).toNat))

theorem hexDigit_inj {m n : ℕ} (hm : m < 16) (hn : n < 16)
    (h : hexDigit m = hexDigit n) : m = n := by
  have hall : ∀ m < 16, ∀ n < 16, hexDigit m = hexDigit n → m = n := by decide
  exact hall m hm n hn h

theorem encodeHex_injective : Function.Injective encodeHex := by
  intro id id' h
  refine eq_of_chunks (w := 4) (k := 32) (by decide) (by decide) fun i hi => ?_
  have hmap := List.map_inj_left.mp (String.ofList_injective h) i (List.mem_range.mpr hi)
  exact BitVec.eq_of_toNat_eq (hexDigit_inj (BitVec.isLt _) (BitVec.isLt _) hmap)

/-- The bytes of a text. -/
def utf8 (s : String) : Bytes := bytes s.toList

section

variable (codec : Codec) (config : IngressConfig)

/-- The file of a manifest. -/
def manifestFile (ordinal : ℕ) (file : ParsedFile) : Except CandidateError TorrentFile :=
  match file.path.mapM codec.fromUtf8 with
  | none => .error .invalidUtf8Path
  | some components =>
    let path := "/".intercalate components
    if (utf8 path).length > config.maxPathBytes then .error .pathTooLong
    else if 2 ^ 32 ≤ ordinal then .error .tooManyFiles
    else .ok ⟨ordinal, path.toList, file.length, components.contains ".pad"⟩

/-- The files of a manifest, from a first ordinal on. -/
def manifestFiles : ℕ → List ParsedFile → Except CandidateError (List TorrentFile)
  | _, [] => .ok []
  | ordinal, file :: files => do
    let first ← manifestFile codec config ordinal file
    let rest ← manifestFiles (ordinal + 1) files
    return first :: rest

/-- The manifest of a torrent file. -/
def manifestOf (parsed : ParsedTorrent) (files : List TorrentFile) : TorrentManifest where
  hashes := ⟨parsed.v1Hash, parsed.v2Hash⟩
  files
  pieceLength := some parsed.pieceLength
  pieceFiles := parsed.pieceFiles

/-- Add the titles of a hint that the release does not have. -/
def addTitles (release : ReleaseDescriptor) (titles : List NormalizedTitle) : ReleaseDescriptor :=
  titles.foldl (fun release title =>
    if title ≠ release.primaryTitle ∧ title ∉ release.alternateTitles then
      { release with alternateTitles := release.alternateTitles ++ [title] }
    else release) release

/-- The release of a submission: the parsed name, with the identity and the titles of a hint that
names the same title. -/
def submissionRelease (displayName : String) (hint : Option ReleaseDescriptor) :
    ReleaseDescriptor :=
  let release := parseRelease codec.unicode displayName.toList
  match hint with
  | none => release
  | some hint =>
    if hint.primaryTitle = release.primaryTitle
        ∨ release.primaryTitle ∈ hint.alternateTitles then
      addTitles { release with arrIdentity := hint.arrIdentity }
        (hint.alternateTitles ++ [hint.primaryTitle])
    else release

/-- What a submission writes. -/
structure Prepared where
  candidateId : Id
  blobHash : Digest
  manifest : TorrentManifest
  manifestJson : String
  manifestDigest : Digest
  displayName : String
  releaseJson : String
  task : NewTask

/-- The task of a candidate under a policy. -/
def candidateTask (candidateId policyId : Id) (configHash : Digest) (policyJson : String)
    (receivedAt : ℤ) : NewTask :=
  let digest := codec.sha256 (utf8 "candidate-task-v1:" ++ idBytes candidateId ++ idBytes policyId)
  { id := first16 digest
    key := digest
    kind := "process_candidate"
    policy :=
      { id := policyId
        configHash
        matcherVersion := "sporos-matcher/1"
        payloadJson := policyJson
        createdAt := receivedAt }
    orchestrationName := "ProcessCandidate"
    orchestrationVersion := "1.0.0"
    instanceId := "candidate-v1:" ++ encodeHex candidateId ++ ":" ++ encodeHex policyId
    inputJson := codec.workflowInputJson (first16 digest) candidateId policyId
    createdAt := receivedAt }

/-- The part of `accept` before the transaction. -/
def prepare (submission : CandidateSubmission) : Except CandidateError Prepared := do
  if submission.bytes.length > config.maxTorrentBytes then throw .torrentTooLarge
  let some parsed := codec.parse submission.bytes | throw .torrent
  if parsed.files.length > config.maxFilesPerTorrent then throw .tooManyFiles
  let files ← manifestFiles codec config 0 parsed.files
  let manifest := manifestOf parsed files
  let some torrentName := codec.fromUtf8 parsed.name | throw .invalidUtf8Name
  let displayName := (submission.announcementName.filter (· ≠ "")).getD torrentName
  let release := submissionRelease codec displayName submission.releaseHint
  let some policyJson := config.policyJson submission.dryRun | throw .unmappedLinkRoot
  let manifestJson := codec.manifestJson manifest
  let blobHash := codec.sha256 submission.bytes
  let candidateId := first16 blobHash
  let configHash := codec.sha256 (utf8 policyJson)
  if 2 ^ 63 ≤ submission.bytes.length then throw .torrentTooLarge
  return {
    candidateId
    blobHash
    manifest
    manifestJson
    manifestDigest := codec.sha256 (utf8 manifestJson)
    displayName
    releaseJson := codec.releaseJson release
    task := candidateTask codec candidateId (first16 configHash) configHash policyJson
      submission.receivedAt }

/-- The row of a torrent file. -/
def blobRow (hash : Digest) (data : Bytes) (receivedAt : ℤ) : BlobRow :=
  ⟨hash, "application/x-bittorrent", data.length, data, receivedAt⟩

/-- The torrent file is stored unless it is there. -/
def insertBlob (db : Db) (hash : Digest) (data : Bytes) (receivedAt : ℤ) : Db :=
  { db with blobs := insertOrIgnore BlobRow.sha256 db.blobs (blobRow hash data receivedAt) }

/-- The stored bytes are the expected ones. -/
def verifyBlob (db : Db) (hash : Digest) (expected : Bytes) : Except CandidateError Unit :=
  match lookup BlobRow.sha256 db.blobs hash with
  | none => .error .database
  | some row =>
    if row.size = expected.length ∧ row.data = expected then .ok () else .error .blobCollision

/-- The row of a candidate. -/
def Prepared.candidateRow (p : Prepared) (receivedAt : ℤ) : CandidateRow where
  id := p.candidateId
  blobSha256 := p.blobHash
  v1Hash := p.manifest.hashes.v1
  v2Hash := p.manifest.hashes.v2
  manifestDigest := p.manifestDigest
  displayName := p.displayName
  releaseJson := p.releaseJson
  state := "received"
  createdAt := receivedAt
  updatedAt := receivedAt
  manifestJson := p.manifestJson

/-- The candidate is stored unless it is there. -/
def insertCandidate (db : Db) (p : Prepared) (receivedAt : ℤ) : Except CandidateError Db :=
  if (p.manifest.hashes.v1.isNone && p.manifest.hashes.v2.isNone)
      || !codec.jsonValid p.releaseJson || !codec.jsonValid p.manifestJson then .error .database
  else
    .ok { db with
      candidates := insertOrIgnore CandidateRow.id db.candidates (p.candidateRow receivedAt) }

/-- The stored candidate is the expected one. -/
def verifyCandidate (db : Db) (p : Prepared) : Except CandidateError Unit :=
  match lookup CandidateRow.id db.candidates p.candidateId with
  | none => .error .database
  | some row =>
    if row.blobSha256 = p.blobHash ∧ row.manifestDigest = p.manifestDigest then .ok ()
    else .error .candidateCollision

/-- The row that binds a candidate and a policy to a task. -/
def Prepared.candidateTaskRow (p : Prepared) : CandidateTaskRow :=
  ⟨p.candidateId, p.task.policy.id, p.task.id⟩

/-- Insert the link from a candidate and a policy to the task, unless the pair has one; a task
belongs to one pair only. -/
def insertCandidateTask (db : Db) (p : Prepared) : Except CandidateError Db :=
  if (lookup CandidateTaskRow.key db.candidateTasks (p.candidateId, p.task.policy.id)).isSome then
    .ok db
  else if (lookup CandidateTaskRow.taskId db.candidateTasks p.task.id).isSome then .error .database
  else .ok { db with candidateTasks := db.candidateTasks ++ [p.candidateTaskRow] }

/-- The candidate and the policy belong to the expected task. -/
def verifyCandidateTask (db : Db) (p : Prepared) : Except CandidateError Unit :=
  match lookup CandidateTaskRow.key db.candidateTasks (p.candidateId, p.task.policy.id) with
  | none => .error .database
  | some row => if row.taskId = p.task.id then .ok () else .error .candidateTaskCollision

/-- Where a candidate comes from. -/
def provenanceRow (candidateId : Id) (submission : CandidateSubmission) : ProvenanceRow where
  candidateId
  trigger := submission.trigger
  indexerId := submission.indexerId
  indexerName := submission.indexer
  announcementName := submission.announcementName
  requestId := submission.requestId
  receivedAt := submission.receivedAt
  detailJson := codec.detailJson submission.category submission.tags

/-- The provenance of a submission is added. -/
def insertProvenance (db : Db) (p : Prepared) (submission : CandidateSubmission) :
    Except CandidateError Db :=
  let row := provenanceRow codec p.candidateId submission
  if !codec.jsonValid row.detailJson then .error .database
  else .ok { db with provenance := db.provenance ++ [row] }

/-- The transaction of `accept`. -/
def commitCandidate (db : Db) (p : Prepared) (submission : CandidateSubmission) :
    Except CandidateError (Db × AcceptedCandidate) := do
  let db := insertBlob db p.blobHash submission.bytes submission.receivedAt
  verifyBlob db p.blobHash submission.bytes
  let db ← insertCandidate codec db p submission.receivedAt
  verifyCandidate db p
  let (db, inserted) ← (acceptTaskIn codec.jsonValid db p.task).mapError .durableIngress
  let db ← insertCandidateTask db p
  verifyCandidateTask db p
  let db ← insertProvenance codec db p submission
  return (db, ⟨p.candidateId, p.task.id, !inserted⟩)

/-- `accept` of the candidates: one transaction. -/
def acceptCandidate (db : Db) (submission : CandidateSubmission) :
    Except CandidateError (Db × AcceptedCandidate) := do
  let p ← prepare codec config submission
  commitCandidate codec db p submission

/-- The identifier of a candidate is bound to the torrent. -/
def BoundCandidate (db : Db) (p : Prepared) (data : Bytes) : Prop :=
  (∃ row, lookup CandidateRow.id db.candidates p.candidateId = some row
      ∧ row.blobSha256 = p.blobHash ∧ row.manifestDigest = p.manifestDigest)
    ∧ ∃ blob, lookup BlobRow.sha256 db.blobs p.blobHash = some blob ∧ blob.data = data

/-- The tables after the rows of a blob and its candidate. -/
def insertCandidateRows (db : Db) (p : Prepared) (data : Bytes) (receivedAt : ℤ) : Db :=
  { db with
    blobs := insertOrIgnore BlobRow.sha256 db.blobs (blobRow p.blobHash data receivedAt)
    candidates := insertOrIgnore CandidateRow.id db.candidates (p.candidateRow receivedAt) }

theorem verifyBlob_eq_ok {db : Db} {hash : Digest} {data : Bytes}
    (h : verifyBlob db hash data = .ok ()) :
    ∃ blob, lookup BlobRow.sha256 db.blobs hash = some blob ∧ blob.data = data := by
  unfold verifyBlob at h
  cases hblob : lookup BlobRow.sha256 db.blobs hash with
  | none => simp [hblob] at h
  | some blob =>
    simp only [hblob] at h
    split_ifs at h with hdata
    exact ⟨blob, rfl, hdata.2⟩

theorem verifyCandidate_eq_ok {db : Db} {p : Prepared} (h : verifyCandidate db p = .ok ()) :
    ∃ row, lookup CandidateRow.id db.candidates p.candidateId = some row
      ∧ row.blobSha256 = p.blobHash ∧ row.manifestDigest = p.manifestDigest := by
  unfold verifyCandidate at h
  cases hrow : lookup CandidateRow.id db.candidates p.candidateId with
  | none => simp [hrow] at h
  | some row =>
    simp only [hrow] at h
    split_ifs at h with hcontent
    exact ⟨row, rfl, hcontent⟩

theorem insertCandidateTask_eq_ok {db db' : Db} {p : Prepared}
    (h : insertCandidateTask db p = .ok db') :
    db.candidateTasks <+: db'.candidateTasks
      ∧ db' = { db with candidateTasks := db'.candidateTasks } := by
  unfold insertCandidateTask at h
  split_ifs at h
  · obtain rfl : db = db' := by simpa using h
    exact ⟨List.prefix_rfl, rfl⟩
  · obtain rfl : _ = db' := by simpa using h
    exact ⟨List.prefix_append _ _, rfl⟩

variable {codec}

theorem insertCandidate_eq_ok {db db' : Db} {p : Prepared} {receivedAt : ℤ}
    (h : insertCandidate codec db p receivedAt = .ok db') :
    db' = { db with
      candidates := insertOrIgnore CandidateRow.id db.candidates (p.candidateRow receivedAt) } := by
  unfold insertCandidate at h
  split_ifs at h
  simpa using h.symm

theorem insertProvenance_eq_ok {db db' : Db} {p : Prepared} {submission : CandidateSubmission}
    (h : insertProvenance codec db p submission = .ok db') :
    db.provenance <+: db'.provenance ∧ db' = { db with provenance := db'.provenance } := by
  unfold insertProvenance at h
  simp only at h
  split_ifs at h
  obtain rfl : _ = db' := by simpa using h
  exact ⟨List.prefix_append _ _, rfl⟩

/-- What a committed `accept` has done. -/
theorem commitCandidate_eq_ok {db db' : Db} {p : Prepared} {submission : CandidateSubmission}
    {accepted : AcceptedCandidate}
    (h : commitCandidate codec db p submission = .ok (db', accepted)) :
    BoundCandidate db' p submission.bytes
      ∧ ∃ db₁, AcceptedIn codec.jsonValid
          (insertCandidateRows db p submission.bytes submission.receivedAt) p.task db₁
          (!accepted.duplicate)
        ∧ db₁.candidateTasks <+: db'.candidateTasks ∧ db₁.provenance <+: db'.provenance
        ∧ db' = { db₁ with
            candidateTasks := db'.candidateTasks, provenance := db'.provenance } := by
  unfold commitCandidate at h
  obtain ⟨⟨⟩, hblob, h⟩ := bind_eq_ok.mp h
  obtain ⟨db₁, hcandidate, h⟩ := bind_eq_ok.mp h
  obtain ⟨⟨⟩, hverifyCandidate, h⟩ := bind_eq_ok.mp h
  obtain ⟨⟨db₂, inserted⟩, htask, h⟩ := bind_eq_ok.mp h
  obtain ⟨db₃, hlink, h⟩ := bind_eq_ok.mp h
  obtain ⟨⟨⟩, -, h⟩ := bind_eq_ok.mp h
  obtain ⟨db₄, hprovenance, h⟩ := bind_eq_ok.mp h
  obtain ⟨rfl, rfl⟩ : db₄ = db' ∧ _ = accepted := by simpa [pure, Except.pure] using h
  obtain rfl := insertCandidate_eq_ok hcandidate
  have hin := acceptTaskIn_eq_ok (mapError_eq_ok.mp htask)
  obtain ⟨hlinks, hdb₃⟩ := insertCandidateTask_eq_ok hlink
  obtain ⟨hprov, hdb₄⟩ := insertProvenance_eq_ok hprovenance
  have htables : db₄.blobs = db₂.blobs ∧ db₄.candidates = db₂.candidates
      ∧ db₄.candidateTasks = db₃.candidateTasks ∧ db₃.provenance = db₂.provenance := by
    rw [hdb₄, hdb₃]; exact ⟨rfl, rfl, rfl, rfl⟩
  have hrows : db₂.blobs
      = (insertCandidateRows db p submission.bytes submission.receivedAt).blobs
      ∧ db₂.candidates
        = (insertCandidateRows db p submission.bytes submission.receivedAt).candidates := by
    rcases hin.result with ⟨-, rfl⟩ | ⟨-, -, -, rfl⟩ <;> exact ⟨rfl, rfl⟩
  refine ⟨⟨?_, ?_⟩, db₂, ?_, ?_, ?_, ?_⟩
  · rw [htables.2.1, hrows.2]
    exact verifyCandidate_eq_ok hverifyCandidate
  · rw [htables.1, hrows.1]
    exact verifyBlob_eq_ok hblob
  · rw [Bool.not_not]; exact hin
  · rw [htables.2.2.1]; exact hlinks
  · rw [← htables.2.2.2]; exact hprov
  · rw [hdb₄, hdb₃]

end

end Sporos.Service.Ingress
