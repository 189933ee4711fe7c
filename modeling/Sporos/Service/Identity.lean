import Sporos.Service.Ingress

/-! # The identities of ingress

Every call of ingress presents a request: a task with its policy and, for a candidate, the torrent.
A call that succeeds leaves the content of its request in the tables, under the identities that the
request uses, and no later call changes it. -/

namespace Sporos.Service.Identity

open Sporos.Service.Tables
open Sporos.Service.Ingress
open Sporos.Lib.Table

/-! ### Calls -/

/-- A call of `accept_task`, or of `CandidateIngress::accept` under a configuration. -/
inductive Call where
  | task (t : NewTask)
  | candidate (config : IngressConfig) (submission : CandidateSubmission)

/-- The result of a call. The error of `accept_task` is wrapped as in `CandidateError`. -/
def Call.run (codec : Codec) (db : Db) : Call → Except CandidateError (Db × Bool)
  | .task t =>
    match acceptTask codec.jsonValid db t with
    | .error error => .error (.durableIngress error)
    | .ok (db, accepted) => .ok (db, accepted.duplicate)
  | .candidate config submission =>
    match acceptCandidate codec config db submission with
    | .error error => .error error
    | .ok (db, accepted) => .ok (db, accepted.duplicate)

/-- The tables after a call: a call that fails is rolled back. -/
def Call.step (codec : Codec) (db : Db) (call : Call) : Db :=
  match call.run codec db with
  | .error _ => db
  | .ok (db, _) => db

/-- The tables after a sequence of calls. -/
def runCalls (codec : Codec) (db : Db) (calls : List Call) : Db := calls.foldl (Call.step codec) db

/-- What a call presents: a task and, for a candidate, what it has prepared and its torrent. -/
structure Request where
  task : NewTask
  candidate : Option (Prepared × Bytes)

/-- The request of a call, unless the call fails before its transaction. -/
def Call.request (codec : Codec) : Call → Option Request
  | .task t => some ⟨t, none⟩
  | .candidate config submission =>
    match prepare codec config submission with
    | .error _ => none
    | .ok p => some ⟨p.task, some (p, submission.bytes)⟩

/-! ### Content -/

/-- The content of a policy. -/
def policyContent (policy : PolicySnapshot) : Digest × String × String :=
  (policy.configHash, policy.matcherVersion, policy.payloadJson)

/-- The content of a task. -/
def taskContent (task : NewTask) : Id × Digest × String × Id × String × String × String × String :=
  (task.id, task.key, task.kind, task.policy.id, task.orchestrationName, task.orchestrationVersion,
    task.instanceId, task.inputJson)

/-- Two requests that use one identity for different contents. -/
def Conflict (r r' : Request) : Prop :=
  (r.task.policy.id = r'.task.policy.id ∧ policyContent r.task.policy ≠
    policyContent r'.task.policy)
    ∨ (r.task.id = r'.task.id ∧ taskContent r.task ≠ taskContent r'.task)
    ∨ (r.task.key = r'.task.key ∧ taskContent r.task ≠ taskContent r'.task)
    ∨ ∃ c ∈ r.candidate, ∃ c' ∈ r'.candidate, c.1.candidateId = c'.1.candidateId ∧ c.2 ≠ c'.2

/-- The identities of a request are bound to its content. -/
structure Bound (db : Db) (r : Request) : Prop where
  policy : BoundPolicy db r.task.policy
  row : BoundRow db r.task
  start : BoundStart db r.task
  candidate : ∀ c ∈ r.candidate, BoundCandidate db c.1 c.2

/-- The rows of the one database are the first rows of the other. -/
structure Extends (db db' : Db) : Prop where
  policies : db.policies <+: db'.policies
  tasks : db.tasks <+: db'.tasks
  events : db.events <+: db'.events
  outbox : db.outbox <+: db'.outbox
  blobs : db.blobs <+: db'.blobs
  candidates : db.candidates <+: db'.candidates
  candidateTasks : db.candidateTasks <+: db'.candidateTasks
  provenance : db.provenance <+: db'.provenance

theorem Extends.refl (db : Db) : Extends db db := by
  constructor <;> exact List.prefix_rfl

theorem Extends.trans {db₁ db₂ db₃ : Db} (h : Extends db₁ db₂) (h' : Extends db₂ db₃) :
    Extends db₁ db₃ where
  policies := h.policies.trans h'.policies
  tasks := h.tasks.trans h'.tasks
  events := h.events.trans h'.events
  outbox := h.outbox.trans h'.outbox
  blobs := h.blobs.trans h'.blobs
  candidates := h.candidates.trans h'.candidates
  candidateTasks := h.candidateTasks.trans h'.candidateTasks
  provenance := h.provenance.trans h'.provenance

theorem Bound.extends {db db' : Db} {r : Request} (hb : Bound db r) (h : Extends db db') :
    Bound db' r where
  policy := by
    obtain ⟨row, hrow, hcontent⟩ := hb.policy
    exact ⟨row, lookup_kept h.policies hrow, hcontent⟩
  row := by
    obtain ⟨row, hrow, hcontent⟩ := hb.row
    exact ⟨row, lookup_kept h.tasks hrow, hcontent⟩
  start := by
    obtain ⟨row, hrow, hcontent⟩ := hb.start
    exact ⟨row, lookup_kept h.outbox hrow, hcontent⟩
  candidate := by
    intro c hc
    obtain ⟨⟨row, hrow, hcontent⟩, blob, hblob, hdata⟩ := hb.candidate c hc
    exact ⟨⟨row, lookup_kept h.candidates hrow, hcontent⟩, blob,
      lookup_kept h.blobs hblob, hdata⟩

/-- The unique columns; that a start request is for the instance of its task; and that a task has
its first event. -/
structure Consistent (db : Db) : Prop where
  policies : UniqueKey PolicyRow.id db.policies
  tasks : UniqueKey TaskRow.id db.tasks
  events : UniqueKey EventRow.key db.events
  keys : UniqueKey OutboxRow.taskKey db.outbox
  instances : UniqueKey OutboxRow.instanceId db.outbox
  start : ∀ row ∈ db.outbox, ∃ task, db.task row.taskId = some task
    ∧ task.instanceId = row.instanceId
  queued : ∀ task ∈ db.tasks, (lookup EventRow.key db.events (task.id, 0)).isSome = true

theorem consistent_empty : Consistent Db.empty := by
  constructor <;> simp [Db.empty, UniqueKey]

section

variable {db : Db} {r r' : Request}

theorem Bound.policyContent_eq (hb : Bound db r) (hb' : Bound db r')
    (hid : r.task.policy.id = r'.task.policy.id) :
    policyContent r.task.policy = policyContent r'.task.policy := by
  obtain ⟨row, hrow, h₁, h₂, h₃⟩ := hb.policy
  obtain ⟨row', hrow', h₁', h₂', h₃'⟩ := hb'.policy
  rw [← hid, hrow, Option.some_inj] at hrow'
  subst hrow'
  simp [policyContent, ← h₁, ← h₂, ← h₃, h₁', h₂', h₃']

/-- Two bound tasks with one key have one content. -/
theorem Bound.taskContent_eq_of_key (hb : Bound db r) (hb' : Bound db r')
    (hkey : r.task.key = r'.task.key) : taskContent r.task = taskContent r'.task := by
  obtain ⟨start, hstart, hid, hname, hversion, hinstance, hinput⟩ := hb.start
  obtain ⟨start', hstart', hid', hname', hversion', hinstance', hinput'⟩ := hb'.start
  rw [← hkey, hstart, Option.some_inj] at hstart'
  subst hstart'
  have hids : r.task.id = r'.task.id := hid.symm.trans hid'
  obtain ⟨row, hrow, hkind, -, hpolicy⟩ := hb.row
  obtain ⟨row', hrow', hkind', -, hpolicy'⟩ := hb'.row
  rw [← hids, hrow, Option.some_inj] at hrow'
  subst hrow'
  simp [taskContent, hids, hkey, ← hname, ← hversion, ← hinstance, ← hinput, ← hkind, ← hpolicy,
    hname', hversion', hinstance', hinput', hkind', hpolicy']

/-- Two bound tasks with one identifier have one instance, hence one start request and one key. -/
theorem Bound.key_eq_of_id (hc : Consistent db) (hb : Bound db r) (hb' : Bound db r')
    (hid : r.task.id = r'.task.id) : r.task.key = r'.task.key := by
  obtain ⟨row, hrow, -, hinstance, -⟩ := hb.row
  obtain ⟨row', hrow', -, hinstance', -⟩ := hb'.row
  rw [← hid, hrow, Option.some_inj] at hrow'
  subst hrow'
  obtain ⟨start, hstart, -, -, -, hstartInstance, -⟩ := hb.start
  obtain ⟨start', hstart', -, -, -, hstartInstance', -⟩ := hb'.start
  obtain ⟨hmem, hkey⟩ := lookup_eq_some_mem hstart
  obtain ⟨hmem', hkey'⟩ := lookup_eq_some_mem hstart'
  have hsame : start = start' := by
    refine List.inj_on_of_nodup_map hc.instances hmem hmem' ?_
    rw [hstartInstance, hstartInstance', ← hinstance, ← hinstance']
  rw [← hkey, ← hkey', hsame]

theorem Bound.data_eq (hb : Bound db r) (hb' : Bound db r') {c c' : Prepared × Bytes}
    (hc : c ∈ r.candidate) (hc' : c' ∈ r'.candidate)
    (hid : c.1.candidateId = c'.1.candidateId) : c.2 = c'.2 := by
  obtain ⟨⟨row, hrow, hhash, -⟩, blob, hblob, hdata⟩ := hb.candidate c hc
  obtain ⟨⟨row', hrow', hhash', -⟩, blob', hblob', hdata'⟩ := hb'.candidate c' hc'
  rw [← hid, hrow, Option.some_inj] at hrow'
  subst hrow'
  rw [← hhash', hhash, hblob, Option.some_inj] at hblob'
  rw [← hdata, ← hdata', hblob']

/-- Two requests whose contents are bound in one database do not conflict. -/
theorem Bound.not_conflict (hc : Consistent db) (hb : Bound db r) (hb' : Bound db r') :
    ¬ Conflict r r' := by
  rintro (⟨hid, hne⟩ | ⟨hid, hne⟩ | ⟨hkey, hne⟩ | ⟨c, hc, c', hc', hid, hne⟩)
  · exact hne (hb.policyContent_eq hb' hid)
  · exact hne (hb.taskContent_eq_of_key hb' (hb.key_eq_of_id hc hb' hid))
  · exact hne (hb.taskContent_eq_of_key hb' hkey)
  · exact hne (hb.data_eq hb' hc hc' hid)

end

/-! ### One call -/

section

variable {codec : Codec} {db db' : Db}

theorem extends_insertRows (db : Db) (task : NewTask) : Extends db (insertRows db task) where
  policies := prefix_insertOrIgnore _ _ _
  tasks := prefix_insertOrIgnore _ _ _
  events := prefix_insertOrIgnore _ _ _
  outbox := List.prefix_rfl
  blobs := List.prefix_rfl
  candidates := List.prefix_rfl
  candidateTasks := List.prefix_rfl
  provenance := List.prefix_rfl

theorem extends_of_acceptedIn {task : NewTask} {inserted : Bool}
    (h : AcceptedIn codec.jsonValid db task db' inserted) : Extends db db' := by
  rcases h.result with ⟨-, rfl⟩ | ⟨-, -, -, rfl⟩
  · exact extends_insertRows db task
  · exact { extends_insertRows db task with outbox := List.prefix_append _ _ }

theorem consistent_insertRows (hc : Consistent db) (task : NewTask) :
    Consistent (insertRows db task) where
  policies := hc.policies.insertOrIgnore _
  tasks := hc.tasks.insertOrIgnore _
  events := hc.events.insertOrIgnore _
  keys := hc.keys
  instances := hc.instances
  start := by
    intro row hrow
    obtain ⟨taskRow, htask, hinstance⟩ := hc.start row hrow
    exact ⟨taskRow, lookup_kept (prefix_insertOrIgnore _ _ _) htask, hinstance⟩
  queued := by
    intro row hrow
    rcases mem_insertOrIgnore hrow with hold | ⟨rfl, -⟩
    · obtain ⟨event, hevent⟩ := Option.isSome_iff_exists.mp (hc.queued row hold)
      rw [Option.isSome_iff_exists]
      exact ⟨event, lookup_kept (prefix_insertOrIgnore _ _ _) hevent⟩
    · rw [Option.isSome_iff_exists]
      exact ⟨_, lookup_insertOrIgnore_self db.events task.event⟩

theorem consistent_of_acceptedIn {task : NewTask} {inserted : Bool} (hc : Consistent db)
    (h : AcceptedIn codec.jsonValid db task db' inserted) : Consistent db' := by
  have hrows := consistent_insertRows hc task
  obtain ⟨taskRow, htask, -, hinstance, -⟩ := h.row
  rcases h.result with ⟨-, rfl⟩ | ⟨-, hkey, hfree, rfl⟩
  · exact hrows
  · refine { hrows with keys := ?_, instances := ?_, start := ?_ }
    · exact unique_append hc.keys hkey
    · exact unique_append hc.instances hfree
    · intro row hrow
      rcases List.mem_append.mp hrow with hold | hnew
      · exact hrows.start row hold
      · rw [List.mem_singleton] at hnew
        subst hnew
        exact ⟨taskRow, htask, hinstance⟩

/-- **What a call does.** If it succeeds, the content of its request is bound, and the tables only
have grown. -/
theorem run_eq_ok {call : Call} {duplicate : Bool} (h : call.run codec db = .ok (db', duplicate)) :
    ∃ r, call.request codec = some r ∧ Bound db' r ∧ Extends db db'
      ∧ (Consistent db → Consistent db') := by
  cases call with
  | task t =>
    simp only [Call.run, acceptTask] at h
    cases hin : acceptTaskIn codec.jsonValid db t with
    | error e => simp [hin, bind, Except.bind] at h
    | ok result =>
      obtain ⟨db₁, inserted⟩ := result
      obtain ⟨rfl, -⟩ : db₁ = db' ∧ _ := by
        simpa [hin, bind, Except.bind, pure, Except.pure] using h
      have haccepted := acceptTaskIn_eq_ok hin
      refine ⟨⟨t, none⟩, rfl, ⟨haccepted.policy, haccepted.row, haccepted.start, by simp⟩,
        extends_of_acceptedIn haccepted, fun hc => consistent_of_acceptedIn hc haccepted⟩
  | candidate config submission =>
    simp only [Call.run, acceptCandidate] at h
    cases hp : prepare codec config submission with
    | error e => simp [hp, bind, Except.bind] at h
    | ok p =>
      cases hcommit : commitCandidate codec db p submission with
      | error e => simp [hp, hcommit, bind, Except.bind] at h
      | ok result =>
        obtain ⟨db₂, accepted⟩ := result
        obtain ⟨rfl, -⟩ : db₂ = db' ∧ _ := by simpa [hp, hcommit, bind, Except.bind] using h
        obtain ⟨hcandidate, db₁, haccepted, hlinks, hprovenance, hdb₂⟩ :=
          commitCandidate_eq_ok hcommit
        refine ⟨⟨p.task, some (p, submission.bytes)⟩, by simp [Call.request, hp], ?_, ?_, ?_⟩
        · refine ⟨?_, ?_, ?_, by simpa using hcandidate⟩
          · rw [hdb₂]; exact haccepted.policy
          · rw [hdb₂]; exact haccepted.row
          · rw [hdb₂]; exact haccepted.start
        · have hrows := extends_of_acceptedIn haccepted
          rw [hdb₂]
          exact { policies := hrows.policies, tasks := hrows.tasks, events := hrows.events
                  outbox := hrows.outbox
                  blobs := (prefix_insertOrIgnore _ _ _).trans hrows.blobs
                  candidates := (prefix_insertOrIgnore _ _ _).trans hrows.candidates
                  candidateTasks := hrows.candidateTasks.trans hlinks
                  provenance := hrows.provenance.trans hprovenance }
        · intro hc
          have hrows : Consistent
              (insertCandidateRows db p submission.bytes submission.receivedAt) :=
            ⟨hc.policies, hc.tasks, hc.events, hc.keys, hc.instances, hc.start, hc.queued⟩
          have hc₁ := consistent_of_acceptedIn hrows haccepted
          rw [hdb₂]
          exact ⟨hc₁.policies, hc₁.tasks, hc₁.events, hc₁.keys, hc₁.instances, hc₁.start,
            hc₁.queued⟩

theorem step_extends (db : Db) (call : Call) : Extends db (call.step codec db) := by
  unfold Call.step
  cases h : call.run codec db with
  | error e => exact Extends.refl db
  | ok result =>
    obtain ⟨r, -, -, hextends, -⟩ := run_eq_ok h
    exact hextends

theorem step_consistent (hc : Consistent db) (call : Call) : Consistent (call.step codec db) := by
  unfold Call.step
  cases h : call.run codec db with
  | error e => exact hc
  | ok result =>
    obtain ⟨r, -, -, -, hconsistent⟩ := run_eq_ok h
    exact hconsistent hc

end

/-! ### Sequences of calls -/

section

variable {codec : Codec}

theorem runCalls_extends (calls : List Call) (db : Db) : Extends db (runCalls codec db calls) := by
  induction calls generalizing db with
  | nil => exact Extends.refl db
  | cons call calls ih => exact (step_extends db call).trans (ih _)

theorem runCalls_consistent (calls : List Call) {db : Db} (hc : Consistent db) :
    Consistent (runCalls codec db calls) := by
  induction calls generalizing db with
  | nil => exact hc
  | cons call calls ih => exact ih (step_consistent hc call)

/-- The rows of an accepted task: one first event, and one start request with its content. -/
theorem Bound.rows {db : Db} (hc : Consistent db) {r : Request} (hb : Bound db r) :
    (∃ event, db.events.filter (fun row => row.taskId = r.task.id ∧ row.sequence = 0) = [event])
      ∧ ∃ start, db.outbox.filter (fun row => row.taskId = r.task.id) = [start]
        ∧ start.taskKey = r.task.key
        ∧ start.orchestrationName = r.task.orchestrationName
        ∧ start.orchestrationVersion = r.task.orchestrationVersion
        ∧ start.instanceId = r.task.instanceId ∧ start.inputJson = r.task.inputJson := by
  obtain ⟨row, hrow, -, hinstance, -⟩ := hb.row
  obtain ⟨hmem, hid⟩ := lookup_eq_some_mem hrow
  constructor
  · obtain ⟨event, hevent⟩ := Option.isSome_iff_exists.mp (hc.queued row hmem)
    obtain ⟨heventMem, heventKey⟩ := lookup_eq_some_mem hevent
    refine ⟨event, hc.events.filter_eq heventMem fun event' hevent' => ?_⟩
    rw [decide_eq_true_iff]
    constructor
    · rintro ⟨htask, hsequence⟩
      refine List.inj_on_of_nodup_map hc.events hevent' heventMem ?_
      rw [heventKey, EventRow.key, htask, hsequence, hid]
    · rintro rfl
      rw [EventRow.key, Prod.mk.injEq] at heventKey
      exact ⟨heventKey.1.trans hid, heventKey.2⟩
  · obtain ⟨start, hstart, hstartId, hname, hversion, hstartInstance, hinput⟩ := hb.start
    obtain ⟨hstartMem, hkey⟩ := lookup_eq_some_mem hstart
    refine ⟨start, hc.keys.filter_eq hstartMem fun start' hstart' => ?_, hkey, hname, hversion,
      hstartInstance, hinput⟩
    rw [decide_eq_true_iff]
    constructor
    · intro htask
      obtain ⟨row', hrow', hinstance'⟩ := hc.start start' hstart'
      rw [htask, hrow, Option.some_inj] at hrow'
      subst hrow'
      refine List.inj_on_of_nodup_map hc.instances hstart' hstartMem ?_
      rw [← hinstance', hinstance, hstartInstance]
    · rintro rfl
      exact hstartId

/-- **Identity integrity.** After any calls, let a call with request `r` succeed, and let any calls
follow. Then the identities of `r` are still bound to its content by the rows that were there right
after the call; its task has one first event and one start request, which carries its content; and a
further call whose request conflicts with `r` fails and changes no table. -/
theorem ingress_identities (codec : Codec) (before after : List Call) (call : Call) (r : Request)
    (hrequest : call.request codec = some r)
    (haccepted : ∃ result, call.run codec (runCalls codec Db.empty before) = .ok result) :
    let bound := runCalls codec Db.empty (before ++ [call])
    let db := runCalls codec Db.empty (before ++ [call] ++ after)
    (Bound bound r ∧ Extends bound db ∧ Bound db r)
      ∧ (∃ event, db.events.filter (fun row => row.taskId = r.task.id ∧ row.sequence = 0) = [event])
      ∧ (∃ start, db.outbox.filter (fun row => row.taskId = r.task.id) = [start]
        ∧ start.taskKey = r.task.key
        ∧ start.orchestrationName = r.task.orchestrationName
        ∧ start.orchestrationVersion = r.task.orchestrationVersion
        ∧ start.instanceId = r.task.instanceId ∧ start.inputJson = r.task.inputJson)
      ∧ ∀ (other : Call) (r' : Request), other.request codec = some r' → Conflict r r' →
        (∃ error, other.run codec db = .error error) ∧ other.step codec db = db := by
  intro bound db
  obtain ⟨⟨db₁, duplicate⟩, hrun⟩ := haccepted
  have hbound : bound = db₁ := by
    simp only [bound, runCalls, List.foldl_append, List.foldl_cons, List.foldl_nil]
    simp only [runCalls] at hrun
    rw [Call.step, hrun]
  have hdb : db = runCalls codec bound after := by
    simp [db, bound, runCalls, List.foldl_append]
  obtain ⟨r₁, hr₁, hb₁, -, -⟩ := run_eq_ok hrun
  obtain rfl : r₁ = r := by rw [hrequest] at hr₁; exact (Option.some_inj.mp hr₁).symm
  rw [← hbound] at hb₁
  have hextends : Extends bound db := by rw [hdb]; exact runCalls_extends after bound
  have hb : Bound db r₁ := hb₁.extends hextends
  have hc : Consistent db := runCalls_consistent _ consistent_empty
  obtain ⟨hevent, hstart⟩ := hb.rows hc
  refine ⟨⟨hb₁, hextends, hb⟩, hevent, hstart, ?_⟩
  intro other r' hr' hconflict
  cases hother : other.run codec db with
  | error e => exact ⟨⟨e, rfl⟩, by rw [Call.step, hother]⟩
  | ok result =>
    obtain ⟨r₂, hr₂, hb₂, hextends₂, hconsistent⟩ := run_eq_ok hother
    obtain rfl : r₂ = r' := by rw [hr'] at hr₂; exact (Option.some_inj.mp hr₂).symm
    exact absurd hconflict ((hb.extends hextends₂).not_conflict (hconsistent hc) hb₂)

end

/-- The encoders on the texts of `scanTask`; the torrent parser accepts nothing. -/
def scanCodec : Codec where
  unicode := .ascii
  parse _ := none
  fromUtf8 _ := none
  sha256 _ := 0
  manifestJson _ := "null"
  releaseJson _ := "null"
  workflowInputJson _ _ _ := "null"
  detailJson _ _ := "null"
  jsonValid text := text ∈ ["null", "[]"]

/-- A task of which an identifier, a key and an input are chosen. -/
def scanTask (id : Id) (key : Digest) (inputJson : String) : NewTask where
  id
  key
  kind := "data_scan"
  policy := ⟨1, 2, "sporos-matcher/1", "null", 5⟩
  orchestrationName := "ScanData"
  orchestrationVersion := "1.0.0"
  instanceId := "data-scan:" ++ encodeHex id
  inputJson
  createdAt := 5

theorem ingress_identities_scan :
    (∃ result, (Call.task (scanTask 1 1 "null")).run scanCodec
        (runCalls scanCodec Db.empty [.task (scanTask 2 2 "[]")]) = .ok result)
      ∧ Conflict ⟨scanTask 1 1 "null", none⟩ ⟨scanTask 1 3 "null", none⟩
      ∧ ∃ error, (Call.task (scanTask 1 3 "null")).run scanCodec
          (runCalls scanCodec Db.empty
            ([.task (scanTask 2 2 "[]")] ++ [.task (scanTask 1 1 "null")]
              ++ [.task (scanTask 3 1 "[]")])) = .error error := by
  have haccepted : ∃ result, (Call.task (scanTask 1 1 "null")).run scanCodec
      (runCalls scanCodec Db.empty [.task (scanTask 2 2 "[]")]) = .ok result := ⟨_, rfl⟩
  have hconflict : Conflict ⟨scanTask 1 1 "null", none⟩ ⟨scanTask 1 3 "null", none⟩ :=
    .inr (.inl ⟨rfl, by simp [taskContent, scanTask]⟩)
  have h := ingress_identities scanCodec [.task (scanTask 2 2 "[]")] [.task (scanTask 3 1 "[]")]
    (.task (scanTask 1 1 "null")) _ rfl haccepted
  exact ⟨haccepted, hconflict, (h.2.2.2 (.task (scanTask 1 3 "null")) _ rfl hconflict).1⟩

end Sporos.Service.Identity
