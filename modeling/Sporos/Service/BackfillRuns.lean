import Sporos.Service.Acceptance
import Sporos.Service.Backfill

/-! # Runs of backfills

A backfill whose pages are executed any number of times, among the writes of the rest of the
service. What the tables hold of the pairs of the operation is a list of pairs (`Footprint`); to
accept a pair adds it to the list, unless it is there (`acceptIn_eq`). When the workflow has ended,
the list has every pair that the request selects, once (`backfill_covers`). -/

namespace Sporos.Service.BackfillRuns

open Sporos.Model.Matching
open Sporos.Service.Tables
open Sporos.Service.Ingress
open Sporos.Service.Sources
open Sporos.Service.Search
open Sporos.Service.ForcedOperations (BackfillSelection BackfillInput)
open Sporos.Service.Backfill
open Sporos.Lib.Table
open Sporos.Lib.Loop
open Sporos.Lib.Lists
open Sporos.Lib.Paging
open Sporos.Lib

/-! ### Footprints -/

/-- A source and an indexer. -/
structure Pair where
  sourceId : Id
  indexerId : I64
  deriving DecidableEq, Repr

/-- The columns of a task that are compared when it is accepted again. -/
def taskColumns (row : TaskRow) : Id × String × String × Id :=
  (row.id, row.kind, row.instanceId, row.policySnapshotId)

/-- What a start says of its workflow. -/
def startColumns (row : OutboxRow) : Digest × String × Id × String × String × String :=
  (row.taskKey, row.instanceId, row.taskId, row.orchestrationName,
    row.orchestrationVersion, row.inputJson)

/-- What an attempt says of its search. -/
def attemptColumns (row : AttemptRow) : Id × Id × I64 × Id × String × Option Id :=
  (row.id, row.sourceId, row.indexerId, row.policySnapshotId, row.trigger, row.taskId)

/-- What the tables hold of the pairs of an operation. -/
structure Footprint where
  tasks : List (Id × String × String × Id)
  starts : List (Digest × String × Id × String × String × String)
  attempts : List (Id × Id × I64 × Id × String × Option Id)

section

variable {Policy : Type} (codec : BackfillCodec Policy) (policy : Policy) (input : BackfillInput)

/-- The task of a pair. -/
def pairTask (pair : Pair) : NewTask :=
  searchTask codec pair.sourceId pair.indexerId policy (backfillTrigger input) 0

/-- The input of the search of a pair. -/
def pairInput (pair : Pair) : SearchInput :=
  searchInput codec pair.sourceId pair.indexerId policy (backfillTrigger input)

/-- The footprint of a list of pairs. -/
def Footprint.of (made : List Pair) : Footprint where
  tasks := made.map fun pair => taskColumns (pairTask codec policy input pair).row
  starts := made.map fun pair => startColumns ((pairTask codec policy input pair).start 0)
  attempts := made.map fun pair =>
    attemptColumns (attemptRow (pairInput codec policy input pair) 0 0)

/-- The task is that of a pair. -/
def ownsTask (pairs : List Pair) (row : TaskRow) : Bool :=
  row.id ∈ pairs.map fun pair => (pairTask codec policy input pair).id

/-- The start request has the key or the instance of a pair. -/
def ownsStart (pairs : List Pair) (row : OutboxRow) : Bool :=
  row.taskKey ∈ (pairs.map fun pair => (pairTask codec policy input pair).key)
    ∨ row.instanceId ∈ pairs.map fun pair => (pairTask codec policy input pair).instanceId

/-- The attempt has the trigger of the operation, or the identifier or the task of a pair. -/
def ownsAttempt (pairs : List Pair) (row : AttemptRow) : Bool :=
  row.trigger = backfillTrigger input
    ∨ row.id ∈ (pairs.map fun pair => (pairInput codec policy input pair).attemptId)
    ∨ row.taskId ∈ pairs.map fun pair => some (pairTask codec policy input pair).id

/-- The footprint of the tables. -/
def footprint (pairs : List Pair) (db : BackfillDb) : Footprint where
  tasks := view (ownsTask codec policy input pairs) taskColumns db.search.db.tasks
  starts := view (ownsStart codec policy input pairs) startColumns db.search.db.outbox
  attempts := view (ownsAttempt codec policy input pairs) attemptColumns db.search.attempts

/-- The digests tell the pairs apart. -/
structure Distinct (pairs : List Pair) : Prop where
  attempts : ∀ pair ∈ pairs, ∀ pair' ∈ pairs,
    (pairInput codec policy input pair).attemptId = (pairInput codec policy input pair').attemptId →
      pair = pair'
  tasks : ∀ pair ∈ pairs, ∀ pair' ∈ pairs,
    (pairTask codec policy input pair).id = (pairTask codec policy input pair').id → pair = pair'

/-- A row of the policy has its content. -/
def HoldsPolicy (row : PolicyRow) : Prop :=
  row.id = policyId codec policy → row.configHash = codec.sha256 (utf8 (codec.policyJson policy))
    ∧ row.matcherVersion = "sporos-matcher/1" ∧ row.payloadJson = codec.policyJson policy

/-- A write that keeps the inventory and the indexers, and the policies with their content. -/
structure Keeps (db db' : BackfillDb) : Prop where
  torrents : db'.torrents = db.torrents
  dataSources : db'.dataSources = db.dataSources
  indexers : db'.search.indexers = db.search.indexers
  policies : db.search.db.policies <+: db'.search.db.policies
  holds : (∀ row ∈ db.search.db.policies, HoldsPolicy codec policy row) →
    ∀ row ∈ db'.search.db.policies, HoldsPolicy codec policy row

variable {codec policy input} {pairs made : List Pair} {pair : Pair} {db db' db'' : BackfillDb}

theorem Keeps.refl (db : BackfillDb) : Keeps codec policy db db :=
  ⟨rfl, rfl, rfl, List.prefix_rfl, id⟩

theorem Keeps.trans (h : Keeps codec policy db db') (h' : Keeps codec policy db' db'') :
    Keeps codec policy db db'' :=
  ⟨h'.torrents.trans h.torrents, h'.dataSources.trans h.dataSources, h'.indexers.trans h.indexers,
    h.policies.trans h'.policies, fun hdb => h'.holds (h.holds hdb)⟩

theorem Distinct.keys (h : Distinct codec policy input pairs) {pair' : Pair} (hpair : pair ∈ pairs)
    (hpair' : pair' ∈ pairs)
    (hkey : (pairTask codec policy input pair).key = (pairTask codec policy input pair').key) :
    pair = pair' :=
  h.attempts pair hpair pair' hpair' (congrArg first16 hkey)

theorem Distinct.instances (h : Distinct codec policy input pairs) {pair' : Pair}
    (hpair : pair ∈ pairs) (hpair' : pair' ∈ pairs)
    (hinstance : (pairTask codec policy input pair).instanceId =
      (pairTask codec policy input pair').instanceId) : pair = pair' := by
  have hhex := (String.append_right_inj _).mp hinstance
  exact h.attempts pair hpair pair' hpair' (encodeHex_injective hhex)

/-! ### The rows of a pair -/

/-- What the tables hold of the pairs of an operation are the rows of a list of them. -/
structure Holds (codec : BackfillCodec Policy) (policy : Policy) (input : BackfillInput)
    (pairs made : List Pair) (db : BackfillDb) : Prop where
  distinct : Distinct codec policy input pairs
  sub : ∀ pair ∈ made, pair ∈ pairs
  footprint : footprint codec policy input pairs db = .of codec policy input made

theorem ownsTask_of_id (hpair : pair ∈ pairs) {row : TaskRow}
    (hrow : row.id = (pairTask codec policy input pair).id) :
    ownsTask codec policy input pairs row = true := by
  have hmem : row.id ∈ pairs.map fun pair => (pairTask codec policy input pair).id := by
    rw [hrow]
    exact List.mem_map_of_mem hpair
  simpa only [ownsTask, decide_eq_true_eq] using hmem

theorem ownsStart_of_key (hpair : pair ∈ pairs) {row : OutboxRow}
    (hrow : row.taskKey = (pairTask codec policy input pair).key) :
      ownsStart codec policy input pairs row = true := by
  have hmem : row.taskKey ∈ pairs.map fun pair => (pairTask codec policy input pair).key := by
    rw [hrow]
    exact List.mem_map_of_mem hpair
  simpa only [ownsStart, decide_eq_true_eq] using .inl hmem

theorem ownsStart_of_instance (hpair : pair ∈ pairs) {row : OutboxRow}
    (hrow : row.instanceId = (pairTask codec policy input pair).instanceId) :
    ownsStart codec policy input pairs row = true := by
  have hmem : row.instanceId ∈ pairs.map fun pair =>
      (pairTask codec policy input pair).instanceId := by
    rw [hrow]
    exact List.mem_map_of_mem hpair
  simpa only [ownsStart, decide_eq_true_eq] using .inr hmem

theorem ownsAttempt_of_id (hpair : pair ∈ pairs) {row : AttemptRow}
    (hrow : row.id = (pairInput codec policy input pair).attemptId) :
    ownsAttempt codec policy input pairs row = true := by
  have hmem : row.id ∈ pairs.map fun pair => (pairInput codec policy input pair).attemptId := by
    rw [hrow]
    exact List.mem_map_of_mem hpair
  simpa only [ownsAttempt, decide_eq_true_eq] using .inr (.inl hmem)

theorem ownsAttempt_of_task (hpair : pair ∈ pairs) {row : AttemptRow}
    (hrow : row.taskId = some (pairTask codec policy input pair).id) :
    ownsAttempt codec policy input pairs row = true := by
  have hmem : row.taskId ∈ pairs.map fun pair => some (pairTask codec policy input pair).id := by
    rw [hrow]
    exact List.mem_map_of_mem hpair
  simpa only [ownsAttempt, decide_eq_true_eq] using .inr (.inr hmem)

theorem ownsAttempt_of_trigger {row : AttemptRow} (hrow : row.trigger = backfillTrigger input) :
    ownsAttempt codec policy input pairs row = true := by
  simpa only [ownsAttempt, decide_eq_true_eq] using .inl hrow

theorem Holds.task (h : Holds codec policy input pairs made db) (hpair : pair ∈ pairs) :
    (db.search.db.task (pairTask codec policy input pair).id).map taskColumns
      = if pair ∈ made then some (taskColumns (pairTask codec policy input pair).row) else none :=
  lookup_of_view TaskRow.id Prod.fst (congrArg Footprint.tasks h.footprint) (fun _ => rfl)
    (fun _ hrow => ownsTask_of_id hpair hrow)
    fun other hother heq => h.distinct.tasks other (h.sub other hother) pair hpair heq

theorem Holds.start (h : Holds codec policy input pairs made db) (hpair : pair ∈ pairs) :
    (lookup OutboxRow.taskKey db.search.db.outbox (pairTask codec policy input pair).key).map
      startColumns
      = if pair ∈ made then some (startColumns ((pairTask codec policy input pair).start 0))
        else none :=
  lookup_of_view OutboxRow.taskKey Prod.fst (congrArg Footprint.starts h.footprint) (fun _ => rfl)
    (fun _ hrow => ownsStart_of_key hpair hrow)
    fun other hother heq => h.distinct.keys (h.sub other hother) hpair heq

theorem Holds.instance (h : Holds codec policy input pairs made db) (hpair : pair ∈ pairs) :
    (lookup OutboxRow.instanceId db.search.db.outbox
      (pairTask codec policy input pair).instanceId).map startColumns
      = if pair ∈ made then some (startColumns ((pairTask codec policy input pair).start 0))
        else none :=
  lookup_of_view OutboxRow.instanceId
    (fun columns => columns.2.1) (congrArg Footprint.starts h.footprint)
    (fun _ => rfl) (fun _ hrow => ownsStart_of_instance hpair hrow)
    fun other hother heq => h.distinct.instances (h.sub other hother) hpair heq

theorem Holds.attempt (h : Holds codec policy input pairs made db) (hpair : pair ∈ pairs) :
    (lookup AttemptRow.id db.search.attempts (pairInput codec policy input pair).attemptId).map
      attemptColumns
      = if pair ∈ made
        then some (attemptColumns (attemptRow (pairInput codec policy input pair) 0 0)) else none :=
  lookup_of_view AttemptRow.id Prod.fst (congrArg Footprint.attempts h.footprint) (fun _ => rfl)
    (fun _ hrow => ownsAttempt_of_id hpair hrow)
    fun other hother heq => h.distinct.attempts other (h.sub other hother) pair hpair heq

/-! ### One pair -/

/-- What the acceptance of a pair needs of the tables. -/
structure Acceptable (codec : BackfillCodec Policy) (policy : Policy) (db : BackfillDb)
    (pair : Pair) : Prop where
  policyJson : codec.jsonValid (codec.policyJson policy) = true
  inputJson : ∀ input, codec.jsonValid (codec.inputJson input) = true
  policies : ∀ row ∈ db.search.db.policies, HoldsPolicy codec policy row
  source : ∃ row ∈ db.torrents, row.id = pair.sourceId ∧ row.available = true
    ∧ row.isComplete = true
  indexer : ∃ row ∈ db.search.indexers, row.prowlarrId = pair.indexerId

theorem Acceptable.releaseJson (hok : Acceptable codec policy db pair) :
    ∃ releaseJson, sourceReleaseJson codec db pair.sourceId = some releaseJson := by
  obtain ⟨row, hrow, hid, havailable, hcomplete⟩ := hok.source
  have hfound : (db.torrents.find? fun row => row.id = pair.sourceId ∧ row.available
      ∧ row.isComplete).isSome := by
    rw [List.find?_isSome]
    exact ⟨row, hrow, by simp [hid, havailable, hcomplete]⟩
  obtain ⟨found, hfound⟩ := Option.isSome_iff_exists.mp hfound
  exact ⟨codec.releaseJson found.release, by rw [sourceReleaseJson, hfound]; rfl⟩

/-- The task of a pair at another time. -/
theorem bound_of_columns {task : NewTask} {row : TaskRow}
    (hrow : db.search.db.task task.id = some row)
    (hcolumns : taskColumns row = taskColumns task.row) : BoundRow db.search.db task := by
  simp only [taskColumns, Prod.mk.injEq] at hcolumns
  exact ⟨row, hrow, hcolumns.2.1, hcolumns.2.2.1, hcolumns.2.2.2⟩

theorem boundStart_of_columns {task : NewTask} {row : OutboxRow}
    (hrow : lookup OutboxRow.taskKey db.search.db.outbox task.key = some row)
    (hcolumns : startColumns row = startColumns (task.start 0)) : BoundStart db.search.db task := by
  simp only [startColumns, Prod.mk.injEq] at hcolumns
  exact ⟨row, hrow, hcolumns.2.2.1, hcolumns.2.2.2.1, hcolumns.2.2.2.2.1, hcolumns.2.1,
    hcolumns.2.2.2.2.2⟩

theorem eq_some_of_map {α β : Type*} {x : Option α} {f : α → β} {b : β} {p : Prop} [Decidable p]
    (h : x.map f = if p then some b else none) (hp : p) : ∃ a, x = some a ∧ f a = b := by
  rw [if_pos hp] at h
  exact Option.map_eq_some_iff.mp h

theorem eq_none_of_map {α β : Type*} {x : Option α} {f : α → β} {b : β} {p : Prop} [Decidable p]
    (h : x.map f = if p then some b else none) (hp : ¬ p) : x = none := by
  rw [if_neg hp] at h
  exact Option.map_eq_none_iff.mp h

theorem Holds.exists_of_owns (h : Holds codec policy input pairs made db) {row : AttemptRow}
    (hrow : row ∈ db.search.attempts) (hown : ownsAttempt codec policy input pairs row = true) :
    ∃ other ∈ made, attemptColumns (attemptRow (pairInput codec policy input other) 0 0) =
      attemptColumns row := by
  have hattempts : view (ownsAttempt codec policy input pairs) attemptColumns db.search.attempts
      = made.map fun pair => attemptColumns (attemptRow (pairInput codec policy input pair) 0 0) :=
    congrArg Footprint.attempts h.footprint
  exact List.mem_map.mp (hattempts ▸ mem_view hrow hown)

/-- No other attempt has the columns of a pair that is not there. -/
theorem Holds.attempt_free (h : Holds codec policy input pairs made db) (hpair : pair ∈ pairs)
    (hnew : pair ∉ made) (fingerprint : Digest) (now : ℤ) {old : AttemptRow}
    (hold : old ∈ db.search.attempts) :
    logicalKey old ≠ logicalKey (attemptRow (pairInput codec policy input pair) fingerprint now)
      ∧ old.taskId ≠ some (pairTask codec policy input pair).id := by
  refine ⟨fun hkey => ?_, fun htask => ?_⟩
  · have hsource : old.sourceId = pair.sourceId := congrArg Prod.fst hkey
    have hindexer : old.indexerId = pair.indexerId := congrArg (·.2.1) hkey
    have htrigger : old.trigger = backfillTrigger input := congrArg (·.2.2.2.2) hkey
    obtain ⟨other, hother, hcolumns⟩ := h.exists_of_owns hold (ownsAttempt_of_trigger htrigger)
    have hsource' : other.sourceId = old.sourceId := congrArg (·.2.1) hcolumns
    have hindexer' : other.indexerId = old.indexerId := congrArg (·.2.2.1) hcolumns
    have heq : other = pair := by
      cases other
      cases pair
      exact congrArg₂ Pair.mk (hsource'.trans hsource) (hindexer'.trans hindexer)
    exact hnew (heq ▸ hother)
  · obtain ⟨other, hother, hcolumns⟩ := h.exists_of_owns hold (ownsAttempt_of_task hpair htask)
    have hid : some (pairTask codec policy input other).id = old.taskId :=
      congrArg (·.2.2.2.2.2) hcolumns
    rw [htask, Option.some_inj] at hid
    exact hnew (h.distinct.tasks other (h.sub other hother) pair hpair hid ▸ hother)

theorem acceptIn_eq_ok {tables : Db} {inserted : Bool} {search : SearchDb}
    {releaseJson : String} {now : ℤ}
    (hrelease : sourceReleaseJson codec db pair.sourceId = some releaseJson)
    (haccept : acceptTaskIn codec.jsonValid db.search.db
      (searchTask codec pair.sourceId pair.indexerId policy (backfillTrigger input) now) =
        .ok (tables, inserted))
    (hattempt : insertAttempt { db.search with db := tables }
      (attemptRow (pairInput codec policy input pair) (codec.sha256 (utf8 releaseJson)) now) =
        .ok search) :
    acceptIn codec db pair.sourceId pair.indexerId policy (backfillTrigger input) now
      = .ok ({ db with search }, inserted) := by
  unfold acceptIn
  rw [hrelease]
  simp only [haccept, Except.mapError, bind, Except.bind]
  rw [pairInput] at hattempt
  rw [hattempt]
  rfl

theorem keeps_insertRows (hpolicies : ∀ row ∈ db.search.db.policies, HoldsPolicy codec policy row)
    {now : ℤ} {tables : Db} {attempts : List AttemptRow}
    (htables : tables.policies = insertOrIgnore PolicyRow.id
      db.search.db.policies
        (searchTask codec pair.sourceId pair.indexerId policy (backfillTrigger input) now).policy) :
    Keeps codec policy db { db with search := { db.search with db := tables, attempts } } := by
  refine ⟨rfl, rfl, rfl, ?_, fun _ row hrow => ?_⟩
  · rw [htables]
    exact prefix_insertOrIgnore _ _ _
  · rw [htables] at hrow
    rcases mem_insertOrIgnore hrow with hold | ⟨rfl, -⟩
    · exact hpolicies row hold
    · exact fun _ => ⟨rfl, rfl, rfl⟩

/-- The footprint with the rows of one pair more. -/
theorem Footprint.of_append (made : List Pair) (pair : Pair) :
    Footprint.of codec policy input (made ++ [pair]) =
      ⟨(Footprint.of codec policy input made).tasks
        ++ [taskColumns (pairTask codec policy input pair).row],
        (Footprint.of codec policy input made).starts
          ++ [startColumns ((pairTask codec policy input pair).start 0)],
        (Footprint.of codec policy input made).attempts
          ++ [attemptColumns (attemptRow (pairInput codec policy input pair) 0 0)]⟩ := by
  simp [Footprint.of]

theorem view_task (hpair : pair ∈ pairs) (rows : List TaskRow) {row : TaskRow}
    (hrow : row.id = (pairTask codec policy input pair).id) :
      view (ownsTask codec policy input pairs) taskColumns
      (rows ++ [row]) = view (ownsTask codec policy input pairs) taskColumns rows
        ++ [taskColumns row] := by
  rw [view_append, view_singleton_of_pos (ownsTask_of_id hpair hrow)]

theorem view_start (hpair : pair ∈ pairs) (rows : List OutboxRow) {row : OutboxRow}
    (hrow : row.taskKey = (pairTask codec policy input pair).key) :
      view (ownsStart codec policy input pairs) startColumns
      (rows ++ [row]) = view (ownsStart codec policy input pairs) startColumns rows
        ++ [startColumns row] := by
  rw [view_append, view_singleton_of_pos (ownsStart_of_key hpair hrow)]

theorem view_attempt (rows : List AttemptRow) {row : AttemptRow}
    (hrow : row.trigger = backfillTrigger input) :
    view (ownsAttempt codec policy input pairs) attemptColumns (rows ++ [row])
      = view (ownsAttempt codec policy input pairs) attemptColumns rows
        ++ [attemptColumns row] := by
  rw [view_append, view_singleton_of_pos (ownsAttempt_of_trigger hrow)]

/-- **A pair that is there** is accepted again, and is not new. -/
theorem acceptIn_of_mem (h : Holds codec policy input pairs made db) (hpair : pair ∈ pairs)
    (hok : Acceptable codec policy db pair) (hmade : pair ∈ made) (now : ℤ) :
    ∃ db', acceptIn codec db pair.sourceId pair.indexerId policy (backfillTrigger input)
      now = .ok (db', false)
      ∧ Keeps codec policy db db' ∧ db'.operations = db.operations
      ∧ Holds codec policy input pairs made db' := by
  obtain ⟨releaseJson, hrelease⟩ := hok.releaseJson
  obtain ⟨row, hrow, hcolumns⟩ := eq_some_of_map (h.task hpair) hmade
  obtain ⟨start, hstart, hstartColumns⟩ := eq_some_of_map (h.start hpair) hmade
  obtain ⟨attempt, hattempt, -⟩ := eq_some_of_map (h.attempt hpair) hmade
  have haccept := Acceptance.acceptTaskIn_of_bound
    (t := searchTask codec pair.sourceId pair.indexerId policy (backfillTrigger input)
      now) hok.policyJson
    (hok.inputJson _) hok.policies (bound_of_columns hrow hcolumns)
      (boundStart_of_columns hstart hstartColumns)
  have hinsert : ∀ tables fingerprint, insertAttempt { db.search with db := tables }
      (attemptRow (pairInput codec policy input pair) fingerprint now) =
        .ok { db.search with db := tables } :=
    fun tables fingerprint => if_pos (Option.isSome_of_eq_some hattempt)
  refine ⟨_, acceptIn_eq_ok hrelease haccept (hinsert _ _), keeps_insertRows hok.policies rfl, rfl,
    h.distinct, h.sub, ?_⟩
  have htasks : insertOrIgnore TaskRow.id db.search.db.tasks
      (searchTask codec pair.sourceId pair.indexerId policy (backfillTrigger input) now).row =
        db.search.db.tasks :=
    insertOrIgnore_of_some hrow
  rw [← h.footprint]
  show Footprint.mk (view _ _ (insertOrIgnore TaskRow.id _ _)) _ _ = _
  rw [htasks]
  rfl

/-- **A pair that is not there** is accepted, and is new. -/
theorem acceptIn_of_notMem (h : Holds codec policy input pairs made db) (hpair : pair ∈ pairs)
    (hok : Acceptable codec policy db pair) (hmade : pair ∉ made) (now : ℤ) :
    ∃ db', acceptIn codec db pair.sourceId pair.indexerId policy (backfillTrigger input)
      now = .ok (db', true)
      ∧ Keeps codec policy db db' ∧ db'.operations = db.operations
      ∧ Holds codec policy input pairs (made ++ [pair]) db' := by
  obtain ⟨releaseJson, hrelease⟩ := hok.releaseJson
  have htask : db.search.db.task (pairTask codec policy input pair).id = none :=
    eq_none_of_map (h.task hpair) hmade
  have hattempt := eq_none_of_map (h.attempt hpair) hmade
  have haccept := @ForcedOperations.acceptTaskIn_of_new codec.jsonValid db.search.db
    (searchTask codec pair.sourceId pair.indexerId policy (backfillTrigger input)
      now) hok.policyJson
    (hok.inputJson _) hok.policies htask (eq_none_of_map (h.start hpair) hmade)
    (eq_none_of_map (h.instance hpair) hmade)
  obtain ⟨indexer, hindexer, hindexerId⟩ := hok.indexer
  have hinsert : ∀ tables : Db,
    (lookup PolicyRow.id tables.policies (policyId codec policy)).isSome = true →
      (tables.task (pairTask codec policy input pair).id).isSome = true → ∀ fingerprint,
      insertAttempt { db.search with
        db := tables } (attemptRow (pairInput codec policy input pair) fingerprint now)
        = .ok { db.search with
          db := tables
          attempts :=
            db.search.attempts
              ++ [attemptRow (pairInput codec policy input pair) fingerprint now] } := by
    intro tables hpolicy htask fingerprint
    unfold insertAttempt
    rw [if_neg (by simp only [attemptRow, hattempt]; simp), if_neg]
    rintro (hany | hnone | hnone | hnone)
    · obtain ⟨old, hold, hsame⟩ := List.any_eq_true.mp hany
      obtain ⟨hkey, hother⟩ := h.attempt_free hpair hmade fingerprint now hold
      rcases of_decide_eq_true hsame with hsame | ⟨-, hsame⟩
      · exact hkey hsame
      · exact hother hsame
    · have hsome := lookup_isSome_of_mem IndexerRow.prowlarrId hindexer
      rw [hindexerId] at hsome
      simp only [attemptRow, pairInput, searchInput, Option.isNone_iff_eq_none] at hnone
      rw [hnone] at hsome
      cases hsome
    · simp only [attemptRow, pairInput, searchInput, Option.isNone_iff_eq_none] at hnone
      rw [hnone] at hpolicy
      cases hpolicy
    · simp only [attemptRow, pairInput, searchInput, Option.any_some,
        Option.isNone_iff_eq_none] at hnone
      simp only [pairTask, searchTask, hnone] at htask
      cases htask
  refine ⟨_, acceptIn_eq_ok hrelease haccept (hinsert _ ?_ ?_ _), keeps_insertRows hok.policies rfl,
    rfl, h.distinct, ?_, ?_⟩
  · exact Option.isSome_of_eq_some (lookup_insertOrIgnore_self db.search.db.policies
      (searchTask codec pair.sourceId pair.indexerId policy (backfillTrigger input) now).policy)
  · exact Option.isSome_of_eq_some (lookup_insertOrIgnore_self db.search.db.tasks
      (searchTask codec pair.sourceId pair.indexerId policy (backfillTrigger input) now).row)
  · intro other hother
    rcases List.mem_append.mp hother with hother | hother
    · exact h.sub other hother
    · exact List.mem_singleton.mp hother ▸ hpair
  · have htasks : insertOrIgnore TaskRow.id db.search.db.tasks
        (searchTask codec pair.sourceId pair.indexerId policy (backfillTrigger input) now).row
        = db.search.db.tasks ++ [_] := insertOrIgnore_of_none htask
    rw [Footprint.of_append, ← h.footprint]
    show Footprint.mk (view _ _ (insertOrIgnore TaskRow.id _ _)) (view _ _ (_ ++ [_]))
      (view _ _ (_ ++ [_])) = _
    rw [htasks, view_task hpair _ rfl, view_start hpair _ rfl, view_attempt _ rfl]
    rfl

/-! ### Pages -/

/-- The pairs that a page accepts for a torrent. -/
def rowPairs (input : BackfillInput) (indexerIds : List I64) (row : TorrentRow) : List Pair :=
  if backfillSelected row input.selection then indexerIds.map (Pair.mk row.id) else []

/-- The tables after pairs have been accepted, with the number of those that were new. -/
structure Accepted (codec : BackfillCodec Policy) (policy : Policy) (input : BackfillInput)
    (pairs made : List Pair) (db : BackfillDb) (made' : List Pair)
    (state : BackfillDb × ℕ) : Prop where
  keeps : Keeps codec policy db state.1
  operations : state.1.operations = db.operations
  holds : Holds codec policy input pairs made' state.1
  count : state.2 + made.length = made'.length

theorem Acceptable.mono (hok : Acceptable codec policy db pair)
    (hkeeps : Keeps codec policy db db') : Acceptable codec policy db' pair :=
  ⟨hok.policyJson, hok.inputJson, hkeeps.holds hok.policies, hkeeps.torrents ▸ hok.source,
    hkeeps.indexers ▸ hok.indexer⟩

theorem Accepted.one {made' : List Pair} {state : BackfillDb × ℕ}
    (h : Accepted codec policy input pairs made db made' state) (hpair : pair ∈ pairs)
    (hok : Acceptable codec policy db pair) (now : ℤ) :
    ∃ state', acceptOne codec policy (backfillTrigger input) now pair.sourceId state
      pair.indexerId = .ok state'
      ∧ Accepted codec policy input pairs made db (insertAll made' [pair]) state' := by
  have hok' := hok.mono h.keeps
  by_cases hmem : pair ∈ made'
  · obtain ⟨db', haccept, hkeeps, hoperations, hholds⟩ :=
      acceptIn_of_mem h.holds hpair hok' hmem now
    refine ⟨(db', state.2), ?_, h.keeps.trans hkeeps, hoperations.trans h.operations, ?_, ?_⟩
    · simp only [acceptOne, haccept, bind, Except.bind]
      rfl
    · rwa [insertAll, List.foldl_cons, List.foldl_nil, insertOrIgnore_id_of_mem hmem]
    · rw [insertAll, List.foldl_cons, List.foldl_nil, insertOrIgnore_id_of_mem hmem]
      exact h.count
  · obtain ⟨db', haccept, hkeeps, hoperations, hholds⟩ :=
      acceptIn_of_notMem h.holds hpair hok' hmem now
    refine ⟨(db', state.2 + 1), ?_, h.keeps.trans hkeeps, hoperations.trans h.operations, ?_, ?_⟩
    · simp only [acceptOne, haccept, bind, Except.bind]
      rfl
    · rwa [insertAll, List.foldl_cons, List.foldl_nil, insertOrIgnore_id_of_notMem hmem]
    · rw [insertAll, List.foldl_cons, List.foldl_nil, insertOrIgnore_id_of_notMem hmem,
        List.length_append, List.length_singleton, ← h.count]
      dsimp only
      omega

theorem Accepted.row {made' : List Pair} {state : BackfillDb × ℕ} {indexerIds : List I64}
    {row : TorrentRow} (h : Accepted codec policy input pairs made db made' state)
    (hok : ∀ pair ∈ rowPairs input indexerIds row, pair ∈ pairs ∧ Acceptable codec policy db pair)
    (now : ℤ) :
    ∃ state', acceptRow codec policy input indexerIds now state row = .ok state'
      ∧ Accepted codec policy input pairs made db
        (insertAll made' (rowPairs input indexerIds row)) state' := by
  unfold acceptRow rowPairs at *
  by_cases hselected : backfillSelected row input.selection = true
  · rw [if_pos hselected] at hok ⊢
    rw [if_pos hselected]
    refine foldlM_total (I := fun done state =>
      Accepted codec policy input pairs made db (insertAll made' (done.map (Pair.mk row.id))) state)
      (fun done indexerId hindexer state hdone => ?_) h
    obtain ⟨hpair, hacceptable⟩ := hok ⟨row.id, indexerId⟩ (List.mem_map_of_mem hindexer)
    obtain ⟨state', haccept, haccepted⟩ := hdone.one hpair hacceptable now
    refine ⟨state', haccept, ?_⟩
    rwa [List.map_append, insertAll_append]
  · rw [if_neg hselected, if_neg hselected]
    exact ⟨state, rfl, h⟩

/-- The number of tasks that the operation tells. -/
def producedTasks (input : BackfillInput) (db : BackfillDb) : Option ℕ :=
  (lookup ProgressRow.id db.operations input.operationId).map ProgressRow.producedTasks

/-- What a page returns. -/
def pageOf (torrents : List TorrentRow) (cursor : Option Id) : BackfillPage :=
  ⟨(pageRows torrents cursor).getLast?.map TorrentRow.id,
    (pageRows torrents cursor).length < backfillPageSize⟩

theorem keeps_reportPage (page : BackfillPage) (produced : ℕ) (now : ℤ) :
    Keeps codec policy db (reportPage db input page produced now) :=
      ⟨rfl, rfl, rfl, List.prefix_rfl, id⟩

theorem Holds.reportPage (h : Holds codec policy input pairs made db) (page : BackfillPage)
    (produced : ℕ) (now : ℤ) :
    Holds codec policy input pairs made (reportPage db input page produced now) := by
  refine ⟨h.distinct, h.sub, ?_⟩
  have htasks : view (ownsTask codec policy input pairs) taskColumns
      (updateKey TaskRow.id db.search.db.tasks input.taskId (Writers.pageRow page.done now))
      = view (ownsTask codec policy input pairs) taskColumns db.search.db.tasks :=
    view_updateKey (f := Writers.pageRow page.done now) (fun _ => rfl) (fun _ => rfl) _ _
  rw [← h.footprint]
  exact congrArg (Footprint.mk · _ _) htasks

theorem producedTasks_reportPage (page : BackfillPage) (produced : ℕ) (now : ℤ) :
    producedTasks input (reportPage db input page produced now) =
      (producedTasks input db).map (· + produced) := by
  unfold producedTasks reportPage
  dsimp only
  rw [lookup_updateKey, if_pos rfl, Option.map_map, Option.map_map]
  · rfl
  · exact fun _ => rfl

/-- **A page** accepts the pairs of its torrents, and adds those that were new to the count. -/
theorem producePage_eq {row : PolicyRow} (h : Holds codec policy input pairs made db)
    (hrow : lookup PolicyRow.id db.search.db.policies input.policySnapshotId = some row)
    (hpolicy : codec.decodePolicy row.payloadJson = some policy)
    (hok : ∀ torrent ∈ pageRows db.torrents input.cursor,
      ∀ pair ∈ rowPairs input (eligibleIndexers db.search.indexers input.indexerIds) torrent,
        pair ∈ pairs ∧ Acceptable codec policy db pair) (now : ℤ) :
    ∃ db' made', producePage codec db input now = .ok (db', pageOf db.torrents input.cursor)
      ∧ made' = insertAll made ((pageRows db.torrents input.cursor).flatMap
        (rowPairs input (eligibleIndexers db.search.indexers input.indexerIds)))
      ∧ Keeps codec policy db db' ∧ Holds codec policy input pairs made' db'
      ∧ (producedTasks input db = some made.length →
        producedTasks input db' = some made'.length) := by
  obtain ⟨⟨db₁, produced⟩, hfold, haccepted⟩ := foldlM_total (I := fun done state =>
      Accepted codec policy input pairs made db (insertAll made (done.flatMap
        (rowPairs input (eligibleIndexers db.search.indexers input.indexerIds)))) state)
    (f := acceptRow codec policy input (eligibleIndexers db.search.indexers input.indexerIds) now)
    (l := pageRows db.torrents input.cursor) (b := (db, 0))
    (fun done torrent htorrent state hdone => by
      obtain ⟨state', haccept, haccepted⟩ := hdone.row (hok torrent htorrent) now
      refine ⟨state', haccept, ?_⟩
      rwa [List.flatMap_append, List.flatMap_singleton, insertAll_append])
    ⟨Keeps.refl db, rfl, h, by simp [insertAll]⟩
  refine ⟨_, _, ?_, rfl,
    haccepted.keeps.trans (keeps_reportPage (pageOf db.torrents input.cursor) produced now),
    haccepted.holds.reportPage _ _ _, fun hproduced => ?_⟩
  · unfold producePage
    simp only [hrow, hpolicy, hfold, bind, Except.bind]
    rfl
  · have hcount := haccepted.count
    dsimp only at hcount
    have hsame : producedTasks input db₁ = producedTasks input db := by
      unfold producedTasks
      rw [haccepted.operations]
    rw [producedTasks_reportPage, hsame, hproduced, Option.map_some, add_comm, hcount]

/-! ### The selected pairs -/

/-- The pair is of an available complete torrent that the request selects, and of an eligible
indexer that it selects. -/
def Wanted (db : BackfillDb) (input : BackfillInput) (pair : Pair) : Prop :=
  (∃ row ∈ db.torrents, row.id = pair.sourceId ∧ row.available = true ∧ row.isComplete = true
      ∧ backfillSelected row input.selection = true)
    ∧ ∃ row ∈ db.search.indexers, row.prowlarrId = pair.indexerId ∧ row.eligible = true
      ∧ (input.indexerIds = [] ∨ pair.indexerId.val ∈ input.indexerIds)

instance (db : BackfillDb) (input : BackfillInput) (pair : Pair) :
    Decidable (Wanted db input pair) :=
  inferInstanceAs (Decidable (_ ∧ _))

/-- The pairs of all torrents and all indexers. -/
def candidates (db : BackfillDb) : List Pair :=
  db.torrents.flatMap fun row => db.search.indexers.map fun indexer => ⟨row.id, indexer.prowlarrId⟩

/-- The pairs that pages of torrents accept. -/
def pairsOf (db : BackfillDb) (input : BackfillInput) (rows : List TorrentRow) : List Pair :=
  rows.flatMap (rowPairs input (eligibleIndexers db.search.indexers input.indexerIds))

theorem mem_eligibleIndexers {indexers : List IndexerRow} {selected : List ℤ} {indexerId : I64} :
    indexerId ∈ eligibleIndexers indexers selected
      ↔ ∃ row ∈ indexers, row.prowlarrId = indexerId ∧ row.eligible = true
        ∧ (selected = [] ∨ indexerId.val ∈ selected) := by
  unfold eligibleIndexers
  split_ifs with hnil
  · simp only [List.mem_map, List.mem_insertionSort, List.mem_filter, hnil, true_or, and_true]
    exact ⟨fun ⟨row, ⟨hrow, heligible⟩, hid⟩ => ⟨row, hrow, hid, heligible⟩,
      fun ⟨row, hrow, hid, heligible⟩ => ⟨row, ⟨hrow, heligible⟩, hid⟩⟩
  · simp only [List.mem_filterMap, Option.map_eq_some_iff, hnil, false_or]
    constructor
    · rintro ⟨selectedId, hselected, row, hrow, rfl⟩
      have hfound := List.find?_some hrow
      simp only [Bool.decide_and, Bool.decide_eq_true, Bool.and_eq_true,
        decide_eq_true_eq] at hfound
      exact ⟨row, List.mem_of_find?_eq_some hrow, rfl, hfound.2, hfound.1 ▸ hselected⟩
    · rintro ⟨row, hrow, rfl, heligible, hselected⟩
      have hsome : (indexers.find? fun other => other.prowlarrId.val = row.prowlarrId.val
          ∧ other.eligible).isSome := by
        rw [List.find?_isSome]
        exact ⟨row, hrow, by simp [heligible]⟩
      obtain ⟨found, hfound⟩ := Option.isSome_iff_exists.mp hsome
      have hid := List.find?_some hfound
      simp only [Bool.decide_and, Bool.decide_eq_true, Bool.and_eq_true, decide_eq_true_eq] at hid
      exact ⟨row.prowlarrId.val, hselected, found, hfound, Subtype.ext hid.1⟩

theorem mem_rowPairs {indexerIds : List I64} {row : TorrentRow} :
    pair ∈ rowPairs input indexerIds row
      ↔ row.id = pair.sourceId ∧ backfillSelected row input.selection = true
        ∧ pair.indexerId ∈ indexerIds := by
  unfold rowPairs
  split_ifs with hselected
  · simp only [List.mem_map, hselected, true_and]
    exact ⟨by rintro ⟨indexerId, hmem, rfl⟩; exact ⟨rfl, hmem⟩, fun ⟨hid, hmem⟩ =>
      ⟨_, hmem, by rw [hid]⟩⟩
  · simp [hselected]

theorem mem_completeTorrents {torrents : List TorrentRow} {row : TorrentRow} :
    row ∈ completeTorrents torrents ↔ row ∈ torrents ∧ row.available = true
      ∧ row.isComplete = true := by
  simp [completeTorrents]

/-- The pairs of the complete torrents are those that are wanted. -/
theorem mem_pairsOf_iff : pair ∈ pairsOf db input (completeTorrents db.torrents)
    ↔ Wanted db input pair := by
  simp only [pairsOf, List.mem_flatMap, mem_rowPairs, mem_completeTorrents,
    mem_eligibleIndexers, Wanted]
  constructor
  · rintro ⟨row, ⟨hrow, havailable, hcomplete⟩, hid, hselected, hindexer⟩
    exact ⟨⟨row, hrow, hid, havailable, hcomplete, hselected⟩, hindexer⟩
  · rintro ⟨⟨row, hrow, hid, havailable, hcomplete, hselected⟩, hindexer⟩
    exact ⟨row, ⟨hrow, havailable, hcomplete⟩, hid, hselected, hindexer⟩

theorem Wanted.mem_candidates (h : Wanted db input pair) : pair ∈ candidates db := by
  obtain ⟨⟨row, hrow, hid, -⟩, indexer, hindexer, hindexerId, -⟩ := h
  exact List.mem_flatMap.mpr ⟨row, hrow,
    List.mem_map.mpr ⟨indexer, hindexer, by rw [hid, hindexerId]⟩⟩

/-! ### Runs -/

/-- A write of the rest of the service, where no task of the operation is tried again. The inventory
and the indexers stay as they are, and so does what the tables hold of the pairs. -/
structure Elsewhere (codec : BackfillCodec Policy) (policy : Policy) (input : BackfillInput)
    (pairs : List Pair) (db db' : BackfillDb) : Prop where
  keeps : Keeps codec policy db db'
  footprint : footprint codec policy input pairs db' = footprint codec policy input pairs db
  producedTasks : producedTasks input db' = producedTasks input db

/-- The steps of a backfill: an execution of the page of any execution of the workflow so far, the
workflow that takes what its page has returned, and the writes of the rest of the service. An
execution that fails is rolled back. -/
inductive Step (codec : BackfillCodec Policy) (policy : Policy) (input : BackfillInput)
    (pairs : List Pair) : Run → Run → Prop where
  | execute {run : Run} {cursor : Option Id} {db : BackfillDb} {page : BackfillPage} (now : ℤ)
      (hissued : cursor ∈ run.issued)
      (hpage : producePage codec run.db { input with cursor } now = .ok (db, page)) :
      Step codec policy input pairs run { run with db, outputs := run.outputs ++ [(cursor, page)] }
  | turn {run : Run} {page : BackfillPage} (hpage : (run.cursor, page) ∈ run.outputs)
      (hopen : run.finished = false) :
      Step codec policy input pairs run (run.turn page)
  | elsewhere {run : Run} {db : BackfillDb} (hdb : Elsewhere codec policy input pairs run.db db) :
      Step codec policy input pairs run { run with db }

/-- A run of a backfill from its start. -/
def Reaches (codec : BackfillCodec Policy) (policy : Policy) (input : BackfillInput)
    (db : BackfillDb) : Run → Prop :=
  Relation.ReflTransGen (Step codec policy input (candidates db)) (Run.init db none)

/-- The tables when an operation has been accepted: its policy is stored and is what the encoder
writes, no row belongs to a pair, and the digests tell the pairs apart. -/
structure Ready (codec : BackfillCodec Policy) (policy : Policy) (input : BackfillInput)
    (db : BackfillDb) : Prop where
  torrents : UniqueKey TorrentRow.id db.torrents
  stored : ∃ row, lookup PolicyRow.id db.search.db.policies input.policySnapshotId = some row
    ∧ codec.decodePolicy row.payloadJson = some policy
  policies : ∀ row ∈ db.search.db.policies, HoldsPolicy codec policy row
  policyJson : codec.jsonValid (codec.policyJson policy) = true
  inputJson : ∀ input, codec.jsonValid (codec.inputJson input) = true
  operation : producedTasks input db = some 0
  fresh : footprint codec policy input (candidates db) db = ⟨[], [], []⟩
  distinct : Distinct codec policy input (candidates db)

/-- The cursor is no part of what names the pairs. -/
theorem Holds.withCursor (h : Holds codec policy input pairs made db) (cursor : Option Id) :
    Holds codec policy { input with cursor } pairs made db :=
  ⟨⟨h.distinct.attempts, h.distinct.tasks⟩, h.sub, h.footprint⟩

/-- What holds along a run: the pairs that have been accepted are wanted, and those of the torrents
before the cursor are among them, with those of the pages that have returned. -/
structure Progress (codec : BackfillCodec Policy) (policy : Policy) (input : BackfillInput)
    (db : BackfillDb) (run : Run) (made : List Pair) : Prop where
  keeps : Keeps codec policy db run.db
  holds : Holds codec policy input (candidates db) made run.db
  produced : producedTasks input run.db = some made.length
  nodup : made.Nodup
  wanted : ∀ pair ∈ made, Wanted db input pair
  before : ∀ pair ∈ pairsOf db input
    (before torrentKey (run.cursor.map BitVec.toNat) (completeTorrents db.torrents)), pair ∈ made
  outputs : ∀ output ∈ run.outputs, output.2 = pageOf db.torrents output.1
    ∧ ∀ pair ∈ pairsOf db input (pageRows db.torrents output.1), pair ∈ made
  unfinished : run.finished = false →
    (Paging.before torrentKey (run.cursor.map BitVec.toNat) (completeTorrents db.torrents)).length
      = backfillPageSize * run.turns
  finished : run.finished = true → (∀ pair, Wanted db input pair → pair ∈ made)
    ∧ backfillPageSize * run.turns ≤ (completeTorrents db.torrents).length + backfillPageSize

section

variable {run run' : Run}

theorem Ready.nodup (h : Ready codec policy input db) :
    ((completeTorrents db.torrents).map torrentKey).Nodup := by
  have hids : ((completeTorrents db.torrents).map TorrentRow.id).Nodup :=
    h.torrents.sublist (List.filter_sublist.map TorrentRow.id)
  have hkeys : (completeTorrents db.torrents).map torrentKey
      = ((completeTorrents db.torrents).map TorrentRow.id).map BitVec.toNat := by
    rw [List.map_map]
    rfl
  rw [hkeys]
  exact hids.map fun a b hab => BitVec.eq_of_toNat_eq hab

theorem Ready.progress (h : Ready codec policy input db) :
    Progress codec policy input db (Run.init db none) [] where
  keeps := Keeps.refl db
  holds := ⟨h.distinct, by simp, h.fresh⟩
  produced := h.operation
  nodup := List.nodup_nil
  wanted := by simp
  before := by simp [Run.init, pairsOf]
  outputs := by simp [Run.init]
  unfinished _ := by simp [Run.init]
  finished h := by cases h

/-- A page of a run, with any cursor. -/
theorem Progress.page (hready : Ready codec policy input db)
    (h : Progress codec policy input db run made) (cursor : Option Id) (now : ℤ) :
    ∃ db' made', producePage codec run.db { input with cursor } now = .ok (db',
      pageOf db.torrents cursor)
      ∧ made' = insertAll made (pairsOf db input (pageRows db.torrents cursor))
      ∧ Keeps codec policy run.db db' ∧ Holds codec policy input (candidates db) made' db'
      ∧ producedTasks input db' = some made'.length := by
  obtain ⟨row, hrow, hpolicy⟩ := hready.stored
  have hok : ∀ torrent ∈ pageRows run.db.torrents cursor,
      ∀ pair ∈ rowPairs input (eligibleIndexers run.db.search.indexers input.indexerIds) torrent,
        pair ∈ candidates db ∧ Acceptable codec policy run.db pair := by
    rw [h.keeps.torrents, h.keeps.indexers]
    intro torrent htorrent pair hpair
    have hcomplete := (mem_after.mp (mem_of_mem_page htorrent)).1
    have hwanted := mem_pairsOf_iff.mp (List.mem_flatMap.mpr ⟨torrent, hcomplete, hpair⟩)
    have hcandidate := hwanted.mem_candidates
    obtain ⟨⟨source, hsource, hid, havailable, hcomplete, -⟩, indexer, hindexer,
      hindexerId, -⟩ := hwanted
    exact ⟨hcandidate, hready.policyJson, hready.inputJson, h.keeps.holds hready.policies,
      ⟨source, h.keeps.torrents ▸ hsource, hid, havailable, hcomplete⟩,
      ⟨indexer, h.keeps.indexers ▸ hindexer, hindexerId⟩⟩
  obtain ⟨db', made', hpage, hmade, hkeeps, hholds, hproduced⟩ :=
    @producePage_eq _ codec policy { input with cursor } _ _ _ _ (h.holds.withCursor cursor)
      (lookup_kept h.keeps.policies hrow) hpolicy hok now
  rw [h.keeps.torrents] at hpage hmade
  rw [h.keeps.indexers] at hmade
  exact ⟨db', made', hpage, hmade, hkeeps, hholds.withCursor input.cursor, hproduced h.produced⟩

/-- The pairs of the torrents up to the next cursor. -/
theorem Progress.step_turn (hready : Ready codec policy input db)
    (h : Progress codec policy input db run made) {page : BackfillPage}
    (hpage : (run.cursor, page) ∈ run.outputs) (hopen : run.finished = false) :
    Progress codec policy input db (run.turn page) made := by
  obtain ⟨hreturned, hmade⟩ := h.outputs _ hpage
  dsimp only at hreturned hmade
  subst hreturned
  have hnodup := hready.nodup
  have hturns := h.unfinished hopen
  have hlength := length_before_add hnodup (run.cursor.map BitVec.toNat)
  have hpageLength : (pageRows db.torrents run.cursor).length = min backfillPageSize
      (after torrentKey (run.cursor.map BitVec.toNat) (completeTorrents db.torrents)).length :=
        length_page
  have hcovered : ∀ pair ∈ pairsOf db input (Paging.before torrentKey (run.cursor.map BitVec.toNat)
      (completeTorrents db.torrents) ++ pageRows db.torrents run.cursor), pair ∈ made := by
    intro pair hpair
    rw [pairsOf, List.flatMap_append] at hpair
    exact (List.mem_append.mp hpair).elim (h.before pair) (hmade pair)
  unfold Run.turn
  by_cases hdone : (pageRows db.torrents run.cursor).length < backfillPageSize
  · rw [if_pos (by simpa [pageOf] using hdone)]
    have hfew : (after torrentKey (run.cursor.map BitVec.toNat)
      (completeTorrents db.torrents)).length
        ≤ backfillPageSize := by omega
    have hlast := before_append_page hnodup hfew
    refine ⟨h.keeps, h.holds, h.produced, h.nodup, h.wanted, h.before, h.outputs,
      (fun hclosed => by cases hclosed), fun _ => ⟨fun pair hpair => hcovered pair ?_, ?_⟩⟩
    · obtain ⟨row, hrow, hmem⟩ := List.mem_flatMap.mp (mem_pairsOf_iff.mpr hpair)
      refine List.mem_flatMap.mpr ⟨row, ?_, hmem⟩
      rw [pageRows, hlast]
      exact (List.mem_insertionSort _).mpr hrow
    · dsimp only
      rw [Nat.mul_add]
      omega
  · rw [if_neg (by simpa [pageOf] using hdone)]
    obtain ⟨last, hlast⟩ : ∃ last, (pageRows db.torrents run.cursor).getLast? = some last := by
      rw [← Option.isSome_iff_exists, List.getLast?_isSome]
      rintro hnil
      rw [hnil] at hdone
      exact hdone (by decide)
    have hnext := before_next hnodup hlast
    have hcursor : (pageOf db.torrents run.cursor).nextCursor.map BitVec.toNat =
        some (torrentKey last) := by
      simp [pageOf, hlast, torrentKey]
    refine ⟨h.keeps, h.holds, h.produced, h.nodup, h.wanted, ?_, h.outputs, fun _ => ?_,
      fun hclosed => by simp [hopen] at hclosed⟩
    · dsimp only
      rw [hcursor, hnext]
      exact hcovered
    · dsimp only
      rw [hcursor, hnext, List.length_append, hturns, Nat.mul_add]
      rw [pageRows] at hpageLength hdone
      omega

/-- **A step** of a backfill keeps its progress. -/
theorem Progress.step (hready : Ready codec policy input db)
    (h : Progress codec policy input db run made)
    (hstep : Step codec policy input (candidates db) run run') : ∃ made',
    Progress codec policy input db run' made' := by
  cases hstep with
  | @execute cursor db' page now hissued hpage =>
    obtain ⟨db'', made', hpage', hmade', hkeeps, hholds, hproduced⟩ := h.page hready cursor now
    obtain ⟨rfl, rfl⟩ := Prod.mk.inj (Except.ok.inj (hpage.symm.trans hpage'))
    have hmono : ∀ pair ∈ made, pair ∈ made' :=
      fun pair hpair => hmade' ▸ mem_insertAll.mpr (.inl hpair)
    have hnew : ∀ pair ∈ pairsOf db input (pageRows db.torrents cursor), pair ∈ made' :=
        fun pair hpair =>
      hmade' ▸ mem_insertAll.mpr (.inr hpair)
    refine ⟨made', h.keeps.trans hkeeps, hholds, hproduced, hmade' ▸ nodup_insertAll h.nodup,
      fun pair hpair => ?_, fun pair hpair => hmono pair (h.before pair hpair),
      fun output houtput => ?_, h.unfinished, fun hclosed =>
        ⟨fun pair hpair => hmono pair ((h.finished hclosed).1 pair hpair), (h.finished hclosed).2⟩⟩
    · rcases mem_insertAll.mp (hmade' ▸ hpair) with hold | hpage
      · exact h.wanted pair hold
      · obtain ⟨row, hrow, hmem⟩ := List.mem_flatMap.mp hpage
        exact mem_pairsOf_iff.mp (List.mem_flatMap.mpr ⟨row,
          (mem_after.mp (mem_of_mem_page hrow)).1, hmem⟩)
    · rcases List.mem_append.mp houtput with hold | hlast
      · exact ⟨(h.outputs output hold).1, fun pair hpair =>
          hmono pair ((h.outputs output hold).2 pair hpair)⟩
      · rw [List.mem_singleton.mp hlast]
        exact ⟨rfl, hnew⟩
  | turn hpage hopen => exact ⟨made, h.step_turn hready hpage hopen⟩
  | elsewhere hdb =>
    exact ⟨made, h.keeps.trans hdb.keeps, ⟨h.holds.distinct, h.holds.sub,
      hdb.footprint.trans h.holds.footprint⟩, hdb.producedTasks.trans h.produced, h.nodup, h.wanted,
        h.before, h.outputs, h.unfinished, h.finished⟩

theorem Reaches.progress (hready : Ready codec policy input db)
    (hrun : Reaches codec policy input db run) :
    ∃ made, Progress codec policy input db run made := by
  induction hrun with
  | refl => exact ⟨[], hready.progress⟩
  | tail _ hstep ih =>
    obtain ⟨made, hmade⟩ := ih
    exact hmade.step hready hstep

end

/-! ### The rest of the service -/

/-- The update of a task that keeps what acceptance compares. -/
theorem elsewhere_updateTask {f : TaskRow → TaskRow}
    (hf : ∀ row, taskColumns (f row) = taskColumns row) (taskId : Id) :
    Elsewhere codec policy input pairs db
      { db with search := { db.search with db := db.search.db.updateTask taskId f } } := by
  refine ⟨⟨rfl, rfl, rfl, List.prefix_rfl, id⟩, ?_, rfl⟩
  have hown : ∀ row, ownsTask codec policy input pairs (f row) =
      ownsTask codec policy input pairs row := fun row => by
    have hid : (f row).id = row.id := congrArg Prod.fst (hf row)
    rw [ownsTask, ownsTask, hid]
  exact congrArg (Footprint.mk · _ _) (view_updateKey hown hf db.search.db.tasks taskId)

/-- The update of an attempt that keeps what names it. -/
theorem elsewhere_updateAttempt {f : AttemptRow → AttemptRow}
    (hf : ∀ row, attemptColumns (f row) = attemptColumns row) (id : Id) :
    Elsewhere codec policy input pairs db { db with search := db.search.updateAttempt id f } := by
  refine ⟨⟨rfl, rfl, rfl, List.prefix_rfl, fun h => h⟩, ?_, rfl⟩
  have hown : ∀ row, ownsAttempt codec policy input pairs (f row) =
      ownsAttempt codec policy input pairs row :=
    fun row => by
      have hid : (f row).id = row.id := congrArg Prod.fst (hf row)
      have htrigger : (f row).trigger = row.trigger := congrArg (·.2.2.2.2.1) (hf row)
      have htask : (f row).taskId = row.taskId := congrArg (·.2.2.2.2.2) (hf row)
      rw [ownsAttempt, ownsAttempt, hid, htrigger, htask]
  exact congrArg (Footprint.mk _ _ ·) (view_updateKey hown hf db.search.attempts id)

theorem elsewhere_updateOpenTask {f : TaskRow → TaskRow}
    (hf : ∀ row, taskColumns (f row) = taskColumns row) (taskId : Id) :
      Elsewhere codec policy input pairs db
      { db with search := { db.search with db := Writers.updateOpenTask db.search.db taskId f } } :=
  elsewhere_updateTask (f := fun row => if row.terminalAt = none then f row else row)
    (fun row => by
      split
      · exact hf row
      · rfl) taskId

/-- **The writes of a search**, other than the acceptance of a candidate, leave the pairs of a
backfill as they are. -/
theorem elsewhere_write (ingress : Codec) (config : IngressConfig)
    (searchInput : SearchInput) {write : Write} {search : SearchDb}
    (haccept : ∀ submission, write ≠ .accept submission)
    (h : write.apply ingress config searchInput db.search = .ok search) :
    Elsewhere codec policy input pairs db { db with search } := by
  have hother : ∀ rateLimits summaries, Elsewhere codec policy input pairs db
      { db with search := { db.search with rateLimits, summaries } } := fun _ _ =>
    ⟨⟨rfl, rfl, rfl, List.prefix_rfl, id⟩, rfl, rfl⟩
  cases write with
  | claim now =>
    obtain ⟨⟨claimed, next⟩, hclaim, rfl⟩ := map_eq_ok h
    unfold claimIndexer at hclaim
    split at hclaim
    · split at hclaim <;> (obtain ⟨rfl, -⟩ := Prod.mk.inj (Except.ok.inj hclaim); exact hother _ _)
    · split at hclaim
      · cases hclaim
      · obtain ⟨rfl, -⟩ := Prod.mk.inj (Except.ok.inj hclaim)
        exact hother _ _
  | searchingTask now =>
    obtain rfl := Except.ok.inj h
    refine elsewhere_updateOpenTask ?_ _
    exact fun _ => rfl
  | searchingAttempt =>
    obtain rfl := Except.ok.inj h
    refine elsewhere_updateAttempt ?_ _
    exact fun _ => rfl
  | postpone next now =>
    simp only [Write.apply] at h
    split at h
    · cases h
    · obtain rfl := Except.ok.inj h
      exact hother _ _
  | waitAttempt next reason =>
    obtain rfl := Except.ok.inj h
    refine elsewhere_updateAttempt ?_ _
    exact fun _ => rfl
  | waitTask reason now =>
    obtain rfl := Except.ok.inj h
    refine elsewhere_updateOpenTask ?_ _
    exact fun _ => rfl
  | summarize ordinal result state candidateId =>
    simp only [Write.apply, summarize] at h
    split at h
    · cases h
    · obtain rfl := Except.ok.inj h
      exact hother _ _
  | accept submission => exact absurd rfl (haccept submission)
  | finishAttempt now reason failed seen downloaded =>
    obtain rfl := Except.ok.inj h
    refine elsewhere_updateAttempt ?_ _
    exact fun _ => rfl
  | finishTask now reason failed =>
    obtain rfl := Except.ok.inj h
    refine elsewhere_updateTask ?_ _
    exact fun _ => rfl

/-- **The acceptance of another task** leaves the pairs of a backfill as they are. -/
theorem elsewhere_acceptTaskIn {task : NewTask} {tables : Db} {inserted : Bool}
    {jsonValid : String → Bool}
    (h : acceptTaskIn jsonValid db.search.db task = .ok (tables, inserted))
    (hpolicy : HoldsPolicy codec policy task.policy)
    (htask : ownsTask codec policy input pairs task.row = false)
    (hstart : ∀ id, ownsStart codec policy input pairs (task.start id) = false) :
    Elsewhere codec policy input pairs db { db with
      search := { db.search with db := tables } } := by
  have htasks : view (ownsTask codec policy input pairs) taskColumns
      (insertOrIgnore TaskRow.id db.search.db.tasks task.row)
      = view (ownsTask codec policy input pairs) taskColumns db.search.db.tasks := by
    cases hold : lookup TaskRow.id db.search.db.tasks task.row.id with
    | some row => rw [insertOrIgnore_of_some hold]
    | none =>
      rw [insertOrIgnore_of_none hold, view_append,
        view_singleton_of_neg (by simp [htask]), List.append_nil]
  have hrows : ∀ row ∈ insertOrIgnore PolicyRow.id db.search.db.policies task.policy,
      row ∈ db.search.db.policies ∨ row = task.policy := fun row hrow =>
    (mem_insertOrIgnore hrow).imp_right And.left
  have hkeeps : ∀ tables : Db,
    tables.policies = insertOrIgnore PolicyRow.id db.search.db.policies task.policy →
      Keeps codec policy db { db with search := { db.search with db := tables } } :=
        fun tables htables =>
    ⟨rfl, rfl, rfl, htables ▸ prefix_insertOrIgnore _ _ _, fun hholds row hrow =>
      (hrows row (htables ▸ hrow)).elim (hholds row) fun hnew => hnew ▸ hpolicy⟩
  rcases (acceptTaskIn_eq_ok h).result with ⟨-, rfl⟩ | ⟨-, -, -, rfl⟩
  · exact ⟨hkeeps _ rfl, congrArg (Footprint.mk · _ _) htasks, rfl⟩
  · have hstarts : view (ownsStart codec policy input pairs) startColumns
        (db.search.db.outbox ++ [task.start (nextOutboxId db.search.db.outbox)])
        = view (ownsStart codec policy input pairs) startColumns db.search.db.outbox := by
      rw [view_append, view_singleton_of_neg (by simp [hstart]), List.append_nil]
    exact ⟨hkeeps _ rfl, congrArg₂ (Footprint.mk · · _) htasks hstarts, rfl⟩

/-! ### Coverage -/

/-- Every wanted pair has one attempt with the trigger of the operation and one task, to which the
attempt refers, and no other pair has one; the operation tells the number of these tasks. -/
structure Covered (codec : BackfillCodec Policy) (policy : Policy) (input : BackfillInput)
    (db db' : BackfillDb) : Prop where
  attempts : ∀ pair : Pair, (db'.search.attempts.countP fun row => row.sourceId = pair.sourceId
    ∧ row.indexerId = pair.indexerId ∧ row.trigger = backfillTrigger input) =
      if Wanted db input pair then 1 else 0
  tasks : ∀ pair ∈ candidates db, (db'.search.db.tasks.countP fun row =>
    row.id = (pairTask codec policy input pair).id)
    = if Wanted db input pair then 1 else 0
  linked : ∀ row ∈ db'.search.attempts, row.trigger = backfillTrigger input →
    row.taskId = some (pairTask codec policy input ⟨row.sourceId, row.indexerId⟩).id
  produced : producedTasks input db' = some (db'.search.db.tasks.countP fun row =>
    row.id ∈ (candidates db).map fun pair => (pairTask codec policy input pair).id)

theorem Holds.countP_attempts (h : Holds codec policy input pairs made db)
    (hnodup : made.Nodup) (pair : Pair) :
    (db.search.attempts.countP fun row => row.sourceId = pair.sourceId
      ∧ row.indexerId = pair.indexerId
      ∧ row.trigger = backfillTrigger input) = if pair ∈ made then 1 else 0 := by
  refine countP_of_view (fun columns => columns.2.1 = pair.sourceId ∧ columns.2.2.1 = pair.indexerId
      ∧ columns.2.2.2.2.1 = backfillTrigger input) (congrArg Footprint.attempts h.footprint)
        hnodup (fun _ => rfl)
    (fun row hrow => ownsAttempt_of_trigger (of_decide_eq_true hrow).2.2) fun other _ => ?_
  rw [decide_eq_true_eq]
  constructor
  · rintro ⟨hsource, hindexer, -⟩
    cases other
    cases pair
    exact congrArg₂ Pair.mk hsource hindexer
  · rintro rfl
    exact ⟨rfl, rfl, rfl⟩

theorem Holds.countP_tasks (h : Holds codec policy input pairs made db) (hnodup : made.Nodup)
    (hpair : pair ∈ pairs) :
    (db.search.db.tasks.countP fun row => row.id = (pairTask codec policy input pair).id)
      = if pair ∈ made then 1 else 0 := by
  refine countP_of_view (fun columns => columns.1 = (pairTask codec policy input pair).id)
    (congrArg Footprint.tasks h.footprint) hnodup (fun _ => rfl)
    (fun row hrow => ownsTask_of_id hpair (of_decide_eq_true hrow)) fun other hother => ?_
  rw [decide_eq_true_eq]
  constructor
  · exact fun hid => h.distinct.tasks other (h.sub other hother) pair hpair hid
  · rintro rfl
    rfl

theorem Holds.countP_ownsTask (h : Holds codec policy input pairs made db) :
    db.search.db.tasks.countP (ownsTask codec policy input pairs) = made.length := by
  have htasks : view (ownsTask codec policy input pairs) taskColumns db.search.db.tasks
      = made.map fun pair => taskColumns (pairTask codec policy input pair).row :=
        congrArg Footprint.tasks h.footprint
  have hlength := congrArg List.length htasks
  rw [view, List.length_map, List.length_map] at hlength
  rw [List.countP_eq_length_filter, hlength]

theorem Holds.linked (h : Holds codec policy input pairs made db) {row : AttemptRow}
    (hrow : row ∈ db.search.attempts) (htrigger : row.trigger = backfillTrigger input) :
    row.taskId = some (pairTask codec policy input ⟨row.sourceId, row.indexerId⟩).id := by
  obtain ⟨other, -, hcolumns⟩ := h.exists_of_owns hrow (ownsAttempt_of_trigger htrigger)
  have hsource : other.sourceId = row.sourceId := congrArg (·.2.1) hcolumns
  have hindexer : other.indexerId = row.indexerId := congrArg (·.2.2.1) hcolumns
  have htask : some (pairTask codec policy input other).id = row.taskId :=
    congrArg (·.2.2.2.2.2) hcolumns
  rw [← htask, ← hsource, ← hindexer]

theorem Progress.covered {run : Run} (h : Progress codec policy input db run made)
    (hfinished : run.finished = true) : Covered codec policy input db run.db := by
  have hmade : ∀ pair, pair ∈ made ↔ Wanted db input pair := fun pair =>
    ⟨h.wanted pair, (h.finished hfinished).1 pair⟩
  refine ⟨fun pair => ?_, fun pair hpair => ?_, fun row hrow => h.holds.linked hrow, ?_⟩
  · rw [h.holds.countP_attempts h.nodup]
    exact if_congr (hmade pair) rfl rfl
  · rw [h.holds.countP_tasks h.nodup hpair]
    exact if_congr (hmade pair) rfl rfl
  · rw [h.produced, ← h.holds.countP_ownsTask]
    rfl

end

/-- **What a backfill creates.** Once its operation has been accepted, in every run of its workflow,
with any number of executions of every page and any writes of the rest of the service in between
that try no task again: the workflow takes at most one page more than the complete torrents fill,
and as long as it has not ended its page can be executed; when it has ended, every selected pair of
a complete torrent and an eligible indexer has exactly one attempt and one task, no other pair has
one, and the operation tells their number. -/
theorem backfill_covers {Policy : Type} (codec : BackfillCodec Policy) (policy : Policy)
    (input : BackfillInput) (db : BackfillDb) (hready : Ready codec policy input db) (run : Run)
    (hrun : Reaches codec policy input db run) :
    run.turns ≤ (completeTorrents db.torrents).length / backfillPageSize + 1
      ∧ (run.finished = false → ∀ now, ∃ db' page,
        producePage codec run.db { input with cursor := run.cursor } now = .ok (db', page))
      ∧ (run.finished = true → Covered codec policy input db run.db) := by
  obtain ⟨made, h⟩ := hrun.progress hready
  refine ⟨?_, fun _ now => ?_, h.covered⟩
  · have hbound : backfillPageSize * run.turns ≤ (completeTorrents db.torrents).length
        + backfillPageSize := by
      cases hfinished : run.finished with
      | false =>
        have hlength := length_before_add hready.nodup (run.cursor.map BitVec.toNat)
        have hturns := h.unfinished hfinished
        omega
      | true => exact (h.finished hfinished).2
    unfold backfillPageSize at hbound ⊢
    omega
  · obtain ⟨db', made', hpage, -⟩ := h.page hready run.cursor now
    exact ⟨db', _, hpage⟩

/-! ### A film -/

/-- The parts of the JSON of a policy. -/
def filmPolicyParts : List String := [
  "\x7b\"matching\":\x7b\"policy\":\x7b\"allow_flexible\":", "true,\"allow_partial\":true,",
  "\"allow_season_from_episodes\":", "true,\"primary_video_extensions\":",
  "[\"mkv\"],\"optional_extensions\":", "[\"nfo\"],\"optional_path_components\":",
  "[\"sample\"],\"max_assignment_files\":", "4096,\"max_candidate_edges\":",
  "100000,\"max_assignment_component_files\":", "128,\"max_assignment_operations\":",
  "50000000\x7d,\"preflight_size_tolerance\":", "0.02,\"max_torrent_bytes\":",
  "8388608,\"max_files_per_torrent\":", "100000,\"max_path_bytes\":",
  "4096,\"pending_source_timeout\":", "\"604800s\"\x7d,\"source_filters\":",
  "\x7b\"include_categories\":[],", "\"exclude_categories\":[],",
  "\"include_tags\":[],\"exclude_tags\":", "[\"no-sporos\"],\"exclude_sporos_managed\":",
  "true\x7d,\"injection\":\x7b\"dry_run\":", "false,\"category_template\":",
  "\"sporos\",\"tag_templates\":", "[],\"inherit_source_category\":",
  "false,\"inherit_source_tags\":", "false,\"resume\":\x7b\"mode\":\"never\"\x7d\x7d,",
  "\"paths\":\x7b\"link_root\":\"/data/links\",",
  "\"rewrite\":[]\x7d\x7d"]

/-- The policy of the examples as JSON. -/
def filmPolicy : String := String.join filmPolicyParts

/-- SHA-256 and `serde_json`, for this policy and for releases of which only the title is known. -/
def filmCodec : BackfillCodec Unit where
  sha256 := Sporos.Lib.Sha256.sha256
  jsonValid _ := true
  decodePolicy text := if text = filmPolicy then some () else none
  policyJson _ := filmPolicy
  releaseJson release :=
    "\x7b\"kind\":\"unknown_video\",\"primary_title\":\"" ++ String.ofList release.primaryTitle
      ++ "\",\"alternate_titles\":[],\"year\":null,\"season\":null,\"episode\":null,\"episode_end\":null,"
      ++ "\"absolute_episode\":null,\"air_date\":null,\"edition\":null,\"source\":null,\"resolution\":null,"
      ++ "\"video_codec\":null,\"hdr\":null,\"audio\":null,\"release_group\":null,\"arr_identity\":null\x7d"
  inputJson input :=
    let array (id : Id) :=
      "[" ++ ",".intercalate ((idBytes id).map fun b => toString b.toNat) ++ "]"
    "\x7b\"task_id\":" ++ array input.taskId ++ ",\"attempt_id\":" ++ array input.attemptId
      ++ ",\"source_id\":" ++ array input.sourceId ++ ",\"indexer_id\":"
      ++ toString input.indexerId.val
      ++ ",\"policy_snapshot_id\":" ++ array input.policySnapshotId ++ ",\"trigger\":\""
      ++ input.trigger
      ++ "\"\x7d"

/-- A torrent of a film. -/
def filmTorrent (id : Id) (isComplete : Bool) : TorrentRow where
  id
  qbitId := encodeHex id
  v1Hash := none
  v2Hash := none
  name := "film"
  totalSize := 10
  amountLeft := if isComplete then 0 else 4
  progressPpm := if isComplete then 1000000 else 600000
  state := if isComplete then "uploading" else "downloading"
  savePath := "/data"
  contentPath := "/data/film"
  category := "films"
  tags := []
  isComplete
  available := true
  fileManifestVersion := 0
  fileManifestState := .stale
  fileManifestLoadedAt := none
  contentFingerprint := 0
  addedAt := none
  completedAt := none
  release := .unknown "film".toList
  lastSeenGeneration := 1
  updatedAt := 1

/-- A backfill of the torrents of a category. -/
def filmInput : BackfillInput where
  operationId := 7
  taskId := 8
  policySnapshotId := policyId filmCodec ()
  selection := ⟨[], ["films"], [], [], []⟩
  indexerIds := []
  cursor := none

/-- A complete torrent, one that is not complete, and an indexer. -/
def filmDb : BackfillDb where
  search :=
    { db := { Db.empty with policies := [
        { id := policyId filmCodec ()
          configHash := filmCodec.sha256 (utf8 (filmCodec.policyJson ()))
          matcherVersion := "sporos-matcher/1"
          payloadJson := filmPolicy
          createdAt := 1 }] }
      indexers := [⟨⟨3, by decide⟩, "tracker", 25, true⟩]
      attempts := []
      rateLimits := []
      summaries := [] }
  torrents := [filmTorrent 1 true, filmTorrent 2 false]
  dataSources := []
  operations := [⟨7, "queued", none, 0, 1⟩]

/-- The bytes of a text are those of its parts. -/
theorem utf8_join (parts : List String) : utf8 (String.join parts) = parts.flatMap utf8 := by
  rw [utf8, Sporos.Matcher.Release.bytes, String.toList_join, List.flatMap_assoc]
  rfl

theorem policyId_film : policyId filmCodec () = 161153195629853057389812743900796060974#128 := by
  have hbytes : policyId filmCodec () =
      first16 (Sporos.Lib.Sha256.sha256 (filmPolicyParts.flatMap utf8)) :=
    congrArg (fun text => first16 (Sporos.Lib.Sha256.sha256 text)) (utf8_join filmPolicyParts)
  rw [hbytes]
  decide +kernel

/-- The digest of a torrent and the indexer. -/
def filmDigest (sourceId : Id) : Digest :=
  identity filmCodec sourceId ⟨3, by decide⟩ (policyId filmCodec ()) (backfillTrigger filmInput)

theorem filmDigest_ne : first16 (filmDigest 1) ≠ first16 (filmDigest 2)
    ∧ searchTaskId filmCodec (filmDigest 1) ≠ searchTaskId filmCodec (filmDigest 2) := by
  unfold filmDigest
  rw [policyId_film]
  decide +kernel

theorem candidates_film : candidates filmDb = [⟨1, ⟨3, by decide⟩⟩, ⟨2, ⟨3, by decide⟩⟩] := rfl

theorem distinct_film : Distinct filmCodec () filmInput (candidates filmDb) := by
  obtain ⟨hattempts, htasks⟩ := filmDigest_ne
  unfold filmDigest at hattempts htasks
  rw [candidates_film]
  constructor
  · intro pair hpair pair' hpair' heq
    rcases List.mem_pair.mp hpair with rfl | rfl <;> rcases List.mem_pair.mp hpair' with rfl | rfl
    · rfl
    · simp only [pairInput, searchInput] at heq
      exact absurd heq hattempts
    · simp only [pairInput, searchInput] at heq
      exact absurd heq.symm hattempts
    · rfl
  · intro pair hpair pair' hpair' heq
    rcases List.mem_pair.mp hpair with rfl | rfl <;> rcases List.mem_pair.mp hpair' with rfl | rfl
    · rfl
    · simp only [pairTask, searchTask] at heq
      exact absurd heq htasks
    · simp only [pairTask, searchTask] at heq
      exact absurd heq.symm htasks
    · rfl

theorem ready_film : Ready filmCodec () filmInput filmDb := by
  refine ⟨?_, ?_, ?_, rfl, fun _ => rfl, ?_, ?_, distinct_film⟩
  · show (filmDb.torrents.map TorrentRow.id).Nodup
    simp [filmDb, filmTorrent]
  · exact ⟨_, lookup_singleton.trans (if_pos rfl), by simp [filmCodec]⟩
  · intro row hrow
    rw [List.mem_singleton.mp hrow]
    exact fun _ => ⟨rfl, rfl, rfl⟩
  · simp [producedTasks, filmDb, filmInput, lookup]
  · simp [footprint, view, filmDb, Db.empty]

theorem pageOf_film : (pageOf filmDb.torrents none).done = true := by
  have hrows : (pageRows filmDb.torrents none).length ≤
      (completeTorrents filmDb.torrents).length := by
    simp [pageRows, page]
  have htwo : (completeTorrents filmDb.torrents).length ≤ 2 := List.length_filter_le _ _
  have hfew : (pageRows filmDb.torrents none).length < 100 := by omega
  exact decide_eq_true hfew

/-- The page is executed twice, and the workflow takes what one of the executions has returned. -/
theorem film_backfilled : ∃ run, Reaches filmCodec () filmInput filmDb run ∧ run.finished =
    true ∧ run.turns = 1
    ∧ Covered filmCodec () filmInput filmDb run.db := by
  obtain ⟨db₁, made₁, hpage₁, -⟩ := ready_film.progress.page ready_film none 10
  have hstep₁ : Step filmCodec () filmInput (candidates filmDb) (Run.init filmDb none)
      ⟨db₁, none, [none], [(none, pageOf filmDb.torrents none)], 0, false⟩ :=
    .execute 10 (List.mem_singleton_self none) hpage₁
  obtain ⟨made, hmade⟩ := ready_film.progress.step ready_film hstep₁
  obtain ⟨db₂, made₂, hpage₂, -⟩ := hmade.page ready_film none 11
  have hstep₂ : Step filmCodec () filmInput (candidates filmDb)
      ⟨db₁, none, [none], [(none, pageOf filmDb.torrents none)], 0, false⟩
      ⟨db₂, none, [none], [(none, pageOf filmDb.torrents none),
        (none, pageOf filmDb.torrents none)], 0, false⟩ :=
    .execute 11 (List.mem_singleton_self none) hpage₂
  have hstep₃ : Step filmCodec () filmInput (candidates filmDb)
      ⟨db₂, none, [none], [(none, pageOf filmDb.torrents none),
        (none, pageOf filmDb.torrents none)], 0, false⟩
      ⟨db₂, none, [none], [(none, pageOf filmDb.torrents none),
        (none, pageOf filmDb.torrents none)], 1, true⟩ := by
    have hturn : Step filmCodec () filmInput (candidates filmDb)
        ⟨db₂, none, [none], [(none, pageOf filmDb.torrents none),
          (none, pageOf filmDb.torrents none)], 0, false⟩
        (Run.turn _ (pageOf filmDb.torrents none)) := .turn List.mem_cons_self rfl
    rwa [Run.turn, if_pos pageOf_film] at hturn
  have hrun : Reaches filmCodec () filmInput filmDb _ :=
    ((Relation.ReflTransGen.single hstep₁).tail hstep₂).tail hstep₃
  exact ⟨_, hrun, rfl, rfl,
    (backfill_covers filmCodec () filmInput filmDb ready_film _ hrun).2.2 rfl⟩

end Sporos.Service.BackfillRuns
