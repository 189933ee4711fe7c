import Sporos.Service.QbitSync

/-! # Completions are recorded once

The committed changes of a history of attempts as a path of steps, and the rows that `accept` leaves
for the completions among them: one completion, one operation, one task, one first event and one
start request for each torrent and time of completion. -/

namespace Sporos.Service.CompletionOnce

open Sporos.Service.Tables
open Sporos.Service.Ingress
open Sporos.Service.TaskControl
open Sporos.Service.Inventory
open Sporos.Service.Sources
open Sporos.Service.Completion
open Sporos.Service.QbitProjection
open Sporos.Service.QbitSync
open Sporos.Lib.Table
open Sporos.Lib.Loop

/-! ### The steps of a history -/

section

variable (codec : QbitCodec)

/-- A step of one of the attempts: a change that is committed, or the end of the attempt. -/
inductive Step (attempts : List Attempt) (store store' : Store) : Prop where
  | change (attempt : Attempt) (generation : ℕ) (batch batch' : ProjectionBatch)
      (change : InventoryChange) (hattempt : attempt ∈ attempts) (hmem : change ∈ attempt.changes)
      (h : projectChange codec generation store.inventory.baselineAt.isSome attempt.now (store,
        batch)
        change = .ok (store', batch'))
  | finish (attempt : Attempt) (generation : ℕ) (hattempt : attempt ∈ attempts)
      (h : attempt.finish generation store = some store')

/-- The steps of the batches that are committed. -/
def batchSteps (generation : ℕ) (detectCompletions : Bool) (now : ℤ) :
    Store → List (List InventoryChange) → List (Store × Store)
  | _, [] => []
  | store, batch :: batches =>
    match projectQbitBatch codec store batch generation detectCompletions now with
    | .error _ => []
    | .ok (store', _) =>
      (trace (projectChange codec generation detectCompletions now) (store, ⟨0, [], []⟩) batch).map
          (Prod.map Prod.fst Prod.fst)
        ++ batchSteps generation detectCompletions now store' batches

/-- The steps of an attempt. -/
def attemptSteps (store : Store) (attempt : Attempt) : List (Store × Store) :=
  if !attempt.full ∧ store.inventory.baselineAt = none then []
  else
    let generation := attempt.generation store
    let detectCompletions := store.inventory.baselineAt.isSome
    batchSteps codec generation detectCompletions attempt.now store attempt.batches
      ++ match commitBatches codec generation detectCompletions attempt.now store
          attempt.batches with
        | (_, false) => []
        | (store, true) => (attempt.finish generation store).toList.map
          fun store' => (store, store')

/-- The steps of a history. -/
def steps : Store → List Attempt → List (Store × Store)
  | _, [] => []
  | store, attempt :: attempts =>
    attemptSteps codec store attempt ++ steps (attempt.run codec store).1 attempts

end

section

variable {codec : QbitCodec}

/-- The changes of a batch keep the state of the inventory, so that each of them detects completions
as the attempt does. -/
theorem path_projectQbitBatch {store store' : Store}
    {changes : List InventoryChange} {generation : ℕ} {now : ℤ} {batch : ProjectionBatch}
    {attempts : List Attempt} {attempt : Attempt} (hattempt : attempt ∈ attempts)
    (hmem : ∀ change ∈ changes, change ∈ attempt.changes) (hnow : attempt.now = now)
    (h : projectQbitBatch codec store changes generation store.inventory.baselineAt.isSome now
      = .ok (store', batch)) :
    Path (Step codec attempts) store
      ((trace (projectChange codec generation store.inventory.baselineAt.isSome now)
        (store, ⟨0, [], []⟩) changes).map (Prod.map Prod.fst Prod.fst)) store' := by
  subst hnow
  unfold projectQbitBatch at h
  obtain ⟨generation', hgeneration, h⟩ := bind_eq_ok.mp h
  obtain ⟨rfl, -⟩ := toI64_eq_ok hgeneration
  have hpath := path_trace changes _ _ h
  -- The inventory is that of the first store all along the path.
  have hkept := hpath.invariant (I := fun result => result.1.inventory = store.inventory)
    (fun before after hstep hbefore => by
      obtain ⟨change, -, hchange⟩ := hstep
      exact (projectChange_presence hchange).2.1.trans hbefore) rfl
  have hsteps : ∀ (s : Store × ProjectionBatch) steps s',
      Path (fun b b' => ∃ x ∈ changes,
        projectChange codec generation store.inventory.baselineAt.isSome attempt.now b x = .ok b')
        s steps s' → (∀ step ∈ steps, step.1.1.inventory = store.inventory) →
      Path (Step codec attempts) s.1 (steps.map (Prod.map Prod.fst Prod.fst)) s'.1 := by
    intro s steps s' hpath
    induction hpath with
    | nil s => exact fun _ => .nil s.1
    | cons hstep _ ih =>
      intro hinventory
      obtain ⟨change, hchange, hstep⟩ := hstep
      refine .cons ?_ (ih fun step hstep => hinventory step (List.mem_cons_of_mem _ hstep))
      rw [← hinventory _ List.mem_cons_self] at hstep
      exact .change attempt generation _ _ change hattempt (hmem change hchange) hstep
  exact hsteps _ _ _ hpath fun step hstep => (hkept.2 step hstep).2.1

theorem path_commitBatches {store store' : Store}
    {batches : List (List InventoryChange)} {generation : ℕ} {detectCompletions done : Bool}
    {attempts : List Attempt} {attempt : Attempt} (hattempt : attempt ∈ attempts)
    (hmem : ∀ batch ∈ batches, ∀ change ∈ batch, change ∈ attempt.changes)
    (hdetect : detectCompletions = store.inventory.baselineAt.isSome)
    (h : commitBatches codec generation detectCompletions attempt.now store batches =
    (store', done)) :
    Path (Step codec attempts) store
      (batchSteps codec generation detectCompletions attempt.now store batches) store'
      ∧ store'.inventory = store.inventory := by
  induction batches generalizing store with
  | nil =>
    obtain ⟨rfl, -⟩ : store = store' ∧ _ := by simpa [commitBatches] using h
    exact ⟨.nil store, rfl⟩
  | cons batch batches ih =>
    rw [commitBatches] at h
    rw [batchSteps]
    cases hbatch : projectQbitBatch codec store batch generation detectCompletions attempt.now with
    | error e =>
      simp only [hbatch, Prod.mk.injEq] at h
      obtain ⟨rfl, -⟩ := h
      exact ⟨.nil store, rfl⟩
    | ok result =>
      obtain ⟨store₁, result⟩ := result
      simp only [hbatch] at h ⊢
      have hinventory := (projected_projectQbitBatch hbatch).inventory
      have hrest := ih (fun batch hbatch => hmem batch (List.mem_cons_of_mem _ hbatch))
        (by rw [hinventory, hdetect]) h
      subst hdetect
      have hfirst := path_projectQbitBatch hattempt (hmem batch List.mem_cons_self) rfl hbatch
      exact ⟨hfirst.append hrest.1, hrest.2.trans hinventory⟩

theorem path_attemptSteps {store : Store} {attempts : List Attempt} {attempt : Attempt}
    (hattempt : attempt ∈ attempts) :
    Path (Step codec attempts) store (attemptSteps codec store attempt)
      (attempt.run codec store).1 := by
  unfold attemptSteps Attempt.run
  split_ifs
  · exact .nil store
  · dsimp only
    have hmem : ∀ batch ∈ attempt.batches, ∀ change ∈ batch, change ∈ attempt.changes :=
      fun batch hbatch change hchange => List.mem_flatten.mpr ⟨batch, hbatch, hchange⟩
    cases hcommit : commitBatches codec (attempt.generation store) store.inventory.baselineAt.isSome
        attempt.now store attempt.batches with
    | mk store₁ done =>
      have hpath := (path_commitBatches hattempt hmem rfl hcommit).1
      cases done with
      | false => simpa using hpath
      | true =>
        refine hpath.append ?_
        simp only
        cases hfinish : attempt.finish (attempt.generation store) store₁ with
        | none => exact .nil store₁
        | some store₂ => exact .single (Step.finish attempt _ hattempt hfinish)

/-- **A history is a path** of its steps. -/
theorem path_steps (codec : QbitCodec) (attempts : List Attempt) (store : Store) :
    Path (Step codec attempts) store (steps codec store attempts)
      (runAttempts codec store attempts) := by
  have hsub : ∀ (rest : List Attempt) (store : Store), (∀ attempt ∈ rest, attempt ∈ attempts) →
      Path (Step codec attempts) store (steps codec store rest) (runAttempts codec store rest) := by
    intro rest
    induction rest with
    | nil => exact fun store _ => .nil store
    | cons attempt rest ih =>
      intro store hmem
      exact (path_attemptSteps (hmem attempt List.mem_cons_self)).append
        (ih _ fun attempt hattempt => hmem attempt (List.mem_cons_of_mem _ hattempt))
  exact hsub attempts store fun _ h => h

end

/-! ### Completions -/

/-- A torrent that was known and not complete is complete, with the time of its completion. -/
def Completes (store store' : Store) (completion : Id × ℤ) : Prop :=
  ∃ old ∈ store.torrents, ∃ new ∈ store'.torrents, old.qbitId = new.qbitId
    ∧ old.isComplete = false ∧ new.isComplete = true
    ∧ new.id = completion.1 ∧ new.completedAt = some completion.2

/-- Some step after the baseline completes the torrent. -/
def RecordedIn (steps : List (Store × Store)) (completion : Id × ℤ) : Prop :=
  ∃ step ∈ steps, step.1.inventory.baselineAt.isSome = true ∧ Completes step.1 step.2 completion

/-- Some change of the history, after the baseline, completes the torrent. -/
def Recorded (codec : QbitCodec) (history : List Attempt) : Id × ℤ → Prop :=
  RecordedIn (steps codec Store.empty history)

/-- The identifiers of the operations, the tasks and the requests tell completions apart. -/
structure Separates (codec : CompletionCodec) (completions : Set (Id × ℤ)) : Prop where
  operation : ∀ p ∈ completions, ∀ q ∈ completions,
    operationId codec p.1 p.2 = operationId codec q.1 q.2 → p = q
  task : ∀ p ∈ completions, ∀ q ∈ completions, taskId codec p.1 p.2 = taskId codec q.1 q.2 → p = q
  key : ∀ p ∈ completions, ∀ q ∈ completions, taskKey codec p.1 p.2 = taskKey codec q.1 q.2 → p = q

theorem Separates.mono {codec : CompletionCodec} {completions completions' : Set (Id × ℤ)}
    (h : Separates codec completions) (hsubset : completions' ⊆ completions) :
    Separates codec completions' :=
  ⟨fun p hp q hq => h.operation p (hsubset hp) q (hsubset hq),
    fun p hp q hq => h.task p (hsubset hp) q (hsubset hq),
    fun p hp q hq => h.key p (hsubset hp) q (hsubset hq)⟩

/-- The tables in step with the completions that are recorded. -/
structure Lockstep (codec : CompletionCodec) (recorded : List (Id × ℤ)) (store : Store) : Prop where
  nodup : recorded.Nodup
  completions : store.completions.map CompletionRow.key = recorded
  operations : store.operations.map OperationRow.id = recorded.map fun p =>
    operationId codec p.1 p.2
  tasks : store.db.tasks.map TaskRow.id = recorded.map fun p => taskId codec p.1 p.2
  events : store.db.events.map EventRow.key = recorded.map fun p => (taskId codec p.1 p.2, 0)
  requests : store.db.outbox.map OutboxRow.taskKey = recorded.map fun p => taskKey codec p.1 p.2
  requestTasks : store.db.outbox.map OutboxRow.taskId = recorded.map fun p => taskId codec p.1 p.2
  requestInstances : store.db.outbox.map OutboxRow.instanceId
    = recorded.map fun p => instanceId codec p.1 p.2
  completionOperations : store.completions.map CompletionRow.operationId
    = recorded.map fun p => operationId codec p.1 p.2
  completionTasks : store.completions.map CompletionRow.taskId
    = recorded.map fun p => taskId codec p.1 p.2

/-- The start requests stay in step with the completions. -/
theorem Lockstep.requests_insertStart {codec : CompletionCodec}
    {recorded : List (Id × ℤ)} {store : Store} {sourceId : Id} {completedAt observedAt : ℤ}
    {outbox : List OutboxRow} (hlock : Lockstep codec recorded store)
    (hkey : ∀ p ∈ recorded, taskKey codec p.1 p.2 = taskKey codec sourceId completedAt →
      p = (sourceId, completedAt))
    (h : Completion.insertStart codec store.db.outbox sourceId completedAt observedAt =
      some outbox) :
    (outbox = store.db.outbox ∧ insertOrIgnore id recorded (sourceId, completedAt) = recorded)
      ∨ (outbox = store.db.outbox
            ++ [startRow codec (nextOutboxId store.db.outbox) sourceId completedAt observedAt]
        ∧ insertOrIgnore id recorded (sourceId, completedAt) =
          recorded ++ [(sourceId, completedAt)]) := by
  have hknown : taskKey codec sourceId completedAt ∈ store.db.outbox.map OutboxRow.taskKey
      ↔ (lookup id recorded (sourceId, completedAt)).isSome = true := by
    rw [hlock.requests, List.mem_map, lookup_isSome_iff, List.map_id]
    constructor
    · rintro ⟨p, hp, heq⟩
      exact hkey p hp heq ▸ hp
    · exact fun hp => ⟨_, hp, rfl⟩
  rcases insertStart_eq_some h with ⟨hmem, rfl⟩ | ⟨hmem, rfl⟩
  · exact .inl ⟨rfl, if_pos (hknown.mp hmem)⟩
  · exact .inr ⟨rfl, if_neg fun h => hmem (hknown.mpr h)⟩

/-- The rows of completions stay in step with the completions. -/
theorem Lockstep.completions_insertOrIgnore {codec : CompletionCodec} {recorded : List (Id × ℤ)}
    {store : Store} (hlock : Lockstep codec recorded store) (sourceId : Id)
    (completedAt observedAt : ℤ) :
    (insertOrIgnore CompletionRow.key store.completions
          (completionRow codec sourceId completedAt observedAt) = store.completions
        ∧ insertOrIgnore id recorded (sourceId, completedAt) = recorded)
      ∨ (insertOrIgnore CompletionRow.key store.completions
            (completionRow codec sourceId completedAt observedAt)
          = store.completions ++ [completionRow codec sourceId completedAt observedAt]
        ∧ insertOrIgnore id recorded (sourceId, completedAt) =
          recorded ++ [(sourceId, completedAt)]) := by
  have hknown : (lookup CompletionRow.key store.completions
        (completionRow codec sourceId completedAt observedAt).key).isSome = true
      ↔ (lookup id recorded (id (sourceId, completedAt))).isSome = true := by
    rw [lookup_isSome_iff, lookup_isSome_iff, hlock.completions, List.map_id]
    rfl
  unfold insertOrIgnore
  by_cases h : (lookup CompletionRow.key store.completions
      (completionRow codec sourceId completedAt observedAt).key).isSome = true
  · exact .inl ⟨if_pos h, if_pos (hknown.mp h)⟩
  · exact .inr ⟨if_neg h, if_neg fun h' => h (hknown.mpr h')⟩

theorem Lockstep.of_eq {codec : CompletionCodec} {recorded : List (Id × ℤ)} {store store' : Store}
    (h : Lockstep codec recorded store) (hdb : store'.db = store.db)
    (hoperations : store'.operations = store.operations)
    (hcompletions : store'.completions = store.completions) : Lockstep codec recorded store' :=
  ⟨h.nodup, hcompletions ▸ h.completions, hoperations ▸ h.operations, hdb ▸ h.tasks, hdb ▸ h.events,
    hdb ▸ h.requests, hdb ▸ h.requestTasks, hdb ▸ h.requestInstances,
    hcompletions ▸ h.completionOperations, hcompletions ▸ h.completionTasks⟩

/-- **Acceptance** keeps the tables in step: it adds a completion to all of them or to none. -/
theorem Lockstep.accept {codec : CompletionCodec} {recorded : List (Id × ℤ)} {store store' : Store}
    {sourceId : Id} {completedAt observedAt : ℤ} {accepted : AcceptedCompletion}
    (hlock : Lockstep codec recorded store)
    (hseparates : Separates codec {p | p = (sourceId, completedAt) ∨ p ∈ recorded})
    (h : accept codec store sourceId completedAt observedAt = some (store', accepted)) :
    Lockstep codec (insertOrIgnore id recorded (sourceId, completedAt)) store' := by
  obtain ⟨outbox, completions, inserted, hstart, hcompletion, rfl⟩ := accept_eq_some h
  have htask : ∀ p ∈ recorded, taskId codec p.1 p.2 = taskId codec sourceId completedAt →
      p = (sourceId, completedAt) :=
    fun p hp => hseparates.task p (.inr hp) (sourceId, completedAt) (.inl rfl)
  have hunique : UniqueKey id recorded := by simpa [UniqueKey] using hlock.nodup
  have hnodup := hunique.insertOrIgnore (sourceId, completedAt)
  have hoperations := map_insertOrIgnore (fun p : Id × ℤ => operationId codec p.1 p.2)
    (operationRow codec sourceId completedAt observedAt) (sourceId, completedAt)
    hlock.operations rfl
    fun p hp => hseparates.operation p (.inr hp) (sourceId, completedAt) (.inl rfl)
  have htasks := map_insertOrIgnore (fun p : Id × ℤ => taskId codec p.1 p.2)
    (taskRow codec sourceId completedAt observedAt) (sourceId, completedAt) hlock.tasks rfl htask
  have hevents := map_insertOrIgnore (fun p : Id × ℤ => (taskId codec p.1 p.2, 0))
    (eventRow codec sourceId completedAt observedAt) (sourceId, completedAt)
    hlock.events rfl fun p hp heq => htask p hp (Prod.mk.inj heq).1
  have houtbox : outbox.map OutboxRow.taskKey
        = (insertOrIgnore id recorded (sourceId, completedAt)).map (fun p => taskKey codec p.1 p.2)
      ∧ outbox.map OutboxRow.taskId
        = (insertOrIgnore id recorded (sourceId, completedAt)).map (fun p => taskId codec p.1 p.2)
      ∧ outbox.map OutboxRow.instanceId
        = (insertOrIgnore id recorded (sourceId, completedAt)).map
          fun p => instanceId codec p.1 p.2 := by
    rcases hlock.requests_insertStart
      (fun p hp => hseparates.key p (.inr hp) (sourceId, completedAt) (.inl rfl)) hstart
      with ⟨rfl, hsame⟩ | ⟨rfl, hnew⟩
    · rw [hsame]
      exact ⟨hlock.requests, hlock.requestTasks, hlock.requestInstances⟩
    · rw [hnew]
      simp only [List.map_append, hlock.requests, hlock.requestTasks, hlock.requestInstances]
      exact ⟨rfl, rfl, rfl⟩
  have hcompletions : completions.map CompletionRow.key
        = insertOrIgnore id recorded (sourceId, completedAt)
      ∧ completions.map CompletionRow.operationId
        = (insertOrIgnore id recorded (sourceId, completedAt)).map (fun p =>
          operationId codec p.1 p.2)
      ∧ completions.map CompletionRow.taskId
        = (insertOrIgnore id recorded (sourceId, completedAt)).map fun p =>
          taskId codec p.1 p.2 := by
    rw [insertCompletion_eq_some hcompletion]
    rcases hlock.completions_insertOrIgnore sourceId completedAt observedAt
      with ⟨hrows, hsame⟩ | ⟨hrows, hnew⟩
    · rw [hrows, hsame]
      exact ⟨hlock.completions, hlock.completionOperations, hlock.completionTasks⟩
    · rw [hrows, hnew]
      simp only [List.map_append, hlock.completions, hlock.completionOperations,
        hlock.completionTasks]
      exact ⟨rfl, rfl, rfl⟩
  exact ⟨by simpa [UniqueKey] using hnodup, hcompletions.1, hoperations, htasks, hevents,
    houtbox.1, houtbox.2.1, houtbox.2.2, hcompletions.2.1, hcompletions.2.2⟩

theorem instanceId_inj {codec : CompletionCodec} {p q : Id × ℤ}
    (h : instanceId codec p.1 p.2 = instanceId codec q.1 q.2) :
    operationId codec p.1 p.2 = operationId codec q.1 q.2 := by
  have hlist := congrArg String.toList h
  simp only [instanceId, String.toList_append, List.append_cancel_left_eq] at hlist
  exact encodeHex_injective (String.toList_injective hlist)

/-- With tables in step, acceptance is no error. -/
theorem Lockstep.accept_isSome {codec : CompletionCodec} {recorded : List (Id × ℤ)} {store : Store}
    {sourceId : Id} {completedAt : ℤ} (hlock : Lockstep codec recorded store)
    (hseparates : Separates codec {p | p = (sourceId, completedAt) ∨ p ∈ recorded})
    (observedAt : ℤ) :
    (Completion.accept codec store sourceId completedAt observedAt).isSome = true := by
  have hoperation : ∀ p ∈ recorded,
    operationId codec p.1 p.2 = operationId codec sourceId completedAt →
      p = (sourceId, completedAt) :=
    fun p hp => hseparates.operation p (.inr hp) (sourceId, completedAt) (.inl rfl)
  have hstart : ∃ outbox,
      Completion.insertStart codec store.db.outbox sourceId completedAt observedAt =
        some outbox := by
    rw [Completion.insertStart]
    split
    · exact ⟨_, rfl⟩
    · rename_i hkey
      rw [if_neg]
      · exact ⟨_, rfl⟩
      · rw [lookup_isSome_iff, hlock.requestInstances]
        intro hmem
        obtain ⟨p, hp, heq⟩ := List.mem_map.mp hmem
        obtain rfl := hoperation p hp (instanceId_inj (q := (sourceId, completedAt)) heq)
        refine hkey (lookup_isSome_iff.mpr ?_)
        rw [hlock.requests]
        exact List.mem_map.mpr ⟨_, hp, rfl⟩
  have hcompletion : ∃ result,
      insertCompletion codec store.completions sourceId completedAt observedAt = some result := by
    rw [insertCompletion]
    split
    · exact ⟨_, rfl⟩
    · rename_i hkey
      have hnew : (sourceId, completedAt) ∉ recorded := by
        rw [← hlock.completions]
        exact fun hmem => hkey (lookup_isSome_iff.mpr hmem)
      rw [if_neg]
      · exact ⟨_, rfl⟩
      · rw [Bool.or_eq_true, lookup_isSome_iff, lookup_isSome_iff, hlock.completionOperations,
          hlock.completionTasks]
        rintro (hmem | hmem)
        · obtain ⟨p, hp, heq⟩ := List.mem_map.mp hmem
          exact hnew (hoperation p hp heq ▸ hp)
        · obtain ⟨p, hp, heq⟩ := List.mem_map.mp hmem
          exact hnew (hseparates.task p (.inr hp) (sourceId, completedAt) (.inl rfl) heq ▸ hp)
  obtain ⟨outbox, houtbox⟩ := hstart
  obtain ⟨⟨completions, inserted⟩, hcompletions⟩ := hcompletion
  simp [Completion.accept, houtbox, hcompletions]

/-! ### The torrents -/

/-- The rows of the torrents: one for each torrent, with the identifier of its source. -/
structure Torrents (codec : QbitCodec) (store : Store) : Prop where
  unique : UniqueKey TorrentRow.qbitId store.torrents
  identified : ∀ row ∈ store.torrents, row.id = sourceId codec row.qbitId

section

variable {codec : QbitCodec} {store store' : Store}

/-- The torrents after a record: that of the record has the merged fields, and the others are as
before. -/
theorem torrent_projectTorrent {qbitId : String} {delta : InventoryDelta} {generation : ℕ}
    {detectCompletions manifestNeeded : Bool} {now : ℤ} {completion : Option CompletionTransition}
    (htorrents : Torrents codec store)
    (h : projectTorrent codec store qbitId delta generation detectCompletions now
      = .ok (store', completion, manifestNeeded)) :
    ∃ fields, mergeFields (store.torrent qbitId) delta = .ok fields
      ∧ Torrents codec store'
      ∧ (∀ other, other ≠ qbitId → store'.torrent other = store.torrent other)
      ∧ (∃ row, store'.torrent qbitId = some row ∧ row.id = sourceId codec qbitId
        ∧ row.isComplete = fields.isComplete
        ∧ row.completedAt = fields.completedAt (store.torrent qbitId) delta now
        ∧ row.v1Hash = fields.v1Hash ∧ row.v2Hash = fields.v2Hash)
      ∧ ((fields.completion (store.torrent qbitId) delta detectCompletions now = none
          ∧ store' = { store with torrents := store'.torrents })
        ∨ ∃ completedAt accepted,
          fields.completion (store.torrent qbitId) delta detectCompletions now = some completedAt
            ∧ accept codec.completion { store with torrents := store'.torrents }
              (sourceId codec qbitId) completedAt now = some (store', accepted)) := by
  obtain ⟨fields, torrents, hfields, hupsert, hresult⟩ := projectTorrent_eq_ok h
  have hstore : store'.torrents = torrents := by
    rcases hresult with ⟨-, rfl⟩ | ⟨completedAt, accepted, -, haccept⟩
    · rfl
    · obtain ⟨outbox, completions, inserted, -, -, rfl⟩ := accept_eq_some haccept
      rfl
  have hlookup := lookup_upsertTorrent hupsert
  rw [row_qbitId] at hlookup
  subst hstore
  have hrow : ∃ row, store'.torrent qbitId = some row ∧ row.id = sourceId codec qbitId
      ∧ row.isComplete = fields.isComplete
      ∧ row.completedAt = fields.completedAt (store.torrent qbitId) delta now
      ∧ row.v1Hash = fields.v1Hash ∧ row.v2Hash = fields.v2Hash := by
    rw [Store.torrent, hlookup, if_pos rfl]
    cases hold : lookup TorrentRow.qbitId store.torrents qbitId with
    | none => exact ⟨_, rfl, rfl, rfl, rfl, rfl, rfl⟩
    | some old =>
      obtain ⟨hmem, hid⟩ := lookup_eq_some_mem hold
      refine ⟨_, rfl, ?_, rfl, rfl, rfl, rfl⟩
      rw [← hid]
      exact htorrents.identified old hmem
  have hothers : ∀ other, other ≠ qbitId → store'.torrent other = store.torrent other :=
    fun other hne => (hlookup other).trans (if_neg hne)
  have hunique := unique_upsertTorrent hupsert htorrents.unique
  refine ⟨fields, hfields, ⟨hunique, fun row hmem => ?_⟩, hothers, hrow, hresult⟩
  have hrow' : store'.torrent row.qbitId = some row := UniqueKey.lookup_of_mem hunique hmem rfl
  by_cases heq : row.qbitId = qbitId
  · obtain ⟨new, hnew, hid, -⟩ := hrow
    rw [heq] at hrow'
    rw [heq, ← hid, Option.some_inj.mp (hrow'.symm.trans hnew)]
  · rw [hothers _ heq] at hrow'
    exact htorrents.identified row (lookup_eq_some_mem hrow').1

/-- Which completion a record brings about. -/
theorem completion_eq_some_iff {fields : Fields} {existing : Option TorrentRow}
    {delta : InventoryDelta} {detectCompletions : Bool} {now completedAt : ℤ} :
    fields.completion existing delta detectCompletions now = some completedAt
      ↔ detectCompletions = true ∧ (∃ old, existing = some old ∧ old.isComplete = false)
        ∧ fields.isComplete = true ∧ fields.completedAt existing delta now = some completedAt := by
  rw [Fields.completion, Fields.becameComplete]
  cases existing with
  | none => simp
  | some old =>
    simp only [Option.any_some, Bool.and_eq_true, Bool.not_eq_true']
    by_cases hbecame : (detectCompletions = true ∧ old.isComplete = false)
      ∧ fields.isComplete = true
    · simp [hbecame]
    · rw [if_neg hbecame]
      simp only [reduceCtorEq, false_iff]
      rintro ⟨hdetect, ⟨old', heq, hold⟩, hcomplete, -⟩
      cases heq
      exact hbecame ⟨⟨hdetect, hold⟩, hcomplete⟩

/-- An update of the rows that keeps who they are and whether they are complete completes nothing.
-/
theorem Torrents.map {g : TorrentRow → TorrentRow}
    (hg : ∀ row, (g row).qbitId = row.qbitId ∧ (g row).id = row.id
      ∧ (g row).isComplete = row.isComplete)
    (h : Torrents codec store) (hstore : store'.torrents = store.torrents.map g) :
    Torrents codec store' ∧ ∀ p, ¬ Completes store store' p := by
  refine ⟨⟨?_, ?_⟩, ?_⟩
  · rw [hstore, UniqueKey, List.map_map,
      show TorrentRow.qbitId ∘ g = TorrentRow.qbitId from funext fun row => (hg row).1]
    exact h.unique
  · rw [hstore]
    intro row hmem
    obtain ⟨old, hold, rfl⟩ := List.mem_map.mp hmem
    rw [(hg old).1, (hg old).2.1, h.identified old hold]
  · rintro p ⟨old, hold, new, hnew, hid, hincomplete, hcomplete, -⟩
    rw [hstore] at hnew
    obtain ⟨row, hrow, rfl⟩ := List.mem_map.mp hnew
    rw [(hg row).1] at hid
    obtain rfl := List.inj_on_of_nodup_map h.unique hold hrow hid
    rw [(hg old).2.2, hincomplete] at hcomplete
    cases hcomplete

/-- The completion of a record is the one that it brings about. -/
theorem completes_projectTorrent_iff {qbitId : String} {delta : InventoryDelta} {generation : ℕ}
    {manifestNeeded : Bool} {now : ℤ} {completion : Option CompletionTransition} {fields : Fields}
    (htorrents : Torrents codec store)
    (hfields : mergeFields (store.torrent qbitId) delta = .ok fields)
    (h : projectTorrent codec store qbitId delta generation store.inventory.baselineAt.isSome now
      = .ok (store', completion, manifestNeeded)) (p : Id × ℤ) :
    (store.inventory.baselineAt.isSome = true ∧ Completes store store' p)
      ↔ fields.completion (store.torrent qbitId) delta store.inventory.baselineAt.isSome now =
        some p.2
        ∧ p.1 = sourceId codec qbitId := by
  obtain ⟨fields', hfields', htorrents', hothers,
      ⟨row, hrow, hid, hcomplete, hcompletedAt, -⟩, -⟩ :=
    torrent_projectTorrent htorrents h
  obtain rfl : fields = fields' := Except.ok.inj (hfields.symm.trans hfields')
  rw [completion_eq_some_iff]
  constructor
  · rintro ⟨hbaseline, old, hold, new, hnew, hqbitId, hincomplete, hnewComplete, hp₁, hp₂⟩
    have hold' : store.torrent old.qbitId = some old :=
      UniqueKey.lookup_of_mem htorrents.unique hold rfl
    have hnew' : store'.torrent new.qbitId = some new :=
      UniqueKey.lookup_of_mem htorrents'.unique hnew rfl
    by_cases heq : new.qbitId = qbitId
    · rw [heq] at hnew' hqbitId
      obtain rfl : row = new := Option.some_inj.mp (hrow.symm.trans hnew')
      rw [hqbitId] at hold'
      refine ⟨⟨hbaseline, ⟨old, hold', hincomplete⟩, ?_, ?_⟩, ?_⟩
      · rw [← hcomplete]
        exact hnewComplete
      · rw [← hcompletedAt]
        exact hp₂
      · rw [← hp₁, hid]
    · rw [hothers _ heq, ← hqbitId, hold'] at hnew'
      obtain rfl : old = new := Option.some_inj.mp hnew'
      rw [hincomplete] at hnewComplete
      cases hnewComplete
  · rintro ⟨⟨hbaseline, ⟨old, hold, hincomplete⟩, hfieldsComplete, hfieldsCompletedAt⟩, hp⟩
    obtain ⟨hmem, hqbitId⟩ := lookup_eq_some_mem hold
    obtain ⟨hmem', hqbitId'⟩ := lookup_eq_some_mem hrow
    refine ⟨hbaseline, old, hmem, row, hmem', hqbitId.trans hqbitId'.symm, hincomplete, ?_, ?_, ?_⟩
    · rw [hcomplete, hfieldsComplete]
    · rw [hid, hp]
    · rw [hcompletedAt, hfieldsCompletedAt]

/-! ### Recording -/

/-- The torrents, and the tables in step with completions of a set. -/
structure Recording (codec : QbitCodec) (completions : Set (Id × ℤ)) (recorded : List (Id × ℤ))
    (store : Store) : Prop where
  torrents : Torrents codec store
  lockstep : Lockstep codec.completion recorded store
  subset : ∀ p ∈ recorded, p ∈ completions

/-- A step that changes the torrents alone and completes none of them. -/
theorem Recording.of_not_completes {completions : Set (Id × ℤ)} {recorded : List (Id × ℤ)}
    (h : Recording codec completions recorded store)
    (hstore : Torrents codec store' ∧ ∀ p, ¬ Completes store store' p)
    (hdb : store'.db = store.db) (hoperations : store'.operations = store.operations)
    (hcompletions : store'.completions = store.completions) :
    ∃ recorded', Recording codec completions recorded' store'
      ∧ ∀ p, p ∈ recorded' ↔ p ∈ recorded ∨ RecordedIn [(store, store')] p := by
  refine ⟨recorded, ⟨hstore.1, h.lockstep.of_eq hdb hoperations hcompletions,
    h.subset⟩, fun p => ?_⟩
  refine ⟨.inl, ?_⟩
  rintro (hp | ⟨step, hstep, -, hcompletes⟩)
  · exact hp
  · obtain rfl := List.mem_singleton.mp hstep
    exact absurd hcompletes (hstore.2 p)

theorem recordedIn_singleton {p : Id × ℤ} :
    RecordedIn [(store, store')] p
      ↔ store.inventory.baselineAt.isSome = true ∧ Completes store store' p := by
  simp [RecordedIn]

/-- **One change** records the completion that it brings about. -/
theorem Recording.change {completions : Set (Id × ℤ)} {recorded : List (Id × ℤ)} {generation : ℕ}
    {now : ℤ} {batch batch' : ProjectionBatch} {change : InventoryChange}
    (hseparates : Separates codec.completion completions)
    (hsubset : ∀ p, RecordedIn [(store, store')] p → p ∈ completions)
    (hrecording : Recording codec completions recorded store)
    (h : projectChange codec generation store.inventory.baselineAt.isSome now (store, batch) change
      = .ok (store', batch')) :
    ∃ recorded', Recording codec completions recorded' store'
      ∧ ∀ p, p ∈ recorded' ↔ p ∈ recorded ∨ RecordedIn [(store, store')] p := by
  cases change with
  | removed changed =>
    obtain ⟨rfl, -⟩ : removeTorrent store changed now = store' ∧ _ := by
      simpa [projectChange] using h
    refine hrecording.of_not_completes (Torrents.map (g := fun row =>
      if row.qbitId = changed then removedRow now row
        else row) ?_ hrecording.torrents rfl) rfl rfl rfl
    intro row
    split <;> exact ⟨rfl, rfl, rfl⟩
  | upsert changed delta =>
    obtain ⟨⟨store₁, completion, manifestNeeded⟩, hproject, h⟩ := bind_eq_ok.mp h
    obtain ⟨rfl, -⟩ : store₁ = store' ∧ _ := by simpa [pure, Except.pure] using h
    obtain ⟨fields, hfields, htorrents, -, -, hresult⟩ :=
      torrent_projectTorrent hrecording.torrents hproject
    have hcompletes := completes_projectTorrent_iff hrecording.torrents hfields hproject
    rcases hresult with ⟨hnone, hstore⟩ | ⟨completedAt, accepted, hsome, haccept⟩
    · refine ⟨recorded, ⟨htorrents, ?_, hrecording.subset⟩, fun p => ?_⟩
      · rw [hstore]
        exact hrecording.lockstep.of_eq rfl rfl rfl
      · rw [recordedIn_singleton, hcompletes, hnone]
        simp
    · have hrecorded : ∀ p, RecordedIn [(store, store₁)] p
          ↔ p = (sourceId codec changed, completedAt) := by
        intro p
        rw [recordedIn_singleton, hcompletes, hsome, Prod.ext_iff, Option.some_inj,
          eq_comm, and_comm]
      have hlock : Lockstep codec.completion recorded { store with torrents := store₁.torrents } :=
        hrecording.lockstep.of_eq rfl rfl rfl
      have hnew : (sourceId codec changed, completedAt) ∈ completions :=
        hsubset _ ((hrecorded _).mpr rfl)
      have hseparates' : Separates codec.completion
          {p | p = (sourceId codec changed, completedAt) ∨ p ∈ recorded} := by
        refine hseparates.mono ?_
        rintro p (rfl | hp)
        · exact hnew
        · exact hrecording.subset p hp
      have hmem : ∀ p, p ∈ insertOrIgnore id recorded (sourceId codec changed, completedAt)
          ↔ p ∈ recorded ∨ RecordedIn [(store, store₁)] p := by
        intro p
        rw [hrecorded, insertOrIgnore]
        split
        · rename_i hknown
          refine ⟨.inl, ?_⟩
          rintro (hp | rfl)
          · exact hp
          · simpa using lookup_isSome_iff.mp hknown
        · simp
      refine ⟨_, ⟨htorrents, hlock.accept hseparates' haccept, fun p hp => ?_⟩, hmem⟩
      rcases (hmem p).mp hp with hp | hp
      · exact hrecording.subset p hp
      · exact hsubset p hp

/-- **One step.** -/
theorem Recording.step {completions : Set (Id × ℤ)} {recorded : List (Id × ℤ)}
    {attempts : List Attempt} (hseparates : Separates codec.completion completions)
    (hsubset : ∀ p, RecordedIn [(store, store')] p → p ∈ completions)
    (hrecording : Recording codec completions recorded store)
    (h : Step codec attempts store store') :
    ∃ recorded', Recording codec completions recorded' store'
      ∧ ∀ p, p ∈ recorded' ↔ p ∈ recorded ∨ RecordedIn [(store, store')] p := by
  cases h with
  | change attempt generation batch batch' change _ _ h =>
    exact hrecording.change hseparates hsubset h
  | finish attempt generation _ h =>
    obtain ⟨inventory, rfl, -⟩ := Attempt.finish_eq_some h
    split
    · refine hrecording.of_not_completes (Torrents.map (g := sweptRow generation attempt.now) ?_
        hrecording.torrents rfl) rfl rfl rfl
      intro row
      unfold sweptRow
      split <;> exact ⟨rfl, rfl, rfl⟩
    · refine hrecording.of_not_completes (Torrents.map (g := id) (fun row => ⟨rfl, rfl, rfl⟩)
        hrecording.torrents (List.map_id _).symm) rfl rfl rfl

/-- **A path** records the completions of its steps. -/
theorem Recording.path {completions : Set (Id × ℤ)} {attempts : List Attempt}
    {steps : List (Store × Store)} (hseparates : Separates codec.completion completions)
    (hpath : Path (Step codec attempts) store steps store')
    (hsubset : ∀ p, RecordedIn steps p → p ∈ completions) {recorded : List (Id × ℤ)}
    (hrecording : Recording codec completions recorded store) :
    ∃ recorded', Recording codec completions recorded' store'
      ∧ ∀ p, p ∈ recorded' ↔ p ∈ recorded ∨ RecordedIn steps p := by
  induction hpath generalizing recorded with
  | nil s => exact ⟨recorded, hrecording, fun p => by simp [RecordedIn]⟩
  | @cons s s₁ s₂ steps hstep hrest ih =>
    have hcons : ∀ p, RecordedIn ((s, s₁) :: steps) p ↔ RecordedIn [(s, s₁)] p
        ∨ RecordedIn steps p := by
      intro p
      simp [RecordedIn]
    obtain ⟨recorded₁, hrecording₁, hmem₁⟩ :=
      hrecording.step hseparates (fun p hp => hsubset p ((hcons p).mpr (.inl hp))) hstep
    obtain ⟨recorded₂, hrecording₂, hmem₂⟩ :=
      ih (fun p hp => hsubset p ((hcons p).mpr (.inr hp))) hrecording₁
    refine ⟨recorded₂, hrecording₂, fun p => ?_⟩
    rw [hmem₂, hmem₁, hcons, or_assoc]

end

/-! ### The rows of a completion -/

/-- The numbers of the rows of a completion in the tables. -/
structure RowCounts where
  completions : ℕ
  operations : ℕ
  tasks : ℕ
  events : ℕ
  requests : ℕ
  deriving DecidableEq, Repr

/-- The rows of one completion in each table. -/
def rowCounts (codec : CompletionCodec) (store : Store) (sourceId : Id)
    (completedAt : ℤ) : RowCounts where
  completions :=
    store.completions.countP fun row => row.sourceId = sourceId ∧ row.completedAt = completedAt
  operations := store.operations.countP fun row => row.id = operationId codec sourceId completedAt
  tasks := store.db.tasks.countP fun row => row.id = taskId codec sourceId completedAt
  events := store.db.events.countP fun row =>
    row.taskId = taskId codec sourceId completedAt ∧ row.sequence = 0
  requests := store.db.outbox.countP fun row => row.taskId = taskId codec sourceId completedAt

/-- Tables in step have one row each for a completion that is recorded, and none for another. -/
theorem Lockstep.rowCounts {codec : CompletionCodec} {recorded : List (Id × ℤ)} {store : Store}
    {completions : Set (Id × ℤ)} (hseparates : Separates codec completions)
    (hlock : Lockstep codec recorded store)
    (hsubset : ∀ p ∈ recorded, p ∈ completions) (sourceId : Id) (completedAt : ℤ)
    (hmem : (sourceId, completedAt) ∈ completions) :
    rowCounts codec store sourceId completedAt
      = if (sourceId, completedAt) ∈ recorded then ⟨1, 1, 1, 1, 1⟩ else ⟨0, 0, 0, 0, 0⟩ := by
  have htask : ∀ p ∈ recorded, taskId codec p.1 p.2 = taskId codec sourceId completedAt →
      p = (sourceId, completedAt) :=
    fun p hp => hseparates.task p (hsubset p hp) (sourceId, completedAt) hmem
  have hcompletions :=
    countP_of_map_eq id (sourceId, completedAt) (by simpa using hlock.completions)
    hlock.nodup (fun p _ h => h)
    (p := fun row : CompletionRow => row.sourceId = sourceId ∧ row.completedAt = completedAt)
    fun row => by simp [CompletionRow.key]
  have hoperations := countP_of_map_eq (fun p : Id × ℤ => operationId codec p.1 p.2)
    (sourceId, completedAt) hlock.operations hlock.nodup
    (fun p hp => hseparates.operation p (hsubset p hp) (sourceId, completedAt) hmem)
    (p := fun row => row.id = operationId codec sourceId completedAt) fun row => by simp
  have htasks := countP_of_map_eq (fun p : Id × ℤ => taskId codec p.1 p.2)
    (sourceId, completedAt) hlock.tasks hlock.nodup htask
    (p := fun row => row.id = taskId codec sourceId completedAt) fun row => by simp
  have hevents := countP_of_map_eq (fun p : Id × ℤ => (taskId codec p.1 p.2, 0))
    (sourceId, completedAt) hlock.events hlock.nodup (fun p hp h => htask p hp (Prod.mk.inj h).1)
    (p := fun row => row.taskId = taskId codec sourceId completedAt ∧ row.sequence = 0)
    fun row => by simp [EventRow.key]
  have hrequests := countP_of_map_eq (fun p : Id × ℤ => taskId codec p.1 p.2)
    (sourceId, completedAt) hlock.requestTasks hlock.nodup htask
    (p := fun row => row.taskId = taskId codec sourceId completedAt) fun row => by simp
  rw [CompletionOnce.rowCounts, hcompletions, hoperations, htasks, hevents, hrequests]
  split <;> rfl

/-! ### The times of completions -/

/-- The values of `i64`. -/
def IsI64 (value : ℤ) : Prop := -2 ^ 63 ≤ value ∧ value < 2 ^ 63

instance (value : ℤ) : Decidable (IsI64 value) :=
  inferInstanceAs (Decidable (-2 ^ 63 ≤ value ∧ value < 2 ^ 63))

/-- The times of an attempt are values of their type. -/
structure AttemptTimes (attempt : Attempt) : Prop where
  now : IsI64 attempt.now
  completionOn : ∀ qbitId delta, InventoryChange.upsert qbitId delta ∈ attempt.changes →
    ∀ time, delta.completionOn = some time → IsI64 time

/-- The rows of the torrents, with times that are values of their type. -/
structure TimedTorrents (codec : QbitCodec) (store : Store) :
    Prop extends Torrents codec store where
  completedAt : ∀ row ∈ store.torrents, ∀ time, row.completedAt = some time → IsI64 time

section

variable {codec : QbitCodec} {store store' : Store}

/-- The time of a completion is that of the attempt, of the record or of the row. -/
theorem Fields.completedAt_of {P : ℤ → Prop} {fields : Fields} {existing : Option TorrentRow}
    {delta : InventoryDelta} {now time : ℤ} (hnow : P now)
    (hdelta : ∀ time, delta.completionOn = some time → P time)
    (hexisting : ∀ time, existing.bind TorrentRow.completedAt = some time → P time)
    (h : fields.completedAt existing delta now = some time) : P time := by
  rw [Fields.completedAt, timestamp] at h
  split_ifs at h
  · obtain rfl := Option.some_inj.mp h
    cases hfilter : delta.completionOn.filter (0 < ·) with
    | some completionOn => exact hdelta _ (Option.filter_eq_some_iff.mp hfilter).1
    | none =>
      rw [Option.none_or]
      cases hcompletedAt : existing.bind TorrentRow.completedAt with
      | some completedAt => exact hexisting _ hcompletedAt
      | none => exact hnow
  · exact hexisting _ h

theorem TimedTorrents.map {g : TorrentRow → TorrentRow}
    (hg : ∀ row, (g row).qbitId = row.qbitId ∧ (g row).id = row.id
      ∧ (g row).isComplete = row.isComplete)
    (htimes : ∀ row, (g row).completedAt = row.completedAt)
    (h : TimedTorrents codec store) (hstore : store'.torrents = store.torrents.map g) :
    TimedTorrents codec store' := by
  refine ⟨(h.toTorrents.map hg hstore).1, fun row hmem time htime => ?_⟩
  rw [hstore] at hmem
  obtain ⟨old, hold, rfl⟩ := List.mem_map.mp hmem
  exact h.completedAt old hold time ((htimes old).symm.trans htime)

/-- **One step** keeps the times. -/
theorem TimedTorrents.step {attempts : List Attempt}
    (htimes : ∀ attempt ∈ attempts, AttemptTimes attempt) (h : TimedTorrents codec store)
    (hstep : Step codec attempts store store') : TimedTorrents codec store' := by
  cases hstep with
  | change attempt generation batch batch' change hattempt hmem hchange =>
    cases change with
    | removed changed =>
      obtain ⟨rfl, -⟩ : removeTorrent store changed attempt.now = store' ∧ _ := by
        simpa [projectChange] using hchange
      refine h.map (g := fun row => if row.qbitId = changed
        then removedRow attempt.now row else row)
        (fun row => ?_) (fun row => ?_) rfl
      · split <;> exact ⟨rfl, rfl, rfl⟩
      · split <;> rfl
    | upsert changed delta =>
      obtain ⟨⟨store₁, completion, manifestNeeded⟩, hproject, hresult⟩ := bind_eq_ok.mp hchange
      obtain ⟨rfl, -⟩ : store₁ = store' ∧ _ := by simpa [pure, Except.pure] using hresult
      obtain ⟨fields, -, htorrents, hothers, ⟨new, hnew, -, -, hcompletedAt, -⟩, -⟩ :=
        torrent_projectTorrent h.toTorrents hproject
      refine ⟨htorrents, fun row hrow time htime => ?_⟩
      have hrow' : store₁.torrent row.qbitId = some row :=
        UniqueKey.lookup_of_mem htorrents.unique hrow rfl
      by_cases heq : row.qbitId = changed
      · rw [heq] at hrow'
        obtain rfl : row = new := Option.some_inj.mp (hrow'.symm.trans hnew)
        refine Fields.completedAt_of (htimes attempt hattempt).now
          ((htimes attempt hattempt).completionOn changed delta hmem) (fun time hold => ?_)
          (hcompletedAt.symm.trans htime)
        obtain ⟨old, hold, hold'⟩ := Option.bind_eq_some_iff.mp hold
        exact h.completedAt old (lookup_eq_some_mem hold).1 time hold'
      · rw [hothers _ heq] at hrow'
        exact h.completedAt row (lookup_eq_some_mem hrow').1 time htime
  | finish attempt generation _ hfinish =>
    obtain ⟨inventory, rfl, -⟩ := Attempt.finish_eq_some hfinish
    split
    · refine h.map (g := sweptRow generation attempt.now) (fun row => ?_) (fun row => ?_) rfl
      · unfold sweptRow
        split <;> exact ⟨rfl, rfl, rfl⟩
      · unfold sweptRow
        split <;> rfl
    · exact ⟨⟨h.unique, h.identified⟩, h.completedAt⟩

theorem torrents_empty (codec : QbitCodec) : TimedTorrents codec Store.empty := by
  constructor
  · constructor <;> simp [Store.empty, UniqueKey]
  · simp [Store.empty]

/-- The times of the completions that a history records. -/
theorem recorded_isI64 {history : List Attempt} (htimes : ∀ attempt ∈ history, AttemptTimes attempt)
    {p : Id × ℤ} (h : Recorded codec history p) : IsI64 p.2 := by
  obtain ⟨step, hmem, -, old, -, new, hnew, -, -, -, -, hcompletedAt⟩ := h
  have hinvariant := (path_steps codec history Store.empty).invariant
    (I := TimedTorrents codec) (fun _ _ hstep h => h.step htimes hstep) (torrents_empty codec)
  exact (hinvariant.2 step hmem).2.2.completedAt new hnew p.2 hcompletedAt

end

/-! ### The names of completions -/

/-- SHA-256, of which 16 bytes are kept, has no collision among the texts that name completions. -/
def NoCollision (codec : CompletionCodec) (completions : Set (Id × ℤ)) : Prop :=
  ∀ name ∈ ["qbit-completion-operation", "qbit-completion-task", "qbit-completion-key"],
    Set.InjOn (fun message => first16 (codec.sha256 message))
      {message | ∃ p ∈ completions, message = identityBytes name p.1 p.2}

theorem timeBytes_inj {time time' : ℤ} (htime : IsI64 time) (htime' : IsI64 time')
    (h : timeBytes time = timeBytes time') : time = time' := by
  obtain ⟨hlow, hhigh⟩ := htime
  obtain ⟨hlow', hhigh'⟩ := htime'
  have hrange : ∀ t : ℤ, (t % 2 ^ 64).toNat < 2 ^ 64 := by
    intro t
    have := Int.emod_lt_of_pos t (show (0 : ℤ) < 2 ^ 64 by decide)
    omega
  have hmod := generationBytes_inj (hrange time) (hrange time') h
  omega

/-- The text that names a completion tells which completion it is. -/
theorem identityBytes_inj {name : String} {p q : Id × ℤ} (hp : IsI64 p.2) (hq : IsI64 q.2)
    (h : identityBytes name p.1 p.2 = identityBytes name q.1 q.2) : p = q := by
  unfold identityBytes at h
  rw [List.append_assoc, List.append_assoc _ (idBytes q.1)] at h
  obtain ⟨hid, htime⟩ := List.append_inj (List.append_cancel_left h) (by simp [idBytes])
  exact Prod.ext (idBytes_injective hid) (timeBytes_inj hp hq htime)

theorem NoCollision.separates {codec : CompletionCodec} {completions : Set (Id × ℤ)}
    (h : NoCollision codec completions) (htimes : ∀ p ∈ completions, IsI64 p.2) :
    Separates codec completions := by
  have hname : ∀ name ∈ ["qbit-completion-operation", "qbit-completion-task",
    "qbit-completion-key"],
      ∀ p ∈ completions, ∀ q ∈ completions,
      id16 codec name p.1 p.2 = id16 codec name q.1 q.2 → p = q := by
    intro name hname p hp q hq heq
    exact identityBytes_inj (htimes p hp) (htimes q hq) (h name hname ⟨p, hp, rfl⟩ ⟨q, hq, rfl⟩ heq)
  exact ⟨hname _ (by simp), hname _ (by simp),
    fun p hp q hq heq => hname "qbit-completion-key" (by simp) p hp q hq (congrArg first16 heq)⟩

theorem recording_empty (codec : QbitCodec) (completions : Set (Id × ℤ)) :
    Recording codec completions [] Store.empty :=
  ⟨(torrents_empty codec).toTorrents, ⟨by simp, rfl, rfl, rfl, rfl, rfl, rfl, rfl,
    rfl, rfl⟩, by simp⟩

/-- **Completions.** After any history of attempts, with any batches that fail and any that are sent
again, each table has one row of a completion if a change after the baseline has brought it about,
and else none. -/
theorem completion_recorded_once (codec : QbitCodec) (history : List Attempt) (source : Id)
    (completedAt : ℤ) (htimes : ∀ attempt ∈ history, AttemptTimes attempt)
    (hcompletedAt : IsI64 completedAt) (hsha256 : NoCollision codec.completion
      {p | p = (source, completedAt) ∨ Recorded codec history p}) :
    (Recorded codec history (source, completedAt) →
      rowCounts codec.completion (runAttempts codec Store.empty history) source completedAt
        = ⟨1, 1, 1, 1, 1⟩)
      ∧ (¬ Recorded codec history (source, completedAt) →
        rowCounts codec.completion (runAttempts codec Store.empty history) source completedAt
          = ⟨0, 0, 0, 0, 0⟩) := by
  have hseparates := hsha256.separates (by
    rintro p (rfl | hp)
    · exact hcompletedAt
    · exact recorded_isI64 htimes hp)
  obtain ⟨recorded, hrecording, hmem⟩ := (recording_empty codec _).path hseparates
    (path_steps codec history Store.empty) (fun p hp => .inr hp)
  have hcounts :=
    hrecording.lockstep.rowCounts hseparates hrecording.subset source completedAt (.inl rfl)
  have hrecorded : (source, completedAt) ∈ recorded
      ↔ Recorded codec history (source, completedAt) := by
    rw [hmem]
    exact or_iff_right (by simp)
  rw [hcounts]
  exact ⟨fun h => if_pos (hrecorded.mpr h), fun h => if_neg fun h' => h (hrecorded.mp h')⟩

/-- A record that changes the progress of a torrent. -/
def progressDelta (amountLeft : ℕ) (progress : ℚ) (state : String)
    (completionOn : ℤ) : InventoryDelta :=
  ⟨none, none, none, none, some amountLeft, some progress, some state, none, none, none, none, none,
    some completionOn⟩

/-- The record that completes the torrent at a time. -/
def completing (completionOn : ℤ) : InventoryChange :=
  .upsert downloadingTorrent.hash (progressDelta 0 1 "uploading" completionOn)

/-- The torrent is completed, the record is sent again, and after a recheck the torrent is completed
at another time. -/
def recheckedHistory : List Attempt :=
  [.sync 1 true [[downloadingTorrent.change]] true 10,
    .sync 2 false [[completing 15]] false 20,
    .sync 2 false [[completing 15]] true 30,
    .sync 3 false [[.upsert downloadingTorrent.hash (progressDelta 50 (1 / 2) "downloading" (-1))]]
      true 40,
    .sync 4 false [[completing 45]] true 50]

/-- The source of a torrent that is downloading. -/
def downloadingSource : Id := sourceId .ascii downloadingTorrent.hash

theorem recorded_recheckedHistory (p : Id × ℤ) (h : Recorded .ascii recheckedHistory p) :
    p ∈ [(downloadingSource, 15), (downloadingSource, 45)] := by
  obtain ⟨step, hmem, hbaseline, old, hold, new, hnew, hqbitId, hincomplete, hcomplete, hid, hat⟩ :=
    h
  have hsteps : ∀ step ∈ steps .ascii Store.empty recheckedHistory, ∀ old ∈ step.1.torrents,
      ∀ new ∈ step.2.torrents, old.isComplete = false → new.isComplete = true →
        (new.id, new.completedAt.getD 0) ∈ [(downloadingSource, 15), (downloadingSource, 45)] := by
    decide +kernel
  have hin := hsteps step hmem old hold new hnew hincomplete hcomplete
  rwa [hid, hat, Option.getD_some] at hin

/-- The times of completion in a change are integers of a column. -/
def completionTimesOk : InventoryChange → Bool
  | .upsert _ delta => delta.completionOn.all fun time => IsI64 time
  | .removed _ => true

theorem completion_recorded_once_rechecked :
    (∀ attempt ∈ recheckedHistory, AttemptTimes attempt) ∧ IsI64 15
      ∧ NoCollision CompletionCodec.serde
        {p | p = (downloadingSource, 15) ∨ Recorded .ascii recheckedHistory p}
      ∧ Recorded .ascii recheckedHistory (downloadingSource, 15)
      ∧ rowCounts CompletionCodec.serde (runAttempts .ascii Store.empty recheckedHistory)
        downloadingSource 15 = ⟨1, 1, 1, 1, 1⟩ := by
  have htimes : ∀ attempt ∈ recheckedHistory, AttemptTimes attempt := by
    have hnow : ∀ attempt ∈ recheckedHistory, IsI64 attempt.now := by decide +kernel
    have hchanges : ∀ attempt ∈ recheckedHistory, ∀ change ∈ attempt.changes,
        completionTimesOk change = true := by
      decide +kernel
    refine fun attempt hattempt => ⟨hnow attempt hattempt, fun qbitId delta hmem time htime => ?_⟩
    simpa [completionTimesOk, htime] using hchanges attempt hattempt _ hmem
  have hsha256 : NoCollision CompletionCodec.serde
      {p | p = (downloadingSource, 15) ∨ Recorded .ascii recheckedHistory p} := by
    have hin : ∀ p, p = (downloadingSource, 15) ∨ Recorded .ascii recheckedHistory p →
        p ∈ [(downloadingSource, 15), (downloadingSource, 45)] := by
      rintro p (rfl | hp)
      · simp
      · exact recorded_recheckedHistory p hp
    have hdistinct : ∀ name ∈
        ["qbit-completion-operation", "qbit-completion-task", "qbit-completion-key"],
        id16 CompletionCodec.serde name downloadingSource 15
          ≠ id16 CompletionCodec.serde name downloadingSource 45 := by
      decide +kernel
    rintro name hname _ ⟨p, hp, rfl⟩ _ ⟨q, hq, rfl⟩ heq
    have hne := hdistinct name hname
    rcases List.mem_pair.mp (hin p hp) with rfl | rfl <;>
      rcases List.mem_pair.mp (hin q hq) with rfl | rfl
    · rfl
    · exact absurd heq hne
    · exact absurd heq.symm hne
    · rfl
  have hrecorded : Recorded .ascii recheckedHistory (downloadingSource, 15) := by
    unfold Recorded RecordedIn Completes
    decide +kernel
  exact ⟨htimes, by decide, hsha256, hrecorded,
    (completion_recorded_once .ascii recheckedHistory downloadingSource 15 htimes (by decide)
      hsha256).1 hrecorded⟩

end Sporos.Service.CompletionOnce
