import Sporos.Service.Tables
import Sporos.Service.Duroxide
import Sporos.Service.TaskProjection

/-! # The outbox

`claim`, `mark_dispatched`, `mark_permanent`, `mark_retry` and `retry_delay` of `outbox.rs`. A
dispatcher leases the rows that are due, starts their instances, and writes the outcome to the rows
of which it still has the lease. -/

namespace Sporos.Service.Outbox

open Sporos.Service.Tables
open Sporos.Service.TaskProjection
open Sporos.Service.Duroxide
open Sporos.Lib.Table

/-- Why a dispatch is not recorded. -/
inductive DispatchError where
  | timeOverflow
  | attemptOverflow
  | lostLease (id : ℕ)
  deriving DecidableEq, Repr

/-- `INITIAL_BACKOFF_MS`. -/
def initialBackoffMs : ℕ := 1000

/-- `MAX_BACKOFF_MS`. -/
def maxBackoffMs : ℕ := 5 * 60 * 1000

/-- The row is neither dispatched nor failed for good, and no lease of it is running. -/
def OutboxRow.open (now : ℤ) (row : OutboxRow) : Bool :=
  row.dispatchedAt.isNone && row.permanentFailureAt.isNone && row.leaseUntil.all (· ≤ now)

/-- The order in which rows are claimed. -/
def OutboxRow.due (row row' : OutboxRow) : Prop :=
  row.visibleAt < row'.visibleAt ∨ (row.visibleAt = row'.visibleAt ∧ row.id ≤ row'.id)

instance : DecidableRel OutboxRow.due := fun row row' =>
  inferInstanceAs (Decidable
    (row.visibleAt < row'.visibleAt ∨ (row.visibleAt = row'.visibleAt ∧ row.id ≤ row'.id)))

/-- Update the row of the outbox with an identifier. -/
def updateOutbox (db : Db) (id : ℕ) (f : OutboxRow → OutboxRow) : Db :=
  { db with outbox := updateKey OutboxRow.id db.outbox id f }

/-- Lease a row that is open. -/
def lease (now leaseUntil : ℤ) (token : Id) (row : OutboxRow) : OutboxRow :=
  if OutboxRow.open now row then
    { row with leaseToken := some token, leaseUntil := some leaseUntil }
  else row

/-- `claim`: the first rows that are due. The guarded `UPDATE` finds each row as the transaction has
read it. -/
def claim (db : Db) (now leaseUntil : ℤ) (token : Id) (batchSize : ℕ) : Db × List OutboxRow :=
  let rows :=
    ((db.outbox.filter fun row => OutboxRow.open now row && row.visibleAt ≤ now).insertionSort
      OutboxRow.due).take batchSize
  (rows.foldl (fun db row => updateOutbox db row.id (lease now leaseUntil token)) db, rows)

/-- `UPDATE sporos_outbox … WHERE id = ? AND lease_token = ?`, and `require_lease`. -/
def markLeased (db : Db) (id : ℕ) (token : Id) (f : OutboxRow → OutboxRow) :
    Except DispatchError Db :=
  if ∃ row ∈ db.outbox, row.id = id ∧ row.leaseToken = some token then
    .ok (updateOutbox db id fun row => if row.leaseToken = some token then f row else row)
  else .error (.lostLease id)

/-- `mark_dispatched`. -/
def markDispatched (db : Db) (id : ℕ) (token : Id) (now : ℤ) : Except DispatchError Db :=
  markLeased db id token fun row =>
    { row with dispatchedAt := some now, lastError := none, leaseToken := none, leaseUntil := none }

/-- `mark_permanent`. -/
def markPermanent (db : Db) (id : ℕ) (token : Id) (now : ℤ) (error : String) :
    Except DispatchError Db :=
  markLeased db id token fun row =>
    { row with
      permanentFailureAt := some now
      lastError := some error
      leaseToken := none
      leaseUntil := none }

/-- The delay before the next delivery, in milliseconds. -/
def retryDelay (id attempt : ℕ) : ℕ :=
  let base := min (initialBackoffMs * 2 ^ min (attempt - 1) 18) maxBackoffMs
  let mixed := id ^^^ (attempt * 0x9e3779b97f4a7c15 % 2 ^ 64)
  min (base + mixed % max (base / 5) 1) maxBackoffMs

example : (retryDelay 7 1, retryDelay 7 20) = (1082, 300000) := by decide

/-- `mark_retry` of a row as it was claimed. -/
def markRetry (db : Db) (start : OutboxRow) (token : Id) (now : ℤ) : Except DispatchError Db :=
  let attempt := start.attemptCount + 1
  let visibleAt := now + retryDelay start.id attempt
  if visibleAt > i64Max then .error .timeOverflow
  else if attempt > i64Max then .error .attemptOverflow
  else markLeased db start.id token fun row =>
    { row with
      attemptCount := attempt
      visibleAt
      leaseToken := none
      leaseUntil := none
      lastError := some "duroxide_start_retryable" }

/-- What a dispatcher writes after a failed start, by what the engine has of the instance. -/
def markFailed (db : Db) (start : OutboxRow) (token : Id) (now : ℤ) (retryable : Bool) :
    RootOrchestrationStart → Except DispatchError Db
  | .same => markDispatched db start.id token now
  | .collision => markPermanent db start.id token now "duroxide_identity_collision"
  | .missing =>
    if retryable then markRetry db start token now
    else markPermanent db start.id token now "duroxide_start_rejected"

/-! ### Settled rows -/

/-- The row is dispatched, or failed for good: it is not claimed again. -/
def SettledRow (row : OutboxRow) : Prop := row.dispatchedAt ≠ none ∨ row.permanentFailureAt ≠ none

/-- The update of a row keeps its instance, and does not unsettle it. -/
def KeepsSettled (f : OutboxRow → OutboxRow) : Prop :=
  ∀ row, (f row).instanceId = row.instanceId ∧ (SettledRow row → SettledRow (f row))

/-- What every write to the outbox keeps: that instances are unique, and that the row of an instance
is settled. -/
structure KeepsOutbox (db db' : Db) : Prop where
  unique : UniqueKey OutboxRow.instanceId db.outbox → UniqueKey OutboxRow.instanceId db'.outbox
  settled : ∀ row ∈ db.outbox, SettledRow row →
    ∃ row' ∈ db'.outbox, row'.instanceId = row.instanceId ∧ SettledRow row'

theorem KeepsOutbox.of_eq {db db' : Db} (h : db'.outbox = db.outbox) : KeepsOutbox db db' := by
  constructor
  · rw [h]; exact fun hunique => hunique
  · rw [h]; exact fun row hrow hsettled => ⟨row, hrow, rfl, hsettled⟩

theorem KeepsOutbox.refl (db : Db) : KeepsOutbox db db := .of_eq rfl

theorem KeepsOutbox.trans {db₁ db₂ db₃ : Db} (h : KeepsOutbox db₁ db₂) (h' : KeepsOutbox db₂ db₃) :
    KeepsOutbox db₁ db₃ := by
  refine ⟨fun hunique => h'.unique (h.unique hunique), fun row hrow hsettled => ?_⟩
  obtain ⟨row₁, hrow₁, hid₁, hsettled₁⟩ := h.settled row hrow hsettled
  obtain ⟨row₂, hrow₂, hid₂, hsettled₂⟩ := h'.settled row₁ hrow₁ hsettled₁
  exact ⟨row₂, hrow₂, hid₂.trans hid₁, hsettled₂⟩

/-- A start request for a new instance. -/
theorem KeepsOutbox.append {db db' : Db} {start : OutboxRow}
    (hfree : lookup OutboxRow.instanceId db.outbox start.instanceId = none)
    (h : db'.outbox = db.outbox ++ [start]) : KeepsOutbox db db' := by
  constructor
  · rw [h]; exact fun hunique => unique_append hunique hfree
  · rw [h]; exact fun row hrow hsettled => ⟨row, List.mem_append_left _ hrow, rfl, hsettled⟩

theorem keepsOutbox_updateOutbox (db : Db) (id : ℕ) {f : OutboxRow → OutboxRow}
    (hf : KeepsSettled f) : KeepsOutbox db (updateOutbox db id f) := by
  have hinstances : (updateOutbox db id f).outbox.map OutboxRow.instanceId
      = db.outbox.map OutboxRow.instanceId := map_updateKey (fun row => (hf row).1) id
  refine ⟨fun hunique => ?_, fun row hrow hsettled => ?_⟩
  · rw [UniqueKey, hinstances]; exact hunique
  refine ⟨if row.id = id then f row else row, mem_updateKey.mpr ⟨row, hrow, rfl⟩, ?_, ?_⟩
  · split_ifs
    · exact (hf row).1
    · rfl
  · split_ifs
    · exact (hf row).2 hsettled
    · exact hsettled

theorem keepsOutbox_claim (db : Db) (now leaseUntil : ℤ) (token : Id) (batchSize : ℕ) :
    KeepsOutbox db (claim db now leaseUntil token batchSize).1 := by
  have hlease : KeepsSettled (lease now leaseUntil token) := by
    intro row
    unfold lease
    split_ifs
    · exact ⟨rfl, id⟩
    · exact ⟨rfl, id⟩
  have hfold : ∀ (rows : List OutboxRow) (db : Db), KeepsOutbox db
      (rows.foldl (fun db row => updateOutbox db row.id (lease now leaseUntil token)) db) := by
    intro rows
    induction rows with
    | nil => exact fun db => KeepsOutbox.refl db
    | cons row rows ih => exact fun db => (keepsOutbox_updateOutbox db row.id hlease).trans (ih _)
  exact hfold _ db

theorem claim_open {db : Db} {now leaseUntil : ℤ} {token : Id} {batchSize : ℕ} {row : OutboxRow}
    (h : row ∈ (claim db now leaseUntil token batchSize).2) :
      row ∈ db.outbox ∧ ¬ SettledRow row := by
  have hmem := List.mem_of_mem_take h
  rw [List.mem_insertionSort, List.mem_filter] at hmem
  refine ⟨hmem.1, ?_⟩
  have hopen := hmem.2
  simp only [OutboxRow.open, Bool.and_eq_true, Option.isNone_iff_eq_none] at hopen
  rintro (hdispatched | hfailed)
  · exact hdispatched hopen.1.1.1
  · exact hfailed hopen.1.1.2

theorem keepsOutbox_markLeased {db db' : Db} {id : ℕ} {token : Id} {f : OutboxRow → OutboxRow}
    (h : markLeased db id token f = .ok db') (hf : KeepsSettled f) : KeepsOutbox db db' := by
  unfold markLeased at h
  split_ifs at h
  obtain rfl : _ = db' := by simpa using h
  refine keepsOutbox_updateOutbox db id fun row => ?_
  split_ifs
  · exact hf row
  · exact ⟨rfl, fun hsettled => hsettled⟩

theorem keepsOutbox_markDispatched {db db' : Db} {id : ℕ} {token : Id} {now : ℤ}
    (h : markDispatched db id token now = .ok db') : KeepsOutbox db db' :=
  keepsOutbox_markLeased h fun _ => ⟨rfl, fun _ => .inl (by simp)⟩

theorem keepsOutbox_markPermanent {db db' : Db} {id : ℕ} {token : Id} {now : ℤ} {error : String}
    (h : markPermanent db id token now error = .ok db') : KeepsOutbox db db' :=
  keepsOutbox_markLeased h fun _ => ⟨rfl, fun _ => .inr (by simp)⟩

theorem keepsOutbox_markRetry {db db' : Db} {start : OutboxRow} {token : Id} {now : ℤ}
    (h : markRetry db start token now = .ok db') : KeepsOutbox db db' := by
  unfold markRetry at h
  simp only at h
  split_ifs at h
  exact keepsOutbox_markLeased h fun _ => ⟨rfl, fun hsettled => hsettled⟩

theorem keepsOutbox_markFailed {db db' : Db} {start : OutboxRow} {token : Id} {now : ℤ}
    {retryable : Bool} {existing : RootOrchestrationStart}
    (h : markFailed db start token now retryable existing = .ok db') : KeepsOutbox db db' := by
  cases existing with
  | same => exact keepsOutbox_markDispatched h
  | collision => exact keepsOutbox_markPermanent h
  | missing =>
    simp only [markFailed] at h
    split_ifs at h
    · exact keepsOutbox_markRetry h
    · exact keepsOutbox_markPermanent h

end Sporos.Service.Outbox
