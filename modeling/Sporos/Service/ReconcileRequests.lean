import Sporos.Service.Reconcile

/-! # Requests of a reconciliation

A request of a reconciliation is recorded in the inventory state, where the loop of the service
finds it. The end of any reconciliation takes it out again, also of one that had listed a part of
the inventory when the request came. So a request is kept until a reconciliation that begins its
listing after it has finished if, and only if, the next reconciliation that finishes is such a one
(`requests_kept_iff`). -/

namespace Sporos.Service.ReconcileRequests

open Sporos.Service.Tables
open Sporos.Service.Inventory
open Sporos.Service.Sources
open Sporos.Service.QbitProjection
open Sporos.Service.QbitSync
open Sporos.Service.Reconcile
open Sporos.Lib.Lists

/-- `request_qbit_reconcile`, and whether the request is new. -/
def requestQbitReconcile (store : Store) (now : ℤ) : Store × Bool :=
  if store.inventory.reconcileRequestedAt = none then
    ({ store with inventory := { store.inventory with reconcileRequestedAt := some now } }, true)
  else (store, false)

/-- A reconciliation that is going on: what it has read of the inventory state, the batches of the
last page that are not projected yet, and whether that page was short. The time of the request of
its first page is kept for the statements below. -/
structure Reconciliation where
  generation : ℕ
  detectCompletions : Bool
  now : ℤ
  firstPageAt : Option ℕ
  batches : List (List InventoryChange)
  lastPage : Bool

/-- The store, the reconciliations that are going on, and the number of events so far. -/
structure Sys where
  store : Store
  running : ℕ → Option Reconciliation
  clock : ℕ

/-- Nothing is going on. -/
def Sys.init (store : Store) : Sys := ⟨store, fun _ => none, 0⟩

/-- The steps of the reconciliations, each of which may stop at any point, the requests, and the
statements of the synchronisations. -/
inductive Event where
  | request (now : ℤ)
  | start (run : ℕ) (now : ℤ)
  | fetch (run : ℕ) (page : List InventoryTorrent)
  | project (run : ℕ)
  | finish (run : ℕ)
  | stop (run : ℕ)
  | syncBatch (changes : List InventoryChange) (generation : ℕ) (detectCompletions : Bool) (now : ℤ)
  | syncFinish (responseId : ℕ) (fullGeneration : Option ℕ) (now : ℤ)

section

variable (codec : QbitCodec) (sizes : BatchSizes)

/-- The reconciliation is over. -/
def Sys.drop (sys : Sys) (run : ℕ) : Sys :=
  { sys with running := Function.update sys.running run none }

/-- A reconciliation moves on. -/
def Sys.set (sys : Sys) (run : ℕ) (reconciliation : Reconciliation) : Sys :=
  { sys with running := Function.update sys.running run (some reconciliation) }

/-- A page that has been received. -/
def fetchPage (sys : Sys) (run : ℕ) (reconciliation : Reconciliation)
    (page : List InventoryTorrent) : Sys :=
  match page.forM validate with
  | .error _ => sys.drop run
  | .ok () =>
    sys.set run
      { reconciliation with
        firstPageAt := reconciliation.firstPageAt.or (some sys.clock)
        batches := chunks sizes.database (page.map InventoryTorrent.change)
        lastPage := page.length < sizes.inventory }

/-- The next batch of a page. -/
def projectBatch (sys : Sys) (run : ℕ) (reconciliation : Reconciliation) : Sys :=
  match reconciliation.batches with
  | [] => sys
  | batch :: batches =>
    match projectQbitBatch codec sys.store batch reconciliation.generation
      reconciliation.detectCompletions
      reconciliation.now with
    | .error _ => sys.drop run
    | .ok (store, _) => { sys.set run { reconciliation with batches } with store }

/-- The end of a reconciliation. -/
def finishRun (sys : Sys) (run : ℕ) (reconciliation : Reconciliation) : Sys :=
  match finishQbitReconcile sys.store reconciliation.generation reconciliation.now with
  | .error _ => sys.drop run
  | .ok store => { sys.drop run with store }

/-- An event, apart from the clock. -/
def Event.perform (sys : Sys) : Event → Sys
  | .request now => { sys with store := (requestQbitReconcile sys.store now).1 }
  | .start run now =>
    if (sys.running run).isSome ∨ sys.store.inventory.generation + 1 > u64Max then sys
    else sys.set run ⟨sys.store.inventory.generation + 1, sys.store.inventory.baselineAt.isSome,
      now, none, [], false⟩
  | .fetch run page =>
    match sys.running run with
    | none => sys
    | some reconciliation =>
      if reconciliation.batches = [] ∧ reconciliation.lastPage = false then
        fetchPage sizes sys run reconciliation page
      else sys
  | .project run =>
    match sys.running run with
    | none => sys
    | some reconciliation => projectBatch codec sys run reconciliation
  | .finish run =>
    match sys.running run with
    | none => sys
    | some reconciliation =>
      if reconciliation.batches = [] ∧ reconciliation.lastPage = true
        then finishRun sys run reconciliation else sys
  | .stop run => sys.drop run
  | .syncBatch changes generation detectCompletions now =>
    match projectQbitBatch codec sys.store changes generation detectCompletions now with
    | .error _ => sys
    | .ok (store, _) => { sys with store }
  | .syncFinish responseId fullGeneration now =>
    match finishQbitSync sys.store responseId fullGeneration now with
    | .error _ => sys
    | .ok store => { sys with store }

/-- The system after an event, at the next moment. -/
def Event.apply (sys : Sys) (event : Event) : Sys :=
  { event.perform codec sizes sys with clock := sys.clock + 1 }

/-- The state before the event at a position. -/
def sysAt (store : Store) (events : List Event) (n : ℕ) : Sys :=
  (events.take n).foldl (Event.apply codec sizes) (Sys.init store)

/-! ### Requests and ends -/

/-- The event at a position is a request, and it is new. -/
def Accepted (store : Store) (events : List Event) (i : ℕ) : Prop :=
  ∃ now, events[i]? = some (.request now)
    ∧ (requestQbitReconcile (sysAt codec sizes store events i).store now).2 = true

/-- A request is recorded before the event at a position. -/
def Recorded (store : Store) (events : List Event) (n : ℕ) : Prop :=
  (sysAt codec sizes store events n).store.inventory.reconcileRequestedAt ≠ none

/-- A reconciliation finishes with the event at a position. -/
def FinishesAt (store : Store) (events : List Event) (k : ℕ)
    (reconciliation : Reconciliation) : Prop :=
  ∃ run, events[k]? = some (.finish run) ∧ (sysAt codec sizes store events k).running run =
    some reconciliation
    ∧ reconciliation.batches = [] ∧ reconciliation.lastPage = true
    ∧ reconciliation.generation ≤ i64Max

/-- The reconciliation has asked for its first page after a position. -/
def ListedAfter (reconciliation : Reconciliation) (i : ℕ) : Prop :=
  ∃ p, reconciliation.firstPageAt = some p ∧ i < p

/-- A new request stays recorded until a reconciliation finishes whose first page was requested
after it. -/
def Kept (store : Store) (events : List Event) (i : ℕ) : Prop :=
  ∀ j, i < j → j ≤ events.length →
    (∀ k reconciliation, i < k → k < j → FinishesAt codec sizes store events k reconciliation →
      ¬ ListedAfter reconciliation i) →
    Recorded codec sizes store events j

end

section

variable {codec : QbitCodec} {sizes : BatchSizes} {store : Store} {events : List Event} {n : ℕ}

theorem sysAt_succ {event : Event} (h : events[n]? = some event) :
    sysAt codec sizes store events (n + 1) =
      event.apply codec sizes (sysAt codec sizes store events n) := by
  rw [sysAt, List.take_add_one, h, List.foldl_append]
  rfl

theorem finishQbitReconcile_eq (store : Store) (generation : ℕ) (now : ℤ) :
    (generation ≤ i64Max ∧ ∃ store', finishQbitReconcile store generation now = .ok store'
        ∧ store'.inventory.reconcileRequestedAt = none)
      ∨ (¬ generation ≤ i64Max ∧ ∃ error,
        finishQbitReconcile store generation now = .error error) := by
  unfold finishQbitReconcile toI64
  by_cases hrange : generation ≤ i64Max
  · rw [if_neg (not_lt.mpr hrange)]
    exact .inl ⟨hrange, _, rfl, rfl⟩
  · rw [if_pos (not_le.mp hrange)]
    exact .inr ⟨hrange, _, rfl⟩

theorem finishQbitSync_requested {store store' : Store} {responseId : ℕ}
    {fullGeneration : Option ℕ} {now : ℤ}
    (h : finishQbitSync store responseId fullGeneration now = .ok store') :
    store'.inventory.reconcileRequestedAt = store.inventory.reconcileRequestedAt := by
  unfold finishQbitSync at h
  obtain ⟨responseId', -, h⟩ := Lib.Loop.bind_eq_ok.mp h
  cases fullGeneration with
  | none =>
    obtain rfl := Except.ok.inj h
    rfl
  | some generation =>
    obtain ⟨generation', -, h⟩ := Lib.Loop.bind_eq_ok.mp h
    obtain rfl := Except.ok.inj h
    rfl

/-- **One event** keeps a recorded request, unless it is the end of a reconciliation. -/
theorem requested_perform (sys : Sys) (event : Event)
    (hrecorded : sys.store.inventory.reconcileRequestedAt ≠ none)
    (hfinish : ∀ run reconciliation, event = .finish run → sys.running run = some reconciliation →
      reconciliation.batches = [] → reconciliation.lastPage = true →
        ¬ reconciliation.generation ≤ i64Max) :
    (event.perform codec sizes sys).store.inventory.reconcileRequestedAt ≠ none := by
  cases event with
  | request now => simp [Event.perform, requestQbitReconcile, hrecorded]
  | start run now =>
    simp only [Event.perform]
    split_ifs <;> exact hrecorded
  | fetch run page =>
    simp only [Event.perform]
    split
    · exact hrecorded
    · split_ifs
      · unfold fetchPage
        split <;> exact hrecorded
      · exact hrecorded
  | project run =>
    simp only [Event.perform]
    split
    · exact hrecorded
    · unfold projectBatch
      split
      · exact hrecorded
      · split
        · exact hrecorded
        · rename_i hbatch
          simpa [(projected_projectQbitBatch hbatch).inventory] using hrecorded
  | finish run =>
    simp only [Event.perform]
    split
    · exact hrecorded
    · rename_i reconciliation hrunning
      split_ifs with hdone
      · have hrange := hfinish run reconciliation rfl hrunning hdone.1 hdone.2
        unfold finishRun
        rcases finishQbitReconcile_eq sys.store reconciliation.generation reconciliation.now
          with ⟨hle, -⟩ | ⟨-, error, herror⟩
        · exact absurd hle hrange
        · rw [herror]
          exact hrecorded
      · exact hrecorded
  | stop run => exact hrecorded
  | syncBatch changes generation detectCompletions now =>
    simp only [Event.perform]
    split
    · exact hrecorded
    · rename_i hbatch
      simpa [(projected_projectQbitBatch hbatch).inventory] using hrecorded
  | syncFinish responseId fullGeneration now =>
    simp only [Event.perform]
    split
    · exact hrecorded
    · rename_i hfinished
      simpa [finishQbitSync_requested hfinished] using hrecorded

theorem recorded_succ (hn : n < events.length) (hrecorded : Recorded codec sizes store events n)
    (hfinish : ∀ reconciliation, ¬ FinishesAt codec sizes store events n reconciliation) :
    Recorded codec sizes store events (n + 1) := by
  have hevent := List.getElem?_eq_getElem hn
  rw [Recorded, sysAt_succ hevent]
  refine requested_perform _ _ hrecorded
    fun run reconciliation heq hrunning hbatches hlast hrange => ?_
  exact hfinish reconciliation ⟨run, hevent.trans (congrArg some heq), hrunning,
    hbatches, hlast, hrange⟩

theorem not_recorded_of_finishesAt {reconciliation : Reconciliation}
    (h : FinishesAt codec sizes store events n reconciliation) :
      ¬ Recorded codec sizes store events (n + 1) := by
  obtain ⟨run, hevent, hrunning, hbatches, hlast, hrange⟩ := h
  rw [Recorded, sysAt_succ hevent, not_not]
  rcases finishQbitReconcile_eq (sysAt codec sizes store events n).store reconciliation.generation
    reconciliation.now with ⟨-, store', hok, hnone⟩ | ⟨hnot, -⟩
  · simp only [Event.apply, Event.perform, hrunning, hbatches, hlast, and_self,
      if_true, finishRun, hok]
    exact hnone
  · exact absurd hrange hnot

theorem recorded_of_accepted (h : Accepted codec sizes store events n) :
    Recorded codec sizes store events (n + 1) := by
  obtain ⟨now, hevent, hnew⟩ := h
  rw [Recorded, sysAt_succ hevent]
  simp only [Event.apply, Event.perform]
  unfold requestQbitReconcile at hnew ⊢
  split_ifs at hnew ⊢
  simp

/-- A recorded request stays until the next end of a reconciliation. -/
theorem recorded_until {i j : ℕ} (haccepted : Accepted codec sizes store events i) (hij : i + 1 ≤ j)
    (hj : j ≤ events.length)
    (hfinish : ∀ k reconciliation, i < k → k < j →
      ¬ FinishesAt codec sizes store events k reconciliation) :
    Recorded codec sizes store events j := by
  induction j, hij using Nat.le_induction with
  | base => exact recorded_of_accepted haccepted
  | succ j hij ih =>
    have hrecorded := ih (by omega) fun k reconciliation hik hkj =>
      hfinish k reconciliation hik (by omega)
    exact recorded_succ (by omega) hrecorded fun reconciliation =>
      hfinish j reconciliation (by omega) (by omega)

end

/-- **Requests are kept** until a reconciliation finishes whose first page was requested after them
if, and only if, the next reconciliation that finishes after a new request is one whose first page
was requested after it. -/
theorem requests_kept_iff (codec : QbitCodec) (sizes : BatchSizes) (store : Store)
    (events : List Event) :
    (∀ i, Accepted codec sizes store events i → Kept codec sizes store events i)
      ↔ ∀ i, Accepted codec sizes store events i → ∀ k reconciliation, i < k →
        FinishesAt codec sizes store events k reconciliation →
        (∀ k' reconciliation', i < k' → k' < k →
          ¬ FinishesAt codec sizes store events k' reconciliation') →
        ListedAfter reconciliation i := by
  constructor
  · intro hkept i haccepted k reconciliation hik hfinish hfirst
    by_contra hlisted
    have hk : k < events.length := by
      obtain ⟨run, hevent, -⟩ := hfinish
      exact (List.getElem?_eq_some_iff.mp hevent).1
    refine not_recorded_of_finishesAt hfinish (hkept i haccepted (k + 1) (by omega) (by omega) ?_)
    intro k' reconciliation' hik' hk' hfinish'
    rcases Nat.lt_succ_iff_lt_or_eq.mp hk' with hlt | rfl
    · exact absurd hfinish' (hfirst k' reconciliation' hik' hlt)
    · -- One event ends one reconciliation.
      obtain ⟨run, hevent, hrunning, -⟩ := hfinish
      obtain ⟨run', hevent', hrunning', -⟩ := hfinish'
      obtain rfl : run = run' := by simpa using hevent.symm.trans hevent'
      obtain rfl := Option.some_inj.mp (hrunning.symm.trans hrunning')
      exact hlisted
  · intro hnext i haccepted j hij hj hproper
    refine recorded_until haccepted hij hj fun k => ?_
    induction k using Nat.strong_induction_on with
    | _ k ih =>
      intro reconciliation hik hkj hfinish
      refine hproper k reconciliation hik hkj hfinish
        (hnext i haccepted k reconciliation hik hfinish ?_)
      exact fun k' reconciliation' hik' hk' => ih k' hk' reconciliation' hik' (by omega)

/-- A periodic reconciliation of an empty inventory, with a request after its page. -/
def lateRequest : List Event := [.start 0 1, .fetch 0 [], .request 5, .finish 0]

theorem request_lost : Accepted QbitCodec.ascii pairSizes Store.empty lateRequest 2
    ∧ ¬ Kept QbitCodec.ascii pairSizes Store.empty lateRequest 2 := by
  refine ⟨⟨5, rfl, rfl⟩, fun hkept => ?_⟩
  refine hkept 4 (by decide) (by decide) (fun k reconciliation hk hk' hfinish hlisted => ?_) rfl
  obtain rfl : k = 3 := by omega
  obtain ⟨run, hevent, hrunning, -⟩ := hfinish
  obtain rfl : 0 = run := by simpa [lateRequest] using hevent
  obtain ⟨p, hp, hlt⟩ := hlisted
  obtain rfl := Option.some_inj.mp (hrunning.symm.trans rfl)
  obtain rfl := Option.some_inj.mp hp
  exact absurd hlt (by decide)

end Sporos.Service.ReconcileRequests
