import Sporos.Lib.Loop
import Sporos.Vendor.Provider

/-! # What an operation of the provider may do

One case for each way in which an operation changes the store, with what it has read. An operation
that fails, or finds nothing, changes nothing. -/

namespace Sporos.Vendor.Provider

open Sporos.Lib.Loop
open Sporos.Lib.Numbered
open Sporos.Lib.Table

/-- The changes of the operations. -/
inductive Effect (s : Store) : Op → Store → Prop
  | idle (op : Op) : Effect s op s
  | enqueued {item : WorkItem} {delay : Option ℕ} {now : ℤ} {instanceId : String}
    {instances : List InstanceRow} {executions : List ExecutionRow}
    (htarget : item.target = some instanceId)
    (hreserve : reserveStart item s = .ok { s with instances, executions }) :
    Effect s (.enqueueOrchestrator item delay now)
      { s with
        instances, executions
        orchestratorQueue :=
          insert s.orchestratorQueue (newMessage instanceId item (visibleAfter now delay)) }
  | workEnqueued (item : WorkItem) (now : ℤ) :
    Effect s (.enqueueWorker item now)
      { s with workerQueue := insert s.workerQueue (newWork item now) }
  | fetched {lockToken : String} {lockTimeout : ℕ}
    {filter : Option DispatcherCapabilityFilter} {now now' : ℤ} {instanceId : String}
    {instanceLocks : List InstanceLock} {orchestratorQueue : Queue Message.entry}
    (hselect : selectInstance filter now s = some instanceId)
    (hlocks : acquireLock instanceId lockToken (now' + lockTimeout) now s.instanceLocks =
      some instanceLocks)
    (hqueue : orchestratorQueue =
      update s.orchestratorQueue (Message.mark instanceId lockToken now)
        (Message.entry_mark instanceId lockToken now))
    {name version : String} {executionId : ℕ} {history : List Event}
    (hcontext : findContext s instanceId
      ((orchestratorQueue.rows.filter (Message.has lockToken)).map Message.workItem) =
        .found name version executionId history) :
    Effect s (.fetchOrchestration lockToken lockTimeout filter now now')
      { s with instanceLocks, orchestratorQueue }
  | dropped {lockToken : String} {lockTimeout : ℕ}
    {filter : Option DispatcherCapabilityFilter} {now now' : ℤ} {instanceId : String}
    {instanceLocks : List InstanceLock} {orchestratorQueue : Queue Message.entry}
    (hselect : selectInstance filter now s = some instanceId)
    (hlocks : acquireLock instanceId lockToken (now' + lockTimeout) now s.instanceLocks =
      some instanceLocks)
    (hqueue : orchestratorQueue =
      update s.orchestratorQueue (Message.mark instanceId lockToken now)
        (Message.entry_mark instanceId lockToken now))
    (hcontext : findContext s instanceId
      ((orchestratorQueue.rows.filter (Message.has lockToken)).map Message.workItem) = .orphans) :
    Effect s (.fetchOrchestration lockToken lockTimeout filter now now')
      { s with
        orchestratorQueue := delete orchestratorQueue (Message.has lockToken)
        instanceLocks := instanceLocks.filter fun lock => lock.lockToken ≠ lockToken }
  | committed {lockToken : String} {turn : Turn} {clock : AckClock} {held : InstanceLock}
    {history : List HistoryRow}
    (hheld : s.instanceLocks.find? (fun lock => lock.lockToken = lockToken) = some held)
    (hhistory : appendHistory held.instanceId turn.executionId turn.historyDelta s.history =
      .ok history)
    (hack : ackOrchestrationItem lockToken turn clock s =
      .ok (s.commit held.instanceId lockToken turn clock history)) :
    Effect s (.ackOrchestration lockToken turn clock)
      (s.commit held.instanceId lockToken turn clock history)
  | renewed {lockToken : String} {extendFor : ℕ} {now now' : ℤ} :
    Effect s (.renewOrchestration lockToken extendFor now now')
      { s with instanceLocks := s.instanceLocks.map fun lock =>
        if lock.lockToken = lockToken ∧ now' < lock.lockedUntil
          then { lock with lockedUntil := now + extendFor }
        else lock }
  | abandoned {lockToken : String} {delay : Option ℕ} {ignoreAttempt : Bool} {now now' : ℤ}
    {held : InstanceLock}
    (hheld : s.instanceLocks.find? (fun lock => lock.lockToken = lockToken) = some held) :
    Effect s (.abandonOrchestration lockToken delay ignoreAttempt now now')
      { s with
        instanceLocks := s.instanceLocks.filter fun lock => lock.lockToken ≠ lockToken
        orchestratorQueue := update s.orchestratorQueue
          (Message.release held.instanceId delay ignoreAttempt now now')
          (Message.entry_release held.instanceId delay ignoreAttempt now now') }
  | workFetched {lockToken : String} {lockTimeout : ℕ} {session : Option SessionFetchConfig}
    {tagFilter : TagFilter}
    {now now' : ℤ} {next : Work} {sessions : List Session}
    (hnext : s.workerQueue.rows.find? (Work.available session tagFilter s.sessions now') =
      some next)
    (hsession : claimSession session next.sessionId now' s.sessions = some sessions) :
    Effect s (.fetchWork lockToken lockTimeout session tagFilter now now')
      { s with
        workerQueue := update s.workerQueue (Work.lock next.id lockToken (now + lockTimeout))
          (Work.entry_lock next.id lockToken (now + lockTimeout))
        sessions }
  | workDropped {lockToken : String} {now now' : ℤ} {row : Work} {sessions : List Session}
    (hrow : s.workerQueue.rows.find? (Work.leased lockToken now) = some row)
    (hack : ackWorkItem lockToken none now now' s =
      .ok { s with workerQueue := delete s.workerQueue (Work.leased lockToken now), sessions }) :
    Effect s (.ackWork lockToken none now now')
      { s with workerQueue := delete s.workerQueue (Work.leased lockToken now), sessions }
  | workCompleted {lockToken : String} {completion : WorkItem} {now now' : ℤ} {row : Work}
    {sessions : List Session}
    {instanceId : String} (hrow : s.workerQueue.rows.find? (Work.leased lockToken now) = some row)
    (hcompletes : completion.completes = some instanceId)
    (hack : ackWorkItem lockToken (some completion) now now' s =
      .ok { s with
        workerQueue := delete s.workerQueue (Work.leased lockToken now)
        sessions
        orchestratorQueue := insert s.orchestratorQueue (newMessage instanceId completion now') }) :
    Effect s (.ackWork lockToken (some completion) now now')
      { s with
        workerQueue := delete s.workerQueue (Work.leased lockToken now)
        sessions
        orchestratorQueue := insert s.orchestratorQueue (newMessage instanceId completion now') }
  | workRenewed {lockToken : String} {extendFor : ℕ} {now now' : ℤ} {sessions : List Session} :
    Effect s (.renewWork lockToken extendFor now now')
      { s with
        workerQueue := update s.workerQueue (Work.renew lockToken now (now' + extendFor))
          (Work.entry_renew lockToken now (now' + extendFor))
        sessions }
  | workAbandoned {lockToken : String} {delay : Option ℕ} {ignoreAttempt : Bool} {now : ℤ} :
    Effect s (.abandonWork lockToken delay ignoreAttempt now)
      { s with
        workerQueue :=
          update s.workerQueue (Work.release lockToken (now + delay.getD 0) ignoreAttempt)
          (Work.entry_release lockToken (now + delay.getD 0) ignoreAttempt) }
  | sessionsChanged (op : Op) (sessions : List Session) : Effect s op { s with sessions }

theorem reserveStart_eq_ok {item : WorkItem} {s s' : Store} (h : reserveStart item s = .ok s') :
    ∃ instances executions, s' = { s with instances, executions } := by
  cases item <;> simp only [reserveStart] at h
  case startOrchestration =>
    split_ifs at h
    exact ⟨_, _, (Except.ok.inj h).symm⟩
  all_goals exact ⟨s.instances, s.executions, (Except.ok.inj h).symm⟩

theorem effect_enqueueOrchestrator (s : Store) (item : WorkItem) (delay : Option ℕ) (now : ℤ) :
    Effect s (.enqueueOrchestrator item delay now)
      (orUnchanged s (enqueueOrchestratorWorkWithDelay item delay now s)) := by
  unfold enqueueOrchestratorWorkWithDelay
  cases htarget : item.target with
  | none => exact .idle _
  | some instanceId =>
    dsimp only
    cases hreserve : reserveStart item s with
    | error e => exact .idle _
    | ok s' =>
      obtain ⟨instances, executions, rfl⟩ := reserveStart_eq_ok hreserve
      exact .enqueued htarget hreserve

theorem effect_fetchOrchestration (s : Store) (lockToken : String) (lockTimeout : ℕ)
    (filter : Option DispatcherCapabilityFilter) (now now' : ℤ) :
    Effect s (.fetchOrchestration lockToken lockTimeout filter now now')
      (fetchOrchestrationItem lockToken lockTimeout filter now now' s).2 := by
  unfold fetchOrchestrationItem
  cases hselect : selectInstance filter now s with
  | none => exact .idle _
  | some instanceId =>
    dsimp only
    cases hlocks : acquireLock instanceId lockToken (now' + lockTimeout) now s.instanceLocks with
    | none => exact .idle _
    | some instanceLocks =>
      dsimp only
      generalize hqueue : update s.orchestratorQueue (Message.mark instanceId lockToken now)
        (Message.entry_mark instanceId lockToken now) = orchestratorQueue
      by_cases hmessages : orchestratorQueue.rows.filter (Message.has lockToken) = []
      · rw [if_pos hmessages]
        exact .idle _
      rw [if_neg hmessages]
      generalize hcontext : findContext s instanceId
        ((orchestratorQueue.rows.filter (Message.has lockToken)).map Message.workItem) = context
      cases context with
      | found name version executionId history => exact .fetched hselect hlocks hqueue.symm hcontext
      | orphans => exact .dropped hselect hlocks hqueue.symm hcontext
      | unknown => exact .idle _

/-- What has been checked before a turn is committed. -/
theorem ackOrchestrationItem_eq_ok {s s' : Store} {lockToken : String} {turn : Turn}
    {clock : AckClock} (h : ackOrchestrationItem lockToken turn clock s = .ok s') :
    ∃ held history, (s.instanceLocks.find? fun lock => lock.lockToken = lockToken) = some held
      ∧ appendHistory held.instanceId turn.executionId turn.historyDelta s.history = .ok history
      ∧ s' = s.commit held.instanceId lockToken turn clock history := by
  unfold ackOrchestrationItem at h
  cases hheld : s.instanceLocks.find? fun lock => lock.lockToken = lockToken with
  | none =>
    rw [hheld] at h
    cases h
  | some held =>
    rw [hheld] at h
    dsimp only at h
    cases hhistory : appendHistory held.instanceId turn.executionId turn.historyDelta s.history with
    | error e =>
      rw [hhistory] at h
      cases h
    | ok history =>
      rw [hhistory] at h
      dsimp only at h
      split_ifs at h with hvalid
      exact ⟨held, history, rfl, hhistory, (Except.ok.inj h).symm⟩

theorem effect_ackOrchestration (s : Store) (lockToken : String) (turn : Turn) (clock : AckClock) :
    Effect s (.ackOrchestration lockToken turn clock)
      (orUnchanged s (ackOrchestrationItem lockToken turn clock s)) := by
  cases hack : ackOrchestrationItem lockToken turn clock s with
  | error e => exact .idle _
  | ok s' =>
    obtain ⟨held, history, hheld, hhistory, rfl⟩ := ackOrchestrationItem_eq_ok hack
    exact .committed hheld hhistory hack

theorem effect_abandonOrchestration (s : Store) (lockToken : String) (delay : Option ℕ)
    (ignoreAttempt : Bool) (now now' : ℤ) :
    Effect s (.abandonOrchestration lockToken delay ignoreAttempt now now')
      (orUnchanged s (abandonOrchestrationItem lockToken delay ignoreAttempt now now' s)) := by
  unfold abandonOrchestrationItem
  cases hheld : s.instanceLocks.find? fun lock => lock.lockToken = lockToken with
  | none => exact .idle _
  | some held => exact .abandoned hheld

theorem effect_fetchWork (s : Store) (lockToken : String) (lockTimeout : ℕ)
    (session : Option SessionFetchConfig) (tagFilter : TagFilter) (now now' : ℤ) :
    Effect s (.fetchWork lockToken lockTimeout session tagFilter now now')
      (fetchWorkItem lockToken lockTimeout session tagFilter now now' s).2 := by
  unfold fetchWorkItem
  by_cases hfilter : tagFilter = .none
  · rw [if_pos hfilter]
    exact .idle _
  rw [if_neg hfilter]
  cases hnext : s.workerQueue.rows.find? (Work.available session tagFilter s.sessions now') with
  | none => exact .idle _
  | some next =>
    dsimp only
    cases hsession : claimSession session next.sessionId now' s.sessions with
    | none => exact .idle _
    | some sessions => exact .workFetched hnext hsession

theorem effect_ackWork (s : Store) (lockToken : String) (completion : Option WorkItem)
    (now now' : ℤ) :
    Effect s (.ackWork lockToken completion now now')
      (orUnchanged s (ackWorkItem lockToken completion now now' s)) := by
  cases hrow : s.workerQueue.rows.find? (Work.leased lockToken now) with
  | none =>
    rw [ackWorkItem, hrow]
    exact .idle _
  | some row =>
    cases completion with
    | none =>
      have hack : ackWorkItem lockToken none now now' s = .ok { s with
          workerQueue := delete s.workerQueue (Work.leased lockToken now)
          sessions := touchSession row.sessionId now s.sessions } := by
        rw [ackWorkItem, hrow]
      rw [hack]
      exact .workDropped hrow hack
    | some completion =>
      cases hcompletes : completion.completes with
      | none =>
        rw [ackWorkItem, hrow]
        dsimp only
        rw [hcompletes]
        exact .idle _
      | some instanceId =>
        have hack : ackWorkItem lockToken (some completion) now now' s = .ok { s with
            workerQueue := delete s.workerQueue (Work.leased lockToken now)
            sessions := touchSession row.sessionId now s.sessions
            orchestratorQueue :=
              insert s.orchestratorQueue (newMessage instanceId completion now') } := by
          rw [ackWorkItem, hrow]
          dsimp only
          rw [hcompletes]
        rw [hack]
        exact .workCompleted hrow hcompletes hack

/-- **The operations have no other effects.** -/
theorem effect_perform (s : Store) (op : Op) : Effect s op (perform s op) := by
  cases op with
  | enqueueOrchestrator item delay now => exact effect_enqueueOrchestrator s item delay now
  | enqueueWorker item now => exact .workEnqueued item now
  | fetchOrchestration lockToken lockTimeout filter now now' =>
    exact effect_fetchOrchestration s lockToken lockTimeout filter now now'
  | ackOrchestration lockToken turn clock => exact effect_ackOrchestration s lockToken turn clock
  | renewOrchestration lockToken extendFor now now' =>
    change Effect s _ (orUnchanged s (renewOrchestrationItemLock lockToken extendFor now now' s))
    unfold renewOrchestrationItemLock
    split_ifs with hlock
    · exact .renewed
    · exact .idle _
  | abandonOrchestration lockToken delay ignoreAttempt now now' =>
    exact effect_abandonOrchestration s lockToken delay ignoreAttempt now now'
  | fetchWork lockToken lockTimeout session tagFilter now now' =>
    exact effect_fetchWork s lockToken lockTimeout session tagFilter now now'
  | ackWork lockToken completion now now' => exact effect_ackWork s lockToken completion now now'
  | renewWork lockToken extendFor now now' =>
    change Effect s _ (orUnchanged s (renewWorkItemLock lockToken extendFor now now' s))
    unfold renewWorkItemLock
    cases s.workerQueue.rows.find? (Work.leased lockToken now) with
    | none => exact .idle _
    | some row => exact .workRenewed
  | abandonWork lockToken delay ignoreAttempt now =>
    change Effect s _ (orUnchanged s (abandonWorkItem lockToken delay ignoreAttempt now s))
    unfold abandonWorkItem
    split_ifs with hrow
    · exact .workAbandoned
    · exact .idle _
  | renewSession ownerIds extendFor idleTimeout now => exact .sessionsChanged _ _
  | cleanupSessions now => exact .sessionsChanged _ _

end Sporos.Vendor.Provider
