import Sporos.Lib.Frames
import Sporos.Vendor.ProviderSteps

/-! # Turns

A turn is fetched with a token, worked on outside the store, and acknowledged with the token.
Whatever the other dispatchers, the workers and the clients do in the meantime, and whatever the
clocks say, a turn that is acknowledged has seen what is in the store:

* as long as a lock bears the token, the messages, the history and the values of the instance stay
as they were fetched (`Pending`);
* a token that is on no lock does not come back, as each token is drawn once. -/

namespace Sporos.Vendor.Provider

open Sporos.Lib.Frames
open Sporos.Lib.Lists
open Sporos.Lib.Loop
open Sporos.Lib.Numbered
open Sporos.Lib.Table

/-! ### Locks -/

/-- The locks after one has been acquired: that of the instance bears the token, the others are as
before. -/
theorem mem_of_acquireLock {instanceId lockToken : String} {lockedUntil now : ℤ}
    {locks locks' : List InstanceLock}
    (h : acquireLock instanceId lockToken lockedUntil now locks = some locks') {lock : InstanceLock}
    (hlock : lock ∈ locks') :
    (lock ∈ locks ∧ lock.instanceId ≠ instanceId) ∨ (lock.instanceId = instanceId
      ∧ lock.lockToken = lockToken) := by
  unfold acquireLock at h
  cases hold : lookup InstanceLock.instanceId locks instanceId with
  | none =>
    rw [hold] at h
    obtain rfl := Option.some_inj.mp h
    rcases List.mem_append.mp hlock with hlock | hlock
    · exact .inl ⟨hlock, lookup_eq_none.mp hold lock hlock⟩
    · rw [List.mem_singleton.mp hlock]
      exact .inr ⟨rfl, rfl⟩
  | some old =>
    rw [hold] at h
    dsimp only at h
    split_ifs at h with hexpired
    obtain rfl := Option.some_inj.mp h
    obtain ⟨lock', hlock', rfl⟩ := List.mem_map.mp hlock
    by_cases hinstance : lock'.instanceId = instanceId
    · rw [if_pos hinstance]
      exact .inr ⟨hinstance, rfl⟩
    · rw [if_neg hinstance]
      exact .inl ⟨hlock', hinstance⟩

theorem unique_acquireLock {instanceId lockToken : String} {lockedUntil now : ℤ}
    {locks locks' : List InstanceLock}
    (h : acquireLock instanceId lockToken lockedUntil now locks = some locks')
    (hu : UniqueKey InstanceLock.instanceId locks) : UniqueKey InstanceLock.instanceId locks' := by
  unfold acquireLock at h
  cases hold : lookup InstanceLock.instanceId locks instanceId with
  | none =>
    rw [hold] at h
    obtain rfl := Option.some_inj.mp h
    exact unique_append hu hold
  | some old =>
    rw [hold] at h
    dsimp only at h
    split_ifs at h with hexpired
    obtain rfl := Option.some_inj.mp h
    refine hu.updateKey ?_ instanceId
    intro row
    rfl

theorem unique_filter {locks : List InstanceLock} (hu : UniqueKey InstanceLock.instanceId locks)
    (p : InstanceLock → Bool) : UniqueKey InstanceLock.instanceId (locks.filter p) :=
  List.Nodup.sublist (List.Sublist.map _ List.filter_sublist) hu

/-- The lock that a token is on. -/
theorem eq_of_find_lock {locks : List InstanceLock} {lockToken : String} {held : InstanceLock}
    (h : (locks.find? fun lock => lock.lockToken = lockToken) = some held) :
    held ∈ locks ∧ held.lockToken = lockToken :=
  ⟨List.mem_of_find?_eq_some h, by simpa using List.find?_some h⟩

/-! ### Where tokens come from -/

section

variable {s : Store} {op : Op} {t : String}

/-- A lock bears a token that has just been drawn, or that it bore before. -/
theorem lock_of_perform {lock : InstanceLock} (h : lock ∈ (perform s op).instanceLocks) :
    op.draws = some lock.lockToken ∨
      ∃ old ∈ s.instanceLocks, old.lockToken = lock.lockToken
        ∧ old.instanceId = lock.instanceId := by
  have heffect := effect_perform s op
  generalize perform s op = s' at heffect h
  cases heffect with
  | fetched hselect hlocks hqueue hcontext =>
    rcases mem_of_acquireLock hlocks h with ⟨hold, -⟩ | ⟨-, htoken⟩
    · exact .inr ⟨lock, hold, rfl, rfl⟩
    · rw [htoken]
      exact .inl rfl
  | dropped hselect hlocks hqueue hcontext =>
    rcases mem_of_acquireLock hlocks (List.mem_of_mem_filter h) with ⟨hold, -⟩ | ⟨-, htoken⟩
    · exact .inr ⟨lock, hold, rfl, rfl⟩
    · rw [htoken]
      exact .inl rfl
  | committed hheld hhistory hack => exact .inr ⟨lock, List.mem_of_mem_filter h, rfl, rfl⟩
  | renewed =>
    obtain ⟨old, hold, rfl⟩ := List.mem_map.mp h
    refine .inr ⟨old, hold, ?_⟩
    split_ifs <;> exact ⟨rfl, rfl⟩
  | abandoned hheld => exact .inr ⟨lock, List.mem_of_mem_filter h, rfl, rfl⟩
  | idle | enqueued | workEnqueued | workFetched | workDropped | workCompleted | workRenewed
  | workAbandoned | sessionsChanged => exact .inr ⟨lock, h, rfl, rfl⟩

theorem of_mem_insert_message {q : Queue Message.entry} {new : New Message.entry} {m : Message}
    (h : m ∈ (insert q new).rows) (hnew : ∀ n, (new.1 n).lockToken = none)
    (ht : m.lockToken = some t) :
    m ∈ q.rows := by
  rcases List.mem_append.mp h with h | h
  · exact h
  · rw [List.mem_singleton.mp h, hnew] at ht
    cases ht

theorem of_mem_insertAll_messages {m : Message} (ht : m.lockToken = some t) :
    ∀ {news : List (New Message.entry)}
    {q : Queue Message.entry}, (∀ new ∈ news, ∀ n, (new.1 n).lockToken = none) →
      m ∈ (insertAll q news).rows →
    m ∈ q.rows
  | [], _, _, h => h
  | new :: _, _, hnews, h =>
    of_mem_insert_message (of_mem_insertAll_messages ht (fun new' hnew' =>
      hnews new' (List.mem_cons_of_mem _ hnew')) h)
      (hnews new List.mem_cons_self) ht

theorem lockToken_orchestratorMessage {visible : ℕ → ℤ} {items : List (WorkItem × ℕ)}
    {new : New Message.entry} (h : new ∈ items.filterMap (orchestratorMessage visible)) (n : ℕ) :
      (new.1 n).lockToken = none := by
  obtain ⟨item, -, hitem⟩ := List.mem_filterMap.mp h
  obtain ⟨instanceId, -, rfl⟩ := Option.map_eq_some_iff.mp hitem
  rfl

theorem mark_eq (instanceId lockToken : String) (now : ℤ) (m : Message) :
    m.mark instanceId lockToken now = m ∨
      m.instanceId = instanceId ∧ (m.mark instanceId lockToken now).lockToken = some lockToken := by
  unfold Message.mark
  split_ifs with h
  · exact .inr ⟨h.1, rfl⟩
  · exact .inl rfl

theorem lockToken_release (instanceId : String) (delay : Option ℕ)
    (ignoreAttempt : Bool) (now now' : ℤ) (m : Message) :
      (m.release instanceId delay ignoreAttempt now now').lockToken = m.lockToken := by
  unfold Message.release
  cases delay <;> dsimp only <;> split_ifs <;> rfl

/-- A message bears a token that has just been drawn, or that it bore before. -/
theorem message_of_perform {m : Message} (h : m ∈ (perform s op).orchestratorQueue.rows)
    (ht : m.lockToken = some t) :
    op.draws = some t ∨ ∃ old ∈ s.orchestratorQueue.rows, old.lockToken = some t
      ∧ old.entry = m.entry := by
  have hmarked : ∀ {instanceId lockToken : String} {now : ℤ} {q : Queue Message.entry},
      q = update s.orchestratorQueue (Message.mark instanceId lockToken now)
        (Message.entry_mark instanceId lockToken now) → m ∈ q.rows →
      some lockToken = some t ∨ ∃ old ∈ s.orchestratorQueue.rows, old.lockToken = some t
        ∧ old.entry = m.entry := by
    rintro instanceId lockToken now q rfl hm
    obtain ⟨old, hold, rfl⟩ := List.mem_map.mp hm
    rcases mark_eq instanceId lockToken now old with heq | ⟨-, htoken⟩
    · rw [heq] at ht ⊢
      exact .inr ⟨old, hold, ht, rfl⟩
    · exact .inl (htoken.symm.trans ht)
  have heffect := effect_perform s op
  generalize perform s op = s' at heffect h
  cases heffect with
  | enqueued htarget hreserve => exact .inr ⟨m, of_mem_insert_message h (fun n => rfl) ht, ht, rfl⟩
  | fetched hselect hlocks hqueue hcontext => exact hmarked hqueue h
  | dropped hselect hlocks hqueue hcontext => exact hmarked hqueue (List.mem_of_mem_filter h)
  | committed hheld hhistory hack =>
    have hold := of_mem_insertAll_messages ht (fun new hnew => lockToken_orchestratorMessage hnew) h
    exact .inr ⟨m, List.mem_of_mem_filter hold, ht, rfl⟩
  | @abandoned lockToken delay ignoreAttempt now now' held hheld =>
    obtain ⟨old, hold, rfl⟩ := List.mem_map.mp h
    rw [lockToken_release] at ht
    exact .inr ⟨old, hold, ht,
      (Message.entry_release held.instanceId delay ignoreAttempt now now' old).symm⟩
  | workCompleted hrow hcompletes hack =>
    exact .inr ⟨m, of_mem_insert_message h (fun n => rfl) ht, ht, rfl⟩
  | idle | workEnqueued | renewed | workFetched | workDropped | workRenewed | workAbandoned
  | sessionsChanged =>
    exact .inr ⟨m, h, ht, rfl⟩

end

/-- The token is nowhere in the tables of the turns. -/
structure Unused (t : String) (s : Store) : Prop where
  locks : ∀ lock ∈ s.instanceLocks, lock.lockToken ≠ t
  messages : ∀ m ∈ s.orchestratorQueue.rows, m.lockToken ≠ some t

theorem unused_init (t : String) : Unused t .init :=
  ⟨fun _ hlock => absurd hlock List.not_mem_nil, fun _ hm => absurd hm List.not_mem_nil⟩

theorem Unused.step {t : String} {s : Store} {op : Op} (h : Unused t s)
    (hdraws : op.draws ≠ some t) : Unused t (perform s op) := by
  constructor
  · rintro lock hlock rfl
    rcases lock_of_perform hlock with hdrawn | ⟨old, hold, htoken, -⟩
    · exact hdraws hdrawn
    · exact h.locks old hold htoken
  · intro m hm ht
    rcases message_of_perform hm ht with hdrawn | ⟨old, hold, htoken, -⟩
    · exact hdraws hdrawn
    · exact h.messages old hold htoken

/-- None of the operations draws the token. -/
def NotDrawn (t : String) (ops : List Op) : Prop := ∀ op ∈ ops, op.draws ≠ some t

theorem NotDrawn.of_cons {t : String} {op : Op} {ops : List Op} (h : NotDrawn t (op :: ops)) :
    op.draws ≠ some t ∧ NotDrawn t ops :=
  ⟨h op List.mem_cons_self, fun op' hop' => h op' (List.mem_cons_of_mem _ hop')⟩

/-- What an operation keeps that does not draw the token is kept by a sequence of them. -/
theorem run_invariant {t : String} {P : Store → Prop}
    (hstep : ∀ s op, op.draws ≠ some t → P s → P (perform s op)) : ∀ {ops : List Op} {s : Store},
    NotDrawn t ops → P s → P (run ops s)
  | [], _, _, h => h
  | op :: ops, s, hops, h => by
    rw [run_cons]
    exact run_invariant hstep hops.of_cons.2 (hstep s op hops.of_cons.1 h)

/-- A token that is drawn once is drawn neither before nor after. -/
theorem FreshTokens.notDrawn {ops ops' : List Op} {op : Op} {t : String}
    (h : FreshTokens (ops ++ op :: ops')) (hop : op.draws = some t) :
      NotDrawn t ops ∧ NotDrawn t ops' := by
  unfold FreshTokens at h
  rw [List.filterMap_append, List.filterMap_cons_some hop, List.nodup_append, List.nodup_cons] at h
  obtain ⟨-, ⟨hafter, -⟩, hdisjoint⟩ := h
  refine ⟨fun op' hop' hdraws => ?_, fun op' hop' hdraws =>
    hafter (List.mem_filterMap.mpr ⟨op', hop', hdraws⟩)⟩
  exact hdisjoint t (List.mem_filterMap.mpr ⟨op', hop', hdraws⟩) t List.mem_cons_self rfl

theorem unique_locks_perform {s : Store} (op : Op)
    (h : UniqueKey InstanceLock.instanceId s.instanceLocks) :
    UniqueKey InstanceLock.instanceId (perform s op).instanceLocks := by
  have heffect := effect_perform s op
  generalize perform s op = s' at heffect
  cases heffect with
  | fetched hselect hlocks hqueue hcontext => exact unique_acquireLock hlocks h
  | dropped hselect hlocks hqueue hcontext => exact unique_filter (unique_acquireLock hlocks h) _
  | committed hheld hhistory hack => exact unique_filter h _
  | @renewed lockToken extendFor now now' =>
    refine UniqueKey.of_map_eq ?_ h
    rw [List.map_map]
    refine List.map_congr_left fun lock hlock => ?_
    by_cases hheld : lock.lockToken = lockToken ∧ now' < lock.lockedUntil
    · rw [Function.comp_apply, if_pos hheld]
    · rw [Function.comp_apply, if_neg hheld]
  | abandoned hheld => exact unique_filter h _
  | idle | enqueued | workEnqueued | workFetched | workDropped | workCompleted | workRenewed
  | workAbandoned | sessionsChanged => exact h

theorem unique_locks_run : ∀ (ops : List Op) {s : Store},
    UniqueKey InstanceLock.instanceId s.instanceLocks →
    UniqueKey InstanceLock.instanceId (run ops s).instanceLocks
  | [], _, h => h
  | op :: ops, _, h => unique_locks_run ops (unique_locks_perform op h)

/-! ### Histories and values -/

theorem foldlM_insertEvent {instanceId : String} {executionId : ℕ} : ∀ {events : List Event}
    {history history' : List HistoryRow},
      events.foldlM (insertEvent instanceId executionId) history = .ok history' →
    history' = history ++ events.map (HistoryRow.mk instanceId executionId)
      ∧ (UniqueKey HistoryRow.key history → UniqueKey HistoryRow.key history')
  | [], history, history', h => by
    obtain rfl := Except.ok.inj h
    exact ⟨(List.append_nil _).symm, id⟩
  | event :: events, history, history', h => by
    rw [List.foldlM_cons] at h
    obtain ⟨mid, hevent, hrest⟩ := bind_eq_ok.mp h
    unfold insertEvent at hevent
    split_ifs at hevent with hconflict
    obtain rfl := Except.ok.inj hevent
    rw [Bool.not_eq_true, Option.isSome_eq_false_iff, Option.isNone_iff_eq_none] at hconflict
    obtain ⟨heq, hunique⟩ := foldlM_insertEvent hrest
    refine ⟨?_, fun hu => hunique (unique_append hu hconflict)⟩
    rw [heq, List.append_assoc, List.singleton_append, List.map_cons]

/-- The events are appended to the execution, each under an id of its own. -/
theorem appendHistory_eq_ok {instanceId : String} {executionId : ℕ} {events : List Event}
    {history history' : List HistoryRow}
    (h : appendHistory instanceId executionId events history = .ok history') :
    history' = history ++ events.map (HistoryRow.mk instanceId executionId)
      ∧ (UniqueKey HistoryRow.key history → UniqueKey HistoryRow.key history') := by
  unfold appendHistory at h
  split_ifs at h
  exact foldlM_insertEvent h

/-- The rows of the instance. -/
def historyOf (instanceId : String) (s : Store) : List HistoryRow :=
  s.history.filter fun row => row.instanceId = instanceId

/-- The settled values of an instance. -/
def valuesOf (instanceId : String) (s : Store) : List KvRow :=
  s.kvStore.filter fun row => row.instanceId = instanceId

theorem readWithExecution_congr {s s' : Store} {instanceId : String}
    (h : historyOf instanceId s = historyOf instanceId s') (executionId : ℕ) :
      readWithExecution s instanceId executionId = readWithExecution s' instanceId executionId := by
  have hsplit : ∀ s : Store, (s.history.filter fun row => row.instanceId = instanceId
    ∧ row.executionId = executionId) =
      (historyOf instanceId s).filter fun row => row.executionId = executionId := by
    intro s
    rw [historyOf, List.filter_filter]
    simp only [Bool.decide_and, Bool.and_comm]
  rw [readWithExecution, readWithExecution, hsplit, hsplit, h]

theorem getKvSnapshot_congr {s s' : Store} {instanceId : String}
    (h : valuesOf instanceId s = valuesOf instanceId s') :
    getKvSnapshot s instanceId = getKvSnapshot s' instanceId := by
  rw [getKvSnapshot, getKvSnapshot]
  exact congrArg (List.map fun row : KvRow => (row.key, row.value, row.lastUpdatedAtMs)) h

/-- The values of an instance are merged without the others. -/
theorem filter_mergeValues {instanceId other : String} (hne : other ≠ instanceId)
    (kvDelta : List KvDeltaRow) (kvStore : List KvRow) :
    (mergeValues instanceId kvDelta kvStore).filter (fun row => row.instanceId = other) =
      kvStore.filter fun row => row.instanceId = other := by
  unfold mergeValues
  dsimp only
  rw [filter_filter_of_imp]
  · refine foldl_frame (List.filter fun row : KvRow => row.instanceId = other)
      fun new hnew table => ?_
    have hinstance : new.instanceId = instanceId := by
      obtain ⟨row, -, hrow⟩ := List.mem_filterMap.mp hnew
      unfold KvDeltaRow.live at hrow
      split_ifs at hrow with hmine
      obtain ⟨value, -, rfl⟩ := Option.map_eq_some_iff.mp hrow
      exact hmine
    have hother : ∀ row : KvRow, row.instanceId = instanceId →
        decide (row.instanceId = other) = false := by
      intro row hrow
      rw [hrow]
      exact decide_eq_false hne.symm
    refine filter_upsert (hother new hinstance) fun row _ hkey => ?_
    have hrow : row.instanceId = instanceId := (congrArg Prod.fst hkey).trans hinstance
    exact ⟨hother row hrow, hother _ hrow⟩
  · intro row _ hrow
    rw [decide_eq_true_eq] at hrow ⊢
    rintro ⟨hmine, -⟩
    exact hne (hrow.symm.trans hmine)

theorem historyOf_commit {s : Store} {instanceId other lockToken : String} {turn : Turn}
    {clock : AckClock} {history : List HistoryRow} (hne : other ≠ instanceId)
    (h : appendHistory instanceId turn.executionId turn.historyDelta s.history = .ok history) :
    historyOf other (s.commit instanceId lockToken turn clock history) = historyOf other s := by
  change history.filter _ = s.history.filter _
  rw [(appendHistory_eq_ok h).1]
  refine filter_append_of_neg fun row hrow => ?_
  obtain ⟨event, -, rfl⟩ := List.mem_map.mp hrow
  exact decide_eq_false hne.symm

theorem valuesOf_commit {s : Store} {instanceId other lockToken : String} {turn : Turn}
    {clock : AckClock} {history : List HistoryRow} (hne : other ≠ instanceId) :
    valuesOf other (s.commit instanceId lockToken turn clock history) = valuesOf other s := by
  unfold valuesOf Store.commit
  dsimp only
  split_ifs
  · exact filter_mergeValues hne _ _
  · rfl

/-! ### Turns in progress -/

/-- As long as a lock bears the token, what was fetched with it is in the store. -/
structure Pending (t instanceId : String) (messages : List (ℕ × String × WorkItem))
    (history : List HistoryRow) (values : List KvRow) (s : Store) : Prop where
  unique : UniqueKey InstanceLock.instanceId s.instanceLocks
  own : ∀ lock ∈ s.instanceLocks, lock.lockToken = t → lock.instanceId = instanceId
  marked : ∀ m ∈ s.orchestratorQueue.rows, m.lockToken = some t → m.instanceId = instanceId
  kept : (∃ lock ∈ s.instanceLocks, lock.lockToken = t) →
    (s.orchestratorQueue.rows.filter (Message.has t)).map Message.entry = messages
      ∧ historyOf instanceId s = history ∧ valuesOf instanceId s = values

theorem has_eq_false {t : String} {m : Message} (h : m.lockToken ≠ some t) : m.has t = false :=
  decide_eq_false h

theorem filter_has_insert (t : String) {q : Queue Message.entry} {new : New Message.entry}
    (hnew : ∀ n, (new.1 n).lockToken = none) :
    (insert q new).rows.filter (Message.has t) = q.rows.filter (Message.has t) := by
  refine filter_append_of_neg fun m hm => has_eq_false ?_
  rw [List.mem_singleton.mp hm, hnew]
  exact (Option.some_ne_none t).symm

theorem filter_has_insertAll (t : String) :
    ∀ {news : List (New Message.entry)} {q : Queue Message.entry},
    (∀ new ∈ news, ∀ n, (new.1 n).lockToken = none) →
    (insertAll q news).rows.filter (Message.has t) = q.rows.filter (Message.has t)
  | [], _, _ => rfl
  | new :: news, q, hnews => by
    rw [insertAll_cons, filter_has_insertAll t fun new' hnew' =>
      hnews new' (List.mem_cons_of_mem _ hnew')]
    exact filter_has_insert t (hnews new List.mem_cons_self)

/-- Messages of another instance are marked. -/
theorem filter_has_mark {t instanceId other lockToken : String} {now : ℤ} {q : Queue Message.entry}
    (hmarked : ∀ m ∈ q.rows, m.lockToken = some t → m.instanceId = instanceId)
    (hne : other ≠ instanceId) (htoken : lockToken ≠ t) :
    (q.rows.map (Message.mark other lockToken now)).filter (Message.has t) =
      q.rows.filter (Message.has t) := by
  refine filter_map_of_frame fun m hm => ?_
  rcases mark_eq other lockToken now m with heq | ⟨hother, hmark⟩
  · rw [heq]
    exact ⟨rfl, fun _ => rfl⟩
  · have hbefore : m.lockToken ≠ some t := fun h => hne (hother.symm.trans (hmarked m hm h))
    have hafter : (m.mark other lockToken now).lockToken ≠ some t := by
      rw [hmark]
      exact fun h => htoken (Option.some_inj.mp h)
    rw [has_eq_false hbefore, has_eq_false hafter]
    exact ⟨rfl, fun h => absurd h (by decide)⟩

theorem filter_has_release (t instanceId : String) (delay : Option ℕ)
    (ignoreAttempt : Bool) (now now' : ℤ) (rows : List Message) :
    ((rows.map (Message.release instanceId delay ignoreAttempt now now')).filter
      (Message.has t)).map Message.entry =
      (rows.filter (Message.has t)).map Message.entry := by
  refine map_filter_map fun m _ =>
    ⟨?_, fun _ => Message.entry_release instanceId delay ignoreAttempt now now' m⟩
  rw [Message.has, Message.has, lockToken_release]

section

variable {t instanceId : String} {messages : List (ℕ × String × WorkItem)}
  {history : List HistoryRow} {values : List KvRow} {s : Store}

theorem Pending.keeps (h : Pending t instanceId messages history values s) {op : Op}
    (hdraws : op.draws ≠ some t)
    (hkept : (∃ lock ∈ (perform s op).instanceLocks, lock.lockToken = t) →
      ((perform s op).orchestratorQueue.rows.filter (Message.has t)).map Message.entry = messages
        ∧ historyOf instanceId (perform s op) = history
        ∧ valuesOf instanceId (perform s op) = values) :
    Pending t instanceId messages history values (perform s op) := by
  refine ⟨unique_locks_perform op h.unique, fun lock hlock htoken => ?_,
    fun m hm htoken => ?_, hkept⟩
  · rcases lock_of_perform hlock with hdrawn | ⟨old, hold, hsame, hinstance⟩
    · exact absurd (hdrawn.trans (congrArg some htoken)) hdraws
    · exact hinstance.symm.trans (h.own old hold (hsame.trans htoken))
  · rcases message_of_perform hm htoken with hdrawn | ⟨old, hold, hsame, hentry⟩
    · exact absurd hdrawn hdraws
    · have hinstance : old.instanceId = m.instanceId := congrArg (fun entry => entry.2.1) hentry
      exact hinstance.symm.trans (h.marked old hold hsame)

/-- The lock of another instance is acquired, or the turn has lost its own. -/
theorem Pending.acquired (h : Pending t instanceId messages history values s)
    {other lockToken : String} {lockedUntil now : ℤ} {locks : List InstanceLock}
    (htoken : lockToken ≠ t)
    (hlocks : acquireLock other lockToken lockedUntil now s.instanceLocks = some locks)
    (hheld : ∃ lock ∈ locks, lock.lockToken = t) :
    other ≠ instanceId ∧ ∃ lock ∈ s.instanceLocks, lock.lockToken = t := by
  obtain ⟨lock, hlock, hlockToken⟩ := hheld
  rcases mem_of_acquireLock hlocks hlock with ⟨hold, hne⟩ | ⟨-, hnew⟩
  · rw [h.own lock hold hlockToken] at hne
    exact ⟨hne.symm, lock, hold, hlockToken⟩
  · exact absurd (hnew.symm.trans hlockToken) htoken

/-- Another turn is committed for another instance. -/
theorem Pending.other (h : Pending t instanceId messages history values s) {lockToken : String}
    {held : InstanceLock}
    (hfind : (s.instanceLocks.find? fun lock => lock.lockToken = lockToken) = some held)
    (hheld : ∃ lock ∈ s.instanceLocks,
      ¬ (lock.instanceId = held.instanceId ∧ lock.lockToken = lockToken) ∧ lock.lockToken = t) :
    lockToken ≠ t ∧ instanceId ≠ held.instanceId := by
  obtain ⟨hmem, hlockToken⟩ := eq_of_find_lock hfind
  obtain ⟨lock, hlock, hkept, hmine⟩ := hheld
  have htoken : lockToken ≠ t := by
    rintro rfl
    exact hkept ⟨(h.own lock hlock hmine).trans (h.own held hmem hlockToken).symm, hmine⟩
  refine ⟨htoken, fun heq => ?_⟩
  have hsame : lock = held :=
    List.inj_on_of_nodup_map h.unique hlock hmem ((h.own lock hlock hmine).trans heq)
  exact htoken (hlockToken.symm.trans ((congrArg InstanceLock.lockToken hsame).symm.trans hmine))

theorem Pending.step (h : Pending t instanceId messages history values s) {op : Op}
    (hdraws : op.draws ≠ some t) : Pending t instanceId messages history values (perform s op) := by
  refine h.keeps hdraws ?_
  have heffect := effect_perform s op
  generalize perform s op = s' at heffect
  cases heffect with
  | idle | workEnqueued | workFetched | workDropped | workRenewed | workAbandoned
  | sessionsChanged => exact h.kept
  | enqueued htarget hreserve =>
    intro hheld
    obtain ⟨hmessages, hrest⟩ := h.kept hheld
    exact ⟨by rw [filter_has_insert t fun n => rfl]; exact hmessages, hrest⟩
  | workCompleted hrow hcompletes hack =>
    intro hheld
    obtain ⟨hmessages, hrest⟩ := h.kept hheld
    exact ⟨by rw [filter_has_insert t fun n => rfl]; exact hmessages, hrest⟩
  | @fetched lockToken _ _ now _ other _ _ hselect hlocks hqueue _ _ _ _ hcontext =>
    have htoken : lockToken ≠ t := fun heq => hdraws (congrArg some heq)
    intro hheld
    obtain ⟨hne, hold⟩ := h.acquired htoken hlocks hheld
    obtain ⟨hmessages, hrest⟩ := h.kept hold
    refine ⟨?_, hrest⟩
    rw [hqueue, rows_update, filter_has_mark h.marked hne htoken]
    exact hmessages
  | @dropped lockToken _ _ now _ other _ _ hselect hlocks hqueue hcontext =>
    have htoken : lockToken ≠ t := fun heq => hdraws (congrArg some heq)
    rintro ⟨lock, hlock, hlockToken⟩
    obtain ⟨hne, hold⟩ := h.acquired htoken hlocks ⟨lock, List.mem_of_mem_filter hlock, hlockToken⟩
    obtain ⟨hmessages, hrest⟩ := h.kept hold
    refine ⟨?_, hrest⟩
    rw [rows_delete, filter_filter_of_imp, hqueue, rows_update, filter_has_mark h.marked hne htoken]
    · exact hmessages
    · intro m _ hm
      rw [Message.has, decide_eq_true_eq] at hm
      rw [has_eq_false (by rw [hm]; exact fun heq => htoken (Option.some_inj.mp heq).symm)]
      rfl
  | @committed lockToken turn clock held _ hfind hhistory hack =>
    rintro ⟨lock, hlock, hlockToken⟩
    obtain ⟨hlock, hkept⟩ := List.mem_filter.mp hlock
    obtain ⟨htoken, hne⟩ := h.other hfind ⟨lock, hlock, of_decide_eq_true hkept, hlockToken⟩
    obtain ⟨hmessages, hhistoryOf, hvaluesOf⟩ := h.kept ⟨lock, hlock, hlockToken⟩
    refine ⟨?_, (historyOf_commit hne hhistory).trans hhistoryOf,
      (valuesOf_commit hne).trans hvaluesOf⟩
    change ((insertAll (delete s.orchestratorQueue (Message.has lockToken))
      _).rows.filter _).map _ = _
    rw [filter_has_insertAll t fun new hnew => lockToken_orchestratorMessage hnew, rows_delete,
      filter_filter_of_imp]
    · exact hmessages
    · intro m _ hm
      rw [Message.has, decide_eq_true_eq] at hm
      rw [has_eq_false (by rw [hm]; exact fun heq => htoken (Option.some_inj.mp heq).symm)]
      rfl
  | @renewed lockToken extendFor now now' =>
    rintro ⟨lock, hlock, hlockToken⟩
    obtain ⟨old, hold, rfl⟩ := List.mem_map.mp hlock
    refine h.kept ⟨old, hold, ?_⟩
    split_ifs at hlockToken <;> exact hlockToken
  | @abandoned lockToken delay ignoreAttempt now now' held hfind =>
    rintro ⟨lock, hlock, hlockToken⟩
    obtain ⟨hmessages, hrest⟩ := h.kept ⟨lock, List.mem_of_mem_filter hlock, hlockToken⟩
    exact ⟨by rw [rows_update, filter_has_release]; exact hmessages, hrest⟩

end

/-! ### What has been fetched -/

/-- A turn that has been fetched. -/
structure Fetched (t : String) (item : OrchestrationItem) (s s' : Store) : Prop where
  context : findContext s item.instanceId item.messages =
    .found item.orchestrationName item.version item.executionId item.history
  messages : item.messages = (s'.orchestratorQueue.rows.filter (Message.has t)).map Message.workItem
  values : item.kvSnapshot = getKvSnapshot s item.instanceId
  history : s'.history = s.history
  store : s'.kvStore = s.kvStore
  locks : ∃ lockedUntil now, acquireLock item.instanceId t lockedUntil now s.instanceLocks =
    some s'.instanceLocks
  queue : ∃ now, s'.orchestratorQueue.rows =
    s.orchestratorQueue.rows.map (Message.mark item.instanceId t now)

theorem fetched_of_eq_some {t : String} {lockTimeout : ℕ}
    {filter : Option DispatcherCapabilityFilter} {now now' : ℤ} {s s' : Store}
    {item : OrchestrationItem} {attempts : ℕ}
    (h : fetchOrchestrationItem t lockTimeout filter now now' s = (some (item, attempts), s')) :
    Fetched t item s s' := by
  unfold fetchOrchestrationItem at h
  cases hselect : selectInstance filter now s with
  | none =>
    rw [hselect] at h
    cases h
  | some instanceId =>
    rw [hselect] at h
    dsimp only at h
    cases hlocks : acquireLock instanceId t (now' + lockTimeout) now s.instanceLocks with
    | none =>
      rw [hlocks] at h
      cases h
    | some instanceLocks =>
      rw [hlocks] at h
      dsimp only at h
      generalize hqueue : update s.orchestratorQueue (Message.mark instanceId t now)
        (Message.entry_mark instanceId t now) = queue at h
      by_cases hmessages : queue.rows.filter (Message.has t) = []
      · rw [if_pos hmessages] at h
        cases h
      rw [if_neg hmessages] at h
      generalize hitems : (queue.rows.filter (Message.has t)).map Message.workItem = items at h
      cases hcontext : findContext s instanceId items with
      | found name version executionId history =>
        rw [hcontext] at h
        obtain ⟨hitem, rfl⟩ := Prod.mk.inj h
        obtain ⟨rfl, -⟩ := Prod.mk.inj (Option.some_inj.mp hitem)
        exact ⟨hcontext, hitems.symm, rfl, rfl, rfl, ⟨_, _, hlocks⟩, ⟨now, by rw [← hqueue]; rfl⟩⟩
      | orphans =>
        rw [hcontext] at h
        cases h
      | unknown =>
        rw [hcontext] at h
        cases h

/-- The token is on no lock. -/
def NoLock (t : String) (s : Store) : Prop := ∀ lock ∈ s.instanceLocks, lock.lockToken ≠ t

section

variable {t : String} {item : OrchestrationItem} {s s' : Store}

/-- A lock with a new token is that of the turn. -/
theorem Fetched.own (h : Fetched t item s s') (hunused : Unused t s) :
    ∀ lock ∈ s'.instanceLocks, lock.lockToken = t → lock.instanceId = item.instanceId := by
  obtain ⟨lockedUntil, now, hlocks⟩ := h.locks
  intro lock hlock htoken
  rcases mem_of_acquireLock hlocks hlock with ⟨hold, -⟩ | ⟨hinstance, -⟩
  · exact absurd htoken (hunused.locks lock hold)
  · exact hinstance

/-- After the fetch the turn is in progress. -/
theorem Fetched.pending (h : Fetched t item s s') (hunused : Unused t s)
    (hunique : UniqueKey InstanceLock.instanceId s.instanceLocks) :
    Pending t item.instanceId ((s'.orchestratorQueue.rows.filter (Message.has t)).map Message.entry)
      (historyOf item.instanceId s) (valuesOf item.instanceId s) s' := by
  obtain ⟨lockedUntil, now, hlocks⟩ := h.locks
  obtain ⟨now, hqueue⟩ := h.queue
  refine ⟨unique_acquireLock hlocks hunique, h.own hunused, fun m hm htoken => ?_,
    fun _ => ⟨rfl, ?_, ?_⟩⟩
  · rw [hqueue] at hm
    obtain ⟨old, hold, rfl⟩ := List.mem_map.mp hm
    rcases mark_eq item.instanceId t now old with heq | ⟨hinstance, -⟩
    · rw [heq] at htoken
      exact absurd htoken (hunused.messages old hold)
    · have hentry := Message.entry_mark item.instanceId t now old
      exact (congrArg (fun entry => entry.2.1) hentry).trans hinstance
  · rw [historyOf, h.history]
    rfl
  · rw [valuesOf, h.store]
    rfl

/-- After the turn of another dispatcher the token is on no lock. -/
theorem Fetched.noLock {t' : String} {item' : OrchestrationItem}
    {messages : List (ℕ × String × WorkItem)} {history : List HistoryRow} {values : List KvRow}
    (h : Fetched t' item' s s') (hne : t' ≠ t)
    (hpending : Pending t item'.instanceId messages history values s) : NoLock t s' := by
  obtain ⟨lockedUntil, now, hlocks⟩ := h.locks
  rintro lock hlock rfl
  rcases mem_of_acquireLock hlocks hlock with ⟨hold, hinstance⟩ | ⟨-, htoken⟩
  · exact hinstance (hpending.own lock hold rfl)
  · exact hne htoken.symm

theorem NoLock.step {op : Op} (hdraws : op.draws ≠ some t) (h : NoLock t s) :
    NoLock t (perform s op) := by
  rintro lock hlock rfl
  rcases lock_of_perform hlock with hdrawn | ⟨old, hold, hsame, -⟩
  · exact hdraws hdrawn
  · exact h old hold hsame

theorem ack_of_noLock (h : NoLock t s) (turn : Turn) (clock : AckClock) :
    ackOrchestrationItem t turn clock s =
      .error (.permanent "ack_orchestration_item" "Invalid lock token") := by
  have hnone : (s.instanceLocks.find? fun lock => lock.lockToken = t) = none := by
    rw [List.find?_eq_none]
    exact fun lock hlock => by simpa using h lock hlock
  rw [ackOrchestrationItem, hnone]

end

/-! ### Turns are serial -/

theorem unique_history_perform {s : Store} (op : Op) (h : UniqueKey HistoryRow.key s.history) :
    UniqueKey HistoryRow.key (perform s op).history := by
  have heffect := effect_perform s op
  generalize perform s op = s' at heffect
  cases heffect with
  | committed hheld hhistory hack => exact (appendHistory_eq_ok hhistory).2 h
  | idle | enqueued | workEnqueued | fetched | dropped | renewed | abandoned | workFetched
  | workDropped | workCompleted | workRenewed | workAbandoned | sessionsChanged => exact h

theorem unique_history_run : ∀ (ops : List Op) {s : Store}, UniqueKey HistoryRow.key s.history →
    UniqueKey HistoryRow.key (run ops s).history
  | [], _, h => h
  | op :: ops, _, h => unique_history_run ops (unique_history_perform op h)

section

variable {s : Store} {instanceId lockToken : String} {turn : Turn} {clock : AckClock}
  {history : List HistoryRow}

/-- The rows of the execution that a turn belongs to. -/
theorem filter_commit
    (h : appendHistory instanceId turn.executionId turn.historyDelta s.history = .ok history) :
    ((s.commit instanceId lockToken turn clock history).history.filter fun row =>
        row.instanceId = instanceId ∧ row.executionId = turn.executionId) =
      (s.history.filter fun row => row.instanceId = instanceId ∧ row.executionId = turn.executionId)
        ++ turn.historyDelta.map (HistoryRow.mk instanceId turn.executionId) := by
  change history.filter _ = _
  rw [(appendHistory_eq_ok h).1, List.filter_append]
  congr 1
  refine List.filter_eq_self.mpr fun row hrow => ?_
  obtain ⟨event, -, rfl⟩ := List.mem_map.mp hrow
  exact decide_eq_true ⟨rfl, rfl⟩

theorem readWithExecution_commit_perm
    (h : appendHistory instanceId turn.executionId turn.historyDelta s.history = .ok history) :
    (readWithExecution (s.commit instanceId lockToken turn clock history) instanceId
      turn.executionId).Perm
      (readWithExecution s instanceId turn.executionId ++ turn.historyDelta) := by
  unfold readWithExecution
  rw [filter_commit h]
  refine ((List.perm_insertionSort _ _).map _).trans ?_
  rw [List.map_append, List.map_map]
  refine List.Perm.append (((List.perm_insertionSort _ _).map _).symm) (List.Perm.of_eq ?_)
  rw [show HistoryRow.event ∘ HistoryRow.mk instanceId turn.executionId = id from rfl, List.map_id]

theorem pairwise_readWithExecution (s : Store) (instanceId : String) (executionId : ℕ) :
    (readWithExecution s instanceId executionId).Pairwise fun event event' =>
      event.eventId ≤ event'.eventId :=
  List.pairwise_map.mpr
    (List.pairwise_insertionSort (ByKey fun row : HistoryRow => row.event.eventId) _)

/-- An execution has one event for an id. -/
theorem eq_of_eventId_eq (hu : UniqueKey HistoryRow.key s.history) {executionId : ℕ}
    {event event' : Event} (h : event ∈ readWithExecution s instanceId executionId)
    (h' : event' ∈ readWithExecution s instanceId executionId)
    (hid : event.eventId = event'.eventId) : event = event' := by
  have hrow : ∀ event ∈ readWithExecution s instanceId executionId,
      (⟨instanceId, executionId, event⟩ : HistoryRow) ∈ s.history := by
    intro event hevent
    obtain ⟨row, hrow, rfl⟩ := List.mem_map.mp hevent
    obtain ⟨hmem, hmine⟩ := List.mem_filter.mp ((List.mem_insertionSort _).mp hrow)
    obtain ⟨rfl, rfl⟩ := of_decide_eq_true hmine
    exact hmem
  have hkey : (⟨instanceId, executionId, event⟩ : HistoryRow).key =
      (⟨instanceId, executionId, event'⟩ : HistoryRow).key := by
    simp only [HistoryRow.key, hid]
  exact congrArg HistoryRow.event (List.inj_on_of_nodup_map hu (hrow event h) (hrow event' h') hkey)

/-- Events with higher ids stand behind the others. -/
theorem readWithExecution_commit (hu : UniqueKey HistoryRow.key s.history)
    (h : appendHistory instanceId turn.executionId turn.historyDelta s.history = .ok history)
    (hbehind : ∀ event ∈ readWithExecution s instanceId turn.executionId, ∀ new ∈ turn.historyDelta,
      event.eventId < new.eventId)
    (hdelta : turn.historyDelta.Pairwise fun event event' => event.eventId < event'.eventId) :
    readWithExecution (s.commit instanceId lockToken turn clock history) instanceId
      turn.executionId =
      readWithExecution s instanceId turn.executionId ++ turn.historyDelta := by
  have hperm : (readWithExecution (s.commit instanceId lockToken turn clock history) instanceId
    turn.executionId).Perm
      (readWithExecution s instanceId turn.executionId ++ turn.historyDelta) :=
        readWithExecution_commit_perm h
  have hu' : UniqueKey HistoryRow.key (s.commit instanceId lockToken turn clock history).history :=
    (appendHistory_eq_ok h).2 hu
  have hsorted : (readWithExecution s instanceId turn.executionId ++ turn.historyDelta).Pairwise
      fun event event' => event.eventId ≤ event'.eventId :=
    List.pairwise_append.mpr ⟨pairwise_readWithExecution s instanceId turn.executionId,
      hdelta.imp fun hlt => hlt.le, fun event hevent new hnew => (hbehind event hevent new hnew).le⟩
  refine hperm.eq_of_pairwise (fun event event' hevent hevent' hle hge => ?_)
    (pairwise_readWithExecution _ instanceId turn.executionId) hsorted
  exact eq_of_eventId_eq hu' hevent (hperm.mem_iff.mpr hevent') (le_antisymm hle hge)

theorem readWithExecution_commit_other
    (h : appendHistory instanceId turn.executionId turn.historyDelta s.history = .ok history)
    {other : String} {executionId : ℕ}
    (hne : (other, executionId) ≠ (instanceId, turn.executionId)) :
    readWithExecution (s.commit instanceId lockToken turn clock history) other executionId =
      readWithExecution s other executionId := by
  have hfilter : (history.filter fun row => row.instanceId = other
    ∧ row.executionId = executionId) =
      s.history.filter fun row => row.instanceId = other ∧ row.executionId = executionId := by
    rw [(appendHistory_eq_ok h).1]
    refine filter_append_of_neg fun row hrow => decide_eq_false ?_
    obtain ⟨event, -, rfl⟩ := List.mem_map.mp hrow
    rintro ⟨rfl, rfl⟩
    exact hne rfl
  exact congrArg (fun rows =>
    (rows.insertionSort (ByKey fun row : HistoryRow => row.event.eventId)).map HistoryRow.event)
    hfilter

end

/-- What a turn has seen is what it is committed to, and what it was given is what it takes away. -/
structure Serial (t : String) (item : OrchestrationItem) (turn : Turn)
    (fetchedIn ackedIn after : Store) : Prop where
  history : ∀ executionId, readWithExecution ackedIn item.instanceId executionId =
    readWithExecution fetchedIn item.instanceId executionId
  seen : (lookup InstanceRow.instanceId fetchedIn.instances item.instanceId).isSome →
    readWithExecution ackedIn item.instanceId item.executionId = item.history
  values : getKvSnapshot ackedIn item.instanceId = item.kvSnapshot
  messages : (ackedIn.orchestratorQueue.rows.filter (Message.has t)).map Message.workItem =
    item.messages
  consumed : ∃ new : List Message, after.orchestratorQueue.rows =
      (ackedIn.orchestratorQueue.rows.filter fun m => !m.has t) ++ new
    ∧ new.map Message.workItem = turn.orchestratorItems.filter fun item => item.target.isSome
  appended : (readWithExecution after item.instanceId turn.executionId).Perm
    (readWithExecution ackedIn item.instanceId turn.executionId ++ turn.historyDelta)
  ordered : (∀ event ∈ readWithExecution ackedIn item.instanceId turn.executionId,
    ∀ new ∈ turn.historyDelta,
      event.eventId < new.eventId) →
    turn.historyDelta.Pairwise (fun event event' => event.eventId < event'.eventId) →
    readWithExecution after item.instanceId turn.executionId =
      readWithExecution ackedIn item.instanceId turn.executionId ++ turn.historyDelta
  others : ∀ other executionId, (other, executionId) ≠ (item.instanceId, turn.executionId) →
    readWithExecution after other executionId = readWithExecution ackedIn other executionId

/-- The messages of a turn are its items that are for an instance. -/
theorem workItem_orchestratorMessages (visible : ℕ → ℤ) :
    ∀ (items : List WorkItem) (i : ℕ) (number : ℕ → ℕ),
    (((items.zipIdx i).filterMap (orchestratorMessage visible)).mapIdx fun k new =>
      new.1 (number k)).map
      Message.workItem = items.filter fun item => item.target.isSome
  | [], _, _ => rfl
  | item :: items, i, number => by
    rw [List.zipIdx_cons]
    cases htarget : item.target with
    | none =>
      have hskip : orchestratorMessage visible (item, i) = none := by
        rw [orchestratorMessage, htarget]
        rfl
      rw [List.filterMap_cons_none hskip, List.filter_cons_of_neg (by simp [htarget])]
      exact workItem_orchestratorMessages visible items (i + 1) number
    | some instanceId =>
      obtain ⟨visibleAt, hnew⟩ : ∃ visibleAt,
          orchestratorMessage visible (item, i) = some (newMessage instanceId item visibleAt) := by
        rw [orchestratorMessage, htarget]
        exact ⟨_, rfl⟩
      rw [List.filterMap_cons_some hnew, List.mapIdx_cons, List.map_cons,
        List.filter_cons_of_pos (by simp [htarget]),
        workItem_orchestratorMessages visible items (i + 1) fun k => number (k + 1)]
      rfl

section

variable {ops₁ ops₂ : List Op} {t : String} {lockTimeout : ℕ}
  {filter : Option DispatcherCapabilityFilter} {now now' : ℤ} {item : OrchestrationItem}
  {attempts : ℕ} {s₁ : Store}

theorem pending_of_fetch
    (hfresh : FreshTokens (ops₁ ++ .fetchOrchestration t lockTimeout filter now now' :: ops₂))
    (hfetched : Fetched t item (run ops₁ .init) s₁) {ops : List Op} (hops : ∀ op ∈ ops, op ∈ ops₂) :
    Pending t item.instanceId ((s₁.orchestratorQueue.rows.filter (Message.has t)).map Message.entry)
      (historyOf item.instanceId (run ops₁ .init))
        (valuesOf item.instanceId (run ops₁ .init)) (run ops s₁) := by
  obtain ⟨hbefore, hafter⟩ := hfresh.notDrawn rfl
  have hunused : Unused t (run ops₁ .init) :=
    run_invariant (fun s op hdraws h => h.step hdraws) hbefore (unused_init t)
  have hunique : UniqueKey InstanceLock.instanceId (run ops₁ .init).instanceLocks :=
    unique_locks_run ops₁ List.nodup_nil
  exact run_invariant (fun s op hdraws h => h.step hdraws) (fun op hop => hafter op (hops op hop))
    (hfetched.pending hunused hunique)

/-- **Turns are serial**: a turn that is acknowledged was worked out from the history, the values
and the messages that are there when it is committed, whatever has happened since it was fetched. -/
theorem serial_of_ack
    (hfresh : FreshTokens (ops₁ ++ .fetchOrchestration t lockTimeout filter now now' :: ops₂))
    (hfetch : fetchOrchestrationItem t lockTimeout filter now now' (run ops₁ .init) =
      (some (item, attempts), s₁))
    {turn : Turn} {clock : AckClock} {s₃ : Store}
    (hack : ackOrchestrationItem t turn clock (run ops₂ s₁) = .ok s₃) :
    Serial t item turn (run ops₁ .init) (run ops₂ s₁) s₃ := by
  have hfetched := fetched_of_eq_some hfetch
  have hpending := pending_of_fetch hfresh hfetched fun op hop => hop
  obtain ⟨held, history, hheld, hhistory, rfl⟩ := ackOrchestrationItem_eq_ok hack
  obtain ⟨hmem, htoken⟩ := eq_of_find_lock hheld
  obtain ⟨hmessages, hhistoryOf, hvaluesOf⟩ := hpending.kept ⟨held, hmem, htoken⟩
  have hinstance : held.instanceId = item.instanceId := hpending.own held hmem htoken
  rw [hinstance] at hhistory ⊢
  have hunique : UniqueKey HistoryRow.key (run ops₂ s₁).history := by
    refine unique_history_run ops₂ ?_
    rw [hfetched.history]
    exact unique_history_run ops₁ List.nodup_nil
  have hread := readWithExecution_congr hhistoryOf
  refine ⟨hread, fun hregistered => ?_, ?_, ?_, ?_, readWithExecution_commit_perm hhistory,
    readWithExecution_commit hunique hhistory, fun other executionId hne =>
      readWithExecution_commit_other hhistory hne⟩
  · obtain ⟨info, hinfo⟩ := Option.isSome_iff_exists.mp hregistered
    have hcontext := hfetched.context
    rw [findContext, hinfo] at hcontext
    obtain ⟨-, -, hexecution, hseen⟩ := Context.found.inj hcontext
    rw [hread, ← hexecution, ← hseen, hexecution]
  · rw [hfetched.values]
    exact getKvSnapshot_congr hvaluesOf
  · have hitems := congrArg (List.map fun entry : ℕ × String × WorkItem => entry.2.2) hmessages
    rw [List.map_map, List.map_map] at hitems
    rw [hfetched.messages]
    exact hitems
  · refine ⟨_, rows_insertAll _ _, ?_⟩
    exact workItem_orchestratorMessages clock.visible turn.orchestratorItems 0 _

/-- The start of an instance. -/
def sampleStart : Op :=
  .enqueueOrchestrator (.startOrchestration "i" "o" "input" (some "1") none 1) none 0

/-- The first turn of the instance: it schedules an activity. -/
def sampleTurn : Turn where
  executionId := 1
  historyDelta := [⟨1, none, .orchestrationStarted "o" "1" "input" none⟩,
    ⟨2, none, .activityScheduled "a" "x" none none⟩]
  workerItems := [.activityExecute "i" 1 2 "a" "x" none none]
  orchestratorItems := []
  metadata := ⟨none, none, some "o", some "1", none, none⟩
  cancelledActivities := []

/-- A commit at the moment 9. -/
def sampleClock : AckClock := ⟨9, fun _ => 9, 9, fun _ => 9, 9⟩

/-- The store after the first turn has been fetched. -/
def sampleFetched : Store := (fetchOrchestrationItem "t" 30 none 1 1 (run [sampleStart] .init)).2

theorem exists_sampleFetch : ∃ item attempts,
    fetchOrchestrationItem "t" 30 none 1 1 (run [sampleStart] .init) =
      (some (item, attempts), sampleFetched) := by
  obtain ⟨fetched, hfetched⟩ := Option.isSome_iff_exists.mp
    (show (fetchOrchestrationItem "t" 30 none 1 1 (run [sampleStart] .init)).1.isSome =
      true by decide)
  exact ⟨fetched.1, fetched.2, Prod.ext hfetched rfl⟩

/-- An event is raised while the turn is in progress. -/
theorem serial_of_ack_example : ∃ item s₃, Serial "t" item sampleTurn (run [sampleStart] .init)
    (run [.enqueueOrchestrator (.externalRaised "i" "e" "data") none 5] sampleFetched) s₃ := by
  obtain ⟨item, attempts, hfetch⟩ := exists_sampleFetch
  have hack : (ackOrchestrationItem "t" sampleTurn sampleClock
    (run [.enqueueOrchestrator (.externalRaised "i" "e" "data") none 5] sampleFetched)).isOk =
      true := by decide
  cases h : ackOrchestrationItem "t" sampleTurn sampleClock
      (run [.enqueueOrchestrator (.externalRaised "i" "e" "data") none 5] sampleFetched) with
  | error e =>
    rw [h] at hack
    cases hack
  | ok s₃ => exact ⟨item, s₃, serial_of_ack (by decide) hfetch h⟩

/-- **A turn that has been handed on cannot be committed**: after another dispatcher has fetched the
instance, the token of the first is worth nothing. -/
theorem ack_fails_after_fetch
    (hfresh : FreshTokens (ops₁ ++ .fetchOrchestration t lockTimeout filter now now' :: ops₂))
    (hfetch : fetchOrchestrationItem t lockTimeout filter now now' (run ops₁ .init) =
      (some (item, attempts), s₁))
    {before after : List Op} {t' : String} {lockTimeout' : ℕ}
    {filter' : Option DispatcherCapabilityFilter} {later later' : ℤ}
    (hops : ops₂ = before ++ .fetchOrchestration t' lockTimeout' filter' later later' :: after)
    {item' : OrchestrationItem} {attempts' : ℕ} {s₂ : Store}
    (hfetch' : fetchOrchestrationItem t' lockTimeout' filter' later later' (run before s₁) =
    (some (item', attempts'), s₂))
    (hsame : item'.instanceId = item.instanceId) (turn : Turn) (clock : AckClock) :
    ackOrchestrationItem t turn clock (run ops₂ s₁) =
      .error (.permanent "ack_orchestration_item" "Invalid lock token") := by
  have hfetched := fetched_of_eq_some hfetch
  have hbefore : ∀ op ∈ before, op ∈ ops₂ := by
    intro op hop
    rw [hops]
    exact List.mem_append_left _ hop
  have hpending := pending_of_fetch hfresh hfetched hbefore
  obtain ⟨-, hnotDrawn⟩ := hfresh.notDrawn rfl
  have hother : Op.draws (.fetchOrchestration t' lockTimeout' filter' later later') ≠ some t :=
    hnotDrawn _ (by rw [hops]; exact List.mem_append_right _ List.mem_cons_self)
  have hne : t' ≠ t := fun heq => hother (congrArg some heq)
  rw [← hsame] at hpending
  have hnone := (fetched_of_eq_some hfetch').noLock hne hpending
  have hperform : perform (run before s₁) (.fetchOrchestration t' lockTimeout' filter'
      later later') = s₂ :=
    congrArg Prod.snd hfetch'
  rw [hops, run_append, run_cons, hperform]
  refine ack_of_noLock (run_invariant (fun s op hdraws h => NoLock.step hdraws h)
    (fun op hop => ?_) hnone) turn clock
  exact hnotDrawn op (by rw [hops]; exact List.mem_append_right _ (List.mem_cons_of_mem _ hop))

/-- The lock of the first dispatcher has run out. -/
theorem ack_fails_after_fetch_example :
    ackOrchestrationItem "t" sampleTurn sampleClock
        (run [.fetchOrchestration "u" 30 none 40 40] sampleFetched) =
      .error (.permanent "ack_orchestration_item" "Invalid lock token") := by
  obtain ⟨item, attempts, hfetch⟩ := exists_sampleFetch
  obtain ⟨fetched, hfetched⟩ := Option.isSome_iff_exists.mp
    (show (fetchOrchestrationItem "u" 30 none 40 40 sampleFetched).1.isSome = true by decide)
  have hother : (fetchOrchestrationItem "u" 30 none 40 40 sampleFetched).1.map (fun fetched =>
    fetched.1.instanceId) =
      some "i" := by decide
  have hmine : (fetchOrchestrationItem "t" 30 none 1 1 (run [sampleStart] .init)).1.map
      (fun fetched => fetched.1.instanceId) = some "i" := by decide
  rw [hfetched] at hother
  rw [hfetch] at hmine
  have hsame : fetched.1.instanceId = item.instanceId :=
    (Option.some_inj.mp hother).trans (Option.some_inj.mp hmine).symm
  exact ack_fails_after_fetch (by decide) hfetch (List.nil_append _).symm
    (Prod.ext hfetched rfl) hsame _ _

end

end Sporos.Vendor.Provider
