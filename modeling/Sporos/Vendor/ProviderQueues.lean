import Sporos.Vendor.ProviderTurns

/-! # The queues

Every row that has been put into a queue is accounted for: it is still there, or one operation of
the run has taken it out. A message is taken by the turn that was given it, or as an orphan; the
work of an activity is taken by the worker that holds its lease, or by a turn that cancels the
activity. -/

namespace Sporos.Vendor.Provider

open Sporos.Lib.Lists
open Sporos.Lib.Loop
open Sporos.Lib.Numbered
open Sporos.Lib.Table

/-! ### Messages -/

theorem follows_messages (s : Store) (op : Op) :
    Follows s.orchestratorQueue (perform s op).orchestratorQueue := by
  have heffect := effect_perform s op
  generalize perform s op = s' at heffect
  cases heffect with
  | enqueued htarget hreserve => exact follows_insert _ _
  | fetched hselect hlocks hqueue hcontext =>
    rw [hqueue]
    exact follows_update _ (Message.entry_mark _ _ _)
  | dropped hselect hlocks hqueue hcontext =>
    rw [hqueue]
    exact (follows_update _ (Message.entry_mark _ _ _)).trans (follows_delete _ _)
  | committed hheld hhistory hack => exact (follows_delete _ _).trans (follows_insertAll _ _)
  | abandoned hheld => exact follows_update _ (Message.entry_release _ _ _ _ _)
  | workCompleted hrow hcompletes hack => exact follows_insert _ _
  | idle | workEnqueued | renewed | workFetched | workDropped | workRenewed | workAbandoned
  | sessionsChanged =>
    exact .refl _

/-- Nothing tells what the instance runs: it has no row, its history has no start, and whatever of
it is visible is a queue message. A start that is delayed may still be in the queue. -/
structure Unstarted (s : Store) (instanceId : String) (now : ℤ) : Prop where
  row : lookup InstanceRow.instanceId s.instances instanceId = none
  history : startedIn (read s instanceId) = none
  messages : ∀ m ∈ s.orchestratorQueue.rows, m.instanceId = instanceId → m.visibleAt ≤ now →
    m.workItem.isQueueMessage = true

/-- How a message leaves the queue. -/
inductive MessageTaken (s : Store) (m : Message) : Op → Prop
  | acked {t : String} {turn : Turn} {clock : AckClock} {s' : Store} (htoken : m.lockToken = some t)
    (hack : ackOrchestrationItem t turn clock s = .ok s') :
    MessageTaken s m (.ackOrchestration t turn clock)
  | orphaned {t : String} {lockTimeout : ℕ} {filter : Option DispatcherCapabilityFilter}
    {now now' : ℤ}
    (hinstance : Unstarted s m.instanceId now) (hvisible : m.visibleAt ≤ now)
    (hitem : m.workItem.isQueueMessage = true) :
    MessageTaken s m (.fetchOrchestration t lockTimeout filter now now')

/-- Messages are orphans only of an instance that has not started. -/
theorem orphans_of_findContext {s : Store} {instanceId : String} {items : List WorkItem}
    (h : findContext s instanceId items = .orphans) :
    lookup InstanceRow.instanceId s.instances instanceId = none
      ∧ startedIn (read s instanceId) = none
      ∧ items.all WorkItem.isQueueMessage = true := by
  unfold findContext at h
  cases hinfo : lookup InstanceRow.instanceId s.instances instanceId with
  | some info =>
    rw [hinfo] at h
    cases h
  | none =>
    rw [hinfo] at h
    dsimp only at h
    cases hstarted : startedIn (read s instanceId) with
    | some started =>
      rw [hstarted] at h
      cases h
    | none =>
      rw [hstarted] at h
      dsimp only at h
      cases hby : startedBy items with
      | some start =>
        rw [hby] at h
        cases h
      | none =>
        rw [hby] at h
        dsimp only at h
        split_ifs at h with hall
        exact ⟨rfl, rfl, hall⟩

/-- The fetch has the token of every visible message of the instance. -/
theorem has_mark {instanceId t : String} {now : ℤ} {m : Message} (hmine : m.instanceId = instanceId)
    (hvisible : m.visibleAt ≤ now) : (m.mark instanceId t now).has t = true := by
  rw [Message.mark, if_pos ⟨hmine, hvisible⟩]
  exact decide_eq_true rfl

theorem workItem_mark (instanceId t : String) (now : ℤ) (m : Message) :
    (m.mark instanceId t now).workItem = m.workItem :=
  congrArg (fun entry => entry.2.2) (Message.entry_mark instanceId t now m)

/-- A fetch that drops messages has seen nothing that starts the instance. -/
theorem unstarted_of_orphans {s : Store} {instanceId t : String} {now : ℤ}
    (h : findContext s instanceId
      (((s.orchestratorQueue.rows.map (Message.mark instanceId t now)).filter
      (Message.has t)).map Message.workItem) = .orphans) : Unstarted s instanceId now := by
  obtain ⟨hrow, hhistory, hall⟩ := orphans_of_findContext h
  refine ⟨hrow, hhistory, fun m hm hmine hvisible => ?_⟩
  have hmem := List.mem_filter.mpr ⟨List.mem_map_of_mem hm, has_mark hmine hvisible (t := t)⟩
  have hitem := List.all_eq_true.mp hall _ (List.mem_map_of_mem hmem)
  rwa [workItem_mark] at hitem

/-- A message that an operation removes has been taken. -/
theorem message_taken {s : Store} {op : Op} {n : ℕ} (hunused : ∀ t, op.draws = some t → Unused t s)
    (h : ¬ Gone n s.orchestratorQueue) (h' : Gone n (perform s op).orchestratorQueue) :
    ∃ m ∈ s.orchestratorQueue.rows, m.id = n ∧ MessageTaken s m op := by
  have hthere : n < s.orchestratorQueue.next → ∃ m ∈ s.orchestratorQueue.rows, m.id = n :=
    fun hlt => (mem_or_gone _ hlt).resolve_right h
  have heffect := effect_perform s op
  generalize perform s op = s' at heffect h'
  cases heffect with
  | enqueued htarget hreserve => exact absurd (gone_insert_iff.mp h') h
  | fetched hselect hlocks hqueue hcontext =>
    rw [hqueue] at h'
    exact absurd ((gone_update_iff (Message.entry_mark _ _ _)).mp h') h
  | @dropped t lockTimeout filter now now' instanceId _ _ hselect hlocks hqueue hcontext =>
    rw [hqueue] at h' hcontext
    have hunstarted := unstarted_of_orphans hcontext
    obtain ⟨hlt, hremoved⟩ := gone_delete_iff.mp h'
    obtain ⟨m, hm, hid⟩ := hthere hlt
    have hmem : m.mark instanceId t now ∈
        s.orchestratorQueue.rows.map (Message.mark instanceId t now) :=
      List.mem_map_of_mem hm
    have hhas :=
      hremoved _ hmem ((congrArg Prod.fst (Message.entry_mark instanceId t now m)).trans hid)
    -- The token is new, so the message has it from this fetch.
    by_cases hmarked : m.instanceId = instanceId ∧ m.visibleAt ≤ now
    · obtain ⟨rfl, hvisible⟩ := hmarked
      exact ⟨m, hm, hid, .orphaned hunstarted hvisible (hunstarted.messages m hm rfl hvisible)⟩
    · rw [Message.mark, if_neg hmarked] at hhas
      exact absurd (of_decide_eq_true hhas) ((hunused t rfl).messages m hm)
  | @committed t turn clock held history hheld hhistory hack =>
    obtain ⟨hlt, hremoved⟩ := gone_delete_iff.mp (gone_insertAll_iff.mp h')
    obtain ⟨m, hm, hid⟩ := hthere hlt
    exact ⟨m, hm, hid, .acked (of_decide_eq_true (hremoved m hm hid)) hack⟩
  | abandoned hheld => exact absurd ((gone_update_iff (Message.entry_release _ _ _ _ _)).mp h') h
  | workCompleted hrow hcompletes hack => exact absurd (gone_insert_iff.mp h') h
  | idle | workEnqueued | renewed | workFetched | workDropped | workRenewed | workAbandoned
  | sessionsChanged =>
    exact absurd h' h

theorem unused_of_split {ops before after : List Op} {op : Op} (hfresh : FreshTokens ops)
    (hops : ops = before ++ op :: after) : ∀ t, op.draws = some t →
      Unused t (run before .init) := by
  intro t hdraws
  rw [hops] at hfresh
  exact run_invariant (fun s op hdraws h =>
    h.step hdraws) (hfresh.notDrawn hdraws).1 (unused_init t)

theorem not_gone_init {ρ τ : Type*} {entry : ρ → ℕ × τ} {n : ℕ} (h : 1 ≤ n) :
    ¬ Gone n (empty 1 : Queue entry) :=
  fun hgone => absurd hgone.1 (not_lt.mpr h)

theorem not_gone_of_mem {ρ τ : Type*} {entry : ρ → ℕ × τ} {q : Queue entry} {row : ρ}
    (h : row ∈ q.rows) : ¬ Gone (entry row).1 q :=
  fun hgone => hgone.2 row h rfl

/-- **No message is lost, and none is taken twice.** -/
theorem message_accounted {ops : List Op} (hfresh : FreshTokens ops) {n : ℕ} (hpos : 1 ≤ n)
    (hnext : n < (run ops .init).orchestratorQueue.next) :
    (∃ m ∈ (run ops .init).orchestratorQueue.rows, m.id = n)
      ∨ Gone n (run ops .init).orchestratorQueue ∧ ∃! before, ∃ op after,
        ops = before ++ op :: after
        ∧ (∃ m ∈ (run before .init).orchestratorQueue.rows,
          m.id = n ∧ MessageTaken (run before .init) m op)
        ∧ Gone n (run (before ++ [op]) .init).orchestratorQueue := by
  rcases mem_or_gone _ hnext with hmem | hgone
  · exact .inl hmem
  refine .inr ⟨hgone, ?_⟩
  have hstable : ∀ s op, Gone n s.orchestratorQueue → Gone n (perform s op).orchestratorQueue :=
    fun s op h => h.follows (follows_messages s op)
  obtain ⟨before, ⟨op, after, hops, hbefore, hafter⟩, hunique⟩ :=
    exists_unique_step perform hstable (not_gone_init hpos) hgone
  have hrun : ∀ before op, run (before ++ [op]) .init = perform (run before .init) op :=
      fun before op => by
    rw [run_append]
    rfl
  refine ⟨before, ⟨op, after, hops, message_taken (unused_of_split hfresh hops) hbefore hafter, ?_⟩,
    ?_⟩
  · rw [hrun]
    exact hafter
  · rintro other ⟨op', after', hops', ⟨m, hm, rfl, -⟩, hgone'⟩
    rw [hrun] at hgone'
    exact hunique other ⟨op', after', hops', not_gone_of_mem hm, hgone'⟩

/-! ### Work -/

theorem follows_works (s : Store) (op : Op) : Follows s.workerQueue (perform s op).workerQueue := by
  have heffect := effect_perform s op
  generalize perform s op = s' at heffect
  cases heffect with
  | workEnqueued item now => exact follows_insert _ _
  | committed hheld hhistory hack => exact (follows_insertAll _ _).trans (follows_delete _ _)
  | workFetched hnext hsession => exact follows_update _ (Work.entry_lock _ _ _)
  | workDropped hrow hack => exact follows_delete _ _
  | workCompleted hrow hcompletes hack => exact follows_delete _ _
  | workRenewed => exact follows_update _ (Work.entry_renew _ _ _)
  | workAbandoned => exact follows_update _ (Work.entry_release _ _ _)
  | idle | enqueued | fetched | dropped | renewed | abandoned | sessionsChanged => exact .refl _

/-- How the work with a number leaves the queue: its worker acknowledges it, and then its completion
is the next message; or a turn cancels it, perhaps the turn that has scheduled it. -/
inductive WorkTaken (s : Store) (n : ℕ) : Op → Prop
  | acked {t : String} {completion : Option WorkItem} {now now' : ℤ} {s' : Store} {w : Work}
    (hw : w ∈ s.workerQueue.rows) (hid : w.id = n) (hlease : w.leased t now = true)
    (hack : ackWorkItem t completion now now' s = .ok s')
    (hcompletion : ∀ item ∈ completion, ∃ m ∈ s'.orchestratorQueue.rows,
      m.id = s.orchestratorQueue.next ∧ m.workItem = item) :
    WorkTaken s n (.ackWork t completion now now')
  | cancelled {t : String} {turn : Turn} {clock : AckClock} {s' : Store} {w : Work}
    (hw : w ∈ s.workerQueue.rows ∨ w.workItem ∈ turn.workerItems) (hid : w.id = n)
    (hcancelled : w.cancelledBy turn.cancelledActivities = true)
    (hack : ackOrchestrationItem t turn clock s = .ok s') :
      WorkTaken s n (.ackOrchestration t turn clock)

theorem workItem_newWork (item : WorkItem) (now : ℤ) (n : ℕ) :
    ((newWork item now).1 n).workItem = item := by
  cases item <;> rfl

theorem mem_insertAll_works {now : ℤ} {w : Work} : ∀ {items : List WorkItem} {q : Queue Work.entry},
    w ∈ (insertAll q (items.map fun item => newWork item now)).rows →
      w ∈ q.rows ∨ w.workItem ∈ items
  | [], _, h => .inl h
  | item :: items, q, h => by
    rw [List.map_cons, insertAll_cons] at h
    rcases mem_insertAll_works h with hmem | hmem
    · rcases List.mem_append.mp hmem with hmem | hmem
      · exact .inl hmem
      · rw [List.mem_singleton.mp hmem, workItem_newWork]
        exact .inr List.mem_cons_self
    · exact .inr (List.mem_cons_of_mem _ hmem)

/-- Work that an operation removes has been taken. -/
theorem work_taken {s : Store} {op : Op} {n : ℕ} (h : ¬ Gone n s.workerQueue)
    (h' : Gone n (perform s op).workerQueue) : WorkTaken s n op := by
  have heffect := effect_perform s op
  generalize perform s op = s' at heffect h'
  cases heffect with
  | workEnqueued item now => exact absurd (gone_insert_iff.mp h') h
  | @committed t turn clock held history hheld hhistory hack =>
    obtain ⟨hlt, hremoved⟩ := gone_delete_iff.mp h'
    rcases mem_or_gone _ hlt with ⟨w, hw, hid⟩ | hgone
    · exact .cancelled (mem_insertAll_works hw) hid (hremoved w hw hid) hack
    · exact absurd (gone_insertAll_iff.mp hgone) h
  | workFetched hnext hsession => exact absurd ((gone_update_iff (Work.entry_lock _ _ _)).mp h') h
  | workDropped hrow hack =>
    obtain ⟨hlt, hremoved⟩ := gone_delete_iff.mp h'
    obtain ⟨w, hw, hid⟩ := (mem_or_gone _ hlt).resolve_right h
    exact .acked hw hid (hremoved w hw hid) hack fun item hitem =>
      absurd hitem (Option.not_mem_none item)
  | workCompleted hrow hcompletes hack =>
    obtain ⟨hlt, hremoved⟩ := gone_delete_iff.mp h'
    obtain ⟨w, hw, hid⟩ := (mem_or_gone _ hlt).resolve_right h
    refine .acked hw hid (hremoved w hw hid) hack fun item hitem => ?_
    obtain rfl := Option.some_inj.mp hitem
    exact ⟨_, List.mem_append_right _ (List.mem_singleton_self _), rfl, rfl⟩
  | workRenewed => exact absurd ((gone_update_iff (Work.entry_renew _ _ _)).mp h') h
  | workAbandoned => exact absurd ((gone_update_iff (Work.entry_release _ _ _)).mp h') h
  | idle | enqueued | fetched | dropped | renewed | abandoned | sessionsChanged => exact absurd h' h

/-- **No activity is lost, and none is completed twice.** -/
theorem work_accounted {ops : List Op} {n : ℕ} (hpos : 1 ≤ n)
    (hnext : n < (run ops .init).workerQueue.next) :
    (∃ w ∈ (run ops .init).workerQueue.rows, w.id = n)
      ∨ Gone n (run ops .init).workerQueue ∧ ∃! before, ∃ op after, ops = before ++ op :: after
        ∧ WorkTaken (run before .init) n op ∧ ¬ Gone n (run before .init).workerQueue
        ∧ Gone n (run (before ++ [op]) .init).workerQueue := by
  rcases mem_or_gone _ hnext with hmem | hgone
  · exact .inl hmem
  refine .inr ⟨hgone, ?_⟩
  have hstable : ∀ s op, Gone n s.workerQueue → Gone n (perform s op).workerQueue :=
    fun s op h => h.follows (follows_works s op)
  obtain ⟨before, ⟨op, after, hops, hbefore, hafter⟩, hunique⟩ :=
    exists_unique_step perform hstable (not_gone_init hpos) hgone
  have hrun : ∀ before op, run (before ++ [op]) .init = perform (run before .init) op :=
      fun before op => by
    rw [run_append]
    rfl
  refine ⟨before, ⟨op, after, hops, work_taken hbefore hafter, hbefore, ?_⟩, ?_⟩
  · rw [hrun]
    exact hafter
  · rintro other ⟨op', after', hops', -, hother, hgone'⟩
    rw [hrun] at hgone'
    exact hunique other ⟨op', after', hops', hother, hgone'⟩

/-! ### Leases -/

section

variable {s : Store} {op : Op} {t : String}

theorem lockToken_newWork (item : WorkItem) (now : ℤ) (n : ℕ) :
    ((newWork item now).1 n).lockToken = none := by
  cases item <;> rfl

theorem of_mem_insertAll_works {now : ℤ} {w : Work} (ht : w.lockToken = some t) :
    ∀ {items : List WorkItem}
    {q : Queue Work.entry},
      w ∈ (insertAll q (items.map fun item => newWork item now)).rows → w ∈ q.rows
  | [], _, h => h
  | item :: items, q, h => by
    rw [List.map_cons, insertAll_cons] at h
    rcases List.mem_append.mp (of_mem_insertAll_works ht h) with hmem | hmem
    · exact hmem
    · rw [List.mem_singleton.mp hmem, lockToken_newWork] at ht
      cases ht

theorem lock_eq (id : ℕ) (lockToken : String) (lockedUntil : ℤ) (w : Work) :
    w.lock id lockToken lockedUntil = w ∨ w.id = id
      ∧ (w.lock id lockToken lockedUntil).lockToken = some lockToken := by
  unfold Work.lock
  split_ifs with h
  · exact .inr ⟨h, rfl⟩
  · exact .inl rfl

theorem lockToken_renew (lockToken : String) (now lockedUntil : ℤ) (w : Work) :
    (w.renew lockToken now lockedUntil).lockToken = w.lockToken := by
  unfold Work.renew
  split_ifs <;> rfl

theorem lockToken_release_work (lockToken : String) (visibleAt : ℤ)
    (ignoreAttempt : Bool) (w : Work)
    (ht : (w.release lockToken visibleAt ignoreAttempt).lockToken = some t) :
    w.lockToken = some t := by
  unfold Work.release at ht
  split_ifs at ht
  exact ht

/-- Work bears a token that has just been drawn, or that it bore before. -/
theorem work_of_perform {w : Work} (h : w ∈ (perform s op).workerQueue.rows)
    (ht : w.lockToken = some t) :
    op.draws = some t ∨ ∃ old ∈ s.workerQueue.rows, old.lockToken = some t
      ∧ old.entry = w.entry := by
  have heffect := effect_perform s op
  generalize perform s op = s' at heffect h
  cases heffect with
  | workEnqueued item now =>
    rcases List.mem_append.mp h with h | h
    · exact .inr ⟨w, h, ht, rfl⟩
    · rw [List.mem_singleton.mp h, lockToken_newWork] at ht
      cases ht
  | committed hheld hhistory hack =>
    exact .inr ⟨w, of_mem_insertAll_works ht (List.mem_of_mem_filter h), ht, rfl⟩
  | @workFetched lockToken lockTimeout _ _ now _ next _ hnext hsession =>
    obtain ⟨old, hold, rfl⟩ := List.mem_map.mp h
    rcases lock_eq next.id lockToken (now + lockTimeout) old with heq | ⟨-, htoken⟩
    · rw [heq] at ht ⊢
      exact .inr ⟨old, hold, ht, rfl⟩
    · exact .inl (htoken.symm.trans ht)
  | workDropped hrow hack => exact .inr ⟨w, List.mem_of_mem_filter h, ht, rfl⟩
  | workCompleted hrow hcompletes hack => exact .inr ⟨w, List.mem_of_mem_filter h, ht, rfl⟩
  | workRenewed =>
    obtain ⟨old, hold, rfl⟩ := List.mem_map.mp h
    rw [lockToken_renew] at ht
    exact .inr ⟨old, hold, ht, (Work.entry_renew _ _ _ old).symm⟩
  | workAbandoned =>
    obtain ⟨old, hold, rfl⟩ := List.mem_map.mp h
    exact .inr ⟨old, hold, lockToken_release_work _ _ _ old ht, (Work.entry_release _ _ _ old).symm⟩
  | idle | enqueued | fetched | dropped | renewed | abandoned | sessionsChanged =>
    exact .inr ⟨w, h, ht, rfl⟩

/-- Work that bears the token has borne it all along. -/
theorem work_of_run : ∀ {ops : List Op} {s : Store}, NotDrawn t ops → ∀ {w : Work},
    w ∈ (run ops s).workerQueue.rows →
    w.lockToken = some t → ∃ old ∈ s.workerQueue.rows, old.lockToken = some t ∧ old.entry = w.entry
  | [], _, _, w, hw, ht => ⟨w, hw, ht, rfl⟩
  | op :: ops, s, hops, w, hw, ht => by
    rw [run_cons] at hw
    obtain ⟨mid, hmid, htoken, hentry⟩ := work_of_run hops.of_cons.2 hw ht
    rcases work_of_perform hmid htoken with hdrawn | ⟨old, hold, hsame, heq⟩
    · exact absurd hdrawn hops.of_cons.1
    · exact ⟨old, hold, hsame, heq.trans hentry⟩

/-- What has been fetched with a new token is the one row that bears it. -/
theorem work_of_fetch {lockTimeout : ℕ} {session : Option SessionFetchConfig}
    {tagFilter : TagFilter} {now now' : ℤ} {item : WorkItem} {attempts : ℕ} {s' : Store}
    (h : fetchWorkItem t lockTimeout session tagFilter now now' s = (some (item, attempts), s'))
    (hunused : ∀ w ∈ s.workerQueue.rows, w.lockToken ≠ some t) :
    ∃ n, ∀ w ∈ s'.workerQueue.rows, w.lockToken = some t → w.id = n ∧ w.workItem = item := by
  unfold fetchWorkItem at h
  by_cases hfilter : tagFilter = .none
  · rw [if_pos hfilter] at h
    cases h
  rw [if_neg hfilter] at h
  cases hnext : s.workerQueue.rows.find? (Work.available session tagFilter s.sessions now') with
  | none =>
    rw [hnext] at h
    cases h
  | some next =>
    rw [hnext] at h
    dsimp only at h
    cases hsession : claimSession session next.sessionId now' s.sessions with
    | none =>
      rw [hsession] at h
      cases h
    | some sessions =>
      rw [hsession] at h
      obtain ⟨hitem, rfl⟩ := Prod.mk.inj h
      obtain ⟨rfl, -⟩ := Prod.mk.inj (Option.some_inj.mp hitem)
      refine ⟨next.id, fun w hw ht => ?_⟩
      obtain ⟨old, hold, rfl⟩ := List.mem_map.mp hw
      rcases lock_eq next.id t (now + lockTimeout) old with heq | ⟨hid, -⟩
      · rw [heq] at ht
        exact absurd ht (hunused old hold)
      · have hsame : old = next :=
          eq_of_number_eq s.workerQueue hold (List.mem_of_find?_eq_some hnext) hid
        have hentry := Work.entry_lock next.id t (now + lockTimeout) old
        rw [hsame] at hentry ⊢
        exact ⟨congrArg Prod.fst hentry, congrArg (fun entry => entry.2.1) hentry⟩

end

/-- **A worker that acknowledges its work has held it all along**: from the fetch to the
acknowledgement the work has been in the queue under the token of the worker, so no other worker was
given it. -/
theorem lease_of_ack {ops₁ ops₂ : List Op} {t : String} {lockTimeout : ℕ}
    {session : Option SessionFetchConfig} {tagFilter : TagFilter} {now now' : ℤ} {item : WorkItem}
    {attempts : ℕ} {s₁ : Store}
    (hfresh : FreshTokens (ops₁ ++ .fetchWork t lockTimeout session tagFilter now now' :: ops₂))
    (hfetch : fetchWorkItem t lockTimeout session tagFilter now now' (run ops₁ .init) =
    (some (item, attempts), s₁))
    {completion : Option WorkItem} {later later' : ℤ} {s₃ : Store}
    (hack : ackWorkItem t completion later later' (run ops₂ s₁) = .ok s₃) :
    ∃ n, Gone n s₃.workerQueue ∧ ∀ before after, ops₂ = before ++ after →
      ∃ w ∈ (run before s₁).workerQueue.rows, w.id = n ∧ w.workItem = item
        ∧ w.lockToken = some t := by
  obtain ⟨hbefore, hafter⟩ := hfresh.notDrawn rfl
  have hunused : ∀ w ∈ (run ops₁ .init).workerQueue.rows, w.lockToken ≠ some t := by
    intro w hw ht
    obtain ⟨old, hold, -⟩ := work_of_run hbefore hw ht
    exact List.not_mem_nil hold
  obtain ⟨n, hfetched⟩ := work_of_fetch hfetch hunused
  -- Whatever bears the token now is what was fetched.
  have hsame : ∀ ops : List Op, NotDrawn t ops → ∀ w ∈ (run ops s₁).workerQueue.rows,
    w.lockToken = some t →
      w.id = n ∧ w.workItem = item := by
    intro ops hops w hw ht
    obtain ⟨old, hold, hsame, hentry⟩ := work_of_run hops hw ht
    obtain ⟨hid, hitem⟩ := hfetched old hold hsame
    exact ⟨(congrArg Prod.fst hentry).symm.trans hid,
      (congrArg (fun entry => entry.2.1) hentry).symm.trans hitem⟩
  cases hrow : (run ops₂ s₁).workerQueue.rows.find? (Work.leased t later) with
  | none =>
    rw [ackWorkItem, hrow] at hack
    cases hack
  | some w =>
    have hw := List.mem_of_find?_eq_some hrow
    have hleased := List.find?_some hrow
    have htoken : w.lockToken = some t := of_decide_eq_true (Bool.and_eq_true_iff.mp hleased).1
    have hgone : Gone n (delete (run ops₂ s₁).workerQueue (Work.leased t later)) := by
      refine gone_delete_iff.mpr ⟨?_, fun row hrow hid => ?_⟩
      · rw [← (hsame ops₂ hafter w hw htoken).1]
        exact (run ops₂ s₁).workerQueue.below w hw
      · have heq : row = w :=
          eq_of_number_eq _ hrow hw (hid.trans (hsame ops₂ hafter w hw htoken).1.symm)
        rw [heq]
        exact hleased
    refine ⟨n, ?_, fun before after hops => ?_⟩
    · rw [ackWorkItem, hrow] at hack
      cases completion with
      | none =>
        obtain rfl := Except.ok.inj hack
        exact hgone
      | some completion =>
        dsimp only at hack
        cases hcompletes : completion.completes with
        | none =>
          rw [hcompletes] at hack
          cases hack
        | some instanceId =>
          rw [hcompletes] at hack
          obtain rfl := Except.ok.inj hack
          exact hgone
    · have hsplit : NotDrawn t before ∧ NotDrawn t after :=
        ⟨fun op hop => hafter op (hops ▸ List.mem_append_left _ hop),
          fun op hop => hafter op (hops ▸ List.mem_append_right _ hop)⟩
      rw [hops, run_append] at hw
      obtain ⟨old, hold, ht, -⟩ := work_of_run hsplit.2 hw htoken
      obtain ⟨hid, hitem⟩ := hsame before hsplit.1 old hold ht
      exact ⟨old, hold, hid, hitem, ht⟩

/-! ### A run -/

/-- The first turn of an instance schedules an activity. -/
def sampleBefore : List Op :=
  [sampleStart, .fetchOrchestration "t" 30 none 1 1, .ackOrchestration "t" sampleTurn sampleClock]

/-- A worker fetches the activity and completes it. -/
def sampleRun : List Op :=
  sampleBefore ++ [.fetchWork "w" 30 none .defaultOnly 10 10,
    .ackWork "w" (some (.activityCompleted "i" 1 2 "result")) 20 20]

theorem message_accounted_example :
    (∃ m ∈ (run sampleRun .init).orchestratorQueue.rows, m.id = 1)
      ∨ Gone 1 (run sampleRun .init).orchestratorQueue ∧ ∃! before, ∃ op after,
        sampleRun = before ++ op :: after
        ∧ (∃ m ∈ (run before .init).orchestratorQueue.rows,
          m.id = 1 ∧ MessageTaken (run before .init) m op)
        ∧ Gone 1 (run (before ++ [op]) .init).orchestratorQueue :=
  message_accounted (by decide) (by decide) (by decide)

/-- A workflow starts a child. -/
def sampleParent : Turn where
  executionId := 1
  historyDelta := [⟨1, none, .orchestrationStarted "o" "1" "input" none⟩]
  workerItems := []
  orchestratorItems := [.startOrchestration "c" "o" "input" none (some "i") 1]
  metadata := ⟨none, none, some "o", some "1", none, none⟩
  cancelledActivities := []

/-- The start of the child is given up for a time, and a message for the child arrives. -/
def sampleDelayed : List Op :=
  [sampleStart, .fetchOrchestration "t" 30 none 1 1, .ackOrchestration "t" sampleParent sampleClock,
    .fetchOrchestration "u" 30 none 10 10, .abandonOrchestration "u" (some 100) false 11 11,
    .enqueueOrchestrator (.queueMessage "c" "q" "data") none 12]

/-- The message is dropped although the start of its instance waits in the queue. -/
example : (run sampleDelayed .init).orchestratorQueue.rows.map Message.id = [2, 3]
    ∧ (run (sampleDelayed ++ [.fetchOrchestration "v" 30 none 13 13])
      .init).orchestratorQueue.rows.map Message.id =
      [2] := by
  decide

theorem work_accounted_example :
    (∃ w ∈ (run sampleRun .init).workerQueue.rows, w.id = 1)
      ∨ Gone 1 (run sampleRun .init).workerQueue ∧ ∃! before, ∃ op after,
        sampleRun = before ++ op :: after
        ∧ WorkTaken (run before .init) 1 op ∧ ¬ Gone 1 (run before .init).workerQueue
        ∧ Gone 1 (run (before ++ [op]) .init).workerQueue :=
  work_accounted (by decide) (by decide)

/-- The worker renews its lease once. -/
theorem lease_of_ack_example :
    ∃ s₁ s₃ item n, Gone n (Store.workerQueue s₃) ∧ ∀ before after,
      [Op.renewWork "w" 30 15 15] = before ++ after →
      ∃ w ∈ (run before s₁).workerQueue.rows, w.id = n ∧ w.workItem = item
        ∧ w.lockToken = some "w" := by
  obtain ⟨fetched, hfetched⟩ := Option.isSome_iff_exists.mp
    (show (fetchWorkItem "w" 30 none .defaultOnly 10 10 (run sampleBefore .init)).1.isSome =
      true by decide)
  have hack : (ackWorkItem "w" (some (.activityCompleted "i" 1 2 "result")) 42 42
    (run [.renewWork "w" 30 15 15] (fetchWorkItem "w" 30 none .defaultOnly 10 10
      (run sampleBefore .init)).2)).isOk =
      true := by decide
  cases h : ackWorkItem "w" (some (.activityCompleted "i" 1 2 "result")) 42 42
    (run [.renewWork "w" 30 15 15] (fetchWorkItem "w" 30 none .defaultOnly 10 10
      (run sampleBefore .init)).2) with
  | error e =>
    rw [h] at hack
    cases hack
  | ok s₃ => exact ⟨_, s₃, fetched.1, lease_of_ack (by decide) (Prod.ext hfetched rfl) h⟩

end Sporos.Vendor.Provider
