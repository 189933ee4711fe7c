import Mathlib.Data.Finset.Basic
import Mathlib.Data.Finset.Card
import Sporos.Vendor.TurnRuns

/-! # Deliveries: the limits of the runtime and the end of an execution

The dispatcher delivers the messages of an instance to its execution. A delivery that has been
attempted too often fails the execution; any other one is a turn, and the events that the turn adds
are checked against the limits of the runtime before they are committed. A delivery whose commit the
store refuses is not in a run, and so is one whose history cannot be read. -/

namespace Sporos.Vendor.Replay

open History

/-! ### Limits -/

/-- `MAX_CUSTOM_STATUS_BYTES`. -/
def maxCustomStatusBytes : ℕ := 256 * 1024

/-- `MAX_TAG_NAME_BYTES`. -/
def maxTagNameBytes : ℕ := 256

/-- `MAX_KV_VALUE_BYTES`. -/
def maxKvValueBytes : ℕ := 64 * 1024

/-- `MAX_KV_KEYS`. -/
def maxKvKeys : ℕ := 150

/-- The last custom status that the events set. -/
def lastCustomStatus (delta : List Event) : Option String :=
  delta.reverse.findSome? fun event =>
    match event.kind with
    | .customStatusUpdated (some status) => some status
    | _ => none

/-- The custom status, if it is too long. -/
def customStatusLimit (delta : List Event) : Option String :=
  (lastCustomStatus delta).bind fun status =>
    if maxCustomStatusBytes < status.utf8ByteSize then
      some
        s!"Custom status size ({status.utf8ByteSize} bytes) exceeds limit ({maxCustomStatusBytes} bytes)"
    else none

/-- The tag of an activity, if it is too long. -/
def tagLimit (event : Event) : Option String :=
  match event.kind with
  | .activityScheduled name _ _ (some tag) =>
    if maxTagNameBytes < tag.utf8ByteSize then
      some
        s!"Activity '{name}' tag size ({tag.utf8ByteSize} bytes) exceeds limit ({maxTagNameBytes} bytes)"
    else none
  | _ => none

/-- A value that is set, if it is too long. -/
def kvValueLimit (event : Event) : Option String :=
  match event.kind with
  | .keyValueSet key value _ =>
    if maxKvValueBytes < value.utf8ByteSize then
      some
        s!"KV value for key '{key}' ({value.utf8ByteSize} bytes) exceeds limit ({maxKvValueBytes} bytes)"
    else none
  | _ => none

/-- The keys after an event. -/
def applyKeys (keys : Finset String) (event : Event) : Finset String :=
  match event.kind with
  | .keyValueSet key _ _ => insert key keys
  | .keyValueCleared key => keys.erase key
  | .keyValuesCleared => ∅
  | _ => keys

/-- The keys of the snapshot, with the events applied to them. -/
def effectiveKeys (kvKeys : Finset String) (delta : List Event) : Finset String :=
  delta.foldl applyKeys kvKeys

/-- The number of the keys, if there are too many. -/
def kvKeyLimit (kvKeys : Finset String) (delta : List Event) : Option String :=
  let count := (effectiveKeys kvKeys delta).card
  if maxKvKeys < count then some s!"KV key count ({count}) exceeds limit ({maxKvKeys})" else none

/-- What `validate_limits` says of the first limit that the events of a turn break. -/
def exceededLimit (kvKeys : Finset String) (delta : List Event) : Option String :=
  (((customStatusLimit delta).or (delta.findSome? tagLimit)).or (delta.findSome? kvValueLimit)).or
    (kvKeyLimit kvKeys delta)

/-- `fail_orchestration_for_limit`. -/
def limitFailure (message : String) : EventKind :=
  .orchestrationFailed (.application .orchestrationFailed message false)

/-- The events break no limit. -/
structure WithinLimits (kvKeys : Finset String) (delta : List Event) : Prop where
  customStatus : ∀ status, lastCustomStatus delta = some status →
    status.utf8ByteSize ≤ maxCustomStatusBytes
  tags : ∀ event ∈ delta, ∀ name input sessionId tag,
    event.kind = .activityScheduled name input sessionId (some tag) →
      tag.utf8ByteSize ≤ maxTagNameBytes
  values : ∀ event ∈ delta, ∀ key value lastUpdatedAtMs,
    event.kind = .keyValueSet key value lastUpdatedAtMs → value.utf8ByteSize ≤ maxKvValueBytes
  keys : (effectiveKeys kvKeys delta).card ≤ maxKvKeys

theorem customStatusLimit_eq_none {delta : List Event} : customStatusLimit delta = none ↔
    ∀ status, lastCustomStatus delta = some status →
      status.utf8ByteSize ≤ maxCustomStatusBytes := by
  unfold customStatusLimit
  cases lastCustomStatus delta with
  | none => simp
  | some status => simp [ite_eq_right_iff, not_lt]

theorem tagLimit_eq_none {event : Event} : tagLimit event = none ↔ ∀ name input sessionId tag,
    event.kind = .activityScheduled name input sessionId (some tag) →
      tag.utf8ByteSize ≤ maxTagNameBytes := by
  obtain ⟨eventId, sourceEventId, kind⟩ := event
  cases kind with
  | activityScheduled name input sessionId tag =>
    cases tag with
    | none => simp [tagLimit]
    | some tag =>
      rw [tagLimit]
      constructor
      · rintro h _ _ _ _ ⟨rfl⟩
        simpa using h
      · intro h
        simpa using h name input sessionId tag rfl
  | _ => simp [tagLimit]

theorem kvValueLimit_eq_none {event : Event} : kvValueLimit event = none
    ↔ ∀ key value lastUpdatedAtMs,
    event.kind = .keyValueSet key value lastUpdatedAtMs → value.utf8ByteSize ≤ maxKvValueBytes := by
  obtain ⟨eventId, sourceEventId, kind⟩ := event
  cases kind <;> simp [kvValueLimit]

/-- The check finds nothing exactly where no limit is broken. -/
theorem exceededLimit_eq_none {kvKeys : Finset String} {delta : List Event} :
    exceededLimit kvKeys delta = none ↔ WithinLimits kvKeys delta := by
  have hkeys : kvKeyLimit kvKeys delta = none ↔ (effectiveKeys kvKeys delta).card ≤ maxKvKeys := by
    simp [kvKeyLimit]
  simp only [exceededLimit, Option.or_eq_none_iff, List.findSome?_eq_none_iff,
    customStatusLimit_eq_none, tagLimit_eq_none, kvValueLimit_eq_none, hkeys]
  constructor
  · rintro ⟨⟨⟨hstatus, htags⟩, hvalues⟩, hcount⟩
    exact ⟨hstatus, htags, hvalues, hcount⟩
  · rintro ⟨hstatus, htags, hvalues, hcount⟩
    exact ⟨⟨⟨hstatus, htags⟩, hvalues⟩, hcount⟩

/-! ### Deliveries -/

/-- What the runtime is set up with; the messages of a delivery that is given up are kept as JSON.
-/
structure RuntimeOptions where
  maxAttempts : ℕ
  messagesJson : List WorkItem → String

/-- A turn, with how often its messages have been fetched, the version that the store has for the
instance, and the keys of the snapshot of its values. -/
structure Delivery extends Turn where
  attemptCount : ℕ
  version : String
  kvKeys : Finset String

namespace Execution

variable (x : Execution) (options : RuntimeOptions)

/-- The history before the limits are checked, with the activities that the code has cancelled. -/
def closeTurn (history : List Event) (persistedHistoryLen : ℕ) (turn : Turn) :
    List Event × List ℕ :=
  let (result, engine) :=
    x.orchestration.runTurn turn.clock (x.orchestration.start x.instanceId x.input)
    x.executionId history persistedHistoryLen turn.messages
  match result.ending with
  | none => (engine.finalHistory, engine.cancelledActivityIds)
  | some (kind, _) => (endExecution engine.finalHistory kind, engine.cancelledActivityIds)

/-- A turn that breaks a limit fails the execution, and hands nothing on. -/
def commitDelivery (history : List Event) (persistedHistoryLen : ℕ)
    (delivery : Delivery) : Commit :=
  let (closed, cancelledActivityIds) := x.closeTurn history persistedHistoryLen delivery.toTurn
  match exceededLimit delivery.kvKeys (closed.drop persistedHistoryLen) with
  | none => x.commitTurn history persistedHistoryLen delivery.toTurn
  | some message =>
    let failed := append closed none (limitFailure message)
    ⟨cancelInflight failed "orchestration_terminal_failed", [], [],
      (cancelledActivityIds ++ computeInflightActivities failed).eraseDups⟩

/-- `fail_orchestration_as_poison` of an execution without a parent. -/
def failAsPoison (history : List Event) (delivery : Delivery) : List Event :=
  append
    (if history.isEmpty then [⟨1, none, .orchestrationStarted x.name delivery.version x.input none⟩]
      else history) none
    (.orchestrationFailed (.poison delivery.attemptCount options.maxAttempts
      (.orchestration x.instanceId x.executionId) (options.messagesJson delivery.messages)))

/-- `process_orchestration_item`. -/
def deliver (history : List Event) (delivery : Delivery) : Commit :=
  if options.maxAttempts < delivery.attemptCount
    then ⟨x.failAsPoison options history delivery, [], [], []⟩
  else if ended history then ⟨history, [], [], []⟩
  else if history.isEmpty then x.commitDelivery [x.started] 0 delivery
  else x.commitDelivery history history.length delivery

/-- The history after some deliveries. -/
def deliverAll (deliveries : List Delivery) : List Event :=
  deliveries.foldl (fun history delivery => (x.deliver options history delivery).history) []

theorem deliverAll_concat (deliveries : List Delivery) (delivery : Delivery) :
    x.deliverAll options (deliveries ++ [delivery]) =
      (x.deliver options (x.deliverAll options deliveries) delivery).history := List.foldl_concat ..

theorem commitDelivery_eq {history : List Event} {len : ℕ} {delivery : Delivery}
    (hlimits : WithinLimits delivery.kvKeys
      ((x.closeTurn history len delivery.toTurn).1.drop len)) :
    x.commitDelivery history len delivery = x.commitTurn history len delivery.toTurn := by
  rw [commitDelivery]
  dsimp only
  rw [exceededLimit_eq_none.mpr hlimits]

/-- A delivery that is neither given up nor beyond the limits is the turn that it carries. -/
theorem deliver_eq_step {history : List Event} {delivery : Delivery}
    (hattempts : delivery.attemptCount ≤ options.maxAttempts)
    (hlimits : WithinLimits delivery.kvKeys
      ((x.closeTurn (if history.isEmpty then [x.started]
        else history) history.length delivery.toTurn).1.drop
        history.length)) :
    x.deliver options history delivery = x.step history delivery.toTurn := by
  have hcommit := commitDelivery_eq x hlimits
  unfold deliver step
  rw [if_neg (not_lt.mpr hattempts)]
  by_cases hended : ended history = true
  · rw [if_pos hended, if_pos hended]
  · rw [if_neg hended, if_neg hended]
    cases history with
    | nil => exact hcommit
    | cons event events => exact hcommit

end Execution

/-! ### The end of an execution -/

namespace Execution

variable {x : Execution} {options : RuntimeOptions}

/-- What a turn leaves of a history: up to its end, and with the cancellations behind it. -/
inductive Closed (baseline : List Event) : List Event → List Event → Prop
  | ongoing {added : List Event} (hrunning : ended (baseline ++ added) = false) :
    Closed baseline (baseline ++ added) (baseline ++ added)
  | ended {added : List Event} {ending : Event} (reason : String)
    (hrunning : ended (baseline ++ added) = false) (hending : ended [ending] = true) :
    Closed baseline (baseline ++ added ++ [ending])
      (cancelInflight (baseline ++ added ++ [ending]) reason)

theorem closed_closeTurn {baseline : List Event} (hw : WellFormed baseline)
    (hr : ended baseline = false) (len : ℕ) (turn : Turn) :
    Closed baseline (x.closeTurn baseline len turn).1 (x.commitTurn baseline len turn).history
      ∧ WellFormed (x.closeTurn baseline len turn).1 := by
  have hsound :=
    Sound.runTurn hw hr turn.clock (x.orchestration.start x.instanceId x.input) x.executionId len
    turn.messages
  unfold closeTurn commitTurn
  generalize x.orchestration.runTurn turn.clock (x.orchestration.start x.instanceId x.input)
    x.executionId baseline
    len turn.messages = run at hsound ⊢
  obtain ⟨result, engine⟩ := run
  dsimp only at hsound ⊢
  have hfinal : engine.finalHistory = baseline ++ engine.historyDelta := by
    rw [ReplayEngine.finalHistory, hsound.baseline]
  have hrunning := hsound.running
  cases hending : result.ending with
  | none =>
    rw [hfinal] at hrunning
    refine ⟨?_, hsound.wellFormed⟩
    dsimp only
    rw [hfinal]
    exact .ongoing hrunning
  | some ending =>
    obtain ⟨kind, reason⟩ := ending
    refine ⟨?_, wellFormed_endExecution hsound.wellFormed hending⟩
    obtain ⟨added, eventId, heq, hadded⟩ := endExecution_eq engine.finalHistory kind
    have hkind : ended [⟨eventId, none, kind⟩] = true := by
      simpa [ended] using (TurnResult.ending_eq_some hending).1
    dsimp only
    rw [heq, hfinal, List.append_assoc baseline]
    refine .ended reason ?_ hkind
    rw [← List.append_assoc, ← hfinal, ended_append, hrunning, hadded]
    rfl

/-- How the events of a turn end an execution: by an event of their own within the limits, by the
failure of a limit, or by both where the turn that ends is beyond a limit. -/
inductive Endings (kvKeys : Finset String) (added : List Event) : List Event → Prop
  | own {ending : Event} (hending : ended [ending] = true)
    (hlimits : WithinLimits kvKeys (added ++ [ending])) :
    Endings kvKeys added [ending]
  | limit {message : String} (eventId : ℕ) (hlimits : exceededLimit kvKeys added = some message) :
    Endings kvKeys added [⟨eventId, none, limitFailure message⟩]
  | both {ending : Event} {message : String} (eventId : ℕ) (hending : ended [ending] = true)
    (hlimits : exceededLimit kvKeys (added ++ [ending]) = some message) :
    Endings kvKeys added [ending, ⟨eventId, none, limitFailure message⟩]

/-- What holds of a history when a turn has ended the execution: the end stands behind what the turn
has added, only activities are cancelled after that, and none is left open. -/
structure Settled (kvKeys : Finset String) (stored history : List Event) : Prop where
  ends : ∃ added endings cancels, history = stored ++ added ++ endings ++ cancels
    ∧ ended (stored ++ added) = false ∧ Endings kvKeys added endings
    ∧ ∀ event ∈ cancels, event.kind.activityCancelReason.isSome = true
  noneOpen : NoneOpen history

/-- The end of a turn, with the cancellation of what is in flight. -/
theorem settled_cancelInflight {kvKeys : Finset String} {stored added endings : List Event}
    (hrunning : ended (stored ++ added) = false) (hendings : Endings kvKeys added endings)
    (reason : String) :
    Settled kvKeys stored (cancelInflight (stored ++ added ++ endings) reason) := by
  obtain ⟨cancels, heq, hcancels, hopen⟩ := cancelInflight_eq (stored ++ added ++ endings) reason
  rw [heq]
  exact ⟨⟨added, endings, cancels, rfl, hrunning, hendings, hcancels⟩, hopen⟩

theorem settled_commitDelivery (stored fresh : List Event) (hw : WellFormed (stored ++ fresh))
    (hr : ended (stored ++ fresh) = false) {delivery : Delivery}
    (h : ended (x.commitDelivery (stored ++ fresh) stored.length delivery).history = true) :
    Settled delivery.kvKeys stored (x.commitDelivery (stored ++ fresh) stored.length
      delivery).history := by
  obtain ⟨hclosed, -⟩ := closed_closeTurn (x := x) hw hr stored.length delivery.toTurn
  unfold commitDelivery at h ⊢
  generalize x.closeTurn (stored ++ fresh) stored.length delivery.toTurn = closing at hclosed h ⊢
  obtain ⟨closed, cancelled⟩ := closing
  generalize x.commitTurn (stored ++ fresh) stored.length delivery.toTurn = commit at hclosed h ⊢
  obtain ⟨history, workerItems, orchestratorItems, cancelledActivities⟩ := commit
  dsimp only at hclosed h ⊢
  cases hclosed with
  | @ongoing added hrunning =>
    rw [List.append_assoc, List.drop_left] at h ⊢
    cases hlimit : exceededLimit delivery.kvKeys (fresh ++ added) with
    | none =>
      rw [hlimit] at h
      rw [List.append_assoc] at hrunning
      exact absurd (h.symm.trans hrunning) (by decide)
    | some message =>
      rw [List.append_assoc] at hrunning
      exact settled_cancelInflight hrunning (.limit _ hlimit) _
  | @ended added ending reason hrunning hending =>
    have hsplit : stored ++ fresh ++ added ++ [ending] =
        stored ++ (fresh ++ added ++ [ending]) := by
      simp only [List.append_assoc]
    rw [hsplit, List.drop_left] at h ⊢
    rw [List.append_assoc] at hrunning
    cases hlimit : exceededLimit delivery.kvKeys (fresh ++ added ++ [ending]) with
    | none =>
      dsimp only
      rw [← List.append_assoc]
      exact settled_cancelInflight hrunning (.own hending (exceededLimit_eq_none.mp hlimit)) reason
    | some message =>
      dsimp only
      have hboth := settled_cancelInflight hrunning
        (.both (nextEventId (stored ++ (fresh ++ added ++ [ending]))) hending hlimit)
          "orchestration_terminal_failed"
      rwa [show stored ++ (fresh ++ added) ++ [ending, ⟨_, none, limitFailure message⟩]
        = append (stored ++ (fresh ++ added ++ [ending])) none (limitFailure message) by
          simp [append]] at hboth

/-! ### Runs of deliveries -/

theorem wellFormed_failed {history : List Event} (h : WellFormed history) (details : ErrorDetails) :
    WellFormed (append history none (.orchestrationFailed details)) := by
  refine h.append (fun schedule hschedule => ?_) fun said hsaid => ?_
  · cases hschedule
  · cases hsaid

theorem wellFormed_commitDelivery {baseline : List Event} (hw : WellFormed baseline)
    (hr : ended baseline = false) (len : ℕ) (delivery : Delivery) :
      WellFormed (x.commitDelivery baseline len delivery).history := by
  obtain ⟨-, hclosed⟩ := closed_closeTurn (x := x) hw hr len delivery.toTurn
  unfold commitDelivery
  generalize x.closeTurn baseline len delivery.toTurn = closing at hclosed ⊢
  obtain ⟨closed, cancelled⟩ := closing
  dsimp only at hclosed ⊢
  split
  · exact (commits_commitTurn hw hr len delivery.toTurn).wellFormed
  · exact wellFormed_cancelInflight (wellFormed_failed hclosed _) _

/-- Every delivery keeps a history well formed. -/
theorem wellFormed_deliver {history : List Event} (hw : WellFormed history) (delivery : Delivery) :
    WellFormed (x.deliver options history delivery).history := by
  unfold deliver
  split_ifs with hattempts hended hempty
  · refine wellFormed_failed ?_ _
    split_ifs
    · exact wellFormed_started (x := { x with version := delivery.version })
    · exact hw
  · exact hw
  · exact wellFormed_commitDelivery wellFormed_started rfl 0 delivery
  · exact wellFormed_commitDelivery hw (Bool.eq_false_iff.mpr hended) history.length delivery

theorem wellFormed_deliverAll (x : Execution) (options : RuntimeOptions)
    (deliveries : List Delivery) : WellFormed (x.deliverAll options deliveries) := by
  induction deliveries using List.reverseRecOn with
  | nil => exact (progress_init x).wellFormed
  | append_singleton deliveries delivery ih =>
    rw [deliverAll_concat]
    exact wellFormed_deliver ih delivery

/-- The delivery that ends an execution settles it. -/
theorem settled_deliver {history : List Event} (hw : WellFormed history)
    (hrunning : ended history = false) {delivery : Delivery}
    (hattempts : delivery.attemptCount ≤ options.maxAttempts)
    (h : ended (x.deliver options history delivery).history = true) :
    Settled delivery.kvKeys history (x.deliver options history delivery).history := by
  unfold deliver at h ⊢
  rw [if_neg (not_lt.mpr hattempts), if_neg (by rw [hrunning]; exact Bool.false_ne_true)] at h ⊢
  cases history with
  | nil => exact settled_commitDelivery [] [x.started] wellFormed_started rfl h
  | cons event events =>
    have hstored := List.append_nil (event :: events)
    rw [← hstored] at hw hrunning
    have hsettled :=
      settled_commitDelivery (event :: events) [] hw hrunning (by rw [hstored]; exact h)
    rwa [hstored] at hsettled

/-- **The end of an execution.** One delivery ends it: behind what its turn has added stands the
event that ends the execution, or the failure of a limit, or both; later deliveries add nothing,
only activities are cancelled after the end, and every activity that was scheduled has ended or is
cancelled. -/
theorem settled_deliverAll (x : Execution) (options : RuntimeOptions) (deliveries : List Delivery)
    (hattempts : ∀ delivery ∈ deliveries, delivery.attemptCount ≤ options.maxAttempts)
    (h : ended (x.deliverAll options deliveries) = true) :
    ∃ earlier delivery later, deliveries = earlier ++ delivery :: later
      ∧ x.deliverAll options deliveries = x.deliverAll options (earlier ++ [delivery])
      ∧ Settled delivery.kvKeys (x.deliverAll options earlier)
        (x.deliverAll options deliveries) := by
  induction deliveries using List.reverseRecOn with
  | nil => exact absurd h Bool.false_ne_true
  | append_singleton deliveries delivery ih =>
    have hlast := hattempts delivery (List.mem_append_right _ (List.mem_singleton_self _))
    cases hbefore : ended (x.deliverAll options deliveries) with
    | false =>
      refine ⟨deliveries, delivery, [], rfl, rfl, ?_⟩
      rw [deliverAll_concat] at h ⊢
      exact settled_deliver (wellFormed_deliverAll x options deliveries) hbefore hlast h
    | true =>
      have hsame : x.deliverAll options (deliveries ++ [delivery]) =
          x.deliverAll options deliveries := by
        rw [deliverAll_concat, deliver, if_neg (not_lt.mpr hlast), if_pos hbefore]
      rw [hsame]
      obtain ⟨earlier, first, later, rfl, heq, hsettled⟩ :=
        ih (fun other hmem => hattempts other (List.mem_append_left _ hmem)) hbefore
      exact ⟨earlier, first, later ++ [delivery], by rw [List.append_assoc,
        List.cons_append], heq, hsettled⟩

/-- The activity is in flight when the execution is cancelled: its cancellation comes after the end.
-/
def cancelledDeliveries : List Delivery :=
  [⟨⟨fun _ => 0, []⟩, 1, "1", ∅⟩, ⟨⟨fun _ => 0, [.cancelInstance "i" "stop"]⟩, 1, "1", ∅⟩]

/-- Ten attempts. -/
def sampleOptions : RuntimeOptions := ⟨10, fun _ => "[]"⟩

theorem settled_deliverAll_example : ∃ earlier delivery later,
    cancelledDeliveries = earlier ++ delivery :: later
    ∧ callOnceExecution.deliverAll sampleOptions cancelledDeliveries =
      callOnceExecution.deliverAll sampleOptions (earlier ++ [delivery])
    ∧ Settled delivery.kvKeys (callOnceExecution.deliverAll sampleOptions earlier)
      (callOnceExecution.deliverAll sampleOptions cancelledDeliveries) :=
  settled_deliverAll callOnceExecution sampleOptions cancelledDeliveries (by decide) (by decide)

/-- The code schedules an activity with a tag that is too long, and returns without awaiting it. -/
def callTagged : Orchestration where
  State := Unit
  start := fun _ _ => ()
  body :=
      fun _ => .request (.callActivity "a" "x" none (some (String.ofList (List.replicate 257 'a'))))
        fun _ =>
    .finish (.ok "done")
  guarded := fun _ _ => trivial

/-- The execution completes and fails in the same turn. -/
example : (((⟨callTagged, "i", 1, "call-tagged", "1", "in"⟩ : Execution).deliverAll sampleOptions
      [⟨⟨fun _ => 0, []⟩, 1, "1", ∅⟩]).drop 2).map Event.kind =
    [.orchestrationCompleted "done",
      limitFailure "Activity 'a' tag size (257 bytes) exceeds limit (256 bytes)",
      .activityCancelRequested "orchestration_terminal_failed"] := by
  decide +kernel

end Execution

end Sporos.Vendor.Replay
