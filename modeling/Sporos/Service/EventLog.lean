import Sporos.Lib.Counter
import Sporos.Service.Terminal

/-! # The event log of a task

The operations that write events: `accept_task`, `project_task` and what calls it, `request_cancel`,
`record_terminal`, `retry` and `project_completion`. In any order of them, with any expected
generations, the events of a task are numbered from 0 to its generation, the last one has the state
of the task, and each generation has one operation that made it. -/

namespace Sporos.Service.EventLog

open Sporos.Service.Tables
open Sporos.Service.Ingress
open Sporos.Service.TaskProjection
open Sporos.Service.TaskControl
open Sporos.Service.Writers
open Sporos.Service.Terminal
open Sporos.Lib.Counter
open Sporos.Lib.Table
open Sporos.Lib.Loop

/-! ### The log -/

/-- The operations that write an event with every generation. A completion accepts other tasks than
its own. -/
def Logged : Op → Prop
  | .accept _ => True
  | .project _ => True
  | .repairMark _ _ => True
  | .repair _ _ _ => True
  | .cancel _ _ => True
  | .terminal _ _ _ _ => True
  | .retry _ _ => True
  | .completion taskId tasks _ _ => ∀ t ∈ tasks, t.id ≠ taskId
  | .candidate _ _ _ _ _ _ _ => True
  | _ => False

/-- The events of a task, in the order in which they were written. -/
def history (db : Db) (taskId : Id) : List EventRow :=
  db.events.filter fun event => event.taskId = taskId

/-- The generation of a task. -/
def generation (db : Db) (taskId : Id) : Option ℕ :=
  (db.task taskId).map TaskRow.projectionGeneration

/-- A task has the events 0 to its generation, the last of them with its state. A missing task has
none. -/
def LogOk (db : Db) (taskId : Id) : Prop :=
  match db.task taskId with
  | none => history db taskId = []
  | some row =>
    (history db taskId).map EventRow.sequence = List.range (row.projectionGeneration + 1)
      ∧ (history db taskId).getLast?.map EventRow.state = some row.state

/-! ### What an operation does to a log -/

/-- A task gets its next generation, with the event of it. -/
def Advances (db db' : Db) (taskId : Id) : Prop :=
  ∃ row', db'.task taskId = some row'
    ∧ row'.projectionGeneration = (generation db taskId).elim 0 (· + 1)
    ∧ ∃ event, event.sequence = row'.projectionGeneration ∧ event.state = row'.state
      ∧ history db' taskId = history db taskId ++ [event]

/-- A task keeps its generation, its state and its events. -/
def Rests (db db' : Db) (taskId : Id) : Prop :=
  generation db' taskId = generation db taskId
    ∧ (db'.task taskId).map TaskRow.state = (db.task taskId).map TaskRow.state
    ∧ history db' taskId = history db taskId

theorem Rests.refl (db : Db) (taskId : Id) : Rests db db taskId := ⟨rfl, rfl, rfl⟩

theorem Rests.trans {db₁ db₂ db₃ : Db} {taskId : Id} (h : Rests db₁ db₂ taskId)
    (h' : Rests db₂ db₃ taskId) : Rests db₁ db₃ taskId :=
  ⟨h'.1.trans h.1, h'.2.1.trans h.2.1, h'.2.2.trans h.2.2⟩

/-- A task rests or gets its next generation. -/
def Moves (db db' : Db) (taskId : Id) : Prop := Rests db db' taskId ∨ Advances db db' taskId

section

variable {db db' : Db} {taskId : Id}

theorem logOk_of_none (hrow : db.task taskId = none) :
    LogOk db taskId ↔ history db taskId = [] := by
  rw [LogOk, hrow]

theorem logOk_of_some {row : TaskRow} (hrow : db.task taskId = some row) :
    LogOk db taskId
      ↔ (history db taskId).map EventRow.sequence = List.range (row.projectionGeneration + 1)
        ∧ (history db taskId).getLast?.map EventRow.state = some row.state := by
  rw [LogOk, hrow]

theorem Rests.logOk (h : Rests db db' taskId) (hlog : LogOk db taskId) : LogOk db' taskId := by
  obtain ⟨hgeneration, hstate, hhistory⟩ := h
  unfold generation at hgeneration
  cases hrow : db.task taskId with
  | none =>
    rw [hrow, Option.map_none, Option.map_eq_none_iff] at hgeneration
    rw [logOk_of_none hgeneration, hhistory]
    exact (logOk_of_none hrow).mp hlog
  | some row =>
    rw [hrow, Option.map_some, Option.map_eq_some_iff] at hgeneration
    obtain ⟨row', hrow', hsame⟩ := hgeneration
    rw [hrow, hrow', Option.map_some, Option.map_some, Option.some_inj] at hstate
    rw [logOk_of_some hrow', hhistory, hsame, hstate]
    exact (logOk_of_some hrow).mp hlog

theorem Advances.logOk (h : Advances db db' taskId) (hlog : LogOk db taskId) :
    LogOk db' taskId := by
  obtain ⟨row', hrow', hgeneration, event, hsequence, hstate, hhistory⟩ := h
  rw [logOk_of_some hrow', hhistory, List.map_append, List.map_singleton,
    hsequence, List.range_succ]
  refine ⟨?_, by simp [hstate]⟩
  congr 1
  rw [hgeneration]
  unfold generation
  cases hrow : db.task taskId with
  | none =>
    rw [(logOk_of_none hrow).mp hlog]
    rfl
  | some row => exact ((logOk_of_some hrow).mp hlog).1

theorem Moves.logOk (h : Moves db db' taskId) (hlog : LogOk db taskId) : LogOk db' taskId :=
  h.elim (fun h => h.logOk hlog) (fun h => h.logOk hlog)

/-- The update of a row with the event of its next generation. -/
theorem moves_update {row : TaskRow} {f : TaskRow → TaskRow} {event : EventRow}
    (hrow : db.task taskId = some row) (hid : ∀ row, (f row).id = row.id)
    (hgeneration : (f row).projectionGeneration = row.projectionGeneration + 1)
    (hevent : event.taskId = taskId ∧ event.sequence = row.projectionGeneration + 1
      ∧ event.state = (f row).state)
    (htasks : db'.tasks = updateKey TaskRow.id db.tasks taskId f)
    (hevents : db'.events = db.events ++ [event]) (id : Id) :
    Rests db db' id ∨ (id = taskId ∧ Advances db db' id) := by
  have htask : ∀ id', db'.task id' = if id' = taskId then (db.task id').map f else db.task id' := by
    intro id'
    rw [Db.task, htasks]
    exact Db.task_updateTask f hid db taskId id'
  have hhistory : history db' id
      = history db id ++ if event.taskId = id then [event] else [] := by
    rw [history, hevents, List.filter_append, List.filter_singleton]
    simp [history]
  obtain ⟨htaskId, hsequence, hstate⟩ := hevent
  by_cases heq : id = taskId
  · subst heq
    refine .inr ⟨rfl, f row, by rw [htask, if_pos rfl, hrow]; rfl, ?_, event, ?_, hstate, ?_⟩
    · rw [generation, hrow, hgeneration]
      rfl
    · rw [hsequence, hgeneration]
    · rw [hhistory, if_pos htaskId]
  · refine .inl ⟨?_, ?_, ?_⟩
    · rw [generation, htask, if_neg heq]
      rfl
    · rw [htask, if_neg heq]
    · rw [hhistory, if_neg fun h => heq (h.symm.trans htaskId), List.append_nil]

/-- An update that leaves the generation and the state alone. -/
theorem rests_updateTask {f : TaskRow → TaskRow} (hid : ∀ row, (f row).id = row.id)
    (hgeneration : ∀ row, (f row).projectionGeneration = row.projectionGeneration)
    (hstate : ∀ row, (f row).state = row.state) (db : Db) (taskId id : Id) :
    Rests db (db.updateTask taskId f) id := by
  refine ⟨?_, ?_, rfl⟩
  · rw [generation, Db.task_updateTask f hid, generation]
    split
    · rw [Option.map_map]
      exact congrArg (fun g => (db.task id).map g) (funext hgeneration)
    · rfl
  · rw [Db.task_updateTask f hid]
    split
    · rw [Option.map_map]
      exact congrArg (fun g => (db.task id).map g) (funext hstate)
    · rfl

/-- A task has the event of a number if and only if it has reached that generation. -/
theorem LogOk.event_iff (hlog : LogOk db taskId) (n : ℕ) :
    (lookup EventRow.key db.events (taskId, n)).isSome = true
      ↔ ∃ row, db.task taskId = some row ∧ n ≤ row.projectionGeneration := by
  have hmem : (lookup EventRow.key db.events (taskId, n)).isSome = true
      ↔ n ∈ (history db taskId).map EventRow.sequence := by
    rw [List.mem_map]
    constructor
    · intro h
      obtain ⟨event, hevent⟩ := Option.isSome_iff_exists.mp h
      obtain ⟨hmem, hkey⟩ := lookup_eq_some_mem hevent
      have htask : event.taskId = taskId := congrArg Prod.fst hkey
      exact ⟨event, List.mem_filter.mpr ⟨hmem, by simpa using htask⟩, congrArg Prod.snd hkey⟩
    · rintro ⟨event, hmem, hsequence⟩
      obtain ⟨hmem, htask⟩ := List.mem_filter.mp hmem
      have hkey : event.key = (taskId, n) := by simp [EventRow.key, hsequence, by simpa using htask]
      rw [← hkey]
      exact lookup_isSome_of_mem EventRow.key hmem
  rw [hmem]
  cases hrow : db.task taskId with
  | none => simp [(logOk_of_none hrow).mp hlog]
  | some row =>
    rw [((logOk_of_some hrow).mp hlog).1, List.mem_range]
    simp

/-- The acceptance of a task creates it, or finds it. -/
theorem moves_of_acceptedIn {jsonValid : String → Bool} {t : NewTask} {inserted : Bool}
    (h : AcceptedIn jsonValid db t db' inserted) (hlog : LogOk db t.id) (id : Id) :
    Rests db db' id ∨ (id = t.id ∧ db.task id = none ∧ Advances db db' id) := by
  have htasks : db'.tasks = insertOrIgnore TaskRow.id db.tasks t.row := by
    rcases h.result with ⟨-, rfl⟩ | ⟨-, -, -, rfl⟩ <;> rfl
  have hevents : db'.events = insertOrIgnore EventRow.key db.events t.event := by
    rcases h.result with ⟨-, rfl⟩ | ⟨-, -, -, rfl⟩ <;> rfl
  cases hrow : db.task t.id with
  | some row =>
    obtain ⟨event, hevent⟩ :=
      Option.isSome_iff_exists.mp ((hlog.event_iff 0).mpr ⟨row, hrow, Nat.zero_le _⟩)
    have hkeepTasks : db'.tasks = db.tasks := htasks.trans (insertOrIgnore_of_some hrow)
    have hkeepEvents : db'.events = db.events := hevents.trans (insertOrIgnore_of_some hevent)
    exact .inl ⟨by simp [generation, Db.task, hkeepTasks], by simp [Db.task, hkeepTasks],
      by simp [history, hkeepEvents]⟩
  | none =>
    have hfirst : lookup EventRow.key db.events t.event.key = none := by
      rw [← Option.not_isSome_iff_eq_none]
      intro hevent
      obtain ⟨row, hrow', -⟩ := (hlog.event_iff 0).mp hevent
      rw [hrow] at hrow'
      cases hrow'
    have haddTasks : db'.tasks = db.tasks ++ [t.row] := htasks.trans (insertOrIgnore_of_none hrow)
    have haddEvents : db'.events = db.events ++ [t.event] :=
      hevents.trans (insertOrIgnore_of_none hfirst)
    by_cases heq : id = t.id
    · subst heq
      refine .inr ⟨rfl, hrow, t.row, ?_, ?_, t.event, rfl, rfl, ?_⟩
      · rw [Db.task, haddTasks, lookup_append]
        simp only [Db.task] at hrow
        rw [hrow]
        simp [lookup, NewTask.row]
      · rw [generation, hrow]
        rfl
      · simp [history, haddEvents, NewTask.event]
    · have htask : db'.task id = db.task id := by
        rw [Db.task, haddTasks, lookup_append]
        have hother : lookup TaskRow.id [t.row] id = none := by
          simp [lookup, NewTask.row, Ne.symm heq]
        rw [hother, Option.or_none, Db.task]
      refine .inl ⟨by rw [generation, htask, generation], by rw [htask], ?_⟩
      simp [history, haddEvents, NewTask.event, Ne.symm heq]

theorem Rests.advances {db₁ db₂ db₃ : Db} (h : Rests db₁ db₂ taskId)
    (h' : Advances db₂ db₃ taskId) : Advances db₁ db₃ taskId := by
  obtain ⟨row', hrow', hgeneration, event, hsequence, hstate, hhistory⟩ := h'
  exact ⟨row', hrow', by rw [hgeneration, h.1], event, hsequence, hstate, by rw [hhistory, h.2.2]⟩

theorem Advances.rests {db₁ db₂ db₃ : Db} (h : Advances db₁ db₂ taskId)
    (h' : Rests db₂ db₃ taskId) : Advances db₁ db₃ taskId := by
  obtain ⟨row, hrow, hgeneration, event, hsequence, hstate, hhistory⟩ := h
  obtain ⟨hgeneration', hstate', hhistory'⟩ := h'
  rw [generation, generation, hrow, Option.map_some, Option.map_eq_some_iff] at hgeneration'
  obtain ⟨row', hrow', hsame⟩ := hgeneration'
  rw [hrow, hrow', Option.map_some, Option.map_some, Option.some_inj] at hstate'
  exact ⟨row', hrow', hsame.trans hgeneration, event, hsequence.trans hsame.symm,
    hstate.trans hstate'.symm, hhistory'.trans hhistory⟩

/-- The tasks of a page are created or found; no other task moves. -/
theorem moves_of_acceptAll {jsonValid : String → Bool} {tasks : List NewTask}
    (h : acceptAll jsonValid db tasks = .ok db') (hlog : ∀ id, LogOk db id) (id : Id) :
    Rests db db' id
      ∨ ((∃ t ∈ tasks, t.id = id) ∧ db.task id = none ∧ Advances db db' id) := by
  induction tasks generalizing db with
  | nil =>
    obtain rfl : db = db' := by simpa [acceptAll, pure, Except.pure] using h
    exact .inl (Rests.refl db id)
  | cons t tasks ih =>
    rw [acceptAll, List.foldlM_cons] at h
    obtain ⟨db₁, hfirst, hrest⟩ := bind_eq_ok.mp h
    obtain ⟨⟨db₂, inserted⟩, haccept, rfl⟩ := map_eq_ok hfirst
    have hmove := moves_of_acceptedIn (acceptTaskIn_eq_ok haccept) (hlog t.id)
    have hlog₁ : ∀ id, LogOk db₂ id := by
      intro id
      rcases hmove id with h | ⟨-, -, h⟩
      · exact h.logOk (hlog id)
      · exact h.logOk (hlog id)
    rcases ih hrest hlog₁ with hrests | ⟨⟨t', ht', hid⟩, hnone, hadvances⟩
    · rcases hmove id with h | ⟨hid, hnone, h⟩
      · exact .inl (h.trans hrests)
      · exact .inr ⟨⟨t, by simp, hid.symm⟩, hnone, h.rests hrests⟩
    · rcases hmove id with h | ⟨-, -, row', hrow', -⟩
      · have hnone' : generation db id = none := by
          rw [← h.1, generation, hnone]
          rfl
        exact .inr ⟨⟨t', by simp [ht'], hid⟩, by simpa [generation] using hnone',
          h.advances hadvances⟩
      · rw [hnone] at hrow'
        cases hrow'

/-- A completion settles a task that has not been projected, and no other. -/
theorem moves_of_projectCompletionIn {jsonValid : String → Bool} {detailJson : String}
    {observedAt : ℤ} (h : projectCompletionIn jsonValid db taskId detailJson observedAt = .ok db')
    (hlog : LogOk db taskId) (id : Id) :
    Rests db db' id ∨ (id = taskId ∧ Advances db db' id) := by
  unfold projectCompletionIn at h
  split at h
  · rename_i hguard
    obtain ⟨row, hrow⟩ := Option.isSome_iff_exists.mp hguard.2
    have hdb' := (Except.ok.inj h).symm
    have htasks : db'.tasks = updateKey TaskRow.id db.tasks taskId (completionRow observedAt) := by
      rw [hdb']
      rfl
    have hevents : db'.events
        = insertOrIgnore EventRow.key db.events (completionEvent taskId detailJson observedAt) := by
      rw [hdb']
      rfl
    have hevent := hlog.event_iff 1
    by_cases hgeneration : row.projectionGeneration = 0
    · have hnone : lookup EventRow.key db.events (taskId, 1) = none := by
        rw [← Option.not_isSome_iff_eq_none, hevent]
        rintro ⟨row', hrow', hle⟩
        rw [hrow, Option.some_inj] at hrow'
        subst hrow'
        omega
      refine moves_update hrow (completionRow_id observedAt) (by simp [completionRow, hgeneration])
        ⟨rfl, ?_, ?_⟩ htasks (hevents.trans (insertOrIgnore_of_none hnone)) id
      · simp [completionEvent, hgeneration]
      · simp [completionEvent, completionRow, hgeneration]
    · obtain ⟨event, hsome⟩ :=
        Option.isSome_iff_exists.mp (hevent.mpr ⟨row, hrow, Nat.pos_of_ne_zero hgeneration⟩)
      have hkeepEvents : db'.events = db.events := hevents.trans (insertOrIgnore_of_some hsome)
      have htask : db'.task id = db.task id := by
        rw [Db.task, htasks, lookup_updateKey (completionRow_id observedAt)]
        split
        · rename_i heq
          subst heq
          rw [show lookup TaskRow.id db.tasks id = some row from hrow, hrow]
          simp [completionRow, hgeneration]
        · rfl
      exact .inl ⟨by rw [generation, htask, generation], by rw [htask],
        by simp [history, hkeepEvents]⟩
  · cases h

end

/-! ### Operations -/

section

variable {codecs : Codecs} {db db' : Db}

theorem moves_of_projectTask {fromStr jsonValid : String → Bool} {update : ProjectionUpdate}
    (h : (projectTask fromStr jsonValid db update).map (·.1) = .ok db') (id : Id) :
    Moves db db' id := by
  obtain ⟨⟨db₁, outcome⟩, hproject, rfl⟩ := map_eq_ok h
  rcases projectTask_eq_ok hproject with rfl | ⟨row, hrow, -, -, -, rfl⟩
  · exact .inl (Rests.refl _ id)
  · exact (moves_update hrow (f := update.apply (row.projectionGeneration + 1)) (fun _ => rfl) rfl
      ⟨rfl, rfl, rfl⟩ rfl rfl id).imp_right And.right

theorem moves_of_write {jsonValid : String → Bool} {taskId : Id} {row : TaskRow}
    {f : TaskRow → TaskRow} {start : OutboxRow} {event : EventRow}
    (h : db.write jsonValid taskId f start event = some db') (hrow : db.task taskId = some row)
    (hid : ∀ row, (f row).id = row.id)
    (hgeneration : (f row).projectionGeneration = row.projectionGeneration + 1)
    (hevent : event.taskId = taskId ∧ event.sequence = row.projectionGeneration + 1
      ∧ event.state = (f row).state) (id : Id) : Moves db db' id := by
  obtain ⟨-, -, -, rfl⟩ := write_eq_some h
  exact (moves_update hrow hid hgeneration hevent rfl rfl id).imp_right And.right

theorem rests_repairMark (ids : List Id) (occurredAt : ℤ) (db : Db) (id : Id) :
    Rests db (repairMark db ids occurredAt) id := by
  induction ids generalizing db with
  | nil => exact Rests.refl db id
  | cons taskId ids ih =>
    refine Rests.trans ?_ (ih _)
    refine rests_updateTask (fun row => ?_) (fun row => ?_) (fun row => ?_) db taskId id <;>
      split <;> rfl

theorem moves_committed {ε : Type} {result : Except ε Db} {id : Id}
    (h : ∀ db', result = .ok db' → Moves db db' id) : Moves db (committed db result) id := by
  cases result with
  | error e => exact .inl (Rests.refl db id)
  | ok db' => exact h db' rfl

/-- **One operation.** Each task rests or gets its next generation. -/
theorem moves_step (codecs : Codecs) {db : Db} {op : Op} (hop : Logged op)
    (hlog : ∀ id, LogOk db id) (id : Id) : Moves db (op.step codecs db) id := by
  cases op with
  | accept t =>
    refine moves_committed fun db' h => ?_
    obtain ⟨⟨db₁, accepted⟩, haccept, rfl⟩ := map_eq_ok h
    exact (moves_of_acceptedIn (acceptTask_eq_ok haccept) (hlog t.id) id).imp_right fun h => h.2.2
  | project update => exact moves_committed fun db' h => moves_of_projectTask h id
  | repairMark ids occurredAt => exact .inl (rests_repairMark ids occurredAt db id)
  | repair seen status occurredAt =>
    refine moves_committed fun db' h => ?_
    unfold repairTask at h
    split at h
    · obtain rfl : db = db' := by simpa using h
      exact .inl (Rests.refl db id)
    · exact moves_of_projectTask h id
  | cancel taskId now =>
    refine moves_committed fun db' h => ?_
    obtain ⟨⟨db₁, accepted⟩, hcancel, rfl⟩ := map_eq_ok h
    obtain ⟨row, hrow, -, ⟨-, rfl⟩ | ⟨-, hwrite⟩⟩ := requestCancel_eq_ok hcancel
    · exact .inl (Rests.refl _ id)
    · exact moves_of_write hwrite hrow (fun _ => rfl) rfl ⟨rfl, rfl, rfl⟩ id
  | terminal taskId state reason now =>
    refine moves_committed fun db' h => ?_
    rcases recordTerminal_eq_ok h with rfl | ⟨row, hrow, -, -, -, rfl⟩
    · exact .inl (Rests.refl _ id)
    · exact (moves_update hrow (f := terminalRow state reason (row.projectionGeneration + 1) now)
        (fun _ => rfl) rfl ⟨rfl, rfl, rfl⟩ rfl rfl id).imp_right And.right
  | retry taskId now =>
    refine moves_committed fun db' h => ?_
    obtain ⟨⟨db₁, instanceId⟩, hretry, rfl⟩ := map_eq_ok h
    obtain ⟨row, start, hrow, -, -, -, -, hwrite⟩ := retry_eq_ok hretry
    exact moves_of_write hwrite hrow (fun _ => rfl) rfl ⟨rfl, rfl, rfl⟩ id
  | completion taskId tasks detailJson observedAt =>
    refine moves_committed fun db' h => ?_
    obtain ⟨db₁, haccept, hproject⟩ := bind_eq_ok.mp h
    have haccepted := moves_of_acceptAll haccept hlog
    have hlog₁ : LogOk db₁ taskId := by
      rcases haccepted taskId with h | ⟨-, -, h⟩
      · exact h.logOk (hlog taskId)
      · exact h.logOk (hlog taskId)
    rcases moves_of_projectCompletionIn hproject hlog₁ id with hrests | ⟨rfl, hadvances⟩
    · rcases haccepted id with h | ⟨-, -, h⟩
      · exact .inl (h.trans hrests)
      · exact .inr (h.rests hrests)
    · rcases haccepted id with h | ⟨⟨t, ht, hid⟩, -⟩
      · exact .inr (h.advances hadvances)
      · exact absurd hid (hop t ht)
  | candidate seen taskId state reasonCode isTerminal detailJson now =>
    refine moves_committed fun db' h => ?_
    unfold projectCandidateTask at h
    split at h
    · obtain rfl : db = db' := by simpa using h
      exact .inl (Rests.refl db id)
    · exact moves_of_projectTask h id
  | markSearching taskId now => exact hop.elim
  | wait taskId reason now => exact hop.elim
  | searchFinish taskId now reason failed => exact hop.elim
  | producePage taskId tasks done now => exact hop.elim
  | scanPage taskId tasks now => exact hop.elim
  | scanFinish taskId now reason failed => exact hop.elim

end

/-! ### Answers -/

/-- What `project_task` answers: an update is applied already if the event after the expected
generation is that of the update, and only an applied update changes the tables. -/
theorem projectTask_answers {fromStr jsonValid : String → Bool} {db db' : Db}
    {update : ProjectionUpdate} {outcome : ProjectionOutcome}
    (hexpected : update.expectedGeneration ≤ u64Max)
    (h : projectTask fromStr jsonValid db update = .ok (db', outcome)) :
    (∀ g, outcome = .alreadyApplied g → ∃ event,
        lookup EventRow.key db.events (update.taskId, update.expectedGeneration + 1) = some event
          ∧ event.state = update.state ∧ event.reasonCode = update.reasonCode
          ∧ event.detailJson = update.detailJson)
      ∧ ((∀ g, outcome ≠ .applied g) → db' = db) := by
  unfold projectTask at h
  obtain ⟨⟨⟩, -, h⟩ := bind_eq_ok.mp h
  cases hrow : db.task update.taskId with
  | none =>
    simp only [hrow, pure, Except.pure, Except.ok.injEq, Prod.mk.injEq] at h
    obtain ⟨rfl, rfl⟩ := h
    exact ⟨by simp, by simp⟩
  | some row =>
    simp only [hrow] at h
    by_cases hgeneration : row.projectionGeneration = update.expectedGeneration
    · rw [if_neg (not_not.mpr hgeneration)] at h
      split_ifs at h with hterminal hrange
      · simp only [pure, Except.pure, Except.ok.injEq, Prod.mk.injEq] at h
        obtain ⟨rfl, rfl⟩ := h
        exact ⟨by simp, by simp⟩
      · cases h
      · cases hevent : Db.insertEvent jsonValid
            (db.updateTask update.taskId (update.apply (row.projectionGeneration + 1)))
            (update.event (row.projectionGeneration + 1)) with
        | none => simp [hevent, throw, throwThe, MonadExceptOf.throw] at h
        | some db₁ =>
          simp only [hevent, pure, Except.pure, Except.ok.injEq, Prod.mk.injEq] at h
          obtain ⟨rfl, rfl⟩ := h
          exact ⟨by simp, by simp⟩
    · rw [if_pos hgeneration] at h
      split_ifs at h with happlied
      · simp only [pure, Except.pure, Except.ok.injEq, Prod.mk.injEq] at h
        obtain ⟨rfl, rfl⟩ := h
        refine ⟨fun g _ => ?_, fun _ => rfl⟩
        obtain ⟨hnext, hmatches⟩ := happlied
        -- the addition saturates at a generation that is the expected one
        have hsucc : row.projectionGeneration = update.expectedGeneration + 1 := by omega
        rw [hsucc] at hmatches
        unfold eventMatches at hmatches
        split at hmatches
        · cases hmatches
        · rename_i event hevent
          exact ⟨event, hevent, by simpa using hmatches⟩
      · simp only [pure, Except.pure, Except.ok.injEq, Prod.mk.injEq] at h
        obtain ⟨rfl, rfl⟩ := h
        exact ⟨by simp, by simp⟩

/-! ### Runs -/

/-- The number of the generations of a task. -/
def generations (db : Db) (taskId : Id) : ℕ := (generation db taskId).elim 0 (· + 1)

theorem generations_eq_succ {db : Db} {taskId : Id} {g : ℕ} :
    generations db taskId = g + 1 ↔ generation db taskId = some g := by
  unfold generations
  cases generation db taskId <;> simp

theorem Moves.generations {db db' : Db} {taskId : Id} (h : Moves db db' taskId) :
    generations db' taskId = generations db taskId
      ∨ generations db' taskId = generations db taskId + 1 := by
  rcases h with h | ⟨row', hrow', hgeneration, -⟩
  · exact .inl (by rw [EventLog.generations, EventLog.generations, h.1])
  · refine .inr ?_
    rw [EventLog.generations, generation, hrow', Option.map_some, Option.elim_some, hgeneration]
    rfl

section

variable (codecs : Codecs) {ops : List Op}

/-- **Runs.** The log of every task is in order after any logged operations. -/
theorem logOk_runOps (hops : ∀ op ∈ ops, Logged op) (taskId : Id) :
    LogOk (runOps codecs Db.empty ops) taskId := by
  have hrun : ∀ (ops : List Op) (db : Db), (∀ op ∈ ops, Logged op) → (∀ id, LogOk db id) →
      ∀ id, LogOk (runOps codecs db ops) id := by
    intro ops
    induction ops with
    | nil => exact fun db _ hlog => hlog
    | cons op ops ih =>
      intro db hops hlog
      refine ih _ (fun op' h => hops op' (by simp [h])) fun id => ?_
      exact (moves_step codecs (hops op (by simp)) hlog id).logOk (hlog id)
  exact hrun ops Db.empty hops (fun id => rfl) taskId

/-- The tables after some of the operations of a run. -/
def after (ops : List Op) (n : ℕ) : Db := runOps codecs Db.empty (ops.take n)

theorem counts_generations (hops : ∀ op ∈ ops, Logged op) (taskId : Id) :
    Counts fun n => generations (after codecs ops n) taskId := by
  intro n
  rcases Nat.lt_or_ge n ops.length with hlt | hge
  · have hstep : after codecs ops (n + 1) = (ops[n]).step codecs (after codecs ops n) := by
      rw [after, List.take_succ_eq_append_getElem hlt, runOps_append]
      rfl
    simp only [hstep]
    refine (moves_step codecs (hops _ (List.getElem_mem hlt)) ?_ taskId).generations
    exact logOk_runOps codecs fun op hop => hops op (List.mem_of_mem_take hop)
  · left
    simp only [after, List.take_of_length_le hge, List.take_of_length_le (Nat.le_succ_of_le hge)]

/-- **The event log of a task.** After any sequence of operations, the events of each task are
numbered 0 to its generation and the last one has its state; the generation has never fallen, and
each generation up to it has been made by exactly one of the operations; an update that is answered
as applied already is the event after the generation that it expects, and an update that is not
applied changes nothing. -/
theorem event_log (hops : ∀ op ∈ ops, Logged op) :
    (∀ taskId, LogOk (runOps codecs Db.empty ops) taskId)
      ∧ (∀ taskId m n g, m ≤ n → generation (after codecs ops m) taskId = some g →
          ∃ g', generation (after codecs ops n) taskId = some g' ∧ g ≤ g')
      ∧ (∀ taskId last g, generation (runOps codecs Db.empty ops) taskId = some last → g ≤ last →
          ∃! n, n < ops.length ∧ generation (after codecs ops n) taskId ≠ some g
            ∧ generation (after codecs ops (n + 1)) taskId = some g)
      ∧ ∀ update db' outcome, update.expectedGeneration ≤ u64Max →
          projectTask codecs.fromStr codecs.control.jsonValid (runOps codecs Db.empty ops) update
            = .ok (db', outcome) →
          (∀ g, outcome = .alreadyApplied g → ∃ event,
            lookup EventRow.key (runOps codecs Db.empty ops).events
                (update.taskId, update.expectedGeneration + 1) = some event
              ∧ event.state = update.state ∧ event.reasonCode = update.reasonCode
              ∧ event.detailJson = update.detailJson)
          ∧ ((∀ g, outcome ≠ .applied g) → db' = runOps codecs Db.empty ops) := by
  refine ⟨logOk_runOps codecs hops, ?_, ?_, fun update db' outcome => projectTask_answers⟩
  · intro taskId m n g hmn hg
    have hle := (counts_generations codecs hops taskId).monotone hmn
    simp only [generations_eq_succ.mpr hg] at hle
    obtain ⟨g', hg'⟩ : ∃ g', generations (after codecs ops n) taskId = g' + 1 :=
      ⟨_, (Nat.succ_pred_eq_of_pos (by omega)).symm⟩
    exact ⟨g', generations_eq_succ.mp hg', by omega⟩
  · intro taskId last g hlast hle
    have hfinal : generations (after codecs ops ops.length) taskId = last + 1 := by
      rw [after, List.take_length]
      exact generations_eq_succ.mpr hlast
    obtain ⟨n, ⟨hn, hne, heq⟩, hunique⟩ :=
      (counts_generations codecs hops taskId).existsUnique_step (v := g + 1) (n := ops.length)
        (Nat.succ_pos g) (by omega)
    refine ⟨n, ⟨hn, mt generations_eq_succ.mpr hne, generations_eq_succ.mp heq⟩, ?_⟩
    rintro m ⟨hm, hne', heq'⟩
    exact hunique m ⟨hm, mt generations_eq_succ.mp hne', generations_eq_succ.mpr heq'⟩

end

/-- The update of a task that is searching, or of one that is cancelled. -/
def searchUpdate (expectedGeneration : ℕ) (state : String) (reasonCode : Option String) :
    ProjectionUpdate where
  taskId := 1
  expectedGeneration
  state
  reasonCode
  executionId := none
  observedRetryCount := 0
  detailJson := none
  occurredAt := 6
  terminal := false

/-- A search that is projected, with a replay, and then cancelled. -/
def projectedSearch : List Op :=
  cancelledSearch.take 1 ++ [.project (searchUpdate 0 "searching" none),
    .project (searchUpdate 0 "searching" none), .cancel 1 7,
    .terminal 1 "cancelled" "cancelled_by_operator" 8]

/-- The third generation of the search is made once, and its event answers a late projection. -/
theorem event_log_projectedSearch :
    (∃! n, n < 5 ∧ generation (after searchCodecs projectedSearch n) 1 ≠ some 3
        ∧ generation (after searchCodecs projectedSearch (n + 1)) 1 = some 3)
      ∧ ∃ event, lookup EventRow.key (runOps searchCodecs Db.empty projectedSearch).events (1, 3)
          = some event ∧ event.state = "cancelled"
        ∧ event.reasonCode = some "cancelled_by_operator" ∧ event.detailJson = none := by
  have hlogged : ∀ op ∈ projectedSearch, Logged op := by
    intro op hop
    simp only [projectedSearch, cancelledSearch, List.take_succ_cons, List.take_zero,
      List.cons_append, List.nil_append, List.mem_cons, List.not_mem_nil, or_false] at hop
    rcases hop with rfl | rfl | rfl | rfl | rfl <;> trivial
  obtain ⟨-, -, hmade, hanswers⟩ := event_log searchCodecs hlogged
  refine ⟨hmade 1 3 3 (by decide +kernel) le_rfl, ?_⟩
  exact (hanswers (searchUpdate 2 "cancelled" (some "cancelled_by_operator"))
    (runOps searchCodecs Db.empty projectedSearch) (.alreadyApplied 3) (by decide)
    (by decide +kernel)).1 3 rfl

end Sporos.Service.EventLog
