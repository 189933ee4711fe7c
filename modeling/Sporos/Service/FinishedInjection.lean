import Sporos.Service.StartSafety

/-! # Finished injections

`finish_injection` writes four tables one after the other, and a crash after its first statement
leaves a row of `sporos_injection` that is `completed` while the run of the plan goes on. The
observation that follows does not know this state: it falls to the branch that counts attempts, or
to the one that writes `checking`. So a completed injection is stable only as long as qBittorrent
has the torrent and does not check it, and the attempts do not run out. -/

namespace Sporos.Service.FinishedInjection

open Sporos.Model.Matching
open Sporos.Service.Tables
open Sporos.Service.TaskProjection
open Sporos.Service.Injection
open Sporos.Service.InjectionRun
open Sporos.Service.StartSafety
open Sporos.Lib.Table
open Sporos.Lib.Program
open Sporos.Lib.Processes

/-! ### The property and the condition -/

/-- The row of the injection is completed. -/
def Completed (state : PlanState) : Prop :=
  ∃ row, state.injection = some row ∧ row.state = "completed"

/-- The state of a candidate. -/
def candidateState (db : Db) (id : Id) : Option String :=
  (lookup CandidateRow.id db.candidates id).map CandidateRow.state

/-- The state of a task. -/
def taskState (db : Db) (id : Id) : Option String := (db.task id).map TaskRow.state

/-- The state of a candidate or of a task changes at most to completed. -/
def OnlyCompletes (db db' : Db) : Prop :=
  (∀ id, candidateState db' id = candidateState db id ∨ candidateState db' id = some "completed")
    ∧ ∀ id, taskState db' id = taskState db id ∨ taskState db' id = some "completed"

section

variable {ι : Type}

/-- The row stays completed, and the plan, the candidate and the task change at most to completed.
-/
structure Kept (p : ι) (w w' : World ι) : Prop where
  injection : Completed (w'.plans p)
  plan : (w'.plans p).state = (w.plans p).state ∨ (w'.plans p).state = "completed"
  tables : OnlyCompletes w.db w'.db

/-- What an operation on a completed injection needs: the torrent is there and is not checked, and
the attempts do not run out. -/
def Steady {γ : Type} (p : ι) (e : Effect γ) (w : World ι) : Prop :=
  match e with
  | .torrentState hash => ∃ torrent, w.torrents hash = some torrent ∧ torrent.isChecking = false
  | .bumpVerification _ =>
    ∀ row, (w.plans p).injection = some row → row.verificationAttempts + 1 < maxFinalVerifyAttempts
  | _ => True

/-- The plan observes, and its row is completed. -/
def Observed (s : Injections ι) (p : ι) : Prop :=
  (s.procs p).phase = .observe ∧ Completed (s.state.plans p)

/-- The condition on a step: an observation of a completed injection is steady, and the engine does
not give it up. -/
def SteadyStep (p : ι) (s : Injections ι) (a : Step ι) : Prop :=
  Observed s p → a ≠ .giveUp p ∧ (a = .act p → ∀ {γ : Type} (e : Effect γ) k,
    (s.procs p).running = some (.op e k) → Steady p e s.state)

end

/-! ### Operations -/

/-- The operations of `finish_injection`, and those that change nothing. -/
def Finishing {γ : Type} : Effect γ → Prop
  | .now => True
  | .completeInjection _ => True
  | .setPlanState state => state = "completed"
  | .setCandidateState state _ => state = "completed"
  | .task => True
  | .projectTask update => update.state = "completed"
  | _ => False

/-- The operations of `observe` that do not complete an injection. -/
def Unfinished {γ : Type} : Effect γ → Prop
  | .completeInjection _ => False
  | .updateObservation _ state => state ≠ "completed"
  | .setInjectionState state => state ≠ "completed"
  | .insertInjection _ state => state ≠ "completed"
  | _ => True

theorem onlyCompletes_refl (db : Db) : OnlyCompletes db db := ⟨fun _ => .inl rfl, fun _ => .inl rfl⟩

theorem onlyCompletes_setCandidateState (db : Db) (candidateId : Id) (now : ℤ) :
    OnlyCompletes db (setCandidateState db candidateId "completed" now) := by
  refine ⟨fun id => ?_, fun _ => .inl rfl⟩
  have hid : ∀ row : CandidateRow,
      CandidateRow.id { row with state := "completed", updatedAt := now } = CandidateRow.id row :=
    fun _ => rfl
  unfold candidateState setCandidateState
  rw [lookup_updateKey hid]
  split_ifs
  · cases lookup CandidateRow.id db.candidates id with
    | none => exact .inl rfl
    | some row => exact .inr rfl
  · exact .inl rfl

theorem onlyCompletes_projectTask (fromStr jsonValid : String → Bool) (db : Db)
    {update : ProjectionUpdate} (hstate : update.state = "completed") :
    OnlyCompletes db (((projectTask fromStr jsonValid db update).map
      Prod.fst).toOption.getD db) := by
  cases hproject : projectTask fromStr jsonValid db update with
  | error e => exact onlyCompletes_refl db
  | ok result =>
    obtain ⟨db', outcome⟩ := result
    rcases projectTask_eq_ok hproject with rfl | ⟨row, -, -, -, -, rfl⟩
    · exact onlyCompletes_refl _
    refine ⟨fun _ => .inl rfl, fun id => ?_⟩
    have htask := Db.task_updateTask (update.apply (row.projectionGeneration + 1)) (fun _ => rfl) db
      update.taskId id
    change (Db.task (db.updateTask update.taskId (update.apply (row.projectionGeneration + 1)))
        id).map TaskRow.state = _
      ∨ (Db.task (db.updateTask update.taskId (update.apply (row.projectionGeneration + 1)))
        id).map TaskRow.state = _
    rw [htask]
    split_ifs
    · unfold taskState
      cases db.task id with
      | none => exact .inl rfl
      | some task => exact .inr (congrArg some hstate)
    · exact .inl rfl

/-- An update that keeps the state of the row or completes it. -/
theorem completed_map {f : InjectionRow → InjectionRow} {state : PlanState} {planState : String}
    {history : History} (h : Completed state)
    (hf : ∀ row, row.state = "completed" → (f row).state = "completed") :
    Completed ⟨state.injection.map f, planState, history⟩ := by
  obtain ⟨row, hrow, hstate⟩ := h
  exact ⟨f row, by simp [hrow], hf row hstate⟩

theorem completed_of_map {f : InjectionRow → InjectionRow} {state : PlanState} {planState : String}
    {history : History} (h : Completed ⟨state.injection.map f, planState, history⟩)
    (hf : ∀ row, (f row).state = "completed" → row.state = "completed") : Completed state := by
  obtain ⟨row', hrow', hstate⟩ := h
  obtain ⟨row, hrow, rfl⟩ := Option.map_eq_some_iff.mp hrow'
  exact ⟨row, hrow, hf row hstate⟩

section

variable {ι : Type} [DecidableEq ι] {fromStr jsonValid : String → Bool} {ctx : ι → Context} {p : ι}

/-- The operations of `finish_injection` change nothing but to completed. -/
theorem kept_finishing {γ : Type} (e : Effect γ) {w : World ι} (he : Finishing e)
    (h : Completed (w.plans p)) : Kept p w (exec fromStr jsonValid ctx p e w).2 := by
  cases e <;> first | exact he.elim | skip
  case now => exact ⟨h, .inl rfl, onlyCompletes_refl _⟩
  case task => exact ⟨h, .inl rfl, onlyCompletes_refl _⟩
  case completeInjection observed =>
    refine ⟨?_, .inl ?_, onlyCompletes_refl _⟩
    · simp only [exec, perform, World.updateInjection, World.updatePlan_self]
      exact completed_map h fun _ _ => rfl
    · simp [exec, perform, World.updateInjection]
  case setPlanState state =>
    obtain rfl : state = "completed" := he
    refine ⟨?_, .inr ?_, onlyCompletes_refl _⟩
    · simp only [exec, perform, World.setPlanState, World.updatePlan_self]
      exact h
    · simp [exec, perform, World.setPlanState]
  case setCandidateState state now =>
    obtain rfl : state = "completed" := he
    exact ⟨h, .inl rfl, onlyCompletes_setCandidateState _ _ _⟩
  case projectTask update =>
    exact ⟨h, .inl rfl, onlyCompletes_projectTask _ _ _ he⟩

/-- The other operations do not complete an injection. -/
theorem not_completed_exec {γ : Type} (e : Effect γ) {w : World ι} (he : Unfinished e)
    (h : ¬ Completed (w.plans p)) : ¬ Completed ((exec fromStr jsonValid ctx p e w).2.plans p) := by
  refine fun hcompleted => h ?_
  cases e <;> simp only [exec, perform, World.updateHistory, World.updateInjection,
    World.setPlanState, World.updatePlan_self, World.link_plans] at hcompleted <;>
    first
    | exact hcompleted
    | exact he.elim
    | skip
  case insertInjection observed state =>
    obtain ⟨row, hrow, hstate⟩ := hcompleted
    obtain rfl := Option.some_inj.mp hrow
    exact absurd hstate he
  case persistLinks complete =>
    refine completed_of_map hcompleted fun row hstate => ?_
    cases complete <;> simp at hstate
  case setInjectionState state =>
    exact completed_of_map hcompleted fun row hstate => absurd hstate he
  case resetVerification => exact completed_of_map hcompleted fun _ hstate => hstate
  case updateObservation observed state =>
    exact completed_of_map hcompleted fun row hstate => absurd hstate he
  case recordResumeDecision observed integritySafe resume =>
    exact completed_of_map hcompleted fun row hstate => by simp [decidedRow] at hstate
  case bumpVerification observed => exact completed_of_map hcompleted fun _ hstate => hstate
  case failInjection => exact completed_of_map hcompleted fun row hstate => by simp at hstate

/-! ### The activities -/

/-- There is a client, and the torrent has a hash. -/
def Usable (ctx : Context) : Prop := ctx.configured = true ∧ ctx.plan.hashes ≠ []

variable (fromStr jsonValid ctx p)

/-- In `observe`, a completed injection is kept, and it ends with the completed result or goes on.
-/
abbrev KeepsFinished (phase : Phase) (program : Activity) (w : World ι) : Prop :=
  Safe (exec fromStr jsonValid ctx p) (Same p)
    (fun e w => phase = .observe → Completed (w.plans p) → Steady p e w)
    (fun _ => phase = .observe → Usable (ctx p))
    (fun e w => phase = .observe → Completed (w.plans p) →
      Kept p w (exec fromStr jsonValid ctx p e w).2)
    (fun result w => (next phase result = .observe → Usable (ctx p))
      ∧ (phase = .observe → Completed (w.plans p) →
        result = .waiting ∨ ∃ reason, result = .terminal "completed" reason)) program w

variable {fromStr jsonValid ctx p}

/-- A program in a phase that is not `observe`. -/
theorem keepsFinished_of_ne {phase : Phase} (hphase : phase ≠ .observe) {program : Activity}
    {Q : StepResult → Prop} (hprogram : Within (fun _ => True) Q program)
    (hnext : ∀ result, Q result → next phase result = .observe → Usable (ctx p)) (w : World ι) :
    KeepsFinished fromStr jsonValid ctx p phase program w :=
  Safe.of_within (K := fun _ => True) (fun _ _ _ _ => trivial) (fun _ _ h => absurd h hphase)
    (fun _ _ _ _ => trivial) (fun _ _ _ _ h => absurd h hphase)
    (fun result _ hresult _ => ⟨hnext result hresult, fun h => absurd h hphase⟩) hprogram trivial

theorem keepsFinished_prepare (w : World ι) :
    KeepsFinished fromStr jsonValid ctx p .prepare (prepare (ctx p)) w := by
  refine keepsFinished_of_ne (by decide) (within_any _) ?_ w
  rintro (_ | _ | ⟨state, reason⟩) _ h <;> cases h

theorem keepsFinished_materialize (w : World ι) :
    KeepsFinished fromStr jsonValid ctx p .materialize (materialize (ctx p)) w := by
  refine keepsFinished_of_ne (by decide) (within_any _) ?_ w
  rintro (_ | _ | ⟨state, reason⟩) _ h <;> cases h

/-- The recheck comes to an observation only if it has a client and a hash. -/
theorem within_recheck_usable (ctx : Context) :
    Within (fun _ => True) (fun result => next .recheck result = .observe → Usable ctx)
      (recheck ctx) := by
  refine Within.perform trivial fun _ => ?_
  split
  · have hR : AllowsFail (fun _ => True) :=
      ⟨trivial, trivial, trivial, fun _ => trivial, trivial, fun _ => trivial⟩
    refine (within_fail ctx hR _).mono ?_
    rintro result rfl h
    cases h
  · rename_i hconfigured
    split
    · trivial
    · rename_i hash hashes hhashes
      exact (within_any _).mono fun _ _ _ => ⟨by simpa using hconfigured, by simp [hhashes]⟩

/-- A program that only finishes. -/
theorem keepsFinished_finishing (husable : Usable (ctx p)) {program : Activity}
    (hprogram : Within @Finishing (fun result => ∃ reason,
      result = .terminal "completed" reason) program)
    (w : World ι) : KeepsFinished fromStr jsonValid ctx p .observe program w :=
  Safe.of_within (K := fun _ => True) (fun _ _ _ _ => trivial) (fun _ _ _ => husable)
    (fun _ _ _ _ => trivial) (fun e _ he _ _ h => kept_finishing e he h)
    (fun _ _ hresult _ => ⟨fun _ => husable, fun _ _ => .inr hresult⟩) hprogram trivial

/-- A program that does not complete an injection that is not completed. -/
theorem keepsFinished_unfinished (husable : Usable (ctx p)) {program : Activity}
    (hprogram : Within @Unfinished (fun _ => True) program) {w : World ι}
    (hw : ¬ Completed (w.plans p)) : KeepsFinished fromStr jsonValid ctx p .observe program w :=
  Safe.of_within (K := fun w => ¬ Completed (w.plans p))
    (fun _ _ h hsame => by rw [hsame.1]; exact h)
    (fun _ _ _ => husable) (fun e _ he h => not_completed_exec e he h)
      (fun _ _ _ h _ hc => absurd hc h)
    (fun _ _ _ h => ⟨fun _ => husable, fun _ hc => absurd hc h⟩) hprogram hw

theorem allowsFail_unfinished : AllowsFail @Unfinished :=
  ⟨trivial, trivial, trivial, fun _ => trivial, trivial, fun _ => trivial⟩

theorem within_fail_unfinished (ctx : Context) (reason : String) :
    Within @Unfinished (fun _ => True) (fail ctx reason) :=
  (within_fail ctx allowsFail_unfinished reason).mono fun _ _ => trivial

theorem within_startOrStop_unfinished (hash : String) (resume : Bool) :
    Within @Unfinished (fun _ => True) (startOrStop hash resume) := by
  cases resume with
  | false => exact ⟨trivial, fun _ => trivial⟩
  | true => exact ⟨trivial, fun _ => trivial⟩

theorem within_bump_unfinished (ctx : Context) (torrent : TorrentState) {program : Activity}
    (hprogram : Within @Unfinished (fun _ => True) program) :
    Within @Unfinished (fun _ => True) (bumpVerification ctx torrent program) :=
  within_bumpVerification ctx torrent allowsFail_unfinished (fun _ => trivial) trivial hprogram

theorem within_inspect_unfinished (ctx : Context) (hash : String) (torrent : TorrentState) :
    Within @Unfinished (fun _ => True) (inspect ctx hash torrent) := by
  refine Within.perform trivial fun states => ?_
  split
  · trivial
  · refine Within.bind ((within_observedOf torrent).mono fun observed _ => ?_)
    exact Within.perform trivial fun _ => within_startOrStop_unfinished _ _

/-- An observation of an injection that is not completed. -/
theorem keepsFinished_observeFound (husable : Usable (ctx p))
    (row : Option InjectionRow) (hash : String) (torrent : TorrentState) {w : World ι}
    (hw : ¬ Completed (w.plans p)) :
    KeepsFinished fromStr jsonValid ctx p .observe (observeFound (ctx p) row hash torrent) w := by
  unfold observeFound
  split
  · unfold verifyFinal
    dsimp only
    split
    · exact keepsFinished_finishing husable (within_finishInjection _ torrent _ trivial
        (fun _ => trivial)
        rfl (fun _ => rfl) trivial fun _ h => h) w
    · exact keepsFinished_unfinished husable
        (within_bump_unfinished _ torrent (within_startOrStop_unfinished _ _)) hw
  · split
    · exact keepsFinished_unfinished husable
        (within_updateObservation torrent fun _ => by simp [Unfinished]) hw
    · exact keepsFinished_unfinished husable
        (within_updateObservation torrent fun _ => by simp [Unfinished]) hw
    · have hwaiting : Within @Unfinished (fun _ => True) (pure .waiting : Activity) := trivial
      exact keepsFinished_unfinished husable (within_bump_unfinished _ torrent hwaiting) hw
    · exact keepsFinished_unfinished husable (within_inspect_unfinished _ _ torrent) hw

theorem recheckObservation_completed {torrent : TorrentState} (h : torrent.isChecking = false) :
    recheckObservation (some "completed") torrent = .waiting := by
  unfold recheckObservation
  rw [if_neg (by simp [h])]
  split_ifs <;> first | rfl | simp_all

/-- An observation of a completed injection: the attempts are counted, and do not run out. -/
theorem keepsFinished_observeCompleted (husable : Usable (ctx p)) {row : InjectionRow}
    (hrow : row.state = "completed") (hash : String) {torrent : TorrentState}
    (htorrent : torrent.isChecking = false) {w : World ι} (hw : (w.plans p).injection = some row) :
    KeepsFinished fromStr jsonValid ctx p .observe
      (observeFound (ctx p) (some row) hash torrent) w := by
  have hfilter : (some row).filter (fun row => decide (row.state = "finalizing")) = none := by
    simp [hrow]
  have hprogram : observeFound (ctx p) (some row) hash torrent
      = bumpVerification (ctx p) torrent (pure .waiting) := by
    unfold observeFound
    rw [hfilter]
    simp only [Option.map_some, hrow, recheckObservation_completed htorrent]
  rw [hprogram]
  unfold bumpVerification observedOf
  have hstable : ∀ row (w w' : World ι), (w.plans p).injection = some row → Same p w w' →
      (w'.plans p).injection = some row := fun row w w' h hsame => by rw [hsame.1]; exact h
  cases torrent.observed with
  | none => exact Safe.fail (hstable row) (fun _ _ _ => husable) hw
  | some observed =>
    refine Safe.perform (hstable row) (fun _ _ _ => husable) hw (fun w hw _ hc => ?_)
      fun w hw hassume => ?_
    · refine ⟨?_, .inl ?_, onlyCompletes_refl _⟩
      · simp only [exec, perform, World.updateInjection, World.updatePlan_self]
        exact completed_map hc fun _ h => h
      · simp [exec, perform, World.updateInjection]
    · have hattempts := hassume rfl ⟨row, hw, hrow⟩ row hw
      set row' : InjectionRow :=
        { row.observe observed with
          verificationAttempts := row.verificationAttempts + 1 } with hrow'
      have hnext : ((exec fromStr jsonValid ctx p (.bumpVerification observed)
        w).2.plans p).injection
          = some row' := by simp [exec, perform, World.updateInjection, hw, hrow']
      refine Safe.perform (hstable row') (fun _ _ _ => husable) hnext
        (fun w _ _ hc => ⟨hc, .inl rfl, onlyCompletes_refl _⟩) fun w hw _ => ?_
      have hread : (exec fromStr jsonValid ctx p .verificationAttempts w).1
          = some (row.verificationAttempts + 1) := by simp [exec, perform, hw, hrow']
      rw [hread]
      dsimp only
      rw [if_neg (by omega)]
      exact Safe.ret (hstable row') (fun _ _ _ => husable) hw
        fun _ _ => ⟨fun _ => husable, fun _ _ => .inl rfl⟩

theorem keepsFinished_observe (husable : Usable (ctx p)) (w : World ι) :
    KeepsFinished fromStr jsonValid ctx p .observe (observe (ctx p)) w := by
  refine Safe.perform (K := fun _ => True) (fun _ _ _ _ => trivial) (fun _ _ _ => husable) trivial
    (fun w _ _ hc => ⟨hc, .inl rfl, onlyCompletes_refl _⟩) fun w _ _ => ?_
  rw [if_neg (by simp [husable.1])]
  split
  · exact Safe.fail (K := fun _ => True) (fun _ _ _ _ => trivial) (fun _ _ _ => husable) trivial
  rename_i hash _ _
  by_cases hcompleted : Completed (w.plans p)
  · obtain ⟨row, hrow, hstate⟩ := hcompleted
    refine Safe.perform (K := fun w => (w.plans p).injection = some row)
      (fun _ _ h hsame => by rw [hsame.1]; exact h) (fun _ _ _ => husable) hrow
      (fun w _ _ hc => ⟨hc, .inl rfl, onlyCompletes_refl _⟩) fun w' hw' hassume => ?_
    obtain ⟨torrent, htorrent, hchecking⟩ := hassume rfl ⟨row, hw', hstate⟩
    have hfound : (exec fromStr jsonValid ctx p (.torrentState hash) w').1 =
      some torrent := htorrent
    have hloaded : (exec fromStr jsonValid ctx p .load w).1 = some row := hrow
    rw [hfound, hloaded]
    exact keepsFinished_observeCompleted husable hstate hash hchecking hw'
  · refine Safe.perform (K := fun w => ¬ Completed (w.plans p))
      (fun _ _ h hsame => by rw [hsame.1]; exact h) (fun _ _ _ => husable) hcompleted
      (fun w h _ hc => absurd hc h) fun w' hw' _ => ?_
    split
    · exact keepsFinished_unfinished husable (within_fail_unfinished _ _) hw'
    · exact keepsFinished_observeFound husable _ _ _ hw'

/-! ### Runs -/

variable (fromStr jsonValid ctx p)

/-- The rely-guarantee proof about a completed injection. -/
def finishSpec : Spec (machine fromStr jsonValid ctx) p where
  Rely _ := Same p
  Assume phase _ e w := phase = .observe → Completed (w.plans p) → Steady p e w
  Inv phase _ := phase = .observe → Usable (ctx p)
  Ok phase _ e w := phase = .observe → Completed (w.plans p) →
    Kept p w (exec fromStr jsonValid ctx p e w).2
  Post phase result w := (next phase result = .observe → Usable (ctx p))
    ∧ (phase = .observe → Completed (w.plans p) →
      result = .waiting ∨ ∃ reason, result = .terminal "completed" reason)
  rely_refl _ := Same.refl p
  rely_trans _ _ _ _ := Same.trans
  inv_rely _ _ _ h _ := h
  inv_next _ _ _ h := h.1
  inv_giveUp phase phase' w hphase h hobserve := by
    subst hobserve
    cases phase <;> cases hphase
  inv_again phase phase' w hphase h hobserve := by
    subst hobserve
    cases phase <;> cases hphase
  safe phase program w hprogram hw := by
    cases phase with
    | prepare => exact Option.some_inj.mp hprogram ▸ keepsFinished_prepare w
    | materialize => exact Option.some_inj.mp hprogram ▸ keepsFinished_materialize w
    | recheck =>
      exact Option.some_inj.mp hprogram ▸
        keepsFinished_of_ne (by decide) (within_recheck_usable (ctx p))
        (fun _ h => h) w
    | observe => exact Option.some_inj.mp hprogram ▸ keepsFinished_observe (hw rfl) w
    | ended result => cases hprogram

variable {fromStr jsonValid ctx p}

theorem finishSpec_holds_initial (db : Db) :
    (finishSpec fromStr jsonValid ctx p).Holds (initial ι db) :=
  fun h => Phase.noConfusion h

theorem finishSpec_allows {s : Injections ι} {a : Step ι} (h : SteadyStep p s a) :
    (finishSpec fromStr jsonValid ctx p).Allows s a :=
  ⟨fun ha _ e k hrunning hphase hcompleted => (h ⟨hphase, hcompleted⟩).2 ha e k hrunning,
    fun ha _ hstep => same_of_step hstep ha⟩

/-- The run of a plan has completed the injection: it goes on, or has ended with the completed
result. -/
def Finished (s : Injections ι) (p : ι) : Prop :=
  Completed (s.state.plans p) ∧ ((s.procs p).phase = .observe
    ∨ ∃ reason, (s.procs p).phase = .ended (some (.terminal "completed" reason)))

/-- A move of the plan itself: it goes on, or ends with the completed result. -/
theorem finished_move {s : Injections ι} {a : Step ι} {proc : Proc Phase StepResult Effect}
    (hs : (finishSpec fromStr jsonValid ctx p).Holds s)
    (hmove : Move (machine fromStr jsonValid ctx) p a (s.procs p) proc)
    (hgiveUp : (s.procs p).phase = .observe → a ≠ .giveUp p) (hagain : a ≠ .again p)
    (hfinished : Finished s p) :
    Finished (s.setProc p proc) p := by
  obtain ⟨hcompleted, hphase⟩ := hfinished
  refine ⟨hcompleted, ?_⟩
  rw [System.setProc_self]
  have hpost := fun result => hs.post (a := result)
  generalize hold : s.procs p = old at hmove hphase hgiveUp hpost
  cases hmove with
  | begin hprogram => exact hphase
  | @finish phase result =>
    rcases hphase with hobserve | ⟨reason, hended⟩
    · dsimp only at hobserve
      subst hobserve
      rcases (hpost result rfl).2 rfl hcompleted with rfl | ⟨reason, rfl⟩
      · exact .inl rfl
      · exact .inr ⟨reason, rfl⟩
    · dsimp only at hended
      subst hended
      exact .inr ⟨reason, rfl⟩
  | drop => exact hphase
  | @giveUp phase phase' running hnew =>
    rcases hphase with hobserve | ⟨reason, hended⟩
    · dsimp only at hobserve
      subst hobserve
      cases hnew
      exact absurd rfl (hgiveUp rfl)
    · dsimp only at hended
      subst hended
      cases hnew
  | @again phase phase' hnew =>
    rcases hphase with hobserve | ⟨reason, hended⟩
    · dsimp only at hobserve
      subst hobserve
      cases hnew
    · dsimp only at hended
      subst hended
      cases hnew
      exact absurd rfl hagain

/-- A steady step of the same run keeps a completed injection. -/
theorem finished_step {s s' : Injections ι} {a : Step ι}
    (hs : (finishSpec fromStr jsonValid ctx p).Holds s)
    (hidle : Idle (machine fromStr jsonValid ctx) s p) (hsteady : SteadyStep p s a)
    (hagain : a ≠ .again p) (h : step (machine fromStr jsonValid ctx) s a = some s')
    (hfinished : Finished s p) :
    Finished s' p ∧ ((s'.state.plans p).state = (s.state.plans p).state
      ∨ (s'.state.plans p).state = "completed") := by
  obtain ⟨hcompleted, hphase⟩ := hfinished
  by_cases hact : a = .act p
  swap
  · obtain ⟨hplans, -⟩ := same_of_step h hact
    refine ⟨?_, .inl (congrArg PlanState.state hplans)⟩
    by_cases hproc : a.proc = some p
    swap
    · exact ⟨hplans ▸ hcompleted, procs_of_ne h hproc ▸ hphase⟩
    rcases step_cases h with ⟨q, γ, e, k, rfl, -, -⟩ | ⟨e, rfl, -, -⟩ | ⟨q, proc, hq, hmove, rfl⟩
    · exact absurd (congrArg Action.act (Option.some_inj.mp hproc)) hact
    · cases hproc
    · obtain rfl : q = p := Option.some_inj.mp (hq.symm.trans hproc)
      exact finished_move hs hmove (fun hobserve => (hsteady ⟨hobserve, hcompleted⟩).1) hagain
        ⟨hcompleted, hphase⟩
  · subst hact
    rcases step_cases h with ⟨q, γ, e, k, hq, hrunning, rfl⟩ | ⟨e, he, -, -⟩ | ⟨q,
      proc, -, hmove, -⟩
    · obtain rfl : p = q := by injection hq
      rcases hphase with hobserve | ⟨reason, hended⟩
      · have hkept : Kept p s.state (exec fromStr jsonValid ctx p e s.state).2 :=
          hs.ok hrunning hobserve hcompleted
        refine ⟨⟨hkept.injection, .inl ?_⟩, hkept.plan⟩
        rw [System.setProc_self]
        exact hobserve
      · have hnone : (machine fromStr jsonValid ctx).program p (s.procs p).phase = none := by
          rw [hended]
          rfl
        cases hrunning.symm.trans (hidle hnone)
    · cases he
    · cases hmove

/-- **A completed injection is stable while its observations are steady.** Take a run whose steps
are steady for a plan, and a state in it in which the plan observes and its injection is completed.
In every state of the same run of the plan after that, the injection is completed, the plan has kept
its state or is completed, the run has not ended but with the completed result, and the next
operation of the plan changes the state of a candidate or a task at most to completed. -/
theorem completed_stable (db : Db) (before after : List (Step ι)) (s₁ s₂ : Injections ι)
    (hbefore : run (machine fromStr jsonValid ctx) (initial ι db) before = some s₁)
    (hafter : run (machine fromStr jsonValid ctx) s₁ after = some s₂) (p : ι)
    (hsteady : Along (machine fromStr jsonValid ctx) (SteadyStep p) (initial ι db)
      (before ++ after))
    (hobserved : Observed s₁ p) (hsame : .again p ∉ after) :
    Finished s₂ p
      ∧ ((s₂.state.plans p).state = (s₁.state.plans p).state
        ∨ (s₂.state.plans p).state = "completed")
      ∧ ∀ {γ : Type} (e : Effect γ) k, (s₂.procs p).running = some (.op e k) →
          OnlyCompletes s₂.state.db (exec fromStr jsonValid ctx p e s₂.state).2.db := by
  obtain ⟨halong, halong'⟩ := hsteady.append before after hbefore
  have hproved : (finishSpec fromStr jsonValid ctx p).Holds s₁
      ∧ Idle (machine fromStr jsonValid ctx) s₁ p := by
    refine run_invariant (P := fun s => (finishSpec fromStr jsonValid ctx p).Holds s
      ∧ Idle (machine fromStr jsonValid ctx) s p) ?_ before ?_ halong hbefore
    · exact fun s a s' hs hstep h => ⟨hs.1.step (finishSpec_allows hstep) h, idle_step hs.2 h⟩
    · exact ⟨finishSpec_holds_initial db, fun h => nomatch h⟩
  -- From there on, each step keeps the proof and the completed injection.
  have hend : ((finishSpec fromStr jsonValid ctx p).Holds s₂
      ∧ Idle (machine fromStr jsonValid ctx) s₂ p)
      ∧ Finished s₂ p ∧ ((s₂.state.plans p).state = (s₁.state.plans p).state
        ∨ (s₂.state.plans p).state = "completed") := by
    refine run_invariant (P := fun s => ((finishSpec fromStr jsonValid ctx p).Holds s
      ∧ Idle (machine fromStr jsonValid ctx) s p) ∧ Finished s p
      ∧ ((s.state.plans p).state = (s₁.state.plans p).state
        ∨ (s.state.plans p).state = "completed"))
      ?_ after ?_ (halong'.and_forall after fun a ha (heq : a = .again p) =>
        hsame (heq ▸ ha)) hafter
    · rintro s a s' ⟨hs, hfinished, hplan⟩ ⟨hstep, hagain⟩ h
      obtain ⟨hfinished', hplan'⟩ := finished_step hs.1 hs.2 hstep hagain h hfinished
      refine ⟨⟨hs.1.step (finishSpec_allows hstep) h, idle_step hs.2 h⟩, hfinished', ?_⟩
      rcases hplan' with hsame' | hcompleted
      · rw [hsame']
        exact hplan
      · exact .inr hcompleted
    · exact ⟨hproved, ⟨hobserved.2, .inl hobserved.1⟩, .inl rfl⟩
  refine ⟨hend.2.1, hend.2.2, fun e k hrunning => ?_⟩
  rcases hend.2.1.2 with hobserve | ⟨reason, hended⟩
  · have hkept : Kept p s₂.state (exec fromStr jsonValid ctx p e s₂.state).2 :=
      hend.1.1.ok hrunning hobserve hend.2.1.1
    exact hkept.tables
  · have hnone : (machine fromStr jsonValid ctx).program p (s₂.procs p).phase = none := by
      rw [hended]
      rfl
    cases hrunning.symm.trans (hend.1.2 hnone)

end

/-! ### A crash after the first statement -/

/-- The tables with the candidate of the plans and the task of the first one. -/
def plannedDb : Db :=
  { Db.empty with
    tasks := [⟨1, "candidate_injection", "planned", 1, "candidate-v1:1", none, 1, none,
      none, none, 0, 1, 1, none, none⟩]
    candidates := [⟨1, 1, some 1, none, 1, "Film", "null", "planned", 1, 1, "null"⟩] }

/-- The first plan starts the torrent, finds it started, and crashes after the first statement of
`finish_injection`. -/
def firstPlanCrashes : List (Step (Fin 2)) :=
  firstPlanStarts ++ [.act 0, .finish 0, .env (.torrents fun _ => some (torrentIn "downloading"))]
    ++ .begin 0 :: List.replicate 4 (.act 0) ++ [.drop 0]

/-- Observations of the first plan, each with four operations. -/
def polls : ℕ → List (Step (Fin 2))
  | 0 => []
  | n + 1 => execution 0 4 ++ polls n

theorem again_notMem_execution (n : ℕ) : .again 0 ∉ execution 0 n := by simp [execution]

theorem again_notMem_polls : ∀ n, .again 0 ∉ polls n
  | 0 => List.not_mem_nil
  | n + 1 => List.not_mem_append (again_notMem_execution 4) (again_notMem_polls n)

/-- The operation is steady. -/
def steadyOperation {γ : Type} (e : Effect γ) (w : World (Fin 2)) : Bool :=
  match e with
  | .torrentState hash => (w.torrents hash).any (!·.isChecking)
  | .bumpVerification _ =>
    (w.plans 0).injection.all (·.verificationAttempts + 1 < maxFinalVerifyAttempts)
  | _ => true

theorem steady_of_steadyOperation {γ : Type} {e : Effect γ} {w : World (Fin 2)}
    (h : steadyOperation e w = true) : Steady 0 e w := by
  cases e <;> first | trivial | skip
  case torrentState hash =>
    obtain ⟨torrent, htorrent, hchecking⟩ := (Option.any_eq_true ..).mp h
    exact ⟨torrent, htorrent, by simpa using hchecking⟩
  case bumpVerification observed =>
    rintro row hrow
    simp only [steadyOperation, hrow, Option.all_some, decide_eq_true_eq] at h
    exact h

/-- The first plan only performs steady operations, and is not given up. -/
def steadyStep (s : Injections (Fin 2)) (a : Step (Fin 2)) : Bool :=
  !((s.procs 0).phase = .observe ∧ (s.state.plans 0).injection.any (·.state = "completed"))
    || match a with
      | .giveUp _ => false
      | .act _ =>
        match (s.procs 0).running with
        | some (.op e _) => steadyOperation e s.state
        | _ => true
      | _ => true

theorem steadyStep_sound (s : Injections (Fin 2)) (a : Step (Fin 2)) (h : steadyStep s a = true) :
    SteadyStep 0 s a := by
  rintro ⟨hphase, row, hrow, hstate⟩
  have hobserved : (s.procs 0).phase = .observe
      ∧ (s.state.plans 0).injection.any (·.state = "completed") = true :=
    ⟨hphase, by simp [hrow, hstate]⟩
  simp only [steadyStep, hobserved, true_and, decide_true, Bool.not_true, Bool.false_or] at h
  constructor
  · rintro rfl
    cases h
  · rintro rfl γ e k hrunning
    simp only [hrunning] at h
    exact steady_of_steadyOperation h

theorem completed_stable_firstPlan :
    ∃ s₁ s₂, run twoPlanMachine (initial (Fin 2) plannedDb) firstPlanCrashes = some s₁
      ∧ run twoPlanMachine s₁ (polls 1) = some s₂
      ∧ Along twoPlanMachine (SteadyStep 0) (initial (Fin 2) plannedDb)
        (firstPlanCrashes ++ polls 1)
      ∧ Observed s₁ 0 ∧ Finished s₂ 0 := by
  have hrun : ((run twoPlanMachine (initial (Fin 2) plannedDb) firstPlanCrashes).bind fun s =>
      (run twoPlanMachine s (polls 1)).map fun _ =>
        decide ((s.procs 0).phase = .observe
          ∧ (s.state.plans 0).injection.any (·.state = "completed")))
      = some true := by decide +kernel
  obtain ⟨s₁, hbefore, hrun⟩ := Option.bind_eq_some_iff.mp hrun
  obtain ⟨s₂, hafter, hobserved⟩ := Option.map_eq_some_iff.mp hrun
  have halong : Along twoPlanMachine (SteadyStep 0) (initial (Fin 2) plannedDb)
      (firstPlanCrashes ++ polls 1) := along_of_check steadyStep_sound _ (by decide +kernel)
  obtain ⟨hphase, hany⟩ := of_decide_eq_true hobserved
  obtain ⟨row, hrow, hstate⟩ := (Option.any_eq_true ..).mp hany
  have hobserved : Observed s₁ 0 := ⟨hphase, row, hrow, by simpa using hstate⟩
  refine ⟨s₁, s₂, hbefore, hafter, halong, hobserved, ?_⟩
  exact (completed_stable _ _ _ _ _ hbefore hafter 0 halong hobserved (again_notMem_polls 1)).1

/-- After the crash the torrent goes on downloading. Thirty observations later, the completed
injection, its plan, its candidate and its task are failed. -/
theorem completed_fails_after_crash :
    ∃ s₁ s₂, run twoPlanMachine (initial (Fin 2) plannedDb) firstPlanCrashes = some s₁
      ∧ Observed s₁ 0 ∧ run twoPlanMachine s₁ (polls 29 ++ execution 0 10) = some s₂
      ∧ .again 0 ∉ polls 29 ++ execution 0 10
      ∧ (s₂.state.plans 0).injection.map InjectionRow.state = some "failed"
      ∧ (s₂.state.plans 0).state = "failed" ∧ candidateState s₂.state.db 1 = some "failed"
      ∧ taskState s₂.state.db 1 = some "failed"
      ∧ (s₂.procs 0).phase = .ended (some (.terminal "failed" "ambiguous_qbittorrent_state")) := by
  have hrun : ((run twoPlanMachine (initial (Fin 2) plannedDb) firstPlanCrashes).bind fun s =>
      (run twoPlanMachine s (polls 29 ++ execution 0 10)).map fun s₂ =>
        decide (((s.procs 0).phase = .observe
            ∧ (s.state.plans 0).injection.any (·.state = "completed"))
          ∧ (s₂.state.plans 0).injection.map InjectionRow.state = some "failed"
          ∧ (s₂.state.plans 0).state = "failed" ∧ candidateState s₂.state.db 1 = some "failed"
          ∧ taskState s₂.state.db 1 = some "failed"
          ∧ (s₂.procs 0).phase = .ended (some (.terminal "failed" "ambiguous_qbittorrent_state"))))
      = some true := by decide +kernel
  obtain ⟨s₁, hbefore, hrun⟩ := Option.bind_eq_some_iff.mp hrun
  obtain ⟨s₂, hafter, hend⟩ := Option.map_eq_some_iff.mp hrun
  obtain ⟨⟨hphase, hany⟩, hend⟩ := of_decide_eq_true hend
  obtain ⟨row, hrow, hstate⟩ := (Option.any_eq_true ..).mp hany
  exact ⟨s₁, s₂, hbefore, ⟨hphase, row, hrow, by simpa using hstate⟩, hafter,
    List.not_mem_append (again_notMem_polls 29) (again_notMem_execution 10), hend⟩

end Sporos.Service.FinishedInjection
