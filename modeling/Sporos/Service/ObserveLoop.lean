import Sporos.Lib.Counter
import Sporos.Service.StartSafety

/-! # The end of the observe loop

The loop over `observe` in `run` of `injection.rs`, for one plan: an execution runs without
interruption, and before each of them others change what does not belong to the plan, such as what
qBittorrent reports. Every execution ends the loop or brings its end closer, except for those that
find the torrent checked before the decision: they are the only ones that count no attempt and may
repeat. -/

namespace Sporos.Service.ObserveLoop

open Sporos.Model.Matching
open Sporos.Service.Tables
open Sporos.Service.TaskProjection
open Sporos.Service.Writers
open Sporos.Service.Pieces
open Sporos.Service.Injection
open Sporos.Service.InjectionRun
open Sporos.Service.StartSafety (torrentIn twoPlans)
open Sporos.Lib.Table
open Sporos.Lib.Program

/-! ### The loop -/

section

variable {ι : Type} [DecidableEq ι] (fromStr jsonValid : String → Bool) (ctx : ι → Context) (p : ι)

/-- One execution of `observe`: its result, if it is no error, and the world after it. -/
def execution (w : World ι) : Option StepResult × World ι :=
  (observe (ctx p)).run (exec fromStr jsonValid ctx p) w

/-- The torrent that an execution sees. -/
def seenTorrent (w : World ι) : Option TorrentState := (ctx p).plan.hashes.head?.bind w.torrents

/-- An execution before finalizing that sees a checking state. -/
def seesChecking (w : World ι) : Bool :=
  (seenTorrent ctx p w).any TorrentState.isChecking
    && !(w.plans p).injection.any (fun row => row.state = "finalizing")

/-- The tables take the end of the task: the detail is JSON, the generation is not the last one and
the number of its event is free. -/
structure Writable (db : Db) : Prop where
  read : fromStr (ctx p).detailJson = true
  valid : jsonValid (ctx p).detailJson = true
  task : ∀ row, db.task (ctx p).taskId = some row → row.projectionGeneration + 1 ≤ i64Max ∧
    lookup EventRow.key db.events ((ctx p).taskId, row.projectionGeneration + 1) = none

/-- The calls of an execution succeed, and a response with piece states is valid. -/
structure Succeeds (w : World ι) : Prop where
  pieces : ∃ integrity,
    inspectPieces (ctx p).plan.manifest (ctx p).plan.mappedOrdinals w.pieces = .ok integrity
  writable : Writable fromStr jsonValid ctx p w.db

/-- The amount left and the progress of the torrent fit their columns. -/
def Fits (w : World ι) : Prop :=
  ∀ torrent, seenTorrent ctx p w = some torrent → ∃ observed, torrent.observed = some observed

/-- The row of the plan has just been set to `recheck_requested`. -/
def JustRequested (w : World ι) : Prop :=
  ∃ row, (w.plans p).injection = some row ∧ row.state = "recheck_requested"
    ∧ row.verificationAttempts = 0

variable (others : ℕ → World ι → World ι) (w : World ι)

/-- The world in which an execution begins. -/
def worldAt : ℕ → World ι
  | 0 => others 0 w
  | n + 1 => others (n + 1) (execution fromStr jsonValid ctx p (worldAt n)).2

/-- The result of the n-th round. -/
def resultAt (n : ℕ) : Option StepResult :=
  (execution fromStr jsonValid ctx p (worldAt fromStr jsonValid ctx p others w n)).1

/-- The loop comes to an execution. -/
def Reaches (n : ℕ) : Prop :=
  ∀ m < n, resultAt fromStr jsonValid ctx p others w m = some .waiting

/-- How many executions before one of them have seen a checking state before finalizing. -/
def checkings (n : ℕ) : ℕ :=
  Nat.count (fun m => seesChecking ctx p (worldAt fromStr jsonValid ctx p others w m) = true) n

/-- The loop returns a terminal result after at most so many executions. -/
def EndsWithin (bound : ℕ) : Prop :=
  ∃ n < bound, Reaches fromStr jsonValid ctx p others w n ∧
    ∃ state reason, resultAt fromStr jsonValid ctx p others w n = some (.terminal state reason)

end

/-! ### Runs of the parts -/

section

variable {ι : Type} [DecidableEq ι] {fromStr jsonValid : String → Bool} {ctx : ι → Context} {p : ι}

/-- A program runs to an end. -/
abbrev runAt (fromStr jsonValid : String → Bool) (ctx : ι → Context) (p : ι) {α : Type}
    (program : Prog Effect α) (w : World ι) : Option α × World ι :=
  program.run (exec fromStr jsonValid ctx p) w

theorem runAt_perform {α β : Type} (e : Effect β) (f : β → Prog Effect α) (w : World ι) :
    runAt fromStr jsonValid ctx p (Prog.perform e >>= f) w =
      runAt fromStr jsonValid ctx p (f (exec fromStr jsonValid ctx p e w).1)
        (exec fromStr jsonValid ctx p e w).2 := rfl

/-- The end of the task is written. -/
theorem run_projectCandidateState {w : World ι} (hw : Writable fromStr jsonValid ctx p w.db)
    {state : String} (hstate : state ≠ "") (reason : Option String) (now : ℤ) :
    (runAt fromStr jsonValid ctx p (projectCandidateState (ctx p) state reason true now) w).1 =
      some () := by
  unfold projectCandidateState
  rw [runAt_perform, show (exec fromStr jsonValid ctx p .task w).1 =
    w.db.task (ctx p).taskId from rfl]
  cases hseen : (w.db.task (ctx p).taskId).bind (candidateUpdate ·
    (ctx p).taskId state reason true (ctx p).detailJson now) with
  | none => rfl
  | some update =>
    obtain ⟨row, hrow, hupdate⟩ := Option.bind_eq_some_iff.mp hseen
    unfold candidateUpdate at hupdate
    split_ifs at hupdate with hdone
    obtain rfl := Option.some.inj hupdate
    push Not at hdone
    obtain ⟨hrange, hfree⟩ := hw.task row hrow
    have happlied : projectTask fromStr jsonValid w.db ⟨(ctx p).taskId,
      row.projectionGeneration, state,
        reason, none, 0, some (ctx p).detailJson, now, true⟩ = .ok _ :=
      projectTask_applied (by simp [validate, hstate, hw.read]) hrow rfl (by simpa using hdone.2)
        ⟨hrange, Nat.zero_le _⟩ hfree (by simp [hw.valid])
    dsimp only
    rw [runAt_perform]
    simp only [exec, perform, happlied]
    rfl

omit [DecidableEq ι] in
/-- What is written to a candidate leaves its task alone. -/
theorem Writable.setCandidateState {db : Db} (h : Writable fromStr jsonValid ctx p db)
    (id : Id) (state : String) (now : ℤ) :
    Writable fromStr jsonValid ctx p (setCandidateState db id state now) :=
      ⟨h.read, h.valid, h.task⟩

theorem run_fail {w : World ι} (hw : Writable fromStr jsonValid ctx p w.db) (reason : String) :
    (runAt fromStr jsonValid ctx p (fail (ctx p) reason) w).1 =
      some (.terminal "failed" reason) := by
  let w₁ := (exec fromStr jsonValid ctx p (.setCandidateState "failed" w.now)
    (exec fromStr jsonValid ctx p .failInjection
      (exec fromStr jsonValid ctx p (.setPlanState "failed")
        (exec fromStr jsonValid ctx p .now w).2).2).2).2
  have hw₁ : Writable fromStr jsonValid ctx p w₁.db := hw.setCandidateState _ _ _
  change (runAt fromStr jsonValid ctx p (projectCandidateState (ctx p) "failed"
    (some reason) true w.now >>=
    fun _ => pure (StepResult.terminal "failed" reason)) w₁).1 = _
  rw [runAt, Prog.run_bind _ (run_projectCandidateState hw₁ (by decide) (some reason) w.now)]
  rfl

theorem run_finishInjection {w : World ι} (hw : Writable fromStr jsonValid ctx p w.db)
    {torrent : TorrentState} {observed : Observed} (hobserved : torrent.observed = some observed)
    (resumed : Bool) : ∃ reason,
      (runAt fromStr jsonValid ctx p (finishInjection (ctx p) torrent resumed) w).1 =
        some (.terminal "completed" reason) := by
  let reason := if resumed then "resumed" else "left_stopped"
  let w₁ := (exec fromStr jsonValid ctx p (.setCandidateState "completed" w.now)
    (exec fromStr jsonValid ctx p (.setPlanState "completed")
      (exec fromStr jsonValid ctx p (.completeInjection observed)
        (exec fromStr jsonValid ctx p .now w).2).2).2).2
  have hw₁ : Writable fromStr jsonValid ctx p w₁.db := hw.setCandidateState _ _ _
  refine ⟨reason, ?_⟩
  unfold finishInjection observedOf
  rw [hobserved]
  change (runAt fromStr jsonValid ctx p (projectCandidateState (ctx p) "completed"
    (some reason) true w.now >>=
    fun _ => pure (StepResult.terminal "completed" reason)) w₁).1 = _
  rw [runAt, Prog.run_bind _ (run_projectCandidateState hw₁ (by decide) (some reason) w.now)]
  rfl

section

variable {w : World ι} {row : InjectionRow} {torrent : TorrentState} {observed : Observed}

variable (fromStr jsonValid ctx) in
theorem run_updateObservation (hrow : (w.plans p).injection = some row)
    (hobserved : torrent.observed = some observed) (state : String) :
    ∃ w', runAt fromStr jsonValid ctx p (updateObservation torrent state) w = (some .waiting, w') ∧
      (w'.plans p).injection = some { row.observe observed with state } := by
  unfold updateObservation observedOf
  rw [hobserved]
  refine ⟨_, rfl, ?_⟩
  simp [exec, perform, World.updateInjection, hrow]

theorem run_startOrStop (w : World ι) (hash : String) (resume : Bool) :
    ∃ w', runAt fromStr jsonValid ctx p (startOrStop hash resume) w = (some .waiting, w') ∧
      w'.plans p = w.plans p := by
  cases resume with
  | false => exact ⟨_, rfl, rfl⟩
  | true => exact ⟨_, rfl, rfl⟩

/-- An attempt is counted; the last one ends the loop. -/
theorem run_bumpVerification (hw : Writable fromStr jsonValid ctx p w.db)
    (hrow : (w.plans p).injection = some row) (hobserved : torrent.observed = some observed)
    (program : Activity) :
    (∃ reason, (runAt fromStr jsonValid ctx p (bumpVerification (ctx p) torrent program) w).1 =
        some (.terminal "failed" reason)) ∨
      row.verificationAttempts + 1 < maxFinalVerifyAttempts ∧
        ∃ w', runAt fromStr jsonValid ctx p (bumpVerification (ctx p) torrent program) w =
            runAt fromStr jsonValid ctx p program w' ∧
          (w'.plans p).injection = some { row.observe observed with
            verificationAttempts := row.verificationAttempts + 1 } := by
  let w₁ := (exec fromStr jsonValid ctx p .verificationAttempts
    (exec fromStr jsonValid ctx p (.bumpVerification observed) w).2).2
  have hrow₁ : (w₁.plans p).injection = some { row.observe observed with
      verificationAttempts := row.verificationAttempts + 1 } := by
    simp [w₁, exec, perform, World.updateInjection, hrow]
  have hread : (exec fromStr jsonValid ctx p .verificationAttempts
      (exec fromStr jsonValid ctx p (.bumpVerification observed) w).2).1 =
        some (row.verificationAttempts + 1) :=
          congrArg (Option.map InjectionRow.verificationAttempts) hrow₁
  have hrun : runAt fromStr jsonValid ctx p (bumpVerification (ctx p) torrent program) w =
      runAt fromStr jsonValid ctx p (if row.verificationAttempts + 1 ≥ maxFinalVerifyAttempts then
        fail (ctx p) "ambiguous_qbittorrent_state" else program) w₁ := by
    unfold bumpVerification observedOf
    rw [hobserved]
    change runAt fromStr jsonValid ctx p (Prog.perform (.bumpVerification observed) >>= _) w = _
    rw [runAt_perform, runAt_perform, hread]
  have hdb : w₁.db = w.db := rfl
  rw [hrun]
  split_ifs with hlast
  · exact .inl ⟨_, run_fail (hdb ▸ hw) _⟩
  · exact .inr ⟨Nat.lt_of_not_le hlast, w₁, rfl, hrow₁⟩

variable (fromStr jsonValid) in
theorem run_inspect (hrow : (w.plans p).injection = some row)
    (hobserved : torrent.observed = some observed) (hash : String) {integrity : PieceInspection}
    (hpieces : inspectPieces (ctx p).plan.manifest (ctx p).plan.mappedOrdinals w.pieces =
      .ok integrity) :
    ∃ w' resume, runAt fromStr jsonValid ctx p (inspect (ctx p) hash torrent) w =
      (some .waiting, w') ∧
      (w'.plans p).injection = some (decidedRow observed integrity.integritySafe resume row) := by
  let resume := integrity.integritySafe
    && resumeAllowed (ctx p).plan.resume torrent.amountLeft integrity
  let w₁ :=
    (exec fromStr jsonValid ctx p (.recordResumeDecision observed integrity.integritySafe resume)
    (exec fromStr jsonValid ctx p (.pieceStates hash) w).2).2
  have hrun : runAt fromStr jsonValid ctx p (inspect (ctx p) hash torrent) w =
      runAt fromStr jsonValid ctx p (startOrStop hash resume) w₁ := by
    unfold inspect
    rw [runAt_perform, show (exec fromStr jsonValid ctx p (.pieceStates hash) w).1 =
      w.pieces from rfl, hpieces]
    unfold observedOf
    rw [hobserved]
    rfl
  obtain ⟨w', hw', hplans⟩ : ∃ w', runAt fromStr jsonValid ctx p (startOrStop hash resume) w₁ =
      (some .waiting, w') ∧ w'.plans p = w₁.plans p := run_startOrStop w₁ hash resume
  refine ⟨w', resume, hrun.trans hw', ?_⟩
  rw [hplans]
  simp [w₁, exec, perform, World.updateInjection, World.updateHistory, hrow]

end

/-! ### One execution -/

/-- A row that the loop works on: one of its states, and attempts that have not run out. -/
structure Pending (row : InjectionRow) : Prop where
  state : row.state ∈ ["recheck_requested", "recheck_settling", "checking", "finalizing"]
  attempts : row.verificationAttempts < maxFinalVerifyAttempts

/-- How many executions that see no checking state may come. The attempts before the decision and
those after it are counted from zero, and settling and deciding take an execution each. -/
def rank (row : InjectionRow) : ℕ :=
  (if row.state = "finalizing" then maxFinalVerifyAttempts
    else if row.state = "recheck_requested" then 2 * maxFinalVerifyAttempts + 1
    else 2 * maxFinalVerifyAttempts) - row.verificationAttempts

theorem Pending.rank_pos {row : InjectionRow} (h : Pending row) : 0 < rank row := by
  have := h.attempts
  unfold rank maxFinalVerifyAttempts at *
  split_ifs <;> omega

/-- What an execution does: it ends the loop, or waits and leaves a row that is pending and, unless
it has seen a checking state, of a smaller rank. -/
def Proceeds (checking : Bool) (row : InjectionRow) (p : ι)
    (r : Option StepResult × World ι) : Prop :=
  (∃ state reason, r.1 = some (.terminal state reason)) ∨
    r.1 = some .waiting ∧ ∃ row', (r.2.plans p).injection = some row' ∧ Pending row' ∧
      rank row' + 1 ≤ rank row + checking.toNat

omit [DecidableEq ι] in
theorem proceeds_of_run {checking : Bool} {row row' : InjectionRow}
    {r : Option StepResult × World ι} {w' : World ι} (hrun : r = (some .waiting, w'))
    (hrow' : (w'.plans p).injection = some row') (hpending : Pending row')
    (hrank : rank row' + 1 ≤ rank row + checking.toNat) : Proceeds checking row p r := by
  subst hrun
  exact .inr ⟨rfl, row', hrow', hpending, hrank⟩

section

variable {w : World ι} {row : InjectionRow} {torrent : TorrentState} {observed : Observed}

/-- An attempt before the decision or after it. -/
theorem proceeds_bump (hw : Writable fromStr jsonValid ctx p w.db)
    (hrow : (w.plans p).injection = some row) (hpending : Pending row)
    (hobserved : torrent.observed = some observed) {program : Activity}
    (hprogram : ∀ v : World ι, ∃ v', runAt fromStr jsonValid ctx p program v = (some .waiting, v') ∧
      v'.plans p = v.plans p) :
    Proceeds false row p (runAt fromStr jsonValid ctx p
      (bumpVerification (ctx p) torrent program) w) := by
  rcases run_bumpVerification hw hrow hobserved program with ⟨reason, hend⟩ | ⟨hlt, v, hrun, hrow'⟩
  · exact .inl ⟨_, reason, hend⟩
  · obtain ⟨v', hwait, hplans⟩ := hprogram v
    refine proceeds_of_run (hrun.trans hwait) ((congrArg _ hplans).trans hrow')
      ⟨hpending.state, hlt⟩ ?_
    unfold rank maxFinalVerifyAttempts InjectionRow.observe at *
    simp only [Bool.toNat_false]
    split_ifs <;> omega

theorem proceeds_verifyFinal (hw : Writable fromStr jsonValid ctx p w.db)
    (hrow : (w.plans p).injection = some row) (hpending : Pending row)
    (hobserved : torrent.observed = some observed) (hash : String) :
    Proceeds false row p (runAt fromStr jsonValid ctx p
      (verifyFinal (ctx p) row hash torrent) w) := by
  unfold verifyFinal
  dsimp only
  split_ifs
  · obtain ⟨reason, hend⟩ :=
      run_finishInjection hw hobserved (decide (row.resumeDecision = some "resume"))
    exact .inl ⟨_, reason, hend⟩
  · exact proceeds_bump hw hrow hpending hobserved fun v => run_startOrStop v hash _

/-- The loop from a row that is pending and not finalizing. -/
theorem proceeds_recheck (hw : Succeeds fromStr jsonValid ctx p w)
    (hrow : (w.plans p).injection = some row) (hpending : Pending row)
    (hstate : row.state ≠ "finalizing") (hobserved : torrent.observed = some observed)
    (hash : String) :
    Proceeds torrent.isChecking row p (runAt fromStr jsonValid ctx p
      (match recheckObservation (some row.state) torrent with
        | .checking => updateObservation torrent "checking"
        | .settling => updateObservation torrent "recheck_settling"
        | .waiting => bumpVerification (ctx p) torrent (pure .waiting)
        | .inspect => inspect (ctx p) hash torrent) w) := by
  have hattempts := hpending.attempts
  unfold recheckObservation
  by_cases hchecking : torrent.isChecking = true
  · rw [if_pos hchecking, hchecking]
    obtain ⟨w', hrun, hrow'⟩ :=
      run_updateObservation fromStr jsonValid ctx hrow hobserved "checking"
    refine proceeds_of_run hrun hrow' ⟨by simp, hattempts⟩ ?_
    unfold rank maxFinalVerifyAttempts InjectionRow.observe at *
    simp only [Bool.toNat_true, String.reduceEq, if_false, if_neg hstate]
    split_ifs <;> omega
  · rw [if_neg hchecking, Bool.eq_false_of_not_eq_true hchecking]
    by_cases hqueued : torrent.state = "queuedDL" ∨ torrent.state = "queuedUP"
    · rw [if_pos hqueued]
      exact proceeds_bump hw.writable hrow hpending hobserved fun v => ⟨v, rfl, rfl⟩
    rw [if_neg hqueued]
    by_cases hrequested : row.state = "recheck_requested"
    · rw [if_pos (congrArg some hrequested)]
      obtain ⟨w', hrun, hrow'⟩ := run_updateObservation fromStr jsonValid ctx hrow hobserved
        "recheck_settling"
      refine proceeds_of_run hrun hrow' ⟨by simp, hattempts⟩ ?_
      unfold rank maxFinalVerifyAttempts InjectionRow.observe at *
      simp only [Bool.toNat_false, String.reduceEq, if_false, if_neg hstate, if_pos hrequested]
      omega
    · have hsettled : row.state = "recheck_settling" ∨ row.state = "checking" := by
        have := hpending.state
        simp only [List.mem_cons, List.not_mem_nil, or_false] at this
        tauto
      rw [if_neg (by simpa using hrequested), if_pos (by simpa using hsettled)]
      obtain ⟨integrity, hpieces⟩ := hw.pieces
      obtain ⟨w', resume, hrun, hrow'⟩ := run_inspect fromStr jsonValid hrow hobserved hash hpieces
      refine proceeds_of_run hrun hrow' ⟨by simp [decidedRow], Nat.zero_lt_succ _⟩ ?_
      unfold rank maxFinalVerifyAttempts decidedRow at *
      simp only [Bool.toNat_false, if_true, if_neg hstate, if_neg hrequested]
      omega

/-- An execution comes to the torrent under the first hash. -/
theorem execution_eq (hconfigured : (ctx p).configured = true) {hash : String}
    {hashes : List String} (hcons : (ctx p).plan.hashes = hash :: hashes) (w : World ι) :
    execution fromStr jsonValid ctx p w = runAt fromStr jsonValid ctx p
      (match w.torrents hash with
        | none => fail (ctx p) "injected_torrent_missing"
        | some torrent => observeFound (ctx p) (w.plans p).injection hash torrent)
      (exec fromStr jsonValid ctx p (.torrentState hash)
        (exec fromStr jsonValid ctx p .load w).2).2 := by
  unfold execution observe
  rw [hcons, hconfigured]
  rfl

/-- **An execution** ends the loop or brings its end closer. -/
theorem proceeds_execution (hhash : (ctx p).plan.hashes ≠ [])
    (hw : Succeeds fromStr jsonValid ctx p w) (hfits : Fits ctx p w)
    (hrow : (w.plans p).injection = some row) (hpending : Pending row) :
    Proceeds (seesChecking ctx p w) row p (execution fromStr jsonValid ctx p w) := by
  obtain ⟨hash, hashes, hcons⟩ := List.exists_cons_of_ne_nil hhash
  have hseen : seenTorrent ctx p w = w.torrents hash := by simp [seenTorrent, hcons]
  let w₁ := (exec fromStr jsonValid ctx p .load w).2
  let w₂ := (exec fromStr jsonValid ctx p (.torrentState hash) w₁).2
  have hw₁ : Writable fromStr jsonValid ctx p w₁.db := hw.writable
  have hw₂ : Succeeds fromStr jsonValid ctx p w₂ := ⟨hw.pieces, hw.writable⟩
  have hrow₂ : (w₂.plans p).injection = some row := hrow
  by_cases hconfigured : (ctx p).configured = true
  · rw [execution_eq hconfigured hcons, seesChecking, hseen, hrow]
    cases htorrent : w.torrents hash with
    | none => exact .inl ⟨_, _, run_fail hw₂.writable _⟩
    | some torrent =>
      obtain ⟨observed, hobserved⟩ := hfits torrent (by rw [hseen, htorrent])
      unfold observeFound
      by_cases hstate : row.state = "finalizing"
      · have hfilter : (some row).filter (fun row =>
            decide (row.state = "finalizing")) = some row := by
          simp [hstate]
        simp only [hfilter, Option.any_some, hstate, decide_true, Bool.not_true, Bool.and_false]
        exact proceeds_verifyFinal hw₂.writable hrow₂ hpending hobserved hash
      · have hfilter : (some row).filter (fun row => decide (row.state = "finalizing")) = none := by
          simp [hstate]
        simp only [hfilter, Option.any_some, hstate, decide_false, Bool.not_false, Bool.and_true,
          Option.map_some]
        exact proceeds_recheck hw₂ hrow₂ hpending hstate hobserved hash
  · have hrun : execution fromStr jsonValid ctx p w =
        runAt fromStr jsonValid ctx p (fail (ctx p) "qbittorrent_unconfigured") w₁ := by
      unfold execution observe
      rw [Bool.eq_false_of_not_eq_true hconfigured]
      rfl
    rw [hrun]
    exact .inl ⟨_, _, run_fail hw₁ _⟩

end

/-! ### The whole loop -/

section

variable {others : ℕ → World ι → World ι} {w : World ι}

/-- Where the loop comes to, the row of the plan is pending. -/
theorem pending_worldAt (hhash : (ctx p).plan.hashes ≠ []) (hothers : ∀ n w, Same p w (others n w))
    (hrequested : JustRequested p w) (hcalls : ∀ n, Reaches fromStr jsonValid ctx p others w n →
      Succeeds fromStr jsonValid ctx p (worldAt fromStr jsonValid ctx p others w n) ∧
        Fits ctx p (worldAt fromStr jsonValid ctx p others w n)) :
    ∀ n, Reaches fromStr jsonValid ctx p others w n → ∃ row,
      ((worldAt fromStr jsonValid ctx p others w n).plans p).injection = some row ∧ Pending row ∧
        (n = 0 → rank row = 2 * maxFinalVerifyAttempts + 1)
  | 0, _ => by
    obtain ⟨row, hrow, hstate, hattempts⟩ := hrequested
    refine ⟨row, ?_, ⟨by simp [hstate], by rw [hattempts]; decide⟩, fun _ => ?_⟩
    · rw [worldAt, (hothers 0 w).1, hrow]
    · simp [rank, hstate, hattempts]
  | n + 1, hreach => by
    have hreachn : Reaches fromStr jsonValid ctx p others w n := fun m hm => hreach m (by omega)
    obtain ⟨row, hrow, hpending, -⟩ := pending_worldAt hhash hothers hrequested hcalls n hreachn
    obtain ⟨hcall, hfits⟩ := hcalls n hreachn
    have hwaiting := hreach n (Nat.lt_succ_self n)
    rcases proceeds_execution hhash hcall hfits hrow hpending with
      ⟨state, reason, hend⟩ | ⟨-, row', hrow', h', -⟩
    · rw [resultAt, hend] at hwaiting
      cases hwaiting
    · exact ⟨row', by rw [worldAt, (hothers (n + 1) _).1, hrow'], h', by simp⟩

/-- The attempts, the settling and the decision leave room for 61 executions that see no checking
state. -/
theorem endsWithin_of_fits (hhash : (ctx p).plan.hashes ≠ [])
    (hothers : ∀ n w, Same p w (others n w)) (hrequested : JustRequested p w) {k : ℕ}
    (hcalls : ∀ n, Reaches fromStr jsonValid ctx p others w n →
      Succeeds fromStr jsonValid ctx p (worldAt fromStr jsonValid ctx p others w n) ∧
        Fits ctx p (worldAt fromStr jsonValid ctx p others w n))
    (hk : ∀ n, Reaches fromStr jsonValid ctx p others w n →
      checkings fromStr jsonValid ctx p others w n ≤ k) :
    EndsWithin fromStr jsonValid ctx p others w (k + 61) := by
  have hpending := pending_worldAt hhash hothers hrequested hcalls
  have hreach : ∀ {n}, (∀ m < n, ¬ resultAt fromStr jsonValid ctx p others w m ≠ some .waiting) →
      Reaches fromStr jsonValid ctx p others w n := fun {n} h m hm => not_not.mp (h m hm)
  obtain ⟨n, hn, hstop, hbefore⟩ := Lib.Counter.exists_stop (k := k) (b := 61)
    (fun n => resultAt fromStr jsonValid ctx p others w n ≠ some .waiting)
    (fun n => seesChecking ctx p (worldAt fromStr jsonValid ctx p others w n))
    (fun n => ((worldAt fromStr jsonValid ctx p others w n).plans p).injection.elim 0 rank)
    (by
      obtain ⟨row, hrow, -, hrank⟩ := hpending 0 fun m hm => absurd hm (Nat.not_lt_zero m)
      rw [hrow]
      exact (hrank rfl).le)
    (fun n h => by
      obtain ⟨row, hrow, hrowPending, -⟩ := hpending n (hreach h)
      rw [hrow]
      exact hrowPending.rank_pos)
    (fun n h => by
      have hn : Reaches fromStr jsonValid ctx p others w n := hreach fun m hm => h m (by omega)
      obtain ⟨row, hrow, hrowPending, -⟩ := hpending n hn
      have hwaiting := not_not.mp (h n (Nat.lt_succ_self n))
      rcases proceeds_execution hhash (hcalls n hn).1 (hcalls n hn).2 hrow hrowPending with
        ⟨state, reason, hend⟩ | ⟨-, row', hrow', -, hrank⟩
      · rw [resultAt, hend] at hwaiting
        cases hwaiting
      · rw [worldAt, (hothers (n + 1) _).1, hrow', hrow]
        exact hrank)
    (fun n h => hk n (hreach h))
  have hn' := hreach hbefore
  obtain ⟨row, hrow, hrowPending, -⟩ := hpending n hn'
  rcases proceeds_execution hhash (hcalls n hn').1 (hcalls n hn').2 hrow hrowPending with
    hend | ⟨hwaiting, -⟩
  · exact ⟨n, hn, hn', hend⟩
  · exact absurd hwaiting hstop

/-- **The end of the loop**: from a row that has just been set to `recheck_requested`, for every
sequence of reports that fit their columns, the loop returns a terminal result after at most `k +
62` executions, of which `k` see a checking state before finalizing. -/
theorem observe_ends (hhash : (ctx p).plan.hashes ≠ []) (hothers : ∀ n w, Same p w (others n w))
    (hrequested : JustRequested p w) (k : ℕ)
    (hcalls : ∀ n, Reaches fromStr jsonValid ctx p others w n →
      Succeeds fromStr jsonValid ctx p (worldAt fromStr jsonValid ctx p others w n) ∧
        Fits ctx p (worldAt fromStr jsonValid ctx p others w n))
    (hk : ∀ n, Reaches fromStr jsonValid ctx p others w n →
      checkings fromStr jsonValid ctx p others w n ≤ k) :
    EndsWithin fromStr jsonValid ctx p others w (k + 62) := by
  obtain ⟨n, hn, hend⟩ := endsWithin_of_fits hhash hothers hrequested hcalls hk
  exact ⟨n, Nat.lt_succ_of_lt hn, hend⟩

/-- A report that does not fit its columns is an error of the execution, which leaves the row alone.
-/
theorem execution_of_unfit (hconfigured : (ctx p).configured = true)
    (hhash : (ctx p).plan.hashes ≠ []) {torrent : TorrentState}
    (htorrents : w.torrents = fun _ => some torrent) (hunfit : torrent.observed = none)
    (hchecking : torrent.isChecking = false)
    (hqueued : ¬ (torrent.state = "queuedDL" ∨ torrent.state = "queuedUP"))
    (hrow : JustRequested p w) :
    (execution fromStr jsonValid ctx p w).1 = none ∧
      (execution fromStr jsonValid ctx p w).2.plans p = w.plans p := by
  obtain ⟨hash, hashes, hcons⟩ := List.exists_cons_of_ne_nil hhash
  obtain ⟨row, hrow, hstate, -⟩ := hrow
  have hfilter : (some row).filter (fun row => decide (row.state = "finalizing")) = none := by
    simp [hstate]
  have hsettling : recheckObservation (some row.state) torrent = .settling := by
    rw [recheckObservation, hchecking, if_neg (by simp), if_neg hqueued,
      if_pos (congrArg some hstate)]
  rw [execution_eq hconfigured hcons, htorrents, hrow]
  simp only [observeFound, hfilter, Option.map_some, hsettling, updateObservation,
    observedOf, hunfit]
  exact ⟨rfl, rfl⟩

end

end

/-! ### Two sequences of reports -/

/-- The row of the first plan has just been set to `recheck_requested`. -/
def requestedWorld : World (Fin 2) :=
  (World.initial (Fin 2) .empty).updatePlan 0 fun plan =>
    { plan with injection := some ⟨"stoppedDL", 1, 500000, none, none, "recheck_requested", 0⟩ }

/-- The same report before every execution, with one piece of two. -/
def reporting (torrent : TorrentState) (_ : ℕ) (w : World (Fin 2)) : World (Fin 2) :=
  { w with torrents := fun _ => some torrent, pieces := [2, 0], db := .empty }

/-- Every text is accepted. -/
abbrev anyText : String → Bool := fun _ => true

theorem worldAt_reporting (torrent : TorrentState) (n : ℕ) :
    ∃ v, worldAt anyText anyText twoPlans 0 (reporting torrent) requestedWorld n =
      reporting torrent n v := by
  cases n with
  | zero => exact ⟨_, rfl⟩
  | succ n => exact ⟨_, rfl⟩

theorem succeeds_reporting (torrent : TorrentState) (n : ℕ) :
    Succeeds anyText anyText twoPlans 0
      (worldAt anyText anyText twoPlans 0 (reporting torrent) requestedWorld n) := by
  obtain ⟨v, hv⟩ := worldAt_reporting torrent n
  have hpieces : inspectPieces (twoPlans 0).plan.manifest (twoPlans 0).plan.mappedOrdinals [2, 0] =
      .ok ⟨true, 1, 500000⟩ := by decide +kernel
  rw [hv]
  exact ⟨⟨_, hpieces⟩, rfl, rfl, fun row hrow => by cases hrow⟩

theorem checkings_reporting {torrent : TorrentState}
    (hchecking : torrent.isChecking = false) (n : ℕ) :
    checkings anyText anyText twoPlans 0 (reporting torrent) requestedWorld n = 0 := by
  refine Nat.count_of_forall_not fun m _ => ?_
  obtain ⟨v, hv⟩ := worldAt_reporting torrent m
  have hseen : seenTorrent twoPlans 0 (reporting torrent m v) = some torrent := rfl
  rw [hv, seesChecking, hseen]
  simp [hchecking]

theorem observe_ends_seeding :
    JustRequested 0 requestedWorld ∧
      EndsWithin anyText anyText twoPlans 0 (reporting (torrentIn "stalledUP"))
        requestedWorld 62 := by
  have hrequested : JustRequested 0 requestedWorld := ⟨_, rfl, rfl, rfl⟩
  have hhash : (twoPlans 0).plan.hashes ≠ [] := by decide +kernel
  have hchecking : (torrentIn "stalledUP").isChecking = false := by decide
  have hothers : ∀ n w, Same 0 w (reporting (torrentIn "stalledUP") n w) := fun _ _ => ⟨rfl, le_rfl⟩
  refine ⟨hrequested, observe_ends hhash hothers hrequested 0
    (fun n _ => ⟨succeeds_reporting _ n, fun torrent htorrent => ?_⟩)
    fun n _ => (checkings_reporting hchecking n).le⟩
  obtain ⟨v, hv⟩ := worldAt_reporting (torrentIn "stalledUP") n
  rw [hv] at htorrent
  obtain rfl := Option.some.inj htorrent
  exact ⟨_, rfl⟩

/-- A torrent whose progress is not a number from zero to one. -/
def torrentUnfit : TorrentState := { torrentIn "stalledUP" with progressPpm := none }

/-- Every call succeeds and no state is a checking one, but no execution returns a result. -/
theorem observe_unfit :
    JustRequested 0 requestedWorld ∧ (twoPlans 0).plan.hashes ≠ [] ∧
      (∀ n w, Same 0 w (reporting torrentUnfit n w)) ∧
      (∀ n, Succeeds anyText anyText twoPlans 0
        (worldAt anyText anyText twoPlans 0 (reporting torrentUnfit) requestedWorld n)) ∧
      (∀ n, checkings anyText anyText twoPlans 0 (reporting torrentUnfit) requestedWorld n = 0) ∧
      ∀ bound, ¬ EndsWithin anyText anyText twoPlans 0 (reporting torrentUnfit)
        requestedWorld bound := by
  have hhash : (twoPlans 0).plan.hashes ≠ [] := by decide +kernel
  have hcall : ∀ {n}, JustRequested 0
      (worldAt anyText anyText twoPlans 0 (reporting torrentUnfit) requestedWorld n) →
      resultAt anyText anyText twoPlans 0 (reporting torrentUnfit) requestedWorld n = none ∧
        (execution anyText anyText twoPlans 0
          (worldAt anyText anyText twoPlans 0 (reporting torrentUnfit) requestedWorld n)).2.plans
            0 =
        (worldAt anyText anyText twoPlans 0 (reporting torrentUnfit) requestedWorld n).plans 0 := by
    intro n hn
    obtain ⟨v, hv⟩ := worldAt_reporting torrentUnfit n
    exact execution_of_unfit rfl hhash (by rw [hv]; rfl) rfl (by decide) (by decide) hn
  have hrow : ∀ n, JustRequested 0
      (worldAt anyText anyText twoPlans 0 (reporting torrentUnfit) requestedWorld n) := by
    intro n
    induction n with
    | zero => exact ⟨_, rfl, rfl, rfl⟩
    | succ n ih =>
      have hplans := (hcall ih).2
      obtain ⟨row, hrow, hstate⟩ := ih
      exact ⟨row, by rw [← hrow, ← hplans]; rfl, hstate⟩
  refine ⟨hrow 0, hhash, fun _ _ => ⟨rfl, le_rfl⟩, succeeds_reporting _,
    checkings_reporting (by decide), ?_⟩
  rintro bound ⟨n, -, -, state, reason, hend⟩
  rw [(hcall (hrow n)).1] at hend
  cases hend

end Sporos.Service.ObserveLoop
