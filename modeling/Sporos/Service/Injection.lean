import Sporos.Lib.Program
import Sporos.Service.Pieces
import Sporos.Service.Writers

/-! # The injection of a plan

The four activities of `injection.rs` as programs. Every SQL statement or transaction and every call
to qBittorrent or to the hardlink materialiser is one operation, between which an activity may be
interrupted. What qBittorrent and the file system answer is part of the world, which others change.
-/

namespace Sporos.Service.Injection

open Sporos.Model.Matching
open Sporos.Service.Tables
open Sporos.Service.Ingress
open Sporos.Service.TaskProjection
open Sporos.Service.Writers
open Sporos.Service.Pieces
open Sporos.Lib.Program

/-! ### Torrents and plans -/

/-- A torrent as qBittorrent reports it; the progress is in parts per million, unless it is not a
number from zero to one. -/
structure TorrentState where
  hash : String
  state : String
  amountLeft : ℕ
  progressPpm : Option ℕ
  savePath : String
  autoTmm : Bool
  deriving DecidableEq, Repr

/-- `starts_with`. -/
def startsWith (text start : String) : Bool := start.toList.isPrefixOf text.toList

/-- `is_stopped`. -/
def TorrentState.isStopped (torrent : TorrentState) : Bool := startsWith torrent.state "stopped"

/-- `is_checking`. -/
def TorrentState.isChecking (torrent : TorrentState) : Bool := startsWith torrent.state "checking"

/-- A state in which the torrent runs. -/
def TorrentState.isStarted (torrent : TorrentState) : Bool :=
  torrent.state ∈ ["downloading", "forcedDL", "queuedDL", "stalledDL", "metaDL", "uploading",
    "forcedUP", "queuedUP", "stalledUP"]

/-- `trim_end_matches('/')`. -/
def trimEndSlashes (path : String) : List Char := (path.toList.reverse.dropWhile (· = '/')).reverse

/-- The paths are the same but for slashes at their ends. -/
def sameSavePath (actual expected : String) : Bool :=
  trimEndSlashes actual = trimEndSlashes expected

/-- A file of a plan; the root of the source, if its path is mapped. -/
structure LinkRow where
  candidateOrdinal : ℕ
  sourceRoot : Option String
  deriving DecidableEq, Repr

/-- What `load_injection` reads apart from the row of the injection. -/
structure InjectionPlan where
  manifest : TorrentManifest
  namespaceRelative : Option String
  savePathRemote : String
  resume : ResumePolicy
  mappings : List LinkRow
  deriving DecidableEq, Repr

/-- The hexadecimal digits of a hash. -/
def hexBits {w : ℕ} (bits : BitVec w) : String :=
  String.ofList ((List.range (w / 4)).map fun i =>
    hexDigit (bits.extractLsb' (4 * (w / 4 - 1 - i)) 4).toNat)

/-- The hashes under which the torrent may be found. -/
def InjectionPlan.hashes (plan : InjectionPlan) : List String :=
  (plan.manifest.hashes.v1.map hexBits).toList ++ (plan.manifest.hashes.v2.map hexBits).toList

/-- The files of the candidate that are linked. -/
def InjectionPlan.mappedOrdinals (plan : InjectionPlan) : List ℕ :=
  plan.mappings.map LinkRow.candidateOrdinal

/-- A row of `sporos_injection`. -/
structure InjectionRow where
  qbitState : String
  amountLeft : ℕ
  progressPpm : ℕ
  integritySafe : Option Bool
  resumeDecision : Option String
  state : String
  verificationAttempts : ℕ
  deriving DecidableEq, Repr

/-- What of a torrent is written to its row, if it fits the columns. -/
structure Observed where
  qbitState : String
  amountLeft : ℕ
  progressPpm : ℕ
  deriving DecidableEq, Repr

/-- The columns of an observation. -/
def InjectionRow.observe (row : InjectionRow) (observed : Observed) : InjectionRow :=
  { row with
    qbitState := observed.qbitState
    amountLeft := observed.amountLeft
    progressPpm := observed.progressPpm }

/-- What is stored of an observation, if it is in range. -/
def TorrentState.observed (torrent : TorrentState) : Option Observed :=
  if torrent.amountLeft ≤ i64Max then
    torrent.progressPpm.map fun ppm => ⟨torrent.state, torrent.amountLeft, ppm⟩
  else none

/-- How an activity of an injection ends. -/
inductive StepResult where
  | ready
  | waiting
  | terminal (state reasonCode : String)
  deriving DecidableEq, Repr

/-- The errors of the materialiser that have a reason of their own. -/
inductive MaterializeError where
  | deviceMismatch
  | linkConflict
  | sourceIdentityChanged
  | sourceSizeChanged
  | other
  deriving DecidableEq, Repr

/-- The reason that is stored for an error. -/
def materializeReason : MaterializeError → String
  | .deviceMismatch => "hardlink_device_mismatch"
  | .linkConflict => "link_conflict"
  | .sourceIdentityChanged => "source_changed"
  | .sourceSizeChanged => "source_changed"
  | .other => "hardlink_materialization_failed"

/-- What a torrent shows of its recheck. -/
inductive RecheckObservation where
  | checking
  | settling
  | waiting
  | inspect
  deriving DecidableEq, Repr

/-- `recheck_observation`. -/
def recheckObservation (injectionState : Option String) (torrent : TorrentState) :
    RecheckObservation :=
  if torrent.isChecking then .checking
  else if torrent.state = "queuedDL" ∨ torrent.state = "queuedUP" then .waiting
  else if injectionState = some "recheck_requested" then .settling
  else if injectionState = some "recheck_settling" ∨ injectionState = some "checking" then .inspect
  else .waiting

/-- `MAX_FINAL_VERIFY_ATTEMPTS`. -/
def maxFinalVerifyAttempts : ℕ := 30

/-! ### Operations -/

/-- The operations of the activities. -/
inductive Effect : Type → Type where
  | load : Effect (Option InjectionRow)
  | now : Effect ℤ
  | validateContract : Effect Unit
  | ensureNamespace : Effect Unit
  | torrentState (hash : String) : Effect (Option TorrentState)
  | addStopped : Effect Unit
  | stop (hash : String) : Effect Unit
  | start (hash : String) : Effect Unit
  | forceRecheck (hash : String) : Effect Unit
  | pieceStates (hash : String) : Effect (List ℕ)
  | openRoots : Effect (Option MaterializeError)
  | link (ordinal : ℕ) : Effect (Option MaterializeError)
  | insertInjection (observed : Observed) (state : String) : Effect Unit
  | setPlanState (state : String) : Effect Unit
  | persistLinks (complete : Bool) : Effect Unit
  | setInjectionState (state : String) : Effect Unit
  | resetVerification : Effect Unit
  | updateObservation (observed : Observed) (state : String) : Effect Unit
  | recordResumeDecision (observed : Observed) (integritySafe resume : Bool) : Effect Unit
  | bumpVerification (observed : Observed) : Effect Unit
  | verificationAttempts : Effect (Option ℕ)
  | completeInjection (observed : Observed) : Effect Unit
  | failInjection : Effect Unit
  | setCandidateState (state : String) (now : ℤ) : Effect Unit
  | task : Effect (Option TaskRow)
  | projectTask (update : ProjectionUpdate) : Effect (Except ProjectionError ProjectionOutcome)

/-! ### Activities -/

/-- What an activity knows: the plan, its candidate and its task, the detail of its events, and
whether there is a qBittorrent client. -/
structure Context where
  plan : InjectionPlan
  candidateId : Id
  taskId : Id
  detailJson : String
  configured : Bool

/-- An activity of an injection. -/
abbrev Activity := Prog Effect StepResult

/-- The columns of a torrent, or an error. -/
def observedOf (torrent : TorrentState) : Prog Effect Observed :=
  match torrent.observed with
  | some observed => pure observed
  | none => .fail

section

variable (ctx : Context)

/-- The state of the candidate and its task, as it was read. -/
def projectCandidateState (state : String) (reason : Option String) (terminal : Bool) (now : ℤ) :
    Prog Effect Unit := do
  let seen ← Prog.perform .task
  match seen.bind (candidateUpdate · ctx.taskId state reason terminal ctx.detailJson now) with
  | none => pure ()
  | some update =>
    let outcome ← Prog.perform (.projectTask update)
    match outcome with
    | .error _ => .fail
    | .ok .missing => .fail
    | .ok _ => pure ()

/-- `fail`, with `fail_injection`. -/
def fail (reason : String) : Activity := do
  let now ← Prog.perform .now
  Prog.perform (.setPlanState "failed")
  Prog.perform .failInjection
  Prog.perform (.setCandidateState "failed" now)
  projectCandidateState ctx "failed" (some reason) true now
  pure (.terminal "failed" reason)

/-- The torrent under one of the hashes; none if two hashes name different torrents. -/
def findTorrent : List String → Option TorrentState → Prog Effect (Option (Option TorrentState))
  | [], found => pure (some found)
  | hash :: hashes, found => do
    let torrent ← Prog.perform (.torrentState hash)
    match torrent with
    | none => findTorrent hashes found
    | some torrent =>
      if found.any (fun existing => existing.hash ≠ torrent.hash) then pure none
      else findTorrent hashes (some torrent)

/-- `prepare` of a torrent that is there. -/
def prepareFound (torrent : TorrentState) : Activity :=
  if !sameSavePath torrent.savePath ctx.plan.savePathRemote || torrent.autoTmm then
    fail ctx "qbittorrent_identity_conflict"
  else if !torrent.isStopped then do
    Prog.perform (.stop torrent.hash)
    pure .waiting
  else do
    let observed ← observedOf torrent
    Prog.perform (.insertInjection observed "added_stopped")
    Prog.perform (.setPlanState "added_stopped")
    pure .ready

/-- `prepare`. -/
def prepare : Activity := do
  let _ ← Prog.perform .load
  if !ctx.configured then fail ctx "qbittorrent_unconfigured"
  else do
    Prog.perform .validateContract
    Prog.perform .ensureNamespace
    if ctx.plan.hashes = [] then .fail
    else do
      let found ← findTorrent ctx.plan.hashes none
      match found with
      | none => fail ctx "qbittorrent_identity_conflict"
      | some (some torrent) => prepareFound ctx torrent
      | some none => do
        Prog.perform .addStopped
        pure .waiting

/-- Link the files one after the other, until one fails. -/
def linkAll : List ℕ → Prog Effect (Option MaterializeError)
  | [] => pure none
  | ordinal :: ordinals => do
    let outcome ← Prog.perform (.link ordinal)
    match outcome with
    | some error => pure (some error)
    | none => linkAll ordinals

/-- `materialize` of a torrent that is stopped. -/
def materializeLinks : Activity := do
  let opened ← Prog.perform .openRoots
  match opened with
  | some error => fail ctx (materializeReason error)
  | none => do
    let outcome ← linkAll ctx.plan.mappedOrdinals
    Prog.perform (.persistLinks outcome.isNone)
    match outcome with
    | some error => fail ctx (materializeReason error)
    | none => pure .ready

/-- `materialize`. -/
def materialize : Activity := do
  let _ ← Prog.perform .load
  if !ctx.configured then fail ctx "qbittorrent_unconfigured"
  else
    match ctx.plan.hashes with
    | [] => .fail
    | hash :: _ => do
      let torrent ← Prog.perform (.torrentState hash)
      match torrent with
      | none => fail ctx "injected_torrent_missing"
      | some torrent =>
        if !torrent.isStopped || torrent.autoTmm
            || !sameSavePath torrent.savePath ctx.plan.savePathRemote then
          fail ctx "qbittorrent_not_stopped"
        else if ctx.plan.namespaceRelative.isNone then .fail
        else if ctx.plan.mappings.any (·.sourceRoot.isNone) then fail ctx "unmapped_source_root"
        else materializeLinks ctx

/-- `recheck`. -/
def recheck : Activity := do
  let _ ← Prog.perform .load
  if !ctx.configured then fail ctx "qbittorrent_unconfigured"
  else
    match ctx.plan.hashes with
    | [] => .fail
    | hash :: _ => do
      Prog.perform (.forceRecheck hash)
      Prog.perform (.setInjectionState "recheck_requested")
      Prog.perform .resetVerification
      pure .waiting

/-- `bump_verification`, and the failure after too many attempts; else go on. -/
def bumpVerification (torrent : TorrentState) (next : Activity) : Activity := do
  let observed ← observedOf torrent
  Prog.perform (.bumpVerification observed)
  let attempts ← Prog.perform .verificationAttempts
  match attempts with
  | none => .fail
  | some attempts =>
    if attempts ≥ maxFinalVerifyAttempts then fail ctx "ambiguous_qbittorrent_state" else next

/-- `finish_injection`, and the result. -/
def finishInjection (torrent : TorrentState) (resumed : Bool) : Activity := do
  let now ← Prog.perform .now
  let observed ← observedOf torrent
  let reason := if resumed then "resumed" else "left_stopped"
  Prog.perform (.completeInjection observed)
  Prog.perform (.setPlanState "completed")
  Prog.perform (.setCandidateState "completed" now)
  projectCandidateState ctx "completed" (some reason) true now
  pure (.terminal "completed" reason)

/-- Start or stop the torrent, and wait. -/
def startOrStop (hash : String) (resume : Bool) : Activity :=
  if resume then do
    Prog.perform (.start hash)
    pure .waiting
  else do
    Prog.perform (.stop hash)
    pure .waiting

/-- `verify_final`. -/
def verifyFinal (row : InjectionRow) (hash : String) (torrent : TorrentState) : Activity :=
  let resume : Bool := row.resumeDecision = some "resume"
  if (resume && torrent.isStarted) || (!resume && torrent.isStopped) then
    finishInjection ctx torrent resume
  else bumpVerification ctx torrent (startOrStop hash resume)

/-- `observe` once the recheck is over: the decision. -/
def inspect (hash : String) (torrent : TorrentState) : Activity := do
  let states ← Prog.perform (.pieceStates hash)
  match inspectPieces ctx.plan.manifest ctx.plan.mappedOrdinals states with
  | .error _ => .fail
  | .ok integrity => do
    let resume := integrity.integritySafe
      && resumeAllowed ctx.plan.resume torrent.amountLeft integrity
    let observed ← observedOf torrent
    Prog.perform (.recordResumeDecision observed integrity.integritySafe resume)
    startOrStop hash resume

/-- `update_qbit_observation`, and wait. -/
def updateObservation (torrent : TorrentState) (state : String) : Activity := do
  let observed ← observedOf torrent
  Prog.perform (.updateObservation observed state)
  pure .waiting

/-- `observe` of a torrent that is there, by the row that was loaded. -/
def observeFound (row : Option InjectionRow) (hash : String) (torrent : TorrentState) : Activity :=
  match row.filter (fun row => row.state = "finalizing") with
  | some row => verifyFinal ctx row hash torrent
  | none =>
    match recheckObservation (row.map InjectionRow.state) torrent with
    | .checking => updateObservation torrent "checking"
    | .settling => updateObservation torrent "recheck_settling"
    | .waiting => bumpVerification ctx torrent (pure .waiting)
    | .inspect => inspect ctx hash torrent

/-- `observe`. -/
def observe : Activity := do
  let row ← Prog.perform .load
  if !ctx.configured then fail ctx "qbittorrent_unconfigured"
  else
    match ctx.plan.hashes with
    | [] => .fail
    | hash :: _ => do
      let torrent ← Prog.perform (.torrentState hash)
      match torrent with
      | none => fail ctx "injected_torrent_missing"
      | some torrent => observeFound ctx row hash torrent

end

/-! ### The operations of an activity -/

section

variable {R : {γ : Type} → Effect γ → Prop} (ctx : Context)

theorem within_observedOf (torrent : TorrentState) :
    Within @R (fun observed => torrent.observed = some observed) (observedOf torrent) := by
  unfold observedOf
  cases torrent.observed with
  | none => trivial
  | some observed => rfl

theorem within_projectCandidateState (state : String) (reason : Option String) (terminal : Bool)
    (now : ℤ) (htask : R .task)
    (hproject : ∀ update : ProjectionUpdate, update.state = state → R (.projectTask update)) :
    Within @R (fun _ => True) (projectCandidateState ctx state reason terminal now) := by
  refine Within.perform htask fun seen => ?_
  split
  · trivial
  · rename_i update hupdate
    refine Within.perform (hproject update ?_) fun outcome => ?_
    · obtain ⟨row, -, hupdate⟩ := Option.bind_eq_some_iff.mp hupdate
      unfold candidateUpdate at hupdate
      split_ifs at hupdate
      rw [← Option.some_inj.mp hupdate]
    · rcases outcome with _ | outcome
      · trivial
      · cases outcome <;> trivial

/-- The operations of `fail` are among those of `R`. -/
structure AllowsFail (R : {γ : Type} → Effect γ → Prop) : Prop where
  now : R .now
  setPlanState : R (.setPlanState "failed")
  failInjection : R .failInjection
  setCandidateState : ∀ now, R (.setCandidateState "failed" now)
  task : R .task
  projectTask : ∀ update, R (.projectTask update)

theorem within_fail (hR : AllowsFail @R) (reason : String) :
    Within @R (fun result => result = .terminal "failed" reason) (fail ctx reason) := by
  refine Within.perform hR.now fun now => ?_
  refine Within.perform hR.setPlanState fun _ => ?_
  refine Within.perform hR.failInjection fun _ => ?_
  refine Within.perform (hR.setCandidateState now) fun _ => ?_
  have hproject := within_projectCandidateState ctx "failed" (some reason) true now hR.task
    fun update _ => hR.projectTask update
  exact Within.bind (hproject.mono fun _ _ => rfl)

theorem within_findTorrent (hR : ∀ hash, R (.torrentState hash)) :
    ∀ (hashes : List String) (found : Option TorrentState),
      Within @R (fun _ => True) (findTorrent hashes found)
  | [], _ => trivial
  | hash :: hashes, found => by
    refine Within.perform (hR hash) fun torrent => ?_
    cases torrent with
    | none => exact within_findTorrent hR hashes found
    | some torrent =>
      dsimp only
      split
      · trivial
      · exact within_findTorrent hR hashes (some torrent)

theorem within_linkAll :
    ∀ (ordinals : List ℕ), (∀ ordinal ∈ ordinals, R (.link ordinal)) →
      Within @R (fun _ => True) (linkAll ordinals)
  | [], _ => trivial
  | ordinal :: ordinals, hR => by
    refine Within.perform (hR ordinal (by simp)) fun outcome => ?_
    cases outcome with
    | some error => trivial
    | none => exact within_linkAll ordinals fun o ho => hR o (List.mem_cons_of_mem _ ho)

theorem within_materialize (hR : AllowsFail @R) (hload : R .load)
    (htorrent : ∀ hash, R (.torrentState hash)) (hopen : R .openRoots)
    (hlink : ∀ ordinal ∈ ctx.plan.mappedOrdinals, R (.link ordinal))
    (hpersist : ∀ complete, R (.persistLinks complete)) :
    Within @R (fun _ => True) (materialize ctx) := by
  have hfail : ∀ reason, Within @R (fun _ => True) (fail ctx reason) := fun reason =>
    (within_fail ctx hR reason).mono fun _ _ => trivial
  have hlinks : Within @R (fun _ => True) (materializeLinks ctx) := by
    refine Within.perform hopen fun opened => ?_
    cases opened with
    | some error => exact hfail _
    | none =>
      refine Within.bind ((within_linkAll _ hlink).mono fun outcome _ => ?_)
      refine Within.perform (hpersist _) fun _ => ?_
      cases outcome with
      | some error => exact hfail _
      | none => trivial
  refine Within.perform hload fun _ => ?_
  split
  · exact hfail _
  split
  · trivial
  refine Within.perform (htorrent _) fun torrent => ?_
  cases torrent with
  | none => exact hfail _
  | some torrent =>
    dsimp only
    split
    · exact hfail _
    split
    · trivial
    split
    · exact hfail _
    · exact hlinks

theorem within_recheck (hR : AllowsFail @R) (hload : R .load)
    (hforce : ∀ hash, R (.forceRecheck hash)) (hstate : R (.setInjectionState "recheck_requested"))
    (hreset : R .resetVerification) : Within @R (fun _ => True) (recheck ctx) := by
  refine Within.perform hload fun _ => ?_
  split
  · exact (within_fail ctx hR _).mono fun _ _ => trivial
  split
  · trivial
  refine Within.perform (hforce _) fun _ => ?_
  refine Within.perform hstate fun _ => ?_
  exact Within.perform hreset fun _ => trivial

theorem within_updateObservation (torrent : TorrentState) {state : String}
    (hR : ∀ observed, R (.updateObservation observed state)) :
    Within @R (fun _ => True) (updateObservation torrent state) :=
  Within.bind ((within_observedOf torrent).mono fun observed _ => ⟨hR observed, fun _ => trivial⟩)

theorem within_finishInjection (torrent : TorrentState) (resumed : Bool) (hnow : R .now)
    (hcomplete : ∀ observed, R (.completeInjection observed))
    (hplan : R (.setPlanState "completed"))
    (hcandidate : ∀ now, R (.setCandidateState "completed" now)) (htask : R .task)
    (hproject : ∀ update : ProjectionUpdate, update.state = "completed" → R (.projectTask update)) :
    Within @R (fun result => ∃ reason, result = .terminal "completed" reason)
      (finishInjection ctx torrent resumed) := by
  refine Within.perform hnow fun now => ?_
  refine Within.bind ((within_observedOf torrent).mono fun observed _ => ?_)
  refine Within.perform (hcomplete observed) fun _ => ?_
  refine Within.perform hplan fun _ => ?_
  refine Within.perform (hcandidate now) fun _ => ?_
  exact Within.bind ((within_projectCandidateState ctx _ _ _ now htask hproject).mono
    fun _ _ => ⟨_, rfl⟩)

theorem within_bumpVerification (torrent : TorrentState) (hR : AllowsFail @R)
    (hbump : ∀ observed, R (.bumpVerification observed)) (hattempts : R .verificationAttempts)
    {program : Activity} (hprogram : Within @R (fun _ => True) program) :
    Within @R (fun _ => True) (bumpVerification ctx torrent program) := by
  refine Within.bind ((within_observedOf torrent).mono fun observed _ => ?_)
  refine Within.perform (hbump observed) fun _ => ?_
  refine Within.perform hattempts fun attempts => ?_
  cases attempts with
  | none => trivial
  | some attempts =>
    dsimp only
    split
    · exact (within_fail ctx hR _).mono fun _ _ => trivial
    · exact hprogram

/-- The operations of `prepare`, except for those of `fail`. -/
theorem within_prepare (hR : AllowsFail @R) (hload : R .load) (hcontract : R .validateContract)
    (hnamespace : R .ensureNamespace) (htorrent : ∀ hash, R (.torrentState hash))
    (hadd : R .addStopped) (hstop : ∀ hash, R (.stop hash))
    (hinsert : ∀ observed, R (.insertInjection observed "added_stopped"))
    (hplan : R (.setPlanState "added_stopped")) : Within @R (fun _ => True) (prepare ctx) := by
  have hfail : ∀ reason, Within @R (fun _ => True) (fail ctx reason) := fun reason =>
    (within_fail ctx hR reason).mono fun _ _ => trivial
  refine Within.perform hload fun _ => ?_
  split
  · exact hfail _
  refine Within.perform hcontract fun _ => ?_
  refine Within.perform hnamespace fun _ => ?_
  split
  · trivial
  refine Within.bind ((within_findTorrent htorrent _ none).mono fun found _ => ?_)
  rcases found with _ | _ | torrent
  · exact hfail _
  · exact Within.perform hadd fun _ => trivial
  · dsimp only
    unfold prepareFound
    split
    · exact hfail _
    split
    · exact Within.perform (hstop _) fun _ => trivial
    refine Within.bind ((within_observedOf torrent).mono fun observed _ => ?_)
    refine Within.perform (hinsert observed) fun _ => ?_
    exact Within.perform hplan fun _ => trivial

end

end Sporos.Service.Injection
