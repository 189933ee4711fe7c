import Sporos.Service.StartSafety

/-! # Cross-plan start safety

Several plans of one candidate share the torrent and the namespace, but each one has its own row and
its own decision. `verify_final` starts the torrent again on a decision that was recorded earlier,
and `inspect_pieces` looks only at the files of its own plan. So a start is safe for the files of
all plans as long as no other plan links a file while a decision to resume stands, and the files
that others have linked before the decision are covered by its recheck. -/

namespace Sporos.Service.CrossPlan

open Sporos.Model.Matching
open Sporos.Service.Tables
open Sporos.Service.Pieces
open Sporos.Service.Injection
open Sporos.Service.InjectionRun
open Sporos.Service.StartSafety
open Sporos.Lib.Program
open Sporos.Lib.Processes

/-! ### The property and the condition -/

section

variable {ι : Type} (manifest : TorrentManifest)

/-- Every hardlink in the namespace is older than the recheck that a response tells of, and no piece
that is missing in the response intersects the file. -/
def CoversLinks (fetch : Fetch) (links : List (Link ι)) : Prop :=
  ∃ request, fetch.recheck = some request
    ∧ ∀ link ∈ links, link.time < request ∧ ¬ MissingIn manifest fetch.states link.ordinal

/-- The response that the decision of a plan rests on covers the hardlinks of all plans. -/
def StartCovered (w : World ι) (p : ι) : Prop :=
  ∃ fetch, (w.plans p).history.decided = some fetch ∧ CoversLinks manifest fetch w.links

/-- The operation makes a new hardlink. -/
def NewLink {γ : Type} (e : Effect γ) (w : World ι) : Prop :=
  match e with
  | .link ordinal => w.materializer = none ∧ ∀ link ∈ w.links, link.ordinal ≠ ordinal
  | _ => False

variable (ctx : ι → Context)

/-- What a plan that decides to resume needs of the response and of the links of the others: the
recheck was requested no earlier than the plan's own, each link of another plan is older than it,
and no missing piece intersects its file, unless the file is one of the plan's own. -/
def OthersCovered (w : World ι) (p : ι) (fetch : Fetch) : Prop :=
  ∃ request, fetch.recheck = some request ∧ (w.plans p).history.rechecked ≤ request
    ∧ ∀ link ∈ w.links, link.plan ≠ p → link.time < request
      ∧ (link.ordinal ∈ (ctx p).plan.mappedOrdinals
        ∨ ¬ MissingIn manifest fetch.states link.ordinal)

/-- The condition on a step: a plan makes a new hardlink only while no other plan that observes has
decided to resume, and decides to resume only on a response that covers the links of the others. -/
def Undisturbed (s : Injections ι) (a : Step ι) : Prop :=
  ∀ p, a = .act p → ∀ {γ : Type} (e : Effect γ) k, (s.procs p).running = some (.op e k) →
    (NewLink e s.state → ∀ q ≠ p, (s.procs q).phase = .observe → ¬ Decided (s.state.plans q))
      ∧ match e with
        | .recordResumeDecision _ _ resume => resume = true →
          ∀ fetch, (s.state.plans p).history.fetched = some fetch →
            OthersCovered manifest ctx s.state p fetch
        | _ => True

end

/-! ### The operations of a phase -/

/-- The operations of `observe`. -/
def Observing {γ : Type} : Effect γ → Prop
  | .load => True
  | .torrentState _ => True
  | .pieceStates _ => True
  | .recordResumeDecision .. => True
  | .start _ => True
  | e => KeepsDecision e

theorem observing_of_keepsDecision {γ : Type} (e : Effect γ)
    (h : KeepsDecision e) : Observing e := by
  cases e <;> first | exact h | exact h.elim

theorem allowsFail_observing : AllowsFail @Observing :=
  ⟨trivial, trivial, trivial, fun _ => trivial, trivial, fun _ => trivial⟩

theorem within_observe (ctx : Context) : Within @Observing (fun _ => True) (observe ctx) := by
  have hfail : ∀ reason, Within @Observing (fun _ => True) (fail ctx reason) := fun reason =>
    (within_fail ctx allowsFail_observing reason).mono fun _ _ => trivial
  have hstartOrStop : ∀ hash resume,
      Within @Observing (fun _ => True) (startOrStop hash resume) := by
    intro hash resume
    cases resume with
    | false => exact ⟨trivial, fun _ => trivial⟩
    | true => exact ⟨trivial, fun _ => trivial⟩
  have hbump : ∀ torrent program, Within @Observing (fun _ => True) program →
      Within @Observing (fun _ => True) (bumpVerification ctx torrent program) :=
    fun torrent _ => within_bumpVerification ctx torrent allowsFail_observing
      (fun _ => trivial) trivial
  refine Within.perform trivial fun row => ?_
  split
  · exact hfail _
  split
  · trivial
  refine Within.perform trivial fun torrent => ?_
  cases torrent with
  | none => exact hfail _
  | some torrent =>
    dsimp only
    unfold observeFound
    split
    · unfold verifyFinal
      dsimp only
      split
      · exact (within_finish_keepsDecision ctx torrent _).imp observing_of_keepsDecision
      · exact hbump torrent _ (hstartOrStop _ _)
    · split
      · exact (within_update_keepsDecision torrent (by decide)).imp observing_of_keepsDecision
      · exact (within_update_keepsDecision torrent (by decide)).imp observing_of_keepsDecision
      · exact hbump torrent _ trivial
      · refine Within.perform trivial fun states => ?_
        split
        · trivial
        · refine Within.bind ((within_observedOf torrent).mono fun observed _ => ?_)
          exact Within.perform trivial fun _ => hstartOrStop _ _

/-! ### The links of a plan -/

section

variable {ι : Type} (ctx : ι → Context) (p : ι)

/-- The links of a plan are links of its files, made in the past. -/
def OwnLinks (w : World ι) : Prop :=
  ∀ link ∈ w.links, link.plan = p →
    link.ordinal ∈ (ctx p).plan.mappedOrdinals ∧ link.time ≤ w.clock

/-- The plan has requested a recheck after its last link. -/
def Rechecked (w : World ι) : Prop :=
  ∀ link ∈ w.links, link.plan = p → link.time < (w.plans p).history.rechecked

/-- The rows and the links of a plan are the same. -/
def SameLinks (w w' : World ι) : Prop :=
  Same p w w' ∧ ∀ link, link.plan = p → (link ∈ w'.links ↔ link ∈ w.links)

/-- The operation starts no torrent, and makes at most a link of a file of the plan. -/
def Preparing {γ : Type} : Effect γ → Prop
  | .link ordinal => ordinal ∈ (ctx p).plan.mappedOrdinals
  | .start _ => False
  | _ => True

/-- The operation neither makes a link nor requests a recheck. -/
def NoLink {γ : Type} : Effect γ → Prop
  | .link _ => False
  | .forceRecheck _ => False
  | _ => True

/-- The operation makes at most a link of a file of the plan. -/
def LinksOwn {γ : Type} : Effect γ → Prop
  | .link ordinal => ordinal ∈ (ctx p).plan.mappedOrdinals
  | _ => True

/-- The operations of a phase: `observe` has its own, the others start no torrent. -/
def Footprint {γ : Type} (phase : Phase) (e : Effect γ) : Prop :=
  if phase = .observe then Observing e else Preparing ctx p e

theorem footprint_observe {γ : Type} (e : Effect γ) : Footprint ctx p .observe e ↔ Observing e :=
  iff_of_eq (if_pos rfl)

theorem footprint_of_ne {phase : Phase} (h : phase ≠ .observe) {γ : Type} (e : Effect γ) :
    Footprint ctx p phase e ↔ Preparing ctx p e := iff_of_eq (if_neg h)

variable {ctx p}

theorem SameLinks.refl (w : World ι) : SameLinks p w w := ⟨Same.refl p w, fun _ _ => Iff.rfl⟩

theorem SameLinks.trans {w w' w'' : World ι} (h : SameLinks p w w') (h' : SameLinks p w' w'') :
    SameLinks p w w'' :=
  ⟨h.1.trans h'.1, fun link hlink => (h'.2 link hlink).trans (h.2 link hlink)⟩

theorem OwnLinks.same {w w' : World ι} (h : OwnLinks ctx p w) (hsame : SameLinks p w w') :
    OwnLinks ctx p w' := fun link hmem hlink => by
  obtain ⟨hordinal, htime⟩ := h link ((hsame.2 link hlink).mp hmem) hlink
  exact ⟨hordinal, htime.trans hsame.1.2⟩

theorem Rechecked.same {w w' : World ι} (h : Rechecked p w) (hsame : SameLinks p w w') :
    Rechecked p w' := fun link hmem hlink => by
  rw [hsame.1.1]
  exact h link ((hsame.2 link hlink).mp hmem) hlink

theorem preparing_linksOwn {γ : Type} (e : Effect γ) (h : Preparing ctx p e) :
    LinksOwn ctx p e := by
  cases e <;> trivial

theorem noLink_linksOwn {γ : Type} (e : Effect γ) (h : NoLink e) : LinksOwn ctx p e := by
  cases e <;> trivial

theorem observing_noLink {γ : Type} (e : Effect γ) (h : Observing e) : NoLink e := by
  cases e <;> trivial

end

section

variable {ι : Type} [DecidableEq ι] {fromStr jsonValid : String → Bool} {ctx : ι → Context} {p : ι}

variable (fromStr jsonValid ctx p) in
/-- The links after an operation: a new link is one of the plan, for the file of the operation. -/
theorem exec_links {γ : Type} (e : Effect γ) (w : World ι) :
    (exec fromStr jsonValid ctx p e w).2.links = w.links
      ∨ NewLink e w ∧ ∃ ordinal, (exec fromStr jsonValid ctx p e w).2.links
          = ⟨p, ordinal, w.clock + 1⟩ :: w.links
        ∧ (LinksOwn ctx p e → ordinal ∈ (ctx p).plan.mappedOrdinals) := by
  cases e
  case link ordinal =>
    by_cases hnew : w.materializer.isSome ∨ ∃ link ∈ w.links, link.ordinal = ordinal
    · refine .inl ?_
      simp only [exec, perform, World.link, if_pos hnew]
      rfl
    · refine .inr ⟨?_, ordinal, ?_, fun h => h⟩
      · simp only [not_or, Option.not_isSome_iff_eq_none, not_exists, not_and] at hnew
        exact hnew
      · simp only [exec, perform, World.link, if_neg hnew]
        rfl
  all_goals exact .inl rfl

theorem exec_links_of_not_newLink {γ : Type} {e : Effect γ} {w : World ι} (h : ¬ NewLink e w) :
    (exec fromStr jsonValid ctx p e w).2.links = w.links :=
  (exec_links fromStr jsonValid ctx p e w).resolve_right fun hnew => h hnew.1

theorem exec_ownLinks {γ : Type} (e : Effect γ) {w : World ι} (he : LinksOwn ctx p e)
    (h : OwnLinks ctx p w) : OwnLinks ctx p (exec fromStr jsonValid ctx p e w).2 := by
  intro link hmem hlink
  rw [exec_clock]
  rcases exec_links fromStr jsonValid ctx p e w with hsame | ⟨-, ordinal, hnew, hordinal⟩
  · obtain ⟨hmapped, htime⟩ := h link (hsame ▸ hmem) hlink
    exact ⟨hmapped, htime.trans (Nat.le_succ _)⟩
  · rw [hnew] at hmem
    rcases List.mem_cons.mp hmem with rfl | hold
    · exact ⟨hordinal he, le_rfl⟩
    · obtain ⟨hmapped, htime⟩ := h link hold hlink
      exact ⟨hmapped, htime.trans (Nat.le_succ _)⟩

theorem exec_rechecked {γ : Type} (e : Effect γ) {w : World ι} (he : NoLink e)
    (h : Rechecked p w) : Rechecked p (exec fromStr jsonValid ctx p e w).2 := by
  have hlinks : (exec fromStr jsonValid ctx p e w).2.links = w.links :=
    exec_links_of_not_newLink fun hnew => by cases e <;> first | exact hnew | exact he
  have hrechecked : ((exec fromStr jsonValid ctx p e w).2.plans p).history.rechecked
      = (w.plans p).history.rechecked := by
    cases e <;> simp only [exec, perform, World.updateHistory, World.updateInjection,
      World.setPlanState, World.updatePlan_self] <;> exact he.elim
  intro link hmem hlink
  rw [hrechecked]
  exact h link (hlinks ▸ hmem) hlink

/-- After a request of a recheck, every link of the plan is older. -/
theorem rechecked_of_forceRecheck (hash : String) {w : World ι} (h : OwnLinks ctx p w) :
    Rechecked p (exec fromStr jsonValid ctx p (.forceRecheck hash) w).2 := by
  intro link hmem hlink
  have htime := (h link hmem hlink).2
  simp only [exec, perform, World.updateHistory, World.updatePlan_self]
  omega

/-! ### The links in the phases -/

variable (fromStr jsonValid ctx p)

/-- What is known of the links of a plan in a phase. -/
def LinksIn (phase : Phase) (w : World ι) : Prop :=
  OwnLinks ctx p w ∧ (phase = .observe → Rechecked p w)

/-- A program keeps what is known of the links, and `observe` has only its own operations. -/
abbrev LinksSafe (phase : Phase) (program : Activity) (w : World ι) : Prop :=
  Safe (exec fromStr jsonValid ctx p) (SameLinks p) (fun _ _ => True) (LinksIn ctx p phase)
    (fun e _ => Footprint ctx p phase e) (fun result => LinksIn ctx p (next phase result))
    program w

variable {fromStr jsonValid ctx p}

omit [DecidableEq ι] in
theorem LinksIn.same {phase : Phase} {w w' : World ι} (h : LinksIn ctx p phase w)
    (hsame : SameLinks p w w') : LinksIn ctx p phase w' :=
  ⟨h.1.same hsame, fun hphase => (h.2 hphase).same hsame⟩

/-- A program in a phase that is not `observe`, nor before it. -/
theorem linksSafe_of_within {phase : Phase} {program : Activity} {Q : StepResult → Prop}
    (hprogram : Within (Preparing ctx p) Q program) (hphase : phase ≠ .observe)
    (hnext : ∀ result, Q result → next phase result ≠ .observe) {w : World ι}
    (hw : OwnLinks ctx p w) : LinksSafe fromStr jsonValid ctx p phase program w :=
  Safe.of_within (fun _ _ => OwnLinks.same) (fun _ hw => ⟨hw, fun h => absurd h hphase⟩)
    (fun e _ he hw => exec_ownLinks e (preparing_linksOwn e he) hw)
    (fun e _ he _ => (footprint_of_ne ctx p hphase e).mpr he)
    (fun result _ hresult hw => ⟨hw, fun h => absurd h (hnext result hresult)⟩) hprogram hw

omit [DecidableEq ι] in
theorem allowsFail_preparing : AllowsFail (Preparing ctx p) :=
  ⟨trivial, trivial, trivial, fun _ => trivial, trivial, fun _ => trivial⟩

theorem linksSafe_prepare {w : World ι} (hw : OwnLinks ctx p w) :
    LinksSafe fromStr jsonValid ctx p .prepare (prepare (ctx p)) w := by
  have hwithin : Within (Preparing ctx p) (fun _ => True) (prepare (ctx p)) :=
    within_prepare _ allowsFail_preparing trivial trivial trivial (fun _ => trivial) trivial
      (fun _ => trivial) (fun _ => trivial) trivial
  refine linksSafe_of_within hwithin (by decide) ?_ hw
  rintro (_ | _ | ⟨state, reason⟩) _ <;> exact Phase.noConfusion

theorem linksSafe_materialize {w : World ι} (hw : OwnLinks ctx p w) :
    LinksSafe fromStr jsonValid ctx p .materialize (materialize (ctx p)) w := by
  have hwithin : Within (Preparing ctx p) (fun _ => True) (materialize (ctx p)) :=
    within_materialize _ allowsFail_preparing trivial (fun _ => trivial) trivial (fun _ h => h)
      fun _ => trivial
  refine linksSafe_of_within hwithin (by decide) ?_ hw
  rintro (_ | _ | ⟨state, reason⟩) _ <;> exact Phase.noConfusion

/-- A program once the recheck is requested: the links of the plan stay older. -/
theorem linksSafe_rechecked {phase : Phase} {program : Activity} {R : {γ : Type} → Effect γ → Prop}
    (hR : ∀ {γ : Type} (e : Effect γ), R e → NoLink e)
    (hok : ∀ {γ : Type} (e : Effect γ), R e → Footprint ctx p phase e)
    (hprogram : Within @R (fun _ => True) program) {w : World ι}
    (hw : OwnLinks ctx p w ∧ Rechecked p w) : LinksSafe fromStr jsonValid ctx p phase program w :=
  Safe.of_within (K := fun w => OwnLinks ctx p w ∧ Rechecked p w)
    (fun _ _ hw hsame => ⟨hw.1.same hsame, hw.2.same hsame⟩) (fun _ hw => ⟨hw.1, fun _ => hw.2⟩)
    (fun e _ he hw => ⟨exec_ownLinks e (noLink_linksOwn e (hR e he)) hw.1,
      exec_rechecked e (hR e he) hw.2⟩)
    (fun e _ he _ => hok e he) (fun _ _ _ hw => ⟨hw.1, fun _ => hw.2⟩) hprogram hw

theorem linksSafe_recheck {w : World ι} (hw : OwnLinks ctx p w) :
    LinksSafe fromStr jsonValid ctx p .recheck (recheck (ctx p)) w := by
  have hinv : ∀ w, OwnLinks ctx p w → LinksIn ctx p .recheck w := fun w hw =>
    ⟨hw, fun h => Phase.noConfusion h⟩
  refine Safe.perform (fun _ _ => OwnLinks.same) hinv hw (fun _ _ => trivial) fun w hw _ => ?_
  split
  · refine linksSafe_of_within (within_fail (ctx p) allowsFail_preparing _) (by decide) ?_
      (exec_ownLinks .load trivial hw)
    rintro result rfl
    exact Phase.noConfusion
  split
  · exact Safe.fail (fun _ _ => OwnLinks.same) hinv (exec_ownLinks .load trivial hw)
  rename_i hash _ _
  refine Safe.perform (fun _ _ => OwnLinks.same) hinv (exec_ownLinks .load trivial hw)
    (fun _ _ => trivial) fun w hw _ => ?_
  have hwithin : Within (fun e => NoLink e ∧ Preparing ctx p e) (fun _ => True) (do
      Prog.perform (.setInjectionState "recheck_requested")
      Prog.perform .resetVerification
      pure .waiting : Activity) :=
    ⟨⟨trivial, trivial⟩, fun _ => ⟨⟨trivial, trivial⟩, fun _ => trivial⟩⟩
  exact linksSafe_rechecked (fun _ h => h.1) (fun _ h => h.2) hwithin
    ⟨exec_ownLinks (.forceRecheck hash) trivial hw, rechecked_of_forceRecheck hash hw⟩

theorem linksSafe_observe {w : World ι} (hw : OwnLinks ctx p w ∧ Rechecked p w) :
    LinksSafe fromStr jsonValid ctx p .observe (observe (ctx p)) w :=
  linksSafe_rechecked observing_noLink (fun e h => (footprint_observe ctx p e).mpr h)
    (within_observe (ctx p)) hw

variable (fromStr jsonValid ctx p)

/-- The rely-guarantee proof about the links of a plan. -/
def linkSpec : Spec (machine fromStr jsonValid ctx) p where
  Rely _ := SameLinks p
  Assume _ _ _ _ := True
  Inv := LinksIn ctx p
  Ok phase _ e _ := Footprint ctx p phase e
  Post phase result := LinksIn ctx p (next phase result)
  rely_refl _ := SameLinks.refl
  rely_trans _ _ _ _ := SameLinks.trans
  inv_rely _ _ _ := LinksIn.same
  inv_next _ _ _ h := h
  inv_giveUp phase phase' w hphase h := by
    refine ⟨h.1, fun hobserve => ?_⟩
    subst hobserve
    cases phase <;> cases hphase
  inv_again phase phase' w hphase h := by
    refine ⟨h.1, fun hobserve => ?_⟩
    subst hobserve
    cases phase <;> cases hphase
  safe phase program w hprogram hw := by
    cases phase with
    | prepare => exact Option.some_inj.mp hprogram ▸ linksSafe_prepare hw.1
    | materialize => exact Option.some_inj.mp hprogram ▸ linksSafe_materialize hw.1
    | recheck => exact Option.some_inj.mp hprogram ▸ linksSafe_recheck hw.1
    | observe => exact Option.some_inj.mp hprogram ▸ linksSafe_observe ⟨hw.1, hw.2 rfl⟩
    | ended result => cases hprogram

variable {fromStr jsonValid ctx p}

theorem linkSpec_holds_initial (db : Db) :
    (linkSpec fromStr jsonValid ctx p).Holds (initial ι db) :=
  ⟨fun _ hmem => absurd hmem List.not_mem_nil, fun h => Phase.noConfusion h⟩

/-- Every step is one that the proof allows: the links of a plan are its own. -/
theorem linkSpec_allows (s : Injections ι) (a : Step ι) :
    (linkSpec fromStr jsonValid ctx p).Allows s a := by
  refine ⟨fun _ _ _ _ _ => trivial, fun ha s' h => ⟨same_of_step h ha, fun link hlink => ?_⟩⟩
  rcases step_state h with ⟨q, γ, e, k, rfl, -, hstate⟩ | ⟨e, -, hstate⟩ | hstate
  · have hne : p ≠ q := fun hp => ha (hp ▸ rfl)
    rw [hstate]
    rcases exec_links fromStr jsonValid ctx q e s.state with hsame | ⟨-, ordinal, hnew, -⟩
    · rw [hsame]
    · rw [hnew, List.mem_cons, or_iff_right]
      rintro rfl
      exact hne hlink.symm
  · rw [(envStep_plans hstate).2.2]
  · rw [hstate]

/-! ### Runs -/

/-- A plan observes only if it did before, or has requested its recheck. -/
theorem phase_of_move {a : Step ι} {proc proc' : Proc Phase StepResult Effect}
    (hmove : Move (machine fromStr jsonValid ctx) p a proc proc')
    (hphase : proc'.phase = .observe) : proc.phase = .observe ∨ proc.phase = .recheck := by
  cases hmove with
  | begin => exact .inl hphase
  | @finish phase result =>
    cases phase <;> cases result <;> cases hphase
    · exact .inr rfl
    · exact .inr rfl
    · exact .inl rfl
  | drop => exact .inl hphase
  | @giveUp phase phase' running hnew =>
    cases hphase
    cases phase <;> cases hnew
  | @again phase phase' hnew =>
    cases hphase
    cases phase <;> cases hnew

/-- The operation records a decision. -/
def Records {γ : Type} : Effect γ → Prop
  | .recordResumeDecision .. => True
  | _ => False

/-- An operation of `observe` other than the decision brings no decision to resume into the row. -/
theorem decided_of_exec {γ : Type} {e : Effect γ} {w : World ι} (he : Observing e)
    (hrecords : ¬ Records e) (h : Decided ((exec fromStr jsonValid ctx p e w).2.plans p)) :
    Decided (w.plans p)
      ∧ ((exec fromStr jsonValid ctx p e w).2.plans p).history.decided =
        (w.plans p).history.decided := by
  cases e <;> simp only [exec, perform, World.updateHistory, World.updateInjection,
    World.setPlanState, World.updatePlan_self] at h ⊢ <;>
    first
    | exact ⟨h, trivial⟩
    | exact he.elim
    | skip
  case recordResumeDecision observed integritySafe resume => exact absurd trivial hrecords
  case updateObservation observed state =>
    exact ⟨(keepsRow_updateObservation observed he).decided h, trivial⟩
  case bumpVerification observed => exact ⟨(keepsRow_bumpVerification observed).decided h, trivial⟩
  case completeInjection observed =>
    exact ⟨(keepsRow_updateObservation observed (by decide)).decided h, trivial⟩
  case failInjection => exact ⟨keepsRow_failInjection.decided h, trivial⟩

variable (manifest : TorrentManifest)

/-- The decision of a plan that observes covers the links of all plans. -/
def Standing (s : Injections ι) (p : ι) : Prop :=
  (s.procs p).phase = .observe → Decided (s.state.plans p) → StartCovered manifest s.state p

variable {manifest}

theorem coversLinks_of_permits (hlayout : OrderedLayout manifest)
    (hmanifest : (ctx p).plan.manifest = manifest) {w : World ι} (hown : OwnLinks ctx p w)
    (hrechecked : Rechecked p w) {fetch : Fetch} (hpermits : Permits (ctx p).plan fetch.states)
    (hothers : OthersCovered manifest ctx w p fetch) : CoversLinks manifest fetch w.links := by
  obtain ⟨pieces, amountLeft, hinspect, hsafe, -⟩ := hpermits
  obtain ⟨request, hrequest, hlater, hlinks⟩ := hothers
  rw [hmanifest] at hinspect
  refine ⟨request, hrequest, fun link hmem => ?_⟩
  by_cases hplan : link.plan = p
  · obtain ⟨hordinal, -⟩ := hown link hmem hplan
    exact ⟨(hrechecked link hmem hplan).trans_le hlater,
      not_missingIn_of_integritySafe hlayout hinspect hsafe hordinal⟩
  · obtain ⟨htime, hordinal | hmissing⟩ := hlinks link hmem hplan
    · exact ⟨htime, not_missingIn_of_integritySafe hlayout hinspect hsafe hordinal⟩
    · exact ⟨htime, hmissing⟩

/-- What holds of a plan in every state of a run. -/
def Proved (manifest : TorrentManifest) (fromStr jsonValid : String → Bool) (ctx : ι → Context)
    (s : Injections ι) (p : ι) : Prop :=
  (spec fromStr jsonValid ctx p).Holds s ∧ (linkSpec fromStr jsonValid ctx p).Holds s
    ∧ Standing manifest s p

/-- An operation of the plan itself: the decision is recorded on a response that covers all links,
and no other operation of `observe` touches the decision or the links. -/
theorem standing_exec (hlayout : OrderedLayout manifest)
    (hmanifest : (ctx p).plan.manifest = manifest) {s : Injections ι}
    (hs : Proved manifest fromStr jsonValid ctx s p) {γ : Type} {e : Effect γ} {k : γ → Activity}
    (hrunning : (s.procs p).running = some (.op e k)) (hcond : Undisturbed manifest ctx s (.act p))
    (hphase : (s.procs p).phase = .observe)
    (hdecided : Decided ((exec fromStr jsonValid ctx p e s.state).2.plans p)) :
    StartCovered manifest (exec fromStr jsonValid ctx p e s.state).2 p := by
  obtain ⟨hspec, hlinkSpec, hstanding⟩ := hs
  have hobserving : Observing e := (footprint_observe ctx p e).mp (hphase ▸ hlinkSpec.ok hrunning)
  have hlinks : (exec fromStr jsonValid ctx p e s.state).2.links = s.state.links :=
    exec_links_of_not_newLink fun hnew => by cases e <;> first | exact hnew | exact hobserving
  by_cases hrecords : Records e
  swap
  · obtain ⟨hbefore, hsame⟩ := decided_of_exec hobserving hrecords hdecided
    obtain ⟨fetch, hfetch, hcovers⟩ := hstanding hphase hbefore
    exact ⟨fetch, hsame.trans hfetch, hlinks ▸ hcovers⟩
  obtain ⟨hown, hrechecked⟩ := hlinkSpec.inv
  cases e <;> first | exact hrecords.elim | skip
  case recordResumeDecision observed integritySafe resume =>
    have hresume : resume = true := by
      obtain ⟨row, hrow, -, hdecision⟩ := hdecided
      simp only [exec, perform, World.updateHistory, World.updateInjection,
        World.updatePlan_self] at hrow
      obtain ⟨row₀, -, rfl⟩ := Option.map_eq_some_iff.mp hrow
      by_contra hfalse
      simp [decidedRow, hfalse] at hdecision
    obtain ⟨fetch, hfetch, hpermits⟩ := hspec.ok hrunning hresume
    have hothers := (hcond p rfl _ k hrunning).2 hresume fetch hfetch
    refine ⟨fetch, ?_, hlinks ▸ coversLinks_of_permits hlayout hmanifest hown (hrechecked hphase)
      hpermits hothers⟩
    simpa [exec, perform, World.updateHistory, World.updateInjection] using hfetch

theorem standing_step (hlayout : OrderedLayout manifest)
    (hmanifest : (ctx p).plan.manifest = manifest) {s s' : Injections ι} {a : Step ι}
    (hs : Proved manifest fromStr jsonValid ctx s p) (hcond : Undisturbed manifest ctx s a)
    (h : step (machine fromStr jsonValid ctx) s a = some s') : Standing manifest s' p := by
  intro hphase hdecided
  rcases step_cases h with ⟨q, γ, e, k, rfl, hrunning, rfl⟩ | ⟨e, rfl, hstate, hprocs⟩
    | ⟨q, proc, hq, hmove, rfl⟩
  · by_cases hqp : q = p
    · subst hqp
      simp only [System.setProc_self] at hphase
      exact standing_exec hlayout hmanifest hs hrunning hcond hphase hdecided
    · rw [System.setProc_of_ne _ (Ne.symm hqp)] at hphase
      have hplans : (exec fromStr jsonValid ctx q e s.state).2.plans p = s.state.plans p :=
        exec_plans_of_ne (Ne.symm hqp) e s.state
      have hbefore : Decided (s.state.plans p) := hplans ▸ hdecided
      have hlinks : (exec fromStr jsonValid ctx q e s.state).2.links = s.state.links :=
        exec_links_of_not_newLink fun hnew =>
          (hcond q rfl e k hrunning).1 hnew p (Ne.symm hqp) hphase hbefore
      obtain ⟨fetch, hfetch, hcovers⟩ := hs.2.2 hphase hbefore
      exact ⟨fetch, (congrArg (·.history.decided) hplans).trans hfetch, hlinks ▸ hcovers⟩
  · obtain ⟨hplans, -, hlinks⟩ := envStep_plans hstate
    rw [hprocs] at hphase
    rw [hplans] at hdecided
    obtain ⟨fetch, hfetch, hcovers⟩ := hs.2.2 hphase hdecided
    exact ⟨fetch, by rw [hplans]; exact hfetch, hlinks ▸ hcovers⟩
  · by_cases hqp : q = p
    · subst hqp
      simp only [System.setProc_self] at hphase
      rcases phase_of_move hmove hphase with hobserve | hrecheck
      · exact hs.2.2 hobserve hdecided
      · -- A plan comes from the recheck without a decision.
        have hinv := hs.1.inv.2
        rw [hrecheck] at hinv
        obtain ⟨row, hrow, hnone⟩ : Undecided (s.state.plans q) := hinv
        obtain ⟨row', hrow', -, hresume⟩ := hdecided
        obtain rfl : row = row' := Option.some_inj.mp (hrow.symm.trans hrow')
        rw [hnone] at hresume
        cases hresume
    · rw [System.setProc_of_ne _ (Ne.symm hqp)] at hphase
      exact hs.2.2 hphase hdecided

/-- **Cross-plan start safety.** In every run in which no plan links a file while another plan that
observes has decided to resume, and each decision to resume rests on a response that covers the
links of the other plans: whenever a plan starts the torrent, every hardlink of any plan is older
than the recheck that the decision rests on, and no missing piece of it intersects a linked file. -/
theorem cross_plan_start_safe (hlayout : OrderedLayout manifest)
    (hmanifest : ∀ p, (ctx p).plan.manifest = manifest) (db : Db) (steps : List (Step ι))
    (s : Injections ι) (hrun : run (machine fromStr jsonValid ctx) (initial ι db) steps = some s)
    (hcond : Along (machine fromStr jsonValid ctx) (Undisturbed manifest ctx) (initial ι db) steps)
    (p : ι) (hash : String) (hstart : starting s p = some hash) :
      StartCovered manifest s.state p := by
  have hproved : Proved manifest fromStr jsonValid ctx s p := by
    refine run_invariant (P := fun s =>
      Proved manifest fromStr jsonValid ctx s p) ?_ steps ?_ hcond hrun
    · intro s a s' hs hstep h
      exact ⟨hs.1.step (spec_allows s a) h, hs.2.1.step (linkSpec_allows s a) h,
        standing_step hlayout (hmanifest p) hs hstep h⟩
    · exact ⟨spec_holds_initial db, linkSpec_holds_initial db, fun h => Phase.noConfusion h⟩
  obtain ⟨k, hrunning⟩ := starting_eq_some hstart
  have hmay : MayStart (ctx p).plan (s.state.plans p) := hproved.1.ok hrunning
  obtain ⟨row, hrow, hfinal, hresume, -, -⟩ := hmay
  have hphase : (s.procs p).phase = .observe := by
    by_contra hne
    exact (footprint_of_ne ctx p hne _).mp (hproved.2.1.ok hrunning)
  exact hproved.2.2 hphase ⟨row, hrow, hfinal, hresume⟩

end

/-! ### Two plans -/

theorem orderedLayout_twoFiles : OrderedLayout twoFiles := List.Pairwise.nil

/-- A plan acts alone: no other plan observes, all links are its own, and what it has fetched is of
a recheck that was requested no earlier than its own. -/
def alone (s : Injections (Fin 2)) : Step (Fin 2) → Bool
  | .act p => (∀ q ≠ p, (s.procs q).phase ≠ .observe) ∧ (∀ link ∈ s.state.links, link.plan = p)
      ∧ (s.state.plans p).history.fetched.all
        (fun fetch => fetch.recheck.any ((s.state.plans p).history.rechecked ≤ ·))
  | _ => true

theorem undisturbed_of_alone (s : Injections (Fin 2)) (a : Step (Fin 2)) (h : alone s a = true) :
    Undisturbed twoFiles twoPlans s a := by
  rintro p rfl γ e k -
  obtain ⟨hphases, hlinks, hfetched⟩ := of_decide_eq_true h
  refine ⟨fun _ q hq hphase => absurd hphase (hphases q hq), ?_⟩
  split
  · rintro - fetch hfetch
    rw [hfetch] at hfetched
    obtain ⟨request, hrequest, hle⟩ := (Option.any_eq_true ..).mp hfetched
    exact ⟨request, hrequest, of_decide_eq_true hle, fun link hmem hne =>
      absurd (hlinks link hmem) hne⟩
  · trivial

theorem cross_plan_start_safe_firstPlan :
    ∃ s, run twoPlanMachine (initial (Fin 2) .empty) firstPlanStarts = some s
      ∧ Along twoPlanMachine (Undisturbed twoFiles twoPlans)
        (initial (Fin 2) .empty) firstPlanStarts
      ∧ starting s 0 = some "0000000000000000000000000000000000000001"
      ∧ StartCovered twoFiles s.state 0 := by
  obtain ⟨s, hrun⟩ := Option.isSome_iff_exists.mp (show
    (run twoPlanMachine (initial (Fin 2) .empty) firstPlanStarts).isSome = true by decide +kernel)
  have hstart : (run twoPlanMachine (initial (Fin 2) .empty) firstPlanStarts).bind (starting · 0)
      = some "0000000000000000000000000000000000000001" := by decide +kernel
  have halong : Along twoPlanMachine (Undisturbed twoFiles twoPlans) (initial (Fin 2) .empty)
      firstPlanStarts := along_of_check undisturbed_of_alone firstPlanStarts (by decide +kernel)
  rw [hrun] at hstart
  exact ⟨s, hrun, halong, hstart,
    cross_plan_start_safe orderedLayout_twoFiles (fun _ => rfl) _ _ _ hrun halong 0 _ hstart⟩

/-- After the first plan has started the torrent, the second one stops it and links the other file;
the first plan finds the torrent stopped and starts it again. -/
def secondPlanLinks : List (Step (Fin 2)) :=
  firstPlanStarts ++ [.act 0, .finish 0, .env (.torrents fun _ => some (torrentIn "downloading"))]
    ++ execution 1 5 ++ [.env (.torrents fun _ => some (torrentIn "stoppedDL"))] ++ execution 1 6
    ++ execution 1 6 ++ .begin 0 :: List.replicate 4 (.act 0)

theorem missingIn_twoFiles : MissingIn twoFiles [2, 0] 1 :=
  ⟨1, [(1, 2)], 2, rfl, rfl, (1, 2), by simp, 1, 0, rfl, by decide, by decide, by decide⟩

/-- The torrent is started although a file was linked after the recheck, and the piece of that file
is missing in the recheck. -/
theorem start_after_other_plan_links :
    ∃ s fetch link, run twoPlanMachine (initial (Fin 2) .empty) secondPlanLinks = some s
      ∧ starting s 0 = some "0000000000000000000000000000000000000001"
      ∧ (s.state.plans 0).history.decided = some fetch ∧ link ∈ s.state.links
      ∧ (∀ request, fetch.recheck = some request → request < link.time)
      ∧ MissingIn twoFiles fetch.states link.ordinal ∧ ¬ StartCovered twoFiles s.state 0 := by
  have hend : (run twoPlanMachine (initial (Fin 2) .empty) secondPlanLinks).map
        (fun s => (starting s 0, (s.state.plans 0).history.decided, s.state.links))
      = some (some "0000000000000000000000000000000000000001", some ⟨21, some 13, [2, 0]⟩,
        [⟨1, 1, 39⟩, ⟨0, 0, 10⟩]) := by decide +kernel
  obtain ⟨s, hrun, hs⟩ := Option.map_eq_some_iff.mp hend
  simp only [Prod.mk.injEq] at hs
  obtain ⟨hstart, hdecided, hlinks⟩ := hs
  have hlink : (⟨1, 1, 39⟩ : Link (Fin 2)) ∈ s.state.links := by rw [hlinks]; simp
  refine ⟨s, ⟨21, some 13, [2, 0]⟩, ⟨1, 1, 39⟩, hrun, hstart, hdecided, hlink, ?_,
    missingIn_twoFiles, ?_⟩
  · rintro request ⟨⟩
    decide
  · rintro ⟨fetch, hfetch, request, hrequest, hcovers⟩
    obtain rfl := Option.some_inj.mp (hdecided.symm.trans hfetch)
    exact (hcovers _ hlink).2 missingIn_twoFiles

end Sporos.Service.CrossPlan
