import Sporos.Service.DataScan

/-! # Sweeps of data scans

At its end a scan hides the sources of its root that other scans saw last. Scans of one root may run
side by side, so that a sweep may hide what another scan has found. What the scans have done tells
which releases are available (`shown`): the last page that found a release, and the sweeps that come
after it. -/

namespace Sporos.Service.ScanSweeps

open Sporos.Service.Tables
open Sporos.Service.Ingress
open Sporos.Service.Sources
open Sporos.Service.DataTree
open Sporos.Service.DataScan
open Sporos.Lib.Table
open Sporos.Lib.Loop
open Sporos.Lib.Lists

/-! ### What the scans have done -/

/-- The page has found the release. -/
def Finds (key : String × Bytes) (input : ScanInput) (releases : List ScannedRelease) : Prop :=
  input.rootName = key.1 ∧ key.2 ∈ releases.map ScannedRelease.relativePath

instance (key : String × Bytes) (input : ScanInput) (releases : List ScannedRelease) :
    Decidable (Finds key input releases) :=
  inferInstanceAs (Decidable (_ ∧ _))

/-- An effect is a page that has found the release. -/
def Stamps (key : String × Bytes) : Effect → Prop
  | .stamped input releases => Finds key input releases
  | _ => False

/-- The generation and the availability of a release after an effect. -/
def showEffect (key : String × Bytes) (seen : Option (ℕ × Bool)) : Effect → Option (ℕ × Bool)
  | .stamped input releases => if Finds key input releases
      then some (input.generation, true) else seen
  | .swept input =>
    if input.rootName = key.1 then
      seen.map fun (generation, available) =>
        (generation, available && generation = input.generation)
    else seen
  | .hidden input => if input.rootName = key.1 then seen.map fun (generation, _) =>
    (generation, false) else seen

/-- The generation and the availability of a release, as the effects have it. -/
def shown (effects : List Effect) (key : String × Bytes) : Option (ℕ × Bool) :=
  effects.foldl (showEffect key) none

/-- The generation and the availability of a release, as its row has it. -/
def rowShown (sources : List DataSourceRow) (key : String × Bytes) : Option (ℕ × Bool) :=
  (lookup DataSourceRow.key sources key).map fun row => (row.lastSeenGeneration, row.available)

section

variable {codec : ScanCodec} {roots : String → Option DataRoot}

theorem rowShown_persistRelease {store store' : Store} {rootName : String} {generation : ℕ}
    {release : ScannedRelease} {now : ℤ}
    (h : persistRelease codec store rootName generation release now = some store')
    (key : String × Bytes) :
    rowShown store'.dataSources key
      = if key = (rootName, release.relativePath) then some (generation, true)
        else rowShown store.dataSources key := by
  obtain ⟨dataSources, hupsert, rfl⟩ := persistRelease_eq_some h
  rw [rowShown, lookup_upsertDataSource hupsert]
  show Option.map _ (if key = (rootName, release.relativePath) then _ else _) = _
  split
  · cases lookup DataSourceRow.key store.dataSources key <;> rfl
  · rfl

/-- **The releases of a page.** -/
theorem rowShown_releases {root : DataRoot} {input : ScanInput} {now : ℤ} {store store' : Store}
    {count observed : ℕ} {releases : List ScannedRelease}
    (h : releases.foldlM (persistOne codec root input now) (store, count) = .ok (store', observed))
    (key : String × Bytes) :
    rowShown store'.dataSources key
      = showEffect key (rowShown store.dataSources key) (.stamped input releases) := by
  have hfold := foldlM_invariant_mem (P := fun done (state : Store × ℕ) =>
    rowShown state.1.dataSources key =
      showEffect key (rowShown store.dataSources key) (.stamped input done))
    (fun done release _ before after hbefore hafter => by
      rw [rowShown_persistRelease (persistOne_eq_ok hafter), hbefore]
      have hiff : Finds key input (done ++ [release])
          ↔ Finds key input done ∨ key = (input.rootName, release.relativePath) := by
        obtain ⟨rootName, path⟩ := key
        simp only [Finds, List.map_append, List.mem_append, List.map_singleton, List.mem_singleton,
          Prod.mk.injEq]
        tauto
      by_cases heq : key = (input.rootName, release.relativePath)
      · rw [if_pos heq, showEffect, if_pos (hiff.mpr (.inr heq))]
      · rw [if_neg heq, showEffect, showEffect]
        exact if_congr (by rw [hiff, or_iff_left heq]) rfl rfl)
    (by simp [showEffect, Finds]) h
  exact hfold

theorem rowShown_hideSources (store : Store) (rootName : String)
    (p : DataSourceRow → Bool) (now : ℤ) (key : String × Bytes) :
    rowShown (hideSources store rootName p now).dataSources key
      = (lookup DataSourceRow.key store.dataSources key).map fun row =>
        (row.lastSeenGeneration, row.available && !(rootName = key.1 ∧ p row)) := by
  rw [rowShown, hideSources, lookup_map fun row => by split <;> rfl, Option.map_map]
  cases hlookup : lookup DataSourceRow.key store.dataSources key with
  | none => rfl
  | some row =>
    have hroot : row.rootName = key.1 := congrArg Prod.fst (lookup_eq_some_mem hlookup).2
    simp only [Option.map_some, Function.comp, hroot, eq_comm (a := key.1)]
    by_cases hcondition : rootName = key.1 ∧ p row = true <;> simp [hcondition]

/-- **The rows of the sources are what the effects have it.** -/
theorem rowShown_step {state state' : Store × Scans} (hstep : Step codec roots state state')
    (h : ∀ key, rowShown state.1.dataSources key = shown state.2.effects key) :
    ∀ key, rowShown state'.1.dataSources key = shown state'.2.effects key := by
  intro key
  cases hstep with
  | accept input _ hsources _ _ heffects _ => rw [hsources.dataSources, heffects, h]
  | control operationId phase hsources _ _ heffects _ => rw [hsources.dataSources, heffects, h]
  | page input _ root directory _ _ _ page names _ now store count observed hreleases
      hsources _ _ heffects _ _ =>
    rw [hsources.dataSources, heffects, rowShown_releases hreleases, h, shown, shown,
      List.foldl_append]
    rfl
  | hide input _ _ now hstore _ _ heffects _ =>
    rw [hstore, heffects, rowShown_hideSources, shown, List.foldl_append, ← shown, ← h, rowShown]
    simp only [List.foldl_cons, List.foldl_nil, showEffect]
    split <;> simp_all [Option.map_map, Function.comp_def]
  | sweep input _ _ now hstore _ _ heffects _ =>
    rw [hstore, heffects, rowShown_hideSources, shown, List.foldl_append, ← shown, ← h, rowShown]
    simp only [List.foldl_cons, List.foldl_nil, showEffect]
    split <;> simp_all [Option.map_map, Function.comp_def]

/-! ### Runs -/

/-- The tables after some events. -/
def run (codec : ScanCodec) (roots : String → Option DataRoot)
    (events : List Event) : Store × Scans :=
  events.foldl (Event.apply codec roots) (Store.empty, Scans.init)

/-- What the steps keep holds after every run. -/
theorem run_invariant {P : Store × Scans → Prop} {events : List Event}
    (hinit : P (Store.empty, Scans.init))
    (hstep : ∀ event ∈ events, ∀ state, P state → P (event.apply codec roots state)) :
    P (run codec roots events) := by
  have hfold : ∀ (rest : List Event) (state : Store × Scans),
    (∀ event ∈ rest, event ∈ events) → P state →
      P (rest.foldl (Event.apply codec roots) state) := by
    intro rest
    induction rest with
    | nil => exact fun state _ h => h
    | cons event rest ih =>
      intro state hmem h
      exact ih _ (fun e he =>
        hmem e (List.mem_cons_of_mem event he)) (hstep event (hmem event (by simp)) state h)
  exact hfold events _ (fun _ h => h) hinit

theorem rowShown_run (events : List Event) (key : String × Bytes) :
    rowShown (run codec roots events).1.dataSources key =
      shown (run codec roots events).2.effects key :=
  run_invariant (P := fun state => ∀ key, rowShown state.1.dataSources key =
    shown state.2.effects key)
    (fun _ => rfl) (fun event _ _ h => rowShown_step (step_apply event) h) key

end

/-! ### The last page that has found a release -/

/-- An effect that leaves a release of a generation as it is. -/
def Keeps (key : String × Bytes) (generation : ℕ) : Effect → Prop
  | .stamped _ _ => True
  | .swept input => input.rootName = key.1 → generation = input.generation
  | .hidden input => input.rootName ≠ key.1

/-- After the last page that has found a release, it is available as long as no effect hides it. -/
theorem shown_after (key : String × Bytes) (generation : ℕ) :
    ∀ (after : List Effect) (available : Bool), (∀ effect ∈ after, ¬ Stamps key effect) →
      ∃ available', after.foldl (showEffect key) (some (generation, available)) =
        some (generation, available')
        ∧ (available' = true ↔ available = true ∧ ∀ effect ∈ after, Keeps key generation effect)
  | [], available, _ => ⟨available, rfl, by simp⟩
  | effect :: after, available, hafter => by
    obtain ⟨available₁, hshown, hiff⟩ : ∃ available₁,
        showEffect key (some (generation, available)) effect = some (generation, available₁)
          ∧ (available₁ = true ↔ available = true ∧ Keeps key generation effect) := by
      cases effect with
      | stamped input releases =>
        have hnot : ¬ Finds key input releases := hafter (.stamped input releases) (by simp)
        exact ⟨available, if_neg hnot, by simp [Keeps]⟩
      | swept input =>
        by_cases hroot : input.rootName = key.1
        · exact ⟨_, if_pos hroot, by simp [Keeps, hroot]⟩
        · exact ⟨available, if_neg hroot, by simp [Keeps, hroot]⟩
      | hidden input =>
        by_cases hroot : input.rootName = key.1
        · exact ⟨false, if_pos hroot, by simp [Keeps, hroot]⟩
        · exact ⟨available, if_neg hroot, by simp [Keeps, hroot]⟩
    obtain ⟨available₂, hrest, hiff₂⟩ := shown_after key generation after available₁
      fun e he => hafter e (List.mem_cons_of_mem effect he)
    refine ⟨available₂, by rw [List.foldl_cons, hshown, hrest], ?_⟩
    rw [hiff₂, hiff, List.forall_mem_cons, and_assoc]

/-- A release is available. -/
def Available (store : Store) (key : String × Bytes) : Prop :=
  ∃ row, lookup DataSourceRow.key store.dataSources key = some row ∧ row.available = true

/-- **When a release is available** that a page has found. -/
theorem available_iff {codec : ScanCodec} {roots : String → Option DataRoot} {events : List Event}
    {key : String × Bytes} {before after : List Effect} {input : ScanInput}
    {releases : List ScannedRelease}
    (heffects : (run codec roots events).2.effects = before ++ .stamped input releases :: after)
    (hfinds : Finds key input releases) (hlast : ∀ effect ∈ after, ¬ Stamps key effect) :
    Available (run codec roots events).1 key ↔ ∀ effect ∈ after,
      Keeps key input.generation effect := by
  obtain ⟨available, hshown, hiff⟩ := shown_after key input.generation after true hlast
  have hrow := @rowShown_run codec roots events key
  rw [heffects, shown, List.foldl_append, List.foldl_cons, showEffect,
    if_pos hfinds, hshown] at hrow
  obtain ⟨row, hlookup, hrow⟩ := Option.map_eq_some_iff.mp hrow
  obtain ⟨-, havailable⟩ := Prod.mk.inj hrow
  rw [← havailable] at hiff
  simpa [Available, hlookup] using hiff

/-! ### Phases -/

/-- The root of the scan is a directory, with no symbolic link on the way to it. -/
def RootSafe (fs : FileSystem) (roots : String → Option DataRoot) (rootName : String) : Prop :=
  ∃ root, roots rootName = some root ∧ safeRoot fs root.path = .ok ()

/-- How a scan goes on from a phase. -/
inductive Turn (fs : FileSystem) (roots : String → Option DataRoot) (input : ScanInput) : Phase →
    Phase → Prop where
  | stay (phase : Phase) : Turn fs roots input phase phase
  | missing (hroot : ¬ RootSafe fs roots input.rootName) : Turn fs roots input .page .hiding
  | fail (reason : String) (hreason : reason ≠ "completed") : Turn fs roots input .page
    (.finishing reason true)
  | scanned (hsafe : RootSafe fs roots input.rootName) : Turn fs roots input .page .sweeping
  | hide : Turn fs roots input .hiding (.finishing "root_unavailable" false)
  | sweep : Turn fs roots input .sweeping (.finishing "completed" false)
  | finish (reason : String) (failed : Bool) : Turn fs roots input
    (.finishing reason failed) (.done reason)

theorem reasonCode_ne_completed (error : ScanFsError) : error.reasonCode ≠ "completed" := by
  cases error <;> simp [ScanFsError.reasonCode]

/-- **The phases of a scan.** -/
theorem turn_advance {codec : ScanCodec} (fs : FileSystem) (roots : String → Option DataRoot)
    (input : ScanInput) (now : ℤ) (store : Store) (scans : Scans) :
    ∃ phase, (advance codec fs roots input now store scans).2.phase
        = Function.update scans.phase input.operationId phase
      ∧ Turn fs roots input (scans.phase input.operationId) phase := by
  have hstay : ∃ phase, scans.phase = Function.update scans.phase input.operationId phase
      ∧ Turn fs roots input (scans.phase input.operationId) phase :=
    ⟨_, (Function.update_eq_self _ _).symm, .stay _⟩
  unfold advance
  split
  · rename_i hpage
    rw [hpage] at hstay ⊢
    unfold scanPage
    split
    · exact ⟨_, rfl, .fail _ (by decide)⟩
    · rename_i root hroot
      have hmissing : safeRoot fs root.path ≠ .ok () → ¬ RootSafe fs roots input.rootName := by
        rintro hne ⟨root', hroot', hok⟩
        obtain rfl : root = root' := Option.some_inj.mp (hroot.symm.trans hroot')
        exact hne hok
      split
      · rename_i herror
        exact ⟨_, rfl, .missing (hmissing (by rw [herror]; simp))⟩
      · exact ⟨_, rfl, .fail _ (by decide)⟩
      · rename_i hsafe
        have hsafe : RootSafe fs roots input.rootName := ⟨root, hroot, hsafe⟩
        split
        · exact ⟨_, rfl, .scanned hsafe⟩
        · unfold scanDirectoryPage
          split
          · exact hstay
          · split
            · exact ⟨_, rfl, .fail _ (reasonCode_ne_completed _)⟩
            · split
              · exact ⟨_, rfl, .fail _ (by decide)⟩
              · exact hstay
              · rename_i hcommit
                obtain ⟨-, -, -, -, -, -, -, -, hphase⟩ := commitPage_eq_ok hcommit
                split
                · exact ⟨_, by rw [Scans.setPhase, hphase], .scanned hsafe⟩
                · rw [hphase]
                  exact hstay
  · rename_i hfrom
    exact ⟨_, rfl, by rw [hfrom]; exact .hide⟩
  · rename_i hfrom
    exact ⟨_, rfl, by rw [hfrom]; exact .sweep⟩
  · rename_i reason failed hfrom
    exact ⟨_, rfl, by rw [hfrom]; exact .finish reason failed⟩
  · exact hstay

/-- What a phase says about the root. -/
def PhaseOk (fs : FileSystem) (roots : String → Option DataRoot) (rootName : String) : Phase → Prop
  | .page => True
  | .hiding => ¬ RootSafe fs roots rootName
  | .sweeping => RootSafe fs roots rootName
  | .finishing reason _ => reason = "completed" → RootSafe fs roots rootName
  | .done reason => reason = "completed" → RootSafe fs roots rootName

theorem Turn.phaseOk {fs : FileSystem} {roots : String → Option DataRoot} {input : ScanInput}
    {phase phase' : Phase} (h : Turn fs roots input phase phase')
    (hok : PhaseOk fs roots input.rootName phase) : PhaseOk fs roots input.rootName phase' := by
  cases h with
  | stay => exact hok
  | missing hroot => exact hroot
  | fail reason hreason => exact fun h => absurd h hreason
  | scanned hsafe => exact hsafe
  | hide => exact fun h => absurd h (by decide)
  | sweep => exact fun _ => hok
  | finish reason failed => exact hok

/-- The scan that an effect is of. -/
def effectInput : Effect → ScanInput
  | .stamped input _ => input
  | .swept input => input
  | .hidden input => input

/-- What holds between the statements, with one file system: the scans are told apart by their
operations, a scan is at a phase that the root allows, and only a root that is not there has been
hidden. -/
structure Safely (fs : FileSystem) (roots : String → Option DataRoot) (scans : Scans) : Prop where
  unique : UniqueKey ScanInput.operationId scans.inputs
  phase : ∀ operationId, scans.phase operationId = .page
    ∨ ∃ input ∈ scans.inputs, input.operationId = operationId
      ∧ PhaseOk fs roots input.rootName (scans.phase operationId)
  members : ∀ effect ∈ scans.effects, effectInput effect ∈ scans.inputs
  hidden : ∀ input, .hidden input ∈ scans.effects → ¬ RootSafe fs roots input.rootName

section

variable {codec : ScanCodec} {fs : FileSystem} {roots : String → Option DataRoot}

theorem Safely.phaseOk {scans : Scans} (h : Safely fs roots scans) {input : ScanInput}
    (hinput : input ∈ scans.inputs) :
      PhaseOk fs roots input.rootName (scans.phase input.operationId) := by
  rcases h.phase input.operationId with hpage | ⟨input', hinput', hoperation, hok⟩
  · rw [hpage]
    trivial
  · rw [List.inj_on_of_nodup_map h.unique hinput hinput' hoperation.symm]
    rwa [hoperation]

/-- A step has one effect or none, and it is that of a scan that has been accepted. -/
theorem step_effects {state state' : Store × Scans} (hstep : Step codec roots state state') :
    state'.2.effects = state.2.effects
      ∨ ∃ effect, state'.2.effects = state.2.effects ++ [effect]
        ∧ effectInput effect ∈ state.2.inputs
        ∧ ∀ input, effect = .hidden input → state.2.phase input.operationId = .hiding := by
  cases hstep with
  | accept _ _ _ _ _ heffects => exact .inl heffects
  | control _ _ _ _ _ heffects => exact .inl heffects
  | page _ hinput _ _ _ _ _ _ _ _ _ _ _ _ _ _ _ _ heffects =>
    exact .inr ⟨_, heffects, hinput, fun _ h => by cases h⟩
  | hide _ hinput hfrom _ _ _ _ heffects =>
    exact .inr ⟨_, heffects, hinput, fun _ h => by cases h; exact hfrom⟩
  | sweep _ hinput _ _ _ _ _ heffects => exact .inr ⟨_, heffects, hinput, fun _ h => by cases h⟩

theorem phaseOk_again {rootName : String} {phase : Phase} (h : PhaseOk fs roots rootName phase) :
    PhaseOk fs roots rootName phase.again := by
  cases phase with
  | done reason => exact h
  | _ => trivial

theorem accept_phase {state : Store × Scans} (rootName policyJson : String) (indexerIds : List ℤ)
    (forceNonce : Option String) (now : ℤ) :
    (Event.apply codec roots state (.accept rootName policyJson indexerIds forceNonce now)).2.phase
      = state.2.phase := by
  simp only [Event.apply, DataScan.accept]
  split <;> rfl

/-- **One event**, with the file system as it is. -/
theorem Safely.apply {state : Store × Scans} (h : Safely fs roots state.2) (event : Event)
    (hfs : ∀ operationId fs' now, event = .advance operationId fs' now → fs' = fs) :
    Safely fs roots (event.apply codec roots state).2 := by
  have hstep : Step codec roots state (event.apply codec roots state) := step_apply event
  obtain ⟨hunique, hinputs⟩ := hstep.inputs h.unique
  have hphase : ∀ operationId, (event.apply codec roots state).2.phase operationId = .page
      ∨ ∃ input ∈ state.2.inputs, input.operationId = operationId
        ∧ PhaseOk fs roots input.rootName
          ((event.apply codec roots state).2.phase operationId) := by
    intro operationId
    cases event with
    | accept rootName policyJson indexerIds forceNonce now =>
      rw [accept_phase]
      exact h.phase operationId
    | advance advanced fs' now =>
      obtain rfl := hfs advanced fs' now rfl
      simp only [Event.apply]
      split
      · exact h.phase operationId
      · rename_i input hinput
        obtain ⟨hmem, rfl⟩ := lookup_eq_some_mem hinput
        obtain ⟨phase, hupdate, hturn⟩ := @turn_advance codec fs' roots input now state.1 state.2
        rw [hupdate]
        by_cases heq : operationId = input.operationId
        · subst heq
          rw [Function.update_self]
          exact .inr ⟨input, hmem, rfl, hturn.phaseOk (h.phaseOk hmem)⟩
        · rw [Function.update_of_ne heq]
          exact h.phase operationId
    | abort aborted =>
      simp only [Event.apply, Scans.setPhase]
      by_cases heq : operationId = aborted
      · subst heq
        rw [Function.update_self]
        rcases h.phase operationId with hpage | ⟨input, hinput, hoperation, hok⟩
        · exact .inl (by rw [hpage]; rfl)
        · exact .inr ⟨input, hinput, hoperation, phaseOk_again hok⟩
      · rw [Function.update_of_ne heq]
        exact h.phase operationId
  refine ⟨hunique, fun operationId => ?_, fun effect hmem => ?_, fun input hmem => ?_⟩
  · rcases hphase operationId with hpage | ⟨input, hinput, hok⟩
    · exact .inl hpage
    · exact .inr ⟨input, hinputs input hinput, hok⟩
  · rcases step_effects hstep with heffects | ⟨new, heffects, hnew, -⟩
    · rw [heffects] at hmem
      exact hinputs _ (h.members effect hmem)
    · rw [heffects] at hmem
      rcases List.mem_append.mp hmem with hmem | hmem
      · exact hinputs _ (h.members effect hmem)
      · obtain rfl := List.mem_singleton.mp hmem
        exact hinputs _ hnew
  · rcases step_effects hstep with heffects | ⟨new, heffects, hnew, hfrom⟩
    · rw [heffects] at hmem
      exact h.hidden input hmem
    · rw [heffects] at hmem
      rcases List.mem_append.mp hmem with hmem | hmem
      · exact h.hidden input hmem
      · obtain rfl := List.mem_singleton.mp hmem
        have hok := h.phaseOk hnew
        rwa [show effectInput (.hidden input) = input from rfl, hfrom input rfl] at hok

theorem safely_run {events : List Event}
    (hfs : ∀ operationId fs' now, .advance operationId fs' now ∈ events → fs' = fs) :
    Safely fs roots (run codec roots events).2 :=
  run_invariant (P := fun state => Safely fs roots state.2)
    ⟨List.nodup_nil, fun _ => .inl rfl, by simp [Scans.init], by simp [Scans.init]⟩
    fun event hevent _ h => h.apply event fun operationId fs' now heq =>
      hfs operationId fs' now (heq ▸ hevent)

end

/-- **Scans side by side.** With one file system and after all the scans of a root have completed,
every release that they have found is available if, and only if, each sweep that comes after the
last page that has found a release is of the scan of that page. -/
theorem scans_agree_iff (codec : ScanCodec) (roots : String → Option DataRoot) (rootName : String)
    (fs : FileSystem) (events : List Event)
    (hfs : ∀ operationId fs' now, .advance operationId fs' now ∈ events → fs' = fs)
    (hgenerations : ∀ input ∈ (run codec roots events).2.inputs,
      ∀ input' ∈ (run codec roots events).2.inputs,
      input.rootName = rootName → input'.rootName = rootName →
        input.generation = input'.generation →
        input = input')
    (hcompleted : ∀ input ∈ (run codec roots events).2.inputs, input.rootName = rootName →
      (run codec roots events).2.phase input.operationId = .done "completed") :
    (∀ path, (∃ effect ∈ (run codec roots events).2.effects, Stamps (rootName, path) effect) →
        Available (run codec roots events).1 (rootName, path))
      ↔ ∀ path before input releases after,
        (run codec roots events).2.effects = before ++ .stamped input releases :: after →
        Finds (rootName, path) input releases →
          (∀ effect ∈ after, ¬ Stamps (rootName, path) effect) →
        ∀ input', .swept input' ∈ after → input'.rootName = rootName → input' = input := by
  have hsafely : Safely fs roots (run codec roots events).2 := safely_run hfs
  have hmem : ∀ {before input releases after},
      (run codec roots events).2.effects = before ++ .stamped input releases :: after →
      input ∈ (run codec roots events).2.inputs
        ∧ ∀ effect ∈ after, effectInput effect ∈ (run codec roots events).2.inputs := by
    intro before input releases after heffects
    refine ⟨hsafely.members (.stamped input releases) (by rw [heffects]; simp),
      fun effect heffect => ?_⟩
    exact hsafely.members effect (by rw [heffects]; simp [heffect])
  constructor
  · intro hall path before input releases after heffects hfinds hlast input' hswept hroot
    have hstamped : Stamps (rootName, path) (.stamped input releases) := hfinds
    have havailable := hall path ⟨_, by rw [heffects]; simp, hstamped⟩
    have hkeeps := (available_iff heffects hfinds hlast).mp havailable _ hswept
    exact (hgenerations input (hmem heffects).1 input' ((hmem heffects).2 _ hswept) hfinds.1 hroot
      (hkeeps hroot)).symm
  · intro hsweeps path hfound
    obtain ⟨before, effect, after, heffects, hstamps, hlast⟩ := exists_last_split hfound
    cases effect with
    | stamped input releases =>
      refine (available_iff heffects hstamps hlast).mpr fun effect heffect => ?_
      cases effect with
      | stamped => trivial
      | swept input' =>
        intro hroot
        rw [hsweeps path before input releases after heffects hstamps hlast input' heffect hroot]
      | hidden input' =>
        -- A scan that has hidden the root cannot have completed.
        intro hroot
        have hphase := hsafely.phaseOk ((hmem heffects).2 _ heffect)
        rw [hcompleted _ ((hmem heffects).2 _ heffect) hroot] at hphase
        exact hsafely.hidden input' (by rw [heffects]; simp [heffect]) (hphase rfl)
    | swept => exact hstamps.elim
    | hidden => exact hstamps.elim

/-- A root with one film. -/
def filmFs : FileSystem where
  readDir path := if path = utf8 "/data" then .ok [utf8 "Film.2020.mkv"] else .error .notFound
  symlinkMetadata path :=
    if path = utf8 "/" ∨ path = utf8 "/data" then .ok ⟨.directory, 0, 1, 1, 0⟩
    else if path = utf8 "/data/Film.2020.mkv" then .ok ⟨.file, 5, 1, 2, 0⟩
    else .error .notFound
  normal path names h name hname := by
    split_ifs at h
    obtain rfl := Except.ok.inj h
    obtain rfl := List.mem_singleton.mp hname
    decide +kernel
  nodup path names h := by
    split_ifs at h
    obtain rfl := Except.ok.inj h
    simp

/-- One data root, with films. -/
def filmRoots (rootName : String) : Option DataRoot :=
  if rootName = "films" then some ⟨utf8 "/data", 4, 100, 100⟩ else none

/-- Where the film lies. -/
def filmKey : String × Bytes := ("films", utf8 "Film.2020.mkv")

/-- The scan of the films that a nonce forces. -/
def filmScan (nonce : String) : ScanInput :=
  scanInput ScanCodec.serde "films" "\x7b\x7d" [] (some nonce)

/-- A scan of the films is asked for. -/
def acceptFilms (nonce : String) : Event := .accept "films" "\x7b\x7d" [] (some nonce) 0

/-- The scan of the films goes on. -/
def advanceFilms (nonce : String) : Event := .advance (filmScan nonce).operationId filmFs 0

/-- Two scans of the films, by the order in which they advance. -/
def filmEvents (nonces : List String) : List Event :=
  [acceptFilms "a", acceptFilms "b"] ++ nonces.map advanceFilms

theorem filmEvents_fs (nonces : List String) (operationId : Id) (fs : FileSystem) (now : ℤ)
    (h : .advance operationId fs now ∈ filmEvents nonces) : fs = filmFs := by
  rcases List.mem_append.mp h with h | h
  · simp [acceptFilms] at h
  · obtain ⟨nonce, -, heq⟩ := List.mem_map.mp h
    exact (Event.advance.inj heq).2.1.symm

/-- The scans are told apart by their generations, and all of them have completed. -/
def Completed (scans : Scans) : Prop :=
  (∀ input ∈ scans.inputs, ∀ input' ∈ scans.inputs,
    input.generation = input'.generation → input = input')
    ∧ ∀ input ∈ scans.inputs, scans.phase input.operationId = .done "completed"

instance (scans : Scans) : Decidable (Completed scans) := inferInstanceAs (Decidable (_ ∧ _))

/-- The state after the two scans have taken turns. -/
def interleavedScans : Store × Scans :=
  run ScanCodec.serde filmRoots (filmEvents ["a", "b", "a", "b", "a", "b"])

/-- The second scan finds the film after the first one has, and the sweep of the first one hides it.
-/
theorem filmEvents_hide : Completed interleavedScans.2
    ∧ (∃ effect ∈ interleavedScans.2.effects, Stamps filmKey effect)
    ∧ ¬ Available interleavedScans.1 filmKey := by
  have hrun : Completed interleavedScans.2
      ∧ (interleavedScans.2.effects.any fun
        | .stamped input releases => Finds filmKey input releases
        | _ => false) = true
      ∧ rowShown interleavedScans.1.dataSources filmKey
        = some ((filmScan "b").generation, false) := by
    decide +kernel
  obtain ⟨hcompleted, hfound, hrow⟩ := hrun
  refine ⟨hcompleted, ?_, ?_⟩
  · obtain ⟨effect, hmem, heffect⟩ := List.any_eq_true.mp hfound
    refine ⟨effect, hmem, ?_⟩
    cases effect with
    | stamped input releases =>
      have hfinds : Finds filmKey input releases := of_decide_eq_true heffect
      exact hfinds
    | swept => cases heffect
    | hidden => cases heffect
  · rintro ⟨row, hlookup, havailable⟩
    rw [rowShown, hlookup] at hrow
    have hunavailable := (Prod.mk.inj (Option.some_inj.mp hrow)).2
    rw [havailable] at hunavailable
    cases hunavailable

/-- The state after one scan has come to its end before the other begins. -/
def successiveScans : Store × Scans :=
  run ScanCodec.serde filmRoots (filmEvents ["a", "a", "a", "b", "b", "b"])

/-- One scan after the other: each sweep after the last page that has found the film is of its scan.
-/
theorem scans_agree_iff_successive :
    Completed successiveScans.2 ∧ ∀ path before input releases after,
      successiveScans.2.effects = before ++ .stamped input releases :: after →
      Finds ("films", path) input releases → (∀ effect ∈ after, ¬ Stamps ("films", path) effect) →
      ∀ input', .swept input' ∈ after → input'.rootName = "films" → input' = input := by
  have hrun : Completed successiveScans.2
      ∧ (successiveScans.2.effects.all fun
        | .stamped _ releases => releases.map ScannedRelease.relativePath = [filmKey.2]
        | _ => true) = true
      ∧ rowShown successiveScans.1.dataSources filmKey
        = some ((filmScan "b").generation, true) := by
    decide +kernel
  obtain ⟨⟨hgenerations, hcompleted⟩, hpaths, hrow⟩ := hrun
  refine ⟨⟨hgenerations, hcompleted⟩, ?_⟩
  unfold successiveScans at hgenerations hcompleted hpaths hrow ⊢
  refine (scans_agree_iff ScanCodec.serde filmRoots "films" filmFs _ (filmEvents_fs _)
    (fun input hinput input' hinput' _ _ => hgenerations input hinput input' hinput')
    (fun input hinput _ => hcompleted input hinput)).mp ?_
  rintro path ⟨effect, hmem, hstamps⟩
  have hpath := List.all_eq_true.mp hpaths effect hmem
  cases effect with
  | stamped input releases =>
    have heq : releases.map ScannedRelease.relativePath = [filmKey.2] := of_decide_eq_true hpath
    have hfound : path ∈ releases.map ScannedRelease.relativePath := hstamps.2
    rw [heq, List.mem_singleton] at hfound
    subst hfound
    obtain ⟨row, hlookup, hseen⟩ := Option.map_eq_some_iff.mp hrow
    exact ⟨row, hlookup, (Prod.mk.inj hseen).2⟩
  | swept => exact hstamps.elim
  | hidden => exact hstamps.elim

end Sporos.Service.ScanSweeps
