import Sporos.Lib.Program

/-! # Processes that run programs

A process is in a phase, and each phase has a program. The processes share a state; their operations
interleave. A program may be dropped at any point, after which the process runs the program of its
phase again from the start, or gives up. A `Spec` is a rely-guarantee proof about one process: what
the others leave alone, what holds in each phase, and what holds when an operation is performed. -/

namespace Sporos.Lib.Processes

open Sporos.Lib.Program

section

variable (ι σ η φ α : Type) (ε : Type → Type)

/-- How the processes run: what an operation does to the shared state, the program of a phase, the
phase after a result, the phase after giving up, where a process that has ended begins again, and
what the environment does. -/
structure Machine where
  exec : ι → {γ : Type} → ε γ → σ → γ × σ
  program : ι → φ → Option (Prog ε α)
  next : φ → α → φ
  giveUp : φ → Option φ
  again : φ → Option φ
  env : η → σ → Option σ

/-- A process: its phase, and the rest of its program, if one is running. -/
structure Proc where
  phase : φ
  running : Option (Prog ε α)

/-- The shared state, and where each process stands. -/
structure System where
  state : σ
  procs : ι → Proc φ α ε

end

/-- A step of one process. -/
inductive Action (ι η : Type) where
  | begin (p : ι)
  | act (p : ι)
  | finish (p : ι)
  | drop (p : ι)
  | giveUp (p : ι)
  | again (p : ι)
  | env (e : η)

/-- The process that a step belongs to. -/
def Action.proc {ι η : Type} : Action ι η → Option ι
  | .begin p => some p
  | .act p => some p
  | .finish p => some p
  | .drop p => some p
  | .giveUp p => some p
  | .again p => some p
  | .env _ => none

section

variable {ι σ η φ α : Type} {ε : Type → Type}

/-! ### Proofs about one process -/

variable (M : Machine ι σ η φ α ε)

/-- A rely-guarantee proof about a process. -/
structure Spec (p : ι) where
  Rely : φ → σ → σ → Prop
  Assume : φ → {γ : Type} → ε γ → σ → Prop
  Inv : φ → σ → Prop
  Ok : φ → {γ : Type} → ε γ → σ → Prop
  Post : φ → α → σ → Prop
  rely_refl : ∀ φ s, Rely φ s s
  rely_trans : ∀ φ s₁ s₂ s₃, Rely φ s₁ s₂ → Rely φ s₂ s₃ → Rely φ s₁ s₃
  inv_rely : ∀ φ s s', Inv φ s → Rely φ s s' → Inv φ s'
  inv_next : ∀ φ a s, Post φ a s → Inv (M.next φ a) s
  inv_giveUp : ∀ φ φ' s, M.giveUp φ = some φ' → Inv φ s → Inv φ' s
  inv_again : ∀ φ φ' s, M.again φ = some φ' → Inv φ s → Inv φ' s
  safe : ∀ φ program s, M.program p φ = some program → Inv φ s →
    Safe (M.exec p) (Rely φ) (Assume φ) (Inv φ) (Ok φ) (Post φ) program s

variable {M} {p : ι} (S : Spec M p)

/-- The proof is at the point where the process is. -/
def Spec.Holds (s : System ι σ φ α ε) : Prop :=
  match (s.procs p).running with
  | none => S.Inv (s.procs p).phase s.state
  | some program => Safe (M.exec p) (S.Rely (s.procs p).phase) (S.Assume (s.procs p).phase)
      (S.Inv (s.procs p).phase) (S.Ok (s.procs p).phase) (S.Post (s.procs p).phase) program s.state

variable {S} {s s' : System ι σ φ α ε}

theorem Spec.Holds.inv (h : S.Holds s) : S.Inv (s.procs p).phase s.state := by
  unfold Spec.Holds at h
  split at h
  · exact h
  · exact Safe.invariant (S.rely_refl _) h

theorem Spec.Holds.ok (h : S.Holds s) {γ : Type} {e : ε γ} {k : γ → Prog ε α}
    (hrunning : (s.procs p).running = some (.op e k)) : S.Ok (s.procs p).phase e s.state := by
  unfold Spec.Holds at h
  rw [hrunning] at h
  exact (h s.state (S.rely_refl _ _)).2.1

theorem Spec.Holds.post (h : S.Holds s) {a : α} (hrunning : (s.procs p).running = some (.ret a)) :
    S.Post (s.procs p).phase a s.state := by
  unfold Spec.Holds at h
  rw [hrunning] at h
  exact (h s.state (S.rely_refl _ _)).2

/-- A step that leaves the process as it is, and what it relies on. -/
theorem Spec.Holds.of_rely (h : S.Holds s) (hproc : s'.procs p = s.procs p)
    (hrely : S.Rely (s.procs p).phase s.state s'.state) : S.Holds s' := by
  unfold Spec.Holds at h ⊢
  rw [hproc]
  split at h
  · exact S.inv_rely _ _ _ h hrely
  · exact Safe.rely (S.rely_trans _) h hrely

/-! ### Runs -/

variable [DecidableEq ι]

/-- One process moves on. -/
def System.setProc (s : System ι σ φ α ε) (p : ι) (proc : Proc φ α ε) : System ι σ φ α ε :=
  { s with procs := fun q => if q = p then proc else s.procs q }

@[simp]
theorem System.setProc_self (s : System ι σ φ α ε) (p : ι) (proc : Proc φ α ε) :
    (s.setProc p proc).procs p = proc := if_pos rfl

theorem System.setProc_of_ne (s : System ι σ φ α ε) {p q : ι} (h : q ≠ p) (proc : Proc φ α ε) :
    (s.setProc p proc).procs q = s.procs q := if_neg h

@[simp]
theorem System.setProc_state (s : System ι σ φ α ε) (p : ι) (proc : Proc φ α ε) :
    (s.setProc p proc).state = s.state := rfl

variable (M) in
/-- One step of the system, if it is possible. -/
def step (s : System ι σ φ α ε) : Action ι η → Option (System ι σ φ α ε)
  | .begin p =>
    match (s.procs p).running with
    | some _ => none
    | none => (M.program p (s.procs p).phase).map fun program =>
        s.setProc p { s.procs p with running := some program }
  | .act p =>
    match (s.procs p).running with
    | some (.op e k) =>
      let (b, state) := M.exec p e s.state
      some ({ s with state }.setProc p { s.procs p with running := some (k b) })
    | _ => none
  | .finish p =>
    match (s.procs p).running with
    | some (.ret a) => some (s.setProc p ⟨M.next (s.procs p).phase a, none⟩)
    | _ => none
  | .drop p =>
    match (s.procs p).running with
    | some _ => some (s.setProc p ⟨(s.procs p).phase, none⟩)
    | none => none
  | .giveUp p => (M.giveUp (s.procs p).phase).map fun phase => s.setProc p ⟨phase, none⟩
  | .again p =>
    match (s.procs p).running with
    | some _ => none
    | none => (M.again (s.procs p).phase).map fun phase => s.setProc p ⟨phase, none⟩
  | .env e => (M.env e s.state).map fun state => { s with state }

variable (M) in
/-- What a process does alone, without an operation. -/
inductive Move (p : ι) : Action ι η → Proc φ α ε → Proc φ α ε → Prop where
  | begin {phase : φ} {program : Prog ε α} (h : M.program p phase = some program) :
    Move p (.begin p) ⟨phase, none⟩ ⟨phase, some program⟩
  | finish {phase : φ} {a : α} :
    Move p (.finish p) ⟨phase, some (.ret a)⟩ ⟨M.next phase a, none⟩
  | drop {phase : φ} {program : Prog ε α} : Move p (.drop p) ⟨phase, some program⟩ ⟨phase, none⟩
  | giveUp {phase phase' : φ} {running : Option (Prog ε α)} (h : M.giveUp phase = some phase') :
    Move p (.giveUp p) ⟨phase, running⟩ ⟨phase', none⟩
  | again {phase phase' : φ} (h : M.again phase = some phase') :
    Move p (.again p) ⟨phase, none⟩ ⟨phase', none⟩

theorem Proc.eta_of_running {proc : Proc φ α ε} {running : Option (Prog ε α)}
    (h : proc.running = running) : proc = ⟨proc.phase, running⟩ := by rw [← h]

/-- **What a step does**: an operation of a process, a change of the environment, or a move of a
process. -/
theorem step_cases {a : Action ι η} (h : step M s a = some s') :
    (∃ p γ, ∃ (e : ε γ) (k : γ → Prog ε α), a = .act p ∧ (s.procs p).running = some (.op e k)
        ∧ s' = { s with state := (M.exec p e s.state).2 }.setProc p
          ⟨(s.procs p).phase, some (k (M.exec p e s.state).1)⟩)
      ∨ (∃ e, a = .env e ∧ M.env e s.state = some s'.state ∧ s'.procs = s.procs)
      ∨ ∃ p proc, a.proc = some p ∧ Move M p a (s.procs p) proc ∧ s' = s.setProc p proc := by
  cases a with
  | begin p =>
    simp only [step] at h
    split at h
    · cases h
    · rename_i hrunning
      obtain ⟨program, hprogram, rfl⟩ := Option.map_eq_some_iff.mp h
      refine .inr (.inr ⟨p, _, rfl, ?_, rfl⟩)
      rw [Proc.eta_of_running hrunning]
      exact .begin hprogram
  | act p =>
    simp only [step] at h
    split at h
    · rename_i γ e k hrunning
      exact .inl ⟨p, γ, e, k, rfl, hrunning, (Option.some_inj.mp h).symm⟩
    · cases h
  | finish p =>
    simp only [step] at h
    split at h
    · rename_i a hrunning
      refine .inr (.inr ⟨p, _, rfl, ?_, (Option.some_inj.mp h).symm⟩)
      rw [Proc.eta_of_running hrunning]
      exact .finish
    · cases h
  | drop p =>
    simp only [step] at h
    split at h
    · rename_i program hrunning
      refine .inr (.inr ⟨p, _, rfl, ?_, (Option.some_inj.mp h).symm⟩)
      rw [Proc.eta_of_running hrunning]
      exact .drop
    · cases h
  | giveUp p =>
    obtain ⟨phase, hphase, rfl⟩ := Option.map_eq_some_iff.mp h
    exact .inr (.inr ⟨p, _, rfl, .giveUp hphase, rfl⟩)
  | again p =>
    simp only [step] at h
    split at h
    · cases h
    · rename_i hrunning
      obtain ⟨phase, hphase, rfl⟩ := Option.map_eq_some_iff.mp h
      refine .inr (.inr ⟨p, _, rfl, ?_, rfl⟩)
      rw [Proc.eta_of_running hrunning]
      exact .again hphase
  | env e =>
    obtain ⟨state, hstate, rfl⟩ := Option.map_eq_some_iff.mp h
    exact .inr (.inl ⟨e, rfl, hstate, rfl⟩)

/-- A step of another process leaves the process as it is. -/
theorem procs_of_ne {a : Action ι η} (h : step M s a = some s') (ha : a.proc ≠ some p) :
    s'.procs p = s.procs p := by
  rcases step_cases h with ⟨q, γ, e, k, rfl, -, rfl⟩ | ⟨e, -, -, hprocs⟩ | ⟨q, proc, hq, -, rfl⟩
  · exact System.setProc_of_ne _ (fun hp => ha (congrArg some hp.symm)) _
  · exact congrFun hprocs p
  · exact System.setProc_of_ne s (fun hp => ha (hq.trans (congrArg some hp.symm))) _

variable (M) in
/-- No program runs in a phase that has none. -/
def Idle (s : System ι σ φ α ε) (p : ι) : Prop :=
  M.program p (s.procs p).phase = none → (s.procs p).running = none

theorem idle_step {a : Action ι η} (hs : Idle M s p) (h : step M s a = some s') : Idle M s' p := by
  rcases step_cases h with ⟨q, γ, e, k, rfl, hrunning, rfl⟩ | ⟨e, -, -, hprocs⟩ | ⟨q,
    proc, hq, hmove, rfl⟩
  · by_cases hqp : q = p
    · subst hqp
      intro hnone
      rw [System.setProc_self] at hnone
      cases hrunning.symm.trans (hs hnone)
    · unfold Idle
      rw [System.setProc_of_ne _ (Ne.symm hqp)]
      exact hs
  · unfold Idle
    rw [hprocs]
    exact hs
  · by_cases hqp : q = p
    · subst hqp
      unfold Idle
      rw [System.setProc_self]
      generalize s.procs q = old at hmove
      cases hmove with
      | begin hprogram => exact fun hnone => nomatch hprogram.symm.trans hnone
      | finish => exact fun _ => rfl
      | drop => exact fun _ => rfl
      | giveUp hphase => exact fun _ => rfl
      | again hphase => exact fun _ => rfl
    · unfold Idle
      rw [System.setProc_of_ne _ (Ne.symm hqp)]
      exact hs

variable (M) in
/-- A run of the system, if each of its steps is possible. -/
def run (s : System ι σ φ α ε) : List (Action ι η) → Option (System ι σ φ α ε)
  | [] => some s
  | a :: as => (step M s a).bind fun s' => run s' as

variable (M) in
/-- A condition holds at each step of a run. -/
def Along (cond : System ι σ φ α ε → Action ι η → Prop) :
    System ι σ φ α ε → List (Action ι η) → Prop
  | _, [] => True
  | s, a :: as => cond s a ∧ ∀ s', step M s a = some s' → Along cond s' as

/-- Every property that the steps of a kind keep holds at the end of a run of such steps. -/
theorem run_invariant {cond : System ι σ φ α ε → Action ι η → Prop} {P : System ι σ φ α ε → Prop}
    (hstep : ∀ s a s', P s → cond s a → step M s a = some s' → P s')
    (as : List (Action ι η)) : ∀ {s s' : System ι σ φ α ε}, P s → Along M cond s as →
      run M s as = some s' → P s' := by
  induction as with
  | nil =>
    intro s s' hs _ h
    exact Option.some_inj.mp h ▸ hs
  | cons a as ih =>
    intro s s' hs halong h
    obtain ⟨s₁, hs₁, h⟩ := Option.bind_eq_some_iff.mp h
    exact ih (hstep s a s₁ hs halong.1 hs₁) (halong.2 s₁ hs₁) h

theorem Along.append {cond : System ι σ φ α ε → Action ι η → Prop}
    (before after : List (Action ι η)) :
    ∀ {s s' : System ι σ φ α ε}, Along M cond s (before ++ after) → run M s before = some s' →
      Along M cond s before ∧ Along M cond s' after := by
  induction before with
  | nil =>
    intro s s' halong h
    exact ⟨trivial, Option.some_inj.mp h ▸ halong⟩
  | cons a before ih =>
    intro s s' halong h
    obtain ⟨s₁, hs₁, h⟩ := Option.bind_eq_some_iff.mp h
    refine ⟨⟨halong.1, fun s₂ hs₂ => ?_⟩, (ih (halong.2 s₁ hs₁) h).2⟩
    obtain rfl : s₁ = s₂ := Option.some_inj.mp (hs₁.symm.trans hs₂)
    exact (ih (halong.2 s₁ hs₁) h).1

/-- A condition on the steps of a run, and one on its actions. -/
theorem Along.and_forall {cond : System ι σ φ α ε → Action ι η → Prop} {Q : Action ι η → Prop}
    (as : List (Action ι η)) : ∀ {s : System ι σ φ α ε}, Along M cond s as → (∀ a ∈ as, Q a) →
      Along M (fun s a => cond s a ∧ Q a) s as := by
  induction as with
  | nil => exact fun _ _ => trivial
  | cons a as ih =>
    intro s halong hQ
    exact ⟨⟨halong.1, hQ a (by simp)⟩,
      fun s' hs' => ih (halong.2 s' hs') fun a ha => hQ a (List.mem_cons_of_mem _ ha)⟩

variable (M) in
/-- Check a condition at each step of a run. -/
def checkAlong (check : System ι σ φ α ε → Action ι η → Bool) :
    System ι σ φ α ε → List (Action ι η) → Bool
  | _, [] => true
  | s, a :: as => check s a && (step M s a).all fun s' => checkAlong check s' as

theorem along_of_check {cond : System ι σ φ α ε → Action ι η → Prop}
    {check : System ι σ φ α ε → Action ι η → Bool} (hcheck : ∀ s a, check s a = true → cond s a)
    (as : List (Action ι η)) : ∀ {s : System ι σ φ α ε}, checkAlong M check s as = true →
      Along M cond s as := by
  induction as with
  | nil => exact fun _ => trivial
  | cons a as ih =>
    intro s h
    obtain ⟨hstep, hrest⟩ := Bool.and_eq_true_iff.mp h
    refine ⟨hcheck s a hstep, fun s' hs' => ih ?_⟩
    rw [hs'] at hrest
    exact hrest

variable (S) in
/-- What the proof asks of a step: its assumption of an operation of the process, and of any other
step to leave alone what it relies on. -/
def Spec.Allows (s : System ι σ φ α ε) (a : Action ι η) : Prop :=
  (a = .act p → ∀ {γ : Type} (e : ε γ) k, (s.procs p).running = some (.op e k) →
      S.Assume (s.procs p).phase e s.state)
    ∧ (a ≠ .act p → ∀ s', step M s a = some s' → S.Rely (s.procs p).phase s.state s'.state)

theorem Spec.holds_setProc_none {φ' : φ} (h : S.Inv φ' s.state) :
    S.Holds (s.setProc p ⟨φ', none⟩) := by
  unfold Spec.Holds
  rw [System.setProc_self]
  exact h

/-- A move of the process. -/
theorem Spec.Holds.move {a : Action ι η} {proc : Proc φ α ε} (hs : S.Holds s)
    (hmove : Move M p a (s.procs p) proc) : S.Holds (s.setProc p proc) := by
  have hinv := hs.inv
  generalize hproc : s.procs p = old at hmove
  cases hmove with
  | begin hprogram =>
    unfold Spec.Holds
    simp only [System.setProc_self, System.setProc_state]
    rw [hproc] at hinv
    exact S.safe _ _ _ hprogram hinv
  | finish =>
    have hpost := hs.post (by rw [hproc])
    rw [hproc] at hpost
    exact holds_setProc_none (S.inv_next _ _ _ hpost)
  | drop =>
    rw [hproc] at hinv
    exact holds_setProc_none hinv
  | giveUp hphase =>
    rw [hproc] at hinv
    exact holds_setProc_none (S.inv_giveUp _ _ _ hphase hinv)
  | again hphase =>
    rw [hproc] at hinv
    exact holds_setProc_none (S.inv_again _ _ _ hphase hinv)

/-- **A step keeps the proof.** -/
theorem Spec.Holds.step {a : Action ι η} (hs : S.Holds s) (hallows : S.Allows s a)
    (h : Processes.step M s a = some s') : S.Holds s' := by
  by_cases hproc : a.proc = some p
  swap
  · have hact : a ≠ .act p := fun ha => hproc (ha ▸ rfl)
    exact hs.of_rely (procs_of_ne h hproc) (hallows.2 hact s' h)
  rcases step_cases h with ⟨q, γ, e, k, rfl, hrunning, rfl⟩ | ⟨e, rfl, -, -⟩ | ⟨q,
    proc, hq, hmove, rfl⟩
  · obtain rfl : q = p := Option.some_inj.mp hproc
    unfold Spec.Holds at hs ⊢
    rw [hrunning] at hs
    simp only [System.setProc_self, System.setProc_state]
    exact (hs s.state (S.rely_refl _ _)).2.2 (hallows.1 rfl e k hrunning)
  · cases hproc
  · obtain rfl : q = p := Option.some_inj.mp (hq.symm.trans hproc)
    exact hs.move hmove

/-- **A run keeps the proof.** -/
theorem Spec.Holds.run {as : List (Action ι η)} (hs : S.Holds s) (hallows : Along M S.Allows s as)
    (h : Processes.run M s as = some s') : S.Holds s' :=
  run_invariant (fun _ _ _ hs hallows h => Spec.Holds.step hs hallows h) as hs hallows h

end

end Sporos.Lib.Processes
