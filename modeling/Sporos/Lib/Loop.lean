import Mathlib.Tactic

/-! # Loops that can fail

Rules for `foldlM` in `Except`: an invariant of the iterations that succeed (`foldlM_invariant`),
and the simulation of one loop by another, where both stop with the same error or go on in related
states (`foldlM_agree`). The steps of a run are a `Path`; an invariant of the steps holds all along
it. A loop that ends by a break is the relation `Until`, and one over a list whose body is a
relation is `Each`; both have at most one end. -/

namespace Sporos.Lib.Loop

variable {ε α β γ : Type*}

theorem bind_eq_ok {ε β γ : Type} {x : Except ε β} {f : β → Except ε γ} {c : γ} :
    (x >>= f) = .ok c ↔ ∃ b, x = .ok b ∧ f b = .ok c := by
  cases x <;> simp [bind, Except.bind]

/-- What comes after a computation needs to agree on its results only. -/
theorem bind_congr_of_ok {ε β γ : Type} {x : Except ε β} {f g : β → Except ε γ}
    (h : ∀ b, x = .ok b → f b = g b) : (x >>= f) = x >>= g := by
  cases x with
  | error e => rfl
  | ok b => exact h b rfl

theorem map_eq_ok {ε α β : Type} {x : Except ε α} {f : α → β} {b : β} (h : x.map f = .ok b) :
    ∃ a, x = .ok a ∧ f a = b := by
  cases x with
  | error e => cases h
  | ok a => exact ⟨a, rfl, by simpa [Except.map] using h⟩

theorem mapError_eq_ok {ε' : Type*} {x : Except ε β} {f : ε → ε'} {b : β} :
    x.mapError f = .ok b ↔ x = .ok b := by
  cases x <;> simp [Except.mapError]

/-- A check that may stop what comes after it. -/
theorem check_eq_ok {ε β γ : Type} {p : Prop} [Decidable p] {e : ε} {k : β → Except ε γ}
    {x : Except ε γ} {c : γ} : (if p then .error e >>= k else x) = .ok c ↔ ¬p ∧ x = .ok c := by
  by_cases h : p <;> simp [h, bind, Except.bind]

theorem forM_eq_ok {ε β : Type} {f : β → Except ε Unit} : ∀ {l : List β},
    l.forM f = .ok () ↔ ∀ b ∈ l, f b = .ok ()
  | [] => by simp [pure, Except.pure]
  | b :: l => by
    rw [show (b :: l).forM f = f b >>= fun _ => l.forM f from rfl, bind_eq_ok, List.forall_mem_cons]
    constructor
    · rintro ⟨⟨⟩, hb, hl⟩
      exact ⟨hb, forM_eq_ok.mp hl⟩
    · rintro ⟨hb, hl⟩
      exact ⟨(), hb, forM_eq_ok.mpr hl⟩

/-- The results of a map that succeeds. -/
theorem mem_of_mapM {ε β γ : Type} {f : β → Except ε γ} :
    ∀ {l : List β} {r : List γ}, l.mapM f = .ok r → ∀ c ∈ r, ∃ b ∈ l, f b = .ok c
  | [], r, h => by
    obtain rfl : [] = r := Except.ok.inj h
    simp
  | b :: l, r, h => by
    rw [List.mapM_cons] at h
    obtain ⟨c, hc, h⟩ := bind_eq_ok.mp h
    obtain ⟨rest, hrest, h⟩ := bind_eq_ok.mp h
    obtain rfl := Except.ok.inj h
    intro d hd
    rcases List.mem_cons.mp hd with rfl | hd
    · exact ⟨b, by simp, hc⟩
    · obtain ⟨b', hb', hd⟩ := mem_of_mapM hrest d hd
      exact ⟨b', by simp [hb'], hd⟩

/-- A map of which each element has a result. -/
theorem mapM_eq_ok {ε β γ : Type} {f : β → Except ε γ} {g : β → γ} :
    ∀ l : List β, (∀ b ∈ l, f b = .ok (g b)) → l.mapM f = .ok (l.map g)
  | [], _ => rfl
  | b :: l, h => by
    rw [List.mapM_cons, h b (by simp), mapM_eq_ok l fun c hc => h c (List.mem_cons_of_mem b hc)]
    rfl

/-- Both fail with the same error, or both succeed with related values. -/
def Agree (R : β → γ → Prop) : Except ε β → Except ε γ → Prop
  | .ok b, .ok c => R b c
  | .error e, .error e' => e = e'
  | _, _ => False

theorem Agree.cases {R : β → γ → Prop} {x : Except ε β} {y : Except ε γ} (h : Agree R x y) :
    (∃ e, x = .error e ∧ y = .error e) ∨ ∃ b c, x = .ok b ∧ y = .ok c ∧ R b c := by
  cases x with
  | error e =>
    cases y with
    | error e' => exact .inl ⟨e, rfl, by rw [show e = e' from h]⟩
    | ok c => exact h.elim
  | ok b =>
    cases y with
    | error e' => exact h.elim
    | ok c => exact .inr ⟨b, c, rfl, rfl, h⟩

theorem Agree.map {β' γ' : Type*} {R : β → γ → Prop} {R' : β' → γ' → Prop} {f : β → β'} {g : γ → γ'}
    {x : Except ε β} {y : Except ε γ} (h : Agree R x y) (hf : ∀ b c, R b c → R' (f b) (g c)) :
    Agree R' (x.map f) (y.map g) := by
  cases x <;> cases y <;> simp_all [Agree, Except.map]

theorem Agree.ite {R : β → γ → Prop} {p q : Prop} [Decidable p] [Decidable q]
    {x₁ x₂ : Except ε β} {y₁ y₂ : Except ε γ} (hpq : p ↔ q) (h₁ : p → Agree R x₁ y₁)
    (h₂ : ¬p → Agree R x₂ y₂) : Agree R (if p then x₁ else x₂) (if q then y₁ else y₂) := by
  by_cases hp : p
  · rw [if_pos hp, if_pos (hpq.mp hp)]
    exact h₁ hp
  · rw [if_neg hp, if_neg fun hq => hp (hpq.mpr hq)]
    exact h₂ hp

/-- A loop that succeeds keeps what its iterations keep; the invariant may mention the elements that
are done. -/
theorem foldlM_invariant {f : β → α → Except ε β} {P : List α → β → Prop}
    (hstep : ∀ done x b b', P done b → f b x = .ok b' → P (done ++ [x]) b') :
    ∀ (l done : List α) (b r : β), P done b → l.foldlM f b = .ok r → P (done ++ l) r
  | [], done, b, r, hb, h => by
    obtain rfl : b = r := Except.ok.inj h
    simpa using hb
  | x :: l, done, b, r, hb, h => by
    rw [List.foldlM_cons] at h
    cases hx : f b x with
    | error e => rw [hx] at h; cases h
    | ok b' =>
      rw [hx] at h
      have := foldlM_invariant hstep l (done ++ [x]) b' r (hstep done x b b' hb hx) h
      simpa using this

/-- The same, for iterations over the elements of the list only. -/
theorem foldlM_invariant_mem {f : β → α → Except ε β} {P : List α → β → Prop} {l : List α}
    (hstep : ∀ done, ∀ x ∈ l, ∀ b b', P done b → f b x = .ok b' → P (done ++ [x]) b')
    {b r : β} (hb : P [] b) (h : l.foldlM f b = .ok r) : P l r := by
  have hrest := foldlM_invariant (P := fun done b => (∀ x ∈ done, x ∈ l) → P done b)
    (fun done x b b' hdone hx hmem => hstep done x (hmem x (by simp)) b b'
      (hdone fun y hy => hmem y (by simp [hy])) hx) l [] b r (fun _ => hb) h
  simpa using hrest

/-- A loop that fails does so in one of its iterations, and keeps what the iterations before it
keep. -/
theorem foldlM_error {f : β → α → Except ε β} {P : List α → β → Prop}
    (hstep : ∀ done x b b', P done b → f b x = .ok b' → P (done ++ [x]) b') {e : ε} :
    ∀ (l done : List α) (b : β), P done b → l.foldlM f b = .error e →
      ∃ before x after b', l = before ++ x :: after ∧ P (done ++ before) b' ∧ f b' x = .error e
  | [], done, b, hb, h => by cases h
  | x :: l, done, b, hb, h => by
    rw [List.foldlM_cons] at h
    cases hx : f b x with
    | error e' =>
      rw [hx] at h
      obtain rfl : e' = e := Except.error.inj h
      exact ⟨[], x, l, b, rfl, by simpa using hb, hx⟩
    | ok b' =>
      rw [hx] at h
      obtain ⟨before, y, after, c, rfl, hc, hy⟩ :=
        foldlM_error hstep l (done ++ [x]) b' (hstep done x b b' hb hx) h
      exact ⟨x :: before, y, after, c, rfl, by simpa using hc, hy⟩

/-- A loop succeeds if, and only if, its iterations meet the condition under which they succeed; the
condition may mention the elements that are done. -/
theorem foldlM_ok_iff {f : β → α → Except ε β} {I : List α → β → Prop} {C : List α → α → Prop}
    {V : α → Prop}
    (hstep : ∀ done x b, V x → I done b →
      ((∃ b', f b x = .ok b') ↔ C done x) ∧ ∀ b', f b x = .ok b' → I (done ++ [x]) b') :
    ∀ (l done : List α) (b : β), (∀ x ∈ l, V x) → I done b →
      ((∃ r, l.foldlM f b = .ok r) ↔ ∀ before x after, l = before ++ x :: after →
        C (done ++ before) x)
        ∧ ∀ r, l.foldlM f b = .ok r → I (done ++ l) r
  | [], done, b, _, hb => by
    refine ⟨⟨fun _ before x after h => ?_, fun _ => ⟨b, rfl⟩⟩, fun r hr => ?_⟩
    · simp at h
    · obtain rfl : b = r := Except.ok.inj hr
      simpa using hb
  | x :: l, done, b, hV, hb => by
    obtain ⟨hok, hnext⟩ := hstep done x b (hV x (by simp)) hb
    rw [List.foldlM_cons]
    cases hx : f b x with
    | error e =>
      refine ⟨⟨fun ⟨r, hr⟩ => absurd hr (by simp [bind, Except.bind]), fun h => ?_⟩,
        fun r hr => absurd hr (by simp [bind, Except.bind])⟩
      obtain ⟨b', hb'⟩ := hok.mpr (by simpa using h [] x l rfl)
      rw [hx] at hb'
      cases hb'
    | ok b' =>
      have hC := hok.mp ⟨b', hx⟩
      obtain ⟨hrest, hend⟩ := foldlM_ok_iff hstep l (done ++ [x]) b'
        (fun y hy => hV y (List.mem_cons_of_mem _ hy)) (hnext b' hx)
      simp only [List.append_assoc, List.singleton_append] at hrest hend
      refine ⟨Iff.trans hrest ⟨fun h before y after heq => ?_,
        fun h before y after heq => ?_⟩, hend⟩
      · cases before with
        | nil =>
          obtain ⟨rfl, -⟩ := List.cons.inj heq
          simpa using hC
        | cons z before =>
          obtain ⟨rfl, hl⟩ := List.cons.inj heq
          exact h before y after hl
      · exact h (x :: before) y after (by rw [heq]; rfl)

/-- A loop succeeds if every iteration does, and keeps what the iterations keep. -/
theorem foldlM_total {f : β → α → Except ε β} {I : List α → β → Prop} {l : List α}
    (hstep : ∀ done, ∀ x ∈ l, ∀ b, I done b → ∃ b', f b x = .ok b' ∧ I (done ++ [x]) b')
    {b : β} (hb : I [] b) : ∃ r, l.foldlM f b = .ok r ∧ I l r := by
  obtain ⟨hok, hkeep⟩ := foldlM_ok_iff (f := f) (I := I) (C := fun _ _ => True) (V := (· ∈ l))
    (fun done x b hx hdone => by
      obtain ⟨b', hb', hI⟩ := hstep done x hx b hdone
      refine ⟨⟨fun _ => trivial, fun _ => ⟨b', hb'⟩⟩, fun b'' hb'' => ?_⟩
      obtain rfl := Except.ok.inj (hb'.symm.trans hb'')
      exact hI) l [] b (fun _ hx => hx) hb
  obtain ⟨r, hr⟩ := hok.mpr fun _ _ _ _ => trivial
  exact ⟨r, hr, hkeep r hr⟩

/-- Two loops over one list agree if their iterations do. -/
theorem foldlM_agree {R : β → γ → Prop} {f : β → α → Except ε β} {g : γ → α → Except ε γ} :
    ∀ (l : List α), (∀ x ∈ l, ∀ b c, R b c → Agree R (f b x) (g c x)) → ∀ b c, R b c →
      Agree R (l.foldlM f b) (l.foldlM g c)
  | [], _, b, c, h => h
  | x :: l, hstep, b, c, h => by
    rw [List.foldlM_cons, List.foldlM_cons]
    have hx := hstep x (by simp) b c h
    cases hf : f b x <;> cases hg : g c x <;> rw [hf, hg] at hx
    · exact hx
    · exact hx.elim
    · exact hx.elim
    · exact foldlM_agree l (fun y hy => hstep y (List.mem_cons_of_mem _ hy)) _ _ hx

/-! ### Paths -/

section

variable {σ τ : Type*} {R : σ → σ → Prop}

/-- The steps from one state to another. -/
inductive Path (R : σ → σ → Prop) : σ → List (σ × σ) → σ → Prop where
  | nil (s : σ) : Path R s [] s
  | cons {s s' s'' : σ} {steps : List (σ × σ)} (hstep : R s s') (hrest : Path R s' steps s'') :
    Path R s ((s, s') :: steps) s''

theorem Path.append {s s' s'' : σ} {steps steps' : List (σ × σ)} (h : Path R s steps s')
    (h' : Path R s' steps' s'') : Path R s (steps ++ steps') s'' := by
  induction h with
  | nil s => exact h'
  | cons hstep _ ih => exact .cons hstep (ih h')

theorem Path.single {s s' : σ} (h : R s s') : Path R s [(s, s')] s' := .cons h (.nil s')

theorem Path.map {S : τ → τ → Prop} {f : σ → τ} (hf : ∀ s s', R s s' → S (f s) (f s')) {s s' : σ}
    {steps : List (σ × σ)} (h : Path R s steps s') :
    Path S (f s) (steps.map (Prod.map f f)) (f s') := by
  induction h with
  | nil s => exact .nil (f s)
  | cons hstep _ ih => exact .cons (hf _ _ hstep) ih

theorem Path.mono {S : σ → σ → Prop} (hRS : ∀ s s', R s s' → S s s') {s s' : σ}
    {steps : List (σ × σ)} (h : Path R s steps s') : Path S s steps s' := by
  induction h with
  | nil s => exact .nil s
  | cons hstep _ ih => exact .cons (hRS _ _ hstep) ih

/-- What the steps keep holds at the end of a path and at all of its steps. -/
theorem Path.invariant {I : σ → Prop} (hstep : ∀ s s', R s s' → I s → I s') {s s' : σ}
    {steps : List (σ × σ)} (h : Path R s steps s') (hs : I s) :
    I s' ∧ ∀ step ∈ steps, R step.1 step.2 ∧ I step.1 ∧ I step.2 := by
  induction h with
  | nil s => exact ⟨hs, fun step hmem => by cases hmem⟩
  | cons hR _ ih =>
    have hs' := hstep _ _ hR hs
    obtain ⟨hend, hsteps⟩ := ih hs'
    refine ⟨hend, fun step hmem => ?_⟩
    rcases List.mem_cons.mp hmem with rfl | hmem
    · exact ⟨hR, hs, hs'⟩
    · exact hsteps step hmem

end

/-! ### Loops as relations -/

section

variable {σ : Type*}

/-- A loop that does its body, and ends when it finds the condition true after it. -/
inductive Until (body : σ → σ) (stop : σ → Prop) : σ → σ → Prop where
  | stop {s : σ} (h : stop (body s)) : Until body stop s (body s)
  | again {s s' : σ} (h : ¬stop (body s)) (hrest : Until body stop (body s) s') :
    Until body stop s s'

theorem Until.unique {body : σ → σ} {stop : σ → Prop} {s s₁ s₂ : σ} (h₁ : Until body stop s s₁)
    (h₂ : Until body stop s s₂) : s₁ = s₂ := by
  induction h₁ with
  | stop h =>
    cases h₂ with
    | stop _ => rfl
    | again h' _ => exact absurd h h'
  | again h _ ih =>
    cases h₂ with
    | stop h' => exact absurd h' h
    | again _ hrest => exact ih hrest

/-- A loop over a list, whose body is a relation. -/
inductive Each (R : σ → α → σ → Prop) : σ → List α → σ → Prop where
  | nil (s : σ) : Each R s [] s
  | cons {s s' s'' : σ} {x : α} {l : List α} (hstep : R s x s') (hrest : Each R s' l s'') :
    Each R s (x :: l) s''

theorem Each.append {R : σ → α → σ → Prop} {s s' s'' : σ} {l l' : List α} (h : Each R s l s')
    (h' : Each R s' l' s'') : Each R s (l ++ l') s'' := by
  induction h with
  | nil s => exact h'
  | cons hstep _ ih => exact .cons hstep (ih h')

theorem Each.unique {R : σ → α → σ → Prop} (hR : ∀ s x s₁ s₂, R s x s₁ → R s x s₂ → s₁ = s₂)
    {s s₁ s₂ : σ} {l : List α} (h₁ : Each R s l s₁) (h₂ : Each R s l s₂) : s₁ = s₂ := by
  induction h₁ with
  | nil s =>
    cases h₂
    rfl
  | cons hstep _ ih =>
    cases h₂ with
    | cons hstep' hrest =>
      obtain rfl := hR _ _ _ _ hstep hstep'
      exact ih hrest

end

/-- The steps of a loop, up to its first error. -/
def trace (f : β → α → Except ε β) : β → List α → List (β × β)
  | _, [] => []
  | b, x :: l =>
    match f b x with
    | .error _ => []
    | .ok b' => (b, b') :: trace f b' l

/-- A loop that succeeds goes along its steps. -/
theorem path_trace {f : β → α → Except ε β} :
    ∀ (l : List α) (b r : β), l.foldlM f b = .ok r →
      Path (fun b b' => ∃ x ∈ l, f b x = .ok b') b (trace f b l) r
  | [], b, r, h => by
    obtain rfl : b = r := Except.ok.inj h
    exact .nil b
  | x :: l, b, r, h => by
    rw [List.foldlM_cons] at h
    cases hx : f b x with
    | error e => rw [hx] at h; cases h
    | ok b' =>
      rw [hx] at h
      rw [trace, hx]
      refine .cons ⟨x, by simp, hx⟩ ((path_trace l b' r h).mono ?_)
      rintro s s' ⟨y, hy, hs⟩
      exact ⟨y, List.mem_cons_of_mem _ hy, hs⟩

end Sporos.Lib.Loop
