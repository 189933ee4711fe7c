import Mathlib.Tactic

/-! # Actions that may fail

An action changes a state and returns a value or fails; what it did before it failed stays. `Keeps
R` says that the state after an action, successful or not, is related to the state before by `R`.
`Again R g` says that an action which succeeded can be repeated: in every later state it succeeds
once more, with the value that `g` makes of the first one, and leaves the state as it is. Both go
through sequences and loops. -/

namespace Sporos.Lib.Actions

/-- An action on a state, as a function to its result and the state after it. -/
def Action (σ ε α : Type) := σ → Except ε α × σ

variable {σ ε α β : Type}

instance : Monad (Action σ ε) where
  pure a := fun s => (.ok a, s)
  bind x f := fun s =>
    match x s with
    | (.ok a, s') => f a s'
    | (.error e, s') => (.error e, s')

/-- The action that only reads the state. -/
def reads (f : σ → Except ε α) : Action σ ε α := fun s => (f s, s)

theorem bind_run (x : Action σ ε α) (f : α → Action σ ε β) (s : σ) :
    (x >>= f) s = match x s with
      | (.ok a, s') => f a s'
      | (.error e, s') => (.error e, s') := rfl

@[simp]
theorem pure_run (a : α) (s : σ) : (pure a : Action σ ε α) s = (.ok a, s) := rfl

@[simp]
theorem reads_run (f : σ → Except ε α) (s : σ) : reads f s = (f s, s) := rfl

theorem reads_eq_ok {f : σ → Except ε α} {s s' : σ} {a : α} :
    reads f s = (.ok a, s') ↔ s = s' ∧ f s = .ok a := by
  simp [and_comm]

theorem bind_eq_ok {x : Action σ ε α} {f : α → Action σ ε β} {s s'' : σ} {b : β} :
    (x >>= f) s = (.ok b, s'') ↔ ∃ a s', x s = (.ok a, s') ∧ f a s' = (.ok b, s'') := by
  rw [bind_run]
  rcases x s with ⟨e | a, s'⟩ <;> simp

instance : LawfulMonad (Action σ ε) :=
  LawfulMonad.mk' _
    (fun x => funext fun s => by
      change (x >>= pure) s = x s
      rw [bind_run]
      rcases x s with ⟨e | a, s'⟩ <;> rfl)
    (fun _ _ => rfl)
    (fun x f g => funext fun s => by
      rw [bind_run, bind_run, bind_run]
      rcases x s with ⟨e | a, s'⟩ <;> rfl)

section

variable (R : σ → σ → Prop)

/-- What an action does to the state, also when it fails. -/
def Keeps (x : Action σ ε α) : Prop := ∀ s, R s (x s).2

/-- An action that succeeded succeeds again later, and does nothing then. -/
def Again (g : α → α) (x : Action σ ε α) : Prop :=
  ∀ ⦃s a s'⦄, x s = (.ok a, s') → ∀ ⦃s''⦄, R s' s'' → x s'' = (.ok (g a), s'')

end

variable {R : σ → σ → Prop}

theorem Keeps.mono {R' : σ → σ → Prop} {x : Action σ ε α} (h : Keeps R x)
    (himp : ∀ s s', R s s' → R' s s') :
    Keeps R' x := fun s => himp _ _ (h s)

theorem Keeps.of_ok {x : Action σ ε α} (h : Keeps R x) {s s' : σ} {a : α} (hx : x s = (.ok a, s')) :
    R s s' := by
  have := h s
  rwa [hx] at this

theorem keeps_reads (hrefl : ∀ s, R s s) (f : σ → Except ε α) : Keeps R (reads f) :=
  fun s => hrefl s

theorem again_reads {f : σ → Except ε α} (h : ∀ s s' a, R s s' → f s = .ok a → f s' = .ok a) :
    Again R id (reads f) := by
  intro s a s' hx s'' hR
  obtain ⟨rfl, hf⟩ := reads_eq_ok.mp hx
  exact reads_eq_ok.mpr ⟨rfl, h _ _ _ hR hf⟩

theorem mapM_cons_eq_ok {f : β → Action σ ε α} {b : β} {l : List β} {results : List α} {s s'' : σ} :
    ((b :: l).mapM f : Action σ ε (List α)) s = (.ok results, s'') ↔
      ∃ a rest s', f b s = (.ok a, s') ∧ (l.mapM f : Action σ ε (List α)) s' = (.ok rest, s'')
        ∧ results = a :: rest := by
  rw [List.mapM_cons]
  constructor
  · intro h
    obtain ⟨a, s', hb, hrest⟩ := bind_eq_ok.mp h
    obtain ⟨rest, s₁, hl, hend⟩ := bind_eq_ok.mp hrest
    obtain ⟨hresults, rfl⟩ := Prod.mk.inj hend
    exact ⟨a, rest, s', hb, hl, (Except.ok.inj hresults).symm⟩
  · rintro ⟨a, rest, s', hb, hl, rfl⟩
    exact bind_eq_ok.mpr ⟨a, s', hb, bind_eq_ok.mpr ⟨rest, s'', hl, rfl⟩⟩

section

variable (htrans : ∀ s s' s'', R s s' → R s' s'' → R s s'')

include htrans

/-- What a sequence does: the second action starts where the first one succeeded. -/
theorem bind_rel {x : Action σ ε α} {f : α → Action σ ε β} {s : σ} (hx : R s (x s).2)
    (hf : ∀ a s', x s = (.ok a, s') → R s' (f a s').2) : R s ((x >>= f) s).2 := by
  rw [bind_run]
  rcases hrun : x s with ⟨e | a, s'⟩
  · rwa [hrun] at hx
  · rw [hrun] at hx
    exact htrans _ _ _ hx (hf a s' hrun)

theorem Keeps.bind {x : Action σ ε α} {f : α → Action σ ε β} (hx : Keeps R x)
    (hf : ∀ a, Keeps R (f a)) :
    Keeps R (x >>= f) := fun s => bind_rel htrans (hx s) fun a s' _ => hf a s'

theorem Keeps.mapM (hrefl : ∀ s, R s s) {f : β → Action σ ε α} (hf : ∀ b, Keeps R (f b)) :
    ∀ l : List β, Keeps R (l.mapM f)
  | [] => fun s => hrefl s
  | b :: l => by
    rw [List.mapM_cons]
    exact (hf b).bind htrans fun a => (Keeps.mapM hrefl hf l).bind htrans fun _ => fun s => hrefl s

theorem Keeps.foldlM (hrefl : ∀ s, R s s) {f : α → β → Action σ ε α} (hf : ∀ a b, Keeps R (f a b)) :
    ∀ (l : List β) (a : α), Keeps R (l.foldlM f a)
  | [], a => fun s => hrefl s
  | b :: l, a => by
    rw [List.foldlM_cons]
    exact (hf a b).bind htrans fun a' => Keeps.foldlM hrefl hf l a'

/-- What holds of each result when it is made, and stays, holds of all of them at the end. -/
theorem forall₂_mapM (hrefl : ∀ s, R s s) {f : β → Action σ ε α} {P : σ → β → α → Prop}
    (hkeeps : ∀ b, Keeps R (f b)) (hlater : ∀ s s' b a, R s s' → P s b a → P s' b a)
    (hP : ∀ b s a s', f b s = (.ok a, s') → P s' b a) :
    ∀ {l : List β} {results : List α} {s s' : σ},
      (l.mapM f : Action σ ε (List α)) s = (.ok results, s') → List.Forall₂ (P s') l results
  | [], results, s, s', h => by
    obtain ⟨hresults, -⟩ := Prod.mk.inj h
    obtain rfl : [] = results := Except.ok.inj hresults
    exact .nil
  | b :: l, results, s, s'', h => by
    obtain ⟨a, rest, s', hb, hl, rfl⟩ := mapM_cons_eq_ok.mp h
    have hrest : R s' s'' := (Keeps.mapM htrans hrefl hkeeps l).of_ok hl
    exact .cons (hlater _ _ b a hrest (hP b s a s' hb)) (forall₂_mapM hrefl hkeeps hlater hP hl)

theorem Again.bind {g : β → β} {x : Action σ ε α} {f : α → Action σ ε β} (hx : Again R id x)
    (hkeeps : ∀ a, Keeps R (f a)) (hf : ∀ a, Again R g (f a)) : Again R g (x >>= f) := by
  intro s b s'' h s₃ hR
  obtain ⟨a, s', hrun, hnext⟩ := bind_eq_ok.mp h
  have hmiddle : R s' s'' := (hkeeps a).of_ok hnext
  exact bind_eq_ok.mpr ⟨a, s₃, hx hrun (htrans _ _ _ hmiddle hR), hf a hnext hR⟩

theorem Again.foldlM (hrefl : ∀ s, R s s) {f : α → β → Action σ ε α}
    (hkeeps : ∀ a b, Keeps R (f a b)) :
    ∀ (l : List β) (a : α), (∀ a, ∀ b ∈ l, Again R id (f a b)) → Again R id (l.foldlM f a)
  | [], a, _ => by
    intro s a' s' h s'' _
    obtain ⟨ha, rfl⟩ := Prod.mk.inj h
    obtain rfl := Except.ok.inj ha
    rfl
  | b :: l, a, hf => by
    rw [List.foldlM_cons]
    exact (hf a b (by simp)).bind htrans (fun a' => Keeps.foldlM htrans hrefl hkeeps l a')
      fun a' => Again.foldlM hrefl hkeeps l a' fun a b hb => hf a b (by simp [hb])

/-- **A loop can be repeated** if each of its turns can. -/
theorem Again.mapM (hrefl : ∀ s, R s s) {g : α → α} {f : β → Action σ ε α}
    (hkeeps : ∀ b, Keeps R (f b)) (hf : ∀ b, Again R g (f b)) : ∀ l : List β,
      Again R (List.map g) (l.mapM f)
  | [] => by
    intro s a s' h s'' _
    obtain ⟨ha, rfl⟩ := Prod.mk.inj h
    obtain rfl : [] = a := Except.ok.inj ha
    rfl
  | b :: l => by
    intro s results s'' h s₃ hR
    obtain ⟨a, rest, s', hb, hl, rfl⟩ := mapM_cons_eq_ok.mp h
    have hmiddle : R s' s'' := (Keeps.mapM htrans hrefl hkeeps l).of_ok hl
    exact mapM_cons_eq_ok.mpr ⟨g a, rest.map g, s₃, hf b hb (htrans _ _ _ hmiddle hR),
      Again.mapM hrefl hkeeps hf l hl hR, rfl⟩

end

/-! ### Errors -/

/-- An action that fails, if it does, with some errors only. -/
def FailsOnly (E : ε → Prop) (x : Action σ ε α) (s : σ) : Prop := ∀ e, (x s).1 = .error e → E e

variable {E E' : ε → Prop} {s : σ}

theorem FailsOnly.mono {x : Action σ ε α} (h : FailsOnly E x s) (himp : ∀ e, E e → E' e) :
    FailsOnly E' x s :=
  fun e he => himp e (h e he)

theorem failsOnly_of_ok {x : Action σ ε α} {a : α} {s' : σ}
    (h : x s = (.ok a, s')) : FailsOnly E x s := by
  intro e he
  rw [h] at he
  cases he

theorem failsOnly_of_error {x : Action σ ε α} {e : ε} {s' : σ}
    (h : x s = (.error e, s')) (he : E e) : FailsOnly E x s := by
  intro e' he'
  rw [h] at he'
  rwa [← Except.error.inj he']

theorem FailsOnly.bind {x : Action σ ε α} {f : α → Action σ ε β} (hx : FailsOnly E x s)
    (hf : ∀ a s', x s = (.ok a, s') → FailsOnly E (f a) s') : FailsOnly E (x >>= f) s := by
  intro e he
  rw [bind_run] at he
  rcases hrun : x s with ⟨e' | a, s'⟩
  · rw [hrun] at he
    obtain rfl : e' = e := Except.error.inj he
    exact hx e' (by rw [hrun])
  · rw [hrun] at he
    exact hf a s' hrun e he

end Sporos.Lib.Actions
