import Mathlib.Tactic

/-! # Programs that may be interrupted

A program is a tree of operations. Each operation is atomic; between two operations the state may
change by what others do (`Rely`), and the program may be dropped for good. `Safe` says that an
invariant holds at every such point, that every operation is performed in a state that allows it,
and what holds at the end. -/

namespace Sporos.Lib.Program

/-- A program that performs operations of `ε` and returns an `α`, or fails. -/
inductive Prog (ε : Type → Type) (α : Type) : Type 1 where
  | ret (a : α)
  | fail
  | op {β : Type} (e : ε β) (k : β → Prog ε α)

namespace Prog

variable {ε : Type → Type} {α β : Type}

/-- Run a program, then another one on its result. -/
def bind : Prog ε α → (α → Prog ε β) → Prog ε β
  | .ret a, f => f a
  | .fail, _ => .fail
  | .op e k, f => .op e fun b => (k b).bind f

instance : Monad (Prog ε) where
  pure := .ret
  bind := bind

/-- The program of one operation. -/
def perform (e : ε α) : Prog ε α := .op e .ret

@[simp]
theorem pure_eq (a : α) : (pure a : Prog ε α) = .ret a := rfl

@[simp]
theorem ret_bind (a : α) (f : α → Prog ε β) : ((.ret a : Prog ε α) >>= f) = f a := rfl

@[simp]
theorem fail_bind (f : α → Prog ε β) : ((.fail : Prog ε α) >>= f) = .fail := rfl

@[simp]
theorem op_bind {γ : Type} (e : ε γ) (k : γ → Prog ε α) (f : α → Prog ε β) :
    ((.op e k : Prog ε α) >>= f) = .op e fun c => k c >>= f := rfl

@[simp]
theorem perform_bind (e : ε α) (f : α → Prog ε β) : (perform e >>= f) = .op e f := rfl

end Prog

section

variable {ε : Type → Type} {σ α β : Type} (exec : {γ : Type} → ε γ → σ → γ × σ)

/-- A run without interruptions: the result, if the program does not fail, and the state after it.
-/
def Prog.run : Prog ε α → σ → Option α × σ
  | .ret a, s => (some a, s)
  | .fail, s => (none, s)
  | .op e k, s => (k (exec e s).1).run (exec e s).2

theorem Prog.run_bind {p : Prog ε β} {f : β → Prog ε α} {s : σ} {b : β}
    (h : (p.run exec s).1 = some b) : (p >>= f).run exec s = (f b).run exec (p.run exec s).2 := by
  induction p generalizing s with
  | ret a =>
    obtain rfl : a = b := Option.some.inj h
    rfl
  | fail => cases h
  | op e k ih => exact ih _ h

end

section

variable {ε : Type → Type} {α β : Type} (R : {γ : Type} → ε γ → Prop)

/-- The program performs only operations of `R`, and its result satisfies `Q`. -/
def Within (Q : α → Prop) : Prog ε α → Prop
  | .ret a => Q a
  | .fail => True
  | .op e k => R e ∧ ∀ b, Within Q (k b)

variable {R}

theorem Within.perform {Q : α → Prop} {e : ε β} {f : β → Prog ε α} (he : R e)
    (h : ∀ b, Within @R Q (f b)) : Within @R Q (Prog.perform e >>= f) := ⟨he, h⟩

theorem Within.bind {Q : α → Prop} {p : Prog ε β} {f : β → Prog ε α}
    (h : Within @R (fun b => Within @R Q (f b)) p) : Within @R Q (p >>= f) := by
  induction p with
  | ret b => exact h
  | fail => trivial
  | op e k ih => exact ⟨h.1, fun b => ih b (h.2 b)⟩

theorem Within.mono {Q Q' : α → Prop} {p : Prog ε α} (h : Within @R Q p) (himp : ∀ a, Q a → Q' a) :
    Within @R Q' p := by
  induction p with
  | ret a => exact himp a h
  | fail => trivial
  | op e k ih => exact ⟨h.1, fun b => ih b (h.2 b)⟩

/-- Every program performs some operations. -/
theorem within_any (p : Prog ε α) : Within (fun _ => True) (fun _ => True) p := by
  induction p with
  | ret a => trivial
  | fail => trivial
  | op e k ih => exact ⟨trivial, ih⟩

theorem Within.imp {R' : {γ : Type} → ε γ → Prop} (himp : ∀ {γ : Type} (e : ε γ), R e → R' e)
    {Q : α → Prop} {p : Prog ε α} (h : Within @R Q p) : Within @R' Q p := by
  induction p with
  | ret a => exact h
  | fail => trivial
  | op e k ih => exact ⟨himp e h.1, fun b => ih b (h.2 b)⟩

end

section

variable {ε : Type → Type} {σ α β : Type} (exec : {γ : Type} → ε γ → σ → γ × σ)
  (Rely : σ → σ → Prop) (Assume : {γ : Type} → ε γ → σ → Prop) (I : σ → Prop)
  (Ok : {γ : Type} → ε γ → σ → Prop)

/-- The program keeps the invariant, performs only operations that are allowed, and ends as told, as
long as what is assumed holds of the operations that it performs. -/
def Safe (Post : α → σ → Prop) : Prog ε α → σ → Prop
  | .ret a, s => ∀ s', Rely s s' → I s' ∧ Post a s'
  | .fail, s => ∀ s', Rely s s' → I s'
  | .op e k, s => ∀ s', Rely s s' →
      I s' ∧ Ok e s' ∧ (Assume e s' → Safe Post (k (exec e s').1) (exec e s').2)

variable {exec Rely Assume I Ok} {Post : α → σ → Prop}

/-- What others do leaves a program safe. -/
theorem Safe.rely (htrans : ∀ s₁ s₂ s₃, Rely s₁ s₂ → Rely s₂ s₃ → Rely s₁ s₃)
    {p : Prog ε α} {s s' : σ} (h : Safe exec Rely @Assume I @Ok Post p s) (hrely : Rely s s') :
    Safe exec Rely @Assume I @Ok Post p s' := by
  cases p with
  | ret a => exact fun s'' h'' => h s'' (htrans s s' s'' hrely h'')
  | fail => exact fun s'' h'' => h s'' (htrans s s' s'' hrely h'')
  | op e k => exact fun s'' h'' => h s'' (htrans s s' s'' hrely h'')

theorem Safe.invariant (hrefl : ∀ s, Rely s s) {p : Prog ε α} {s : σ}
    (h : Safe exec Rely @Assume I @Ok Post p s) : I s := by
  cases p with
  | ret a => exact (h s (hrefl s)).1
  | fail => exact h s (hrefl s)
  | op e k => exact (h s (hrefl s)).1

theorem Safe.bind (hrefl : ∀ s, Rely s s) {p : Prog ε β} {f : β → Prog ε α} {s : σ}
    (h : Safe exec Rely @Assume I @Ok (fun b => Safe exec Rely @Assume I @Ok Post (f b)) p s) :
    Safe exec Rely @Assume I @Ok Post (p >>= f) s := by
  induction p generalizing s with
  | ret b => exact (h s (hrefl s)).2
  | fail => exact h
  | op e k ih =>
    intro s' hrely
    obtain ⟨hI, hok, hrest⟩ := h s' hrely
    exact ⟨hI, hok, fun hassume => ih _ (hrest hassume)⟩

section

variable {K : σ → Prop} (hstable : ∀ s s', K s → Rely s s' → K s') (hI : ∀ s, K s → I s)

include hstable hI

/-- The first operation, from what is known and what others leave true. -/
theorem Safe.perform {γ : Type} {e : ε γ} {f : γ → Prog ε α} {s : σ} (hs : K s)
    (hok : ∀ s', K s' → Ok e s')
    (h : ∀ s', K s' → Assume e s' →
      Safe exec Rely @Assume I @Ok Post (f (exec e s').1) (exec e s').2) :
    Safe exec Rely @Assume I @Ok Post (Prog.perform e >>= f) s := fun s' hrely =>
  have hs' := hstable s s' hs hrely
  ⟨hI s' hs', hok s' hs', h s' hs'⟩

theorem Safe.ret {a : α} {s : σ} (hs : K s) (hpost : ∀ s', K s' → Post a s') :
    Safe exec Rely @Assume I @Ok Post (.ret a) s := fun s' hrely =>
  have hs' := hstable s s' hs hrely
  ⟨hI s' hs', hpost s' hs'⟩

theorem Safe.fail {s : σ} (hs : K s) : Safe exec Rely @Assume I @Ok Post (.fail : Prog ε α) s :=
  fun s' hrely => hI s' (hstable s s' hs hrely)

/-- **The frame rule.** If every operation of a program keeps what is known, the program is safe. -/
theorem Safe.of_within {R : {γ : Type} → ε γ → Prop} {Q : α → Prop}
    (hexec : ∀ {γ : Type} (e : ε γ) s, R e → K s → K (exec e s).2)
    (hok : ∀ {γ : Type} (e : ε γ) s, R e → K s → Ok e s) (hpost : ∀ a s, Q a → K s → Post a s)
    {p : Prog ε α} (h : Within @R Q p) {s : σ} (hs : K s) :
    Safe exec Rely @Assume I @Ok Post p s := by
  induction p generalizing s with
  | ret a => exact Safe.ret hstable hI hs fun s' hs' => hpost a s' h hs'
  | fail => exact Safe.fail hstable hI hs
  | op e k ih =>
    exact Safe.perform hstable hI hs (fun s' hs' => hok e s' h.1 hs')
      fun s' hs' _ => ih _ (h.2 _) (hexec e s' h.1 hs')

end

end

end Sporos.Lib.Program
