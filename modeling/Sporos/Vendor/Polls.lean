import Sporos.Vendor.Replay

/-! # Polling an orchestration

A poll ends where the code has returned or where nothing that it awaits is ready: every round takes
a result that is pending, so that there are no more rounds than results. To poll again is then to do
nothing. -/

namespace Sporos.Vendor.Replay

open Sporos.Lib.Maps

variable {ctx ctx' : CtxInner} {token : ℕ} {σ : Type}

/-! ### Results -/

namespace CtxInner

/-- What is ready is a result of an activity or of a timer, or an event for a subscription. -/
theorem ready_eq_some {result : CompletionResult} (h : ctx.ready token = some result) :
    token ∉ ctx.completed
    ∧ ((∃ result', (token, result') ∈ ctx.completionResults)
      ∨ get ctx.futures token = some .queueDequeue ∧ ∃ id name,
        get ctx.tokenBindings token = some id
        ∧ (id, name) ∈ ctx.queueSubscriptions ∧ id ∉ ctx.queueResolvedSubscriptions) := by
  unfold ready at h
  split_ifs at h with hcompleted
  refine ⟨hcompleted, ?_⟩
  split at h
  · cases h
  · cases hresult : get ctx.completionResults token with
    | none =>
      rw [hresult] at h
      cases h
    | some result' => exact .inl ⟨result', get_eq_some_mem hresult⟩
  · cases hresult : get ctx.completionResults token with
    | none =>
      rw [hresult] at h
      cases h
    | some result' => exact .inl ⟨result', get_eq_some_mem hresult⟩
  · rename_i hfuture
    obtain ⟨id, hbound, hdata⟩ := Option.bind_eq_some_iff.mp h
    obtain ⟨data, hmessage, -⟩ := Option.map_eq_some_iff.mp hdata
    refine .inr ⟨hfuture, id, ?_⟩
    unfold queueMessage at hmessage
    cases hname : get ctx.queueSubscriptions id with
    | none =>
      rw [hname] at hmessage
      cases hmessage
    | some name =>
      rw [hname] at hmessage
      dsimp only at hmessage
      split_ifs at hmessage with hresolved
      exact ⟨name, hbound, get_eq_some_mem hname, hresolved⟩

theorem pollFirst_eq_some {tokens : List ℕ} {i : ℕ} {result : CompletionResult}
    (h : ctx.pollFirst tokens = some (i, result, ctx')) :
    ∃ token, ctx.ready token = some result ∧ ctx' = ctx.taken token := by
  induction tokens generalizing i with
  | nil => cases h
  | cons token tokens ih =>
    rw [pollFirst] at h
    cases hready : ctx.ready token with
    | none =>
      rw [hready] at h
      obtain ⟨⟨i', result', ctx₁⟩, hlater, heq⟩ := Option.map_eq_some_iff.mp h
      cases heq
      exact ih hlater
    | some result' =>
      rw [hready] at h
      cases h
      exact ⟨token, hready, rfl⟩

/-- Fewer elements meet a condition that is stronger, and strictly so for one of them. -/
theorem countP_lt {α : Type} {l : List α} {p q : α → Bool} {a : α}
    (hpq : ∀ b ∈ l, q b = true → p b = true) (hmem : a ∈ l) (hp : p a = true) (hq : q a = false) :
      l.countP q < l.countP p := by
  induction l with
  | nil => exact absurd hmem List.not_mem_nil
  | cons b l ih =>
    have htail : ∀ c ∈ l, q c = true → p c = true := fun c hc => hpq c (List.mem_cons_of_mem _ hc)
    rw [List.countP_cons, List.countP_cons]
    rcases List.mem_cons.mp hmem with rfl | hlater
    · have hle : l.countP q ≤ l.countP p := List.countP_mono_left htail
      rw [if_pos hp, if_neg (by rw [hq]; exact Bool.false_ne_true)]
      omega
    · have hlt := ih htail hlater
      have hhead : (if q b = true then 1 else 0) ≤ if p b = true then 1 else 0 := by
        split_ifs with hqb hpb
        · exact le_rfl
        · exact absurd (hpq b List.mem_cons_self hqb) hpb
        · exact Nat.zero_le _
        · exact le_rfl
      omega

/-- A result that is taken is no more pending. -/
theorem pendingResults_taken {result : CompletionResult} (h : ctx.ready token = some result) :
    (ctx.taken token).pendingResults < ctx.pendingResults := by
  obtain ⟨hcompleted, hcase⟩ := ready_eq_some h
  have hsubset : ctx.queueResolvedSubscriptions ⊆ (ctx.taken token).queueResolvedSubscriptions := by
    unfold taken
    dsimp only
    split_ifs
    · cases get ctx.tokenBindings token with
      | none => exact Finset.Subset.refl _
      | some id => exact Finset.subset_insert _ _
    · exact Finset.Subset.refl _
  have hresults : ∀ row ∈ ctx.completionResults,
    decide (row.1 ∉ insert token ctx.completed) = true →
      decide (row.1 ∉ ctx.completed) = true := fun row _ hrow =>
    decide_eq_true fun hmem => of_decide_eq_true hrow (Finset.mem_insert_of_mem hmem)
  have hsubs : ∀ sub ∈ ctx.queueSubscriptions,
      decide (sub.1 ∉ (ctx.taken token).queueResolvedSubscriptions) = true →
      decide (sub.1 ∉ ctx.queueResolvedSubscriptions) = true := fun sub _ hsub =>
    decide_eq_true fun hmem => of_decide_eq_true hsub (hsubset hmem)
  unfold pendingResults
  rw [← List.countP_eq_length_filter, ← List.countP_eq_length_filter,
    ← List.countP_eq_length_filter, ← List.countP_eq_length_filter]
  rcases hcase with ⟨result', hmem⟩ | ⟨hfuture, id, name, hbound, hmem, hresolved⟩
  · refine Nat.add_lt_add_of_lt_of_le (countP_lt hresults hmem (decide_eq_true hcompleted) ?_)
      (List.countP_mono_left hsubs)
    exact decide_eq_false fun hnot => hnot (Finset.mem_insert_self _ _)
  · refine Nat.add_lt_add_of_le_of_lt (List.countP_mono_left hresults)
      (countP_lt hsubs hmem (decide_eq_true hresolved) ?_)
    refine decide_eq_false fun hnot => hnot ?_
    rw [taken, if_pos hfuture, hbound]
    exact Finset.mem_insert_self _ _

/-- What the code does between two awaits leaves the pending results alone. -/
theorem pendingResults_run (code : Code σ) (ctx : CtxInner) :
    (code.run ctx).1.pendingResults = ctx.pendingResults := by
  induction code generalizing ctx with
  | finish output => rfl
  | goto state => rfl
  | request action next ih => exact ih _ _
  | drop token next ih =>
    refine (ih _).trans ?_
    unfold dropFuture
    split_ifs <;> rfl
  | await tokens next ih => rfl

end CtxInner

/-! ### Polls -/

/-- The code has returned, or awaits futures none of which is ready. -/
def Rests (ctx : CtxInner) : Code σ → Prop
  | .finish _ => True
  | .await tokens _ => ctx.pollFirst tokens = none
  | _ => False

/-- The code has returned or awaits something. -/
def Code.Stopped : Code σ → Prop
  | .finish _ | .await _ _ => True
  | _ => False

theorem Code.Guarded.stopped_run {code : Code σ} (h : code.Guarded) (ctx : CtxInner) :
    (code.run ctx).2.Stopped := by
  induction code generalizing ctx with
  | finish output => trivial
  | goto state => exact h.elim
  | request action next ih => exact ih _ (h _) _
  | drop token next ih => exact ih h _
  | await tokens next ih => trivial

/-- The code runs up to where it returns, loops or awaits something. -/
theorem Code.run_cases (code : Code σ) (ctx : CtxInner) :
    (code.run ctx).2.Stopped ∨ ∃ state, (code.run ctx).2 = .goto state := by
  induction code generalizing ctx with
  | finish output => exact .inl trivial
  | goto state => exact .inr ⟨state, rfl⟩
  | request action next ih => exact ih _ _
  | drop token next ih => exact ih _
  | await tokens next ih => exact .inl trivial

namespace Orchestration

variable (o : Orchestration)

theorem enter_spec (ctx : CtxInner) (code : Code o.State) :
    (o.enter ctx code).2.Stopped ∧ (o.enter ctx code).1.pendingResults = ctx.pendingResults := by
  have hpending := CtxInner.pendingResults_run code ctx
  have hcases := code.run_cases ctx
  unfold enter
  generalize code.run ctx = stopped at hpending hcases
  obtain ⟨ctx', code'⟩ := stopped
  rcases hcases with hstopped | ⟨state, heq⟩
  · cases code' with
    | goto state => exact hstopped.elim
    | _ => exact ⟨hstopped, hpending⟩
  · cases heq
    exact ⟨(o.guarded state).stopped_run ctx', (CtxInner.pendingResults_run _ _).trans hpending⟩

theorem pollLoop_rests {n : ℕ} {ctx : CtxInner} {code : Code o.State} (hstopped : code.Stopped)
    (hn : ctx.pendingResults ≤ n) : Rests (o.pollLoop n ctx code).1 (o.pollLoop n ctx code).2 := by
  induction n generalizing ctx code with
  | zero =>
    cases code with
    | finish output => trivial
    | await tokens next =>
      change ctx.pollFirst tokens = none
      cases hfound : ctx.pollFirst tokens with
      | none => rfl
      | some found =>
        -- A result that is ready is pending.
        obtain ⟨i, result, ctx'⟩ := found
        obtain ⟨token, hready, -⟩ := CtxInner.pollFirst_eq_some hfound
        exact absurd (CtxInner.pendingResults_taken hready) (by omega)
    | _ => exact hstopped.elim
  | succ n ih =>
    cases code with
    | finish output => trivial
    | await tokens next =>
      unfold pollLoop
      cases hfound : ctx.pollFirst tokens with
      | none => exact hfound
      | some found =>
        obtain ⟨i, result, ctx'⟩ := found
        obtain ⟨token, hready, rfl⟩ := CtxInner.pollFirst_eq_some hfound
        have hlt := CtxInner.pendingResults_taken hready
        obtain ⟨hentered, hpending⟩ := o.enter_spec (ctx.taken token) (next i result)
        exact ih hentered (by omega)
    | _ => exact hstopped.elim

theorem poll_rests (ctx : CtxInner) (code : Code o.State) :
    Rests (o.poll ctx code).1 (o.poll ctx code).2 :=
  o.pollLoop_rests (o.enter_spec ctx code).1 le_rfl

/-- To poll code that rests is to do nothing. -/
theorem poll_of_rests {ctx : CtxInner} {code : Code o.State} (h : Rests ctx code) :
    o.poll ctx code = (ctx, code) := by
  cases code with
  | finish output =>
    unfold poll
    generalize (o.enter ctx (.finish output)).1.pendingResults = n
    cases n <;> rfl
  | await tokens next =>
    unfold poll
    generalize (o.enter ctx (.await tokens next)).1.pendingResults = n
    change o.pollLoop n ctx (.await tokens next) = (ctx, .await tokens next)
    cases n with
    | zero => rfl
    | succ n =>
      unfold pollLoop
      rw [show ctx.pollFirst tokens = none from h]
  | _ => exact h.elim

/-- **A poll is complete.** Whatever the code and the context are, a poll ends where the code has
returned or where nothing that it awaits is ready, and to poll again is to do nothing. -/
theorem poll_poll (ctx : CtxInner) (code : Code o.State) :
    Rests (o.poll ctx code).1 (o.poll ctx code).2
      ∧ o.poll (o.poll ctx code).1 (o.poll ctx code).2 = o.poll ctx code :=
  ⟨o.poll_rests ctx code, o.poll_of_rests (o.poll_rests ctx code)⟩

end Orchestration

end Sporos.Vendor.Replay
