import Mathlib.Tactic
import Mathlib.Data.List.GetD

/-! # Checked machine code

Computations that stop where a program would go wrong: at a number that leaves the range of its
type, an index out of bounds, an `expect` of nothing, an assertion that fails, or a loop that does
not end. A vector stands for a function on its indices (`vec`). A loop gives the result of its
counterpart without checks, if every iteration does where the loop comes to it (`foldlM_eq_ok`). -/

namespace Sporos.Lib.Checked

open Function (update)

/-- Why a checked computation panics, or does not end. -/
inductive Fault where
  | overflow
  | outOfBounds
  | expected
  | asserted
  | diverged
  deriving DecidableEq, Repr

/-! ### Numbers -/

/-- A number that has to fit into 64 bits. -/
def u64 (n : ℕ) : Except Fault ℕ := if n < 2 ^ 64 then .ok n else .error .overflow

/-- A number that has to fit into 128 bits. -/
def u128 (n : ℕ) : Except Fault ℕ := if n < 2 ^ 128 then .ok n else .error .overflow

/-- `i128::MAX`. -/
def i128Max : ℤ := 2 ^ 127 - 1

/-- An integer that has to fit into 128 bits. -/
def i128 (x : ℤ) : Except Fault ℤ := if -2 ^ 127 ≤ x ∧ x ≤ i128Max then .ok x else .error .overflow

/-- `saturating_add` of `u128`. -/
def saturatingAdd (a b : ℕ) : ℕ := min (a + b) (2 ^ 128 - 1)

/-- `n - 1` of an unsigned number. -/
def pred (n : ℕ) : Except Fault ℕ := if n = 0 then .error .overflow else .ok (n - 1)

/-- A number of an unsigned type of some width. -/
def unsigned (width n : ℕ) : Except Fault ℕ := if n < 2 ^ width then .ok n else .error .overflow

/-- `n - m` of unsigned numbers. -/
def sub (n m : ℕ) : Except Fault ℕ := if m ≤ n then .ok (n - m) else .error .overflow

theorem u64_eq {n : ℕ} (h : n < 2 ^ 64) : u64 n = .ok n := if_pos h

theorem u128_eq {n : ℕ} (h : n < 2 ^ 128) : u128 n = .ok n := if_pos h

theorem i128_eq {x : ℤ} (hlow : -2 ^ 127 ≤ x) (hhigh : x ≤ i128Max) : i128 x = .ok x :=
  if_pos ⟨hlow, hhigh⟩

theorem pred_eq {n : ℕ} (h : n ≠ 0) : pred n = .ok (n - 1) := if_neg h

theorem unsigned_eq {width n : ℕ} (h : n < 2 ^ width) : unsigned width n = .ok n := if_pos h

theorem sub_eq {n m : ℕ} (h : m ≤ n) : sub n m = .ok (n - m) := if_pos h

/-- The sum of numbers, checked after every addition. -/
def sum (check : ℕ → Except Fault ℕ) (l : List ℕ) : Except Fault ℕ :=
  l.foldlM (fun total n => check (total + n)) 0

/-! ### Vectors -/

section

variable {α β σ τ : Type}

/-- `v[i]`, where the index has to be within the bounds. -/
def getAt (v : List α) (i : ℕ) : Except Fault α :=
  match v[i]? with
  | some x => .ok x
  | none => .error .outOfBounds

/-- `v[i] = x`, where the index has to be within the bounds. -/
def setAt (v : List α) (i : ℕ) (x : α) : Except Fault (List α) :=
  if i < v.length then .ok (v.set i x) else .error .outOfBounds

/-- `&v[start..stop]`. -/
def slice (v : List α) (start stop : ℕ) : Except Fault (List α) :=
  if start ≤ stop ∧ stop ≤ v.length then .ok ((v.drop start).take (stop - start))
    else .error .outOfBounds

/-- `Option::expect`. -/
def expect (o : Option α) : Except Fault α :=
  match o with
  | some x => .ok x
  | none => .error .expected

/-- `assert!`. -/
def assert (p : Prop) [Decidable p] : Except Fault Unit := if p then .ok () else .error .asserted

/-- The vector of the values of a function. -/
def vec (n : ℕ) (f : ℕ → α) : List α := (List.range n).map f

@[simp]
theorem ok_bind (a : α) (f : α → Except Fault β) : (Except.ok a >>= f) = f a := rfl

theorem getAt_eq {v : List α} {i : ℕ} {x : α} (h : v[i]? = some x) : getAt v i = .ok x := by
  unfold getAt
  rw [h]

theorem slice_eq {v : List α} {start stop : ℕ} (h : start ≤ stop) (hstop : stop ≤ v.length) :
    slice v start stop = .ok ((v.drop start).take (stop - start)) := if_pos ⟨h, hstop⟩

theorem assert_eq {p : Prop} [Decidable p] (h : p) : assert p = .ok () := if_pos h

theorem length_vec (n : ℕ) (f : ℕ → α) : (vec n f).length = n := by simp [vec]

theorem getAt_vec {n i : ℕ} (f : ℕ → α) (h : i < n) : getAt (vec n f) i = .ok (f i) :=
  getAt_eq (by simp [vec, h])

theorem setAt_vec {n i : ℕ} (f : ℕ → α) (x : α) (h : i < n) :
    setAt (vec n f) i x = .ok (vec n (update f i x)) := by
  unfold setAt
  rw [if_pos (by rwa [length_vec])]
  refine congrArg _ (List.ext_getElem (by simp [vec]) fun j hj _ => ?_)
  by_cases hij : i = j
  · subst hij; simp [vec]
  · simp [vec, hij, Function.update_of_ne (Ne.symm hij)]

theorem replicate_eq_vec (n : ℕ) (x : α) : List.replicate n x = vec n fun _ => x := by
  simp [vec, List.map_const']

/-! ### Loops -/

/-- **A loop** gives the result of the loop without checks, if every iteration does in the state to
which the loop without checks comes. -/
theorem foldlM_eq_ok {f : σ → α → Except Fault σ} {g : τ → α → τ} (rep : τ → σ) :
    ∀ (l : List α) (t : τ),
    (∀ before x after, l = before ++ x :: after →
      f (rep (before.foldl g t)) x = .ok (rep (g (before.foldl g t) x))) →
    l.foldlM f (rep t) = .ok (rep (l.foldl g t))
  | [], t, _ => rfl
  | x :: l, t, h => by
    have hx : f (rep t) x = .ok (rep (g t x)) := h [] x l rfl
    rw [List.foldlM_cons, hx, ok_bind, List.foldl_cons]
    exact foldlM_eq_ok rep l (g t x) fun before y after hl =>
      h (x :: before) y after (by rw [hl]; rfl)

/-- The sums on the way are at most the whole sum. -/
theorem foldlM_add_eq {check : ℕ → Except Fault ℕ} : ∀ (l : List ℕ) (total : ℕ),
    (∀ n ≤ total + l.sum, check n = .ok n) →
    l.foldlM (fun total n => check (total + n)) total = .ok (total + l.sum)
  | [], _, _ => rfl
  | x :: l, total, h => by
    rw [List.sum_cons, ← Nat.add_assoc] at h ⊢
    rw [List.foldlM_cons, h (total + x) (Nat.le_add_right _ _), ok_bind]
    exact foldlM_add_eq l (total + x) h

theorem sum_eq {check : ℕ → Except Fault ℕ} {l : List ℕ} (h : ∀ n ≤ l.sum, check n = .ok n) :
    sum check l = .ok l.sum := by
  have := foldlM_add_eq l 0 (by rwa [Nat.zero_add])
  rwa [Nat.zero_add] at this

example : sum u64 [2 ^ 63, 2 ^ 63] = .error .overflow := by decide

theorem anyM_eq_ok {f : α → Except Fault Bool} {g : α → Bool} :
    ∀ l : List α, (∀ x ∈ l, f x = .ok (g x)) → l.anyM f = .ok (l.any g)
  | [], _ => rfl
  | x :: l, h => by
    rw [List.anyM, h x (by simp), ok_bind, List.any_cons]
    cases g x with
    | true => rfl
    | false => exact anyM_eq_ok l fun y hy => h y (List.mem_cons_of_mem x hy)

theorem findSomeM?_eq_ok {f : α → Except Fault (Option β)} {g : α → Option β} :
    ∀ l : List α, (∀ x ∈ l, f x = .ok (g x)) → l.findSomeM? f = .ok (l.findSome? g)
  | [], _ => rfl
  | x :: l, h => by
    rw [List.findSomeM?, h x (by simp), ok_bind, List.findSome?_cons]
    cases g x with
    | some y => rfl
    | none => exact findSomeM?_eq_ok l fun y hy => h y (List.mem_cons_of_mem x hy)

/-- A loop that may be left early. -/
def foldStop {ε : Type} (f : σ → α → Except Fault (Except ε σ)) : List α → σ →
    Except Fault (Except ε σ)
  | [], s => .ok (.ok s)
  | x :: l, s => do
    match ← f s x with
    | .error e => return .error e
    | .ok s => foldStop f l s

/-- **A loop that may be left early** gives the result of the loop without checks, if every
iteration does where the invariant `P` of the loop without checks holds. -/
theorem foldStop_eq {ε : Type} {f : σ → α → Except Fault (Except ε σ)} {g : τ → α → Except ε τ}
    (rep : τ → σ) (P : List α → τ → Prop) {l : List α}
    (h : ∀ before x after t, l = before ++ x :: after → P before t →
      f (rep t) x = .ok ((g t x).map rep) ∧ ∀ t', g t x = .ok t' → P (before ++ [x]) t') :
    ∀ (rest before : List α) (t : τ), l = before ++ rest → P before t →
      foldStop f rest (rep t) = .ok ((rest.foldlM g t).map rep)
  | [], _, _, _, _ => rfl
  | x :: rest, before, t, hl, hP => by
    obtain ⟨hx, hnext⟩ := h before x rest t hl hP
    rw [foldStop, hx, ok_bind, List.foldlM_cons]
    cases hg : g t x with
    | error e => rfl
    | ok t' => exact foldStop_eq rep P h rest (before ++ [x]) t' (by rw [hl]; simp) (hnext t' hg)

end

/-! ### Tables -/

section

variable {α β κ : Type}

/-- Write an entry of a table given by its rows. -/
def setAt₂ (rows : List (List α)) (i j : ℕ) (x : α) : Except Fault (List (List α)) := do
  setAt rows i (← setAt (← getAt rows i) j x)

theorem setAt₂_vec {n m i j : ℕ} (f : ℕ → ℕ → α) (x : α) (hi : i < n) (hj : j < m) :
    setAt₂ (vec n fun r => vec m (f r)) i j x =
      .ok (vec n fun r => vec m (update f i (update (f i) j x) r)) := by
  unfold setAt₂
  rw [getAt_vec _ hi, ok_bind, setAt_vec _ _ hj, ok_bind, setAt_vec _ _ hi]
  refine congrArg (fun g => Except.ok (vec n g)) (funext fun r => ?_)
  by_cases hr : r = i
  · subst hr; simp
  · simp [hr]

theorem map_eq_vec (f : α → β) (d : α) (l : List α) :
    l.map f = vec l.length fun i => f (l.getD i d) := by
  refine List.ext_getElem (by simp [vec]) fun i hi _ => ?_
  simp only [List.length_map] at hi
  simp [vec, List.getElem?_eq_getElem hi]

theorem vec_congr {n : ℕ} {f g : ℕ → α} (h : ∀ i < n, f i = g i) : vec n f = vec n g :=
  List.map_congr_left fun i hi => h i (List.mem_range.mp hi)

/-- A loop that writes only one entry is one write of that entry. -/
theorem foldl_update_self [DecidableEq κ] (k : κ) (h : β → α → β) : ∀ (l : List α) (f : κ → β),
    l.foldl (fun f x => update f k (h (f k) x)) f = update f k (l.foldl h (f k))
  | [], f => by simp
  | x :: l, f => by
    rw [List.foldl_cons, foldl_update_self k h l, List.foldl_cons]
    simp

/-- A loop that writes different entries: an entry that it does not write. -/
theorem foldl_update_of_notMem [DecidableEq κ] (key : α → κ) (h : α → β → β) {k : κ} :
    ∀ (l : List α) (f : κ → β), k ∉ l.map key →
      l.foldl (fun f x => update f (key x) (h x (f (key x)))) f k = f k
  | [], _, _ => rfl
  | x :: l, f, hk => by
    simp only [List.map_cons, List.mem_cons, not_or] at hk
    rw [List.foldl_cons, foldl_update_of_notMem key h l _ hk.2, Function.update_of_ne hk.1]

/-- A loop that writes different entries: an entry that it writes. -/
theorem foldl_update_of_mem [DecidableEq κ] (key : α → κ) (h : α → β → β) {x : α} :
    ∀ (l : List α) (f : κ → β), (l.map key).Nodup → x ∈ l →
      l.foldl (fun f x => update f (key x) (h x (f (key x)))) f (key x) = h x (f (key x))
  | y :: l, f, hl, hx => by
    rw [List.map_cons, List.nodup_cons] at hl
    rw [List.foldl_cons]
    rcases List.mem_cons.mp hx with rfl | hx
    · rw [foldl_update_of_notMem key h l _ hl.1, Function.update_self]
    · rw [foldl_update_of_mem key h l _ hl.2 hx,
        Function.update_of_ne fun he : key x = key y => hl.1 (he ▸ List.mem_map_of_mem hx)]

end

end Sporos.Lib.Checked
