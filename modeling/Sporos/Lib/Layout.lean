import Mathlib.Tactic

/-! # Placing items one after another

Items of given sizes are placed from a cursor on, each at the first place that a function finds at
or after the cursor. -/

namespace Sporos.Lib.Layout

section

variable (start : ℕ → ℕ)

/-- The places and the sizes of the items. -/
def place : ℕ → List ℕ → List (ℕ × ℕ)
  | _, [] => []
  | cursor, size :: sizes => (start cursor, size) :: place (start cursor + size) sizes

/-- The cursor after the last item. -/
def finish : ℕ → List ℕ → ℕ
  | cursor, [] => cursor
  | cursor, size :: sizes => finish (start cursor + size) sizes

end

/-- The first multiple at or after an offset. -/
def alignUp (unit offset : ℕ) : ℕ := (offset + unit - 1) / unit * unit

theorem le_alignUp {unit : ℕ} (hunit : 0 < unit) (offset : ℕ) : offset ≤ alignUp unit offset := by
  have hmod := Nat.div_add_mod (offset + unit - 1) unit
  have hlt := Nat.mod_lt (offset + unit - 1) hunit
  rw [alignUp, Nat.mul_comm]
  omega

theorem dvd_alignUp (unit offset : ℕ) : unit ∣ alignUp unit offset := Dvd.intro_left _ rfl

theorem alignUp_eq {unit : ℕ} (hunit : 0 < unit) (offset : ℕ) :
    alignUp unit offset = if offset % unit = 0 then offset
      else offset + (unit - offset % unit) := by
  have hdiv := Nat.div_add_mod offset unit
  have hlt := Nat.mod_lt offset hunit
  have hsplit : offset + unit - 1 = unit * (offset / unit) + (offset % unit + unit - 1) := by omega
  rw [alignUp, hsplit, Nat.mul_add_div hunit]
  split_ifs with hzero
  · have hquotient : (offset % unit + unit - 1) / unit = 0 := Nat.div_eq_of_lt (by omega)
    rw [hquotient, Nat.add_zero, Nat.mul_comm]
    omega
  · have hquotient : (offset % unit + unit - 1) / unit = 1 := by
      rw [show offset % unit + unit - 1 = (offset % unit - 1) + unit by omega,
        Nat.add_div_right _ hunit]
      exact congrArg (· + 1) (Nat.div_eq_of_lt (by omega))
    rw [hquotient, Nat.add_mul, Nat.one_mul, Nat.mul_comm]
    omega

section

variable {start : ℕ → ℕ} (hstart : ∀ offset, offset ≤ start offset)
include hstart

theorem le_finish (sizes : List ℕ) : ∀ cursor, cursor ≤ finish start cursor sizes := by
  induction sizes with
  | nil => exact fun cursor => le_rfl
  | cons size sizes ih =>
    intro cursor
    calc cursor ≤ start cursor + size := (hstart cursor).trans (Nat.le_add_right _ _)
      _ ≤ finish start cursor (size :: sizes) := ih _

/-- An item is between the cursor and the end. -/
theorem place_bounds (sizes : List ℕ) : ∀ cursor, ∀ item ∈ place start cursor sizes,
    cursor ≤ item.1 ∧ item.1 + item.2 ≤ finish start cursor sizes := by
  induction sizes with
  | nil => exact fun cursor item hitem => by simp [place] at hitem
  | cons size sizes ih =>
    intro cursor item hitem
    rcases List.mem_cons.mp hitem with rfl | hitem
    · exact ⟨hstart cursor, le_finish hstart sizes _⟩
    · obtain ⟨hlow, hhigh⟩ := ih _ item hitem
      exact ⟨((hstart cursor).trans (Nat.le_add_right _ _)).trans hlow, hhigh⟩

/-- No item begins before the end of an earlier one. -/
theorem place_ordered (sizes : List ℕ) : ∀ cursor,
    (place start cursor sizes).Pairwise fun item later => item.1 + item.2 ≤ later.1 := by
  induction sizes with
  | nil => exact fun cursor => List.Pairwise.nil
  | cons size sizes ih =>
    intro cursor
    exact List.pairwise_cons.mpr ⟨fun item hitem =>
      (place_bounds hstart sizes _ item hitem).1, ih _⟩

theorem add_sum_le_finish (sizes : List ℕ) :
    ∀ cursor, cursor + sizes.sum ≤ finish start cursor sizes := by
  induction sizes with
  | nil => exact fun cursor => le_rfl
  | cons size sizes ih =>
    intro cursor
    have hcursor := hstart cursor
    have hrest := ih (start cursor + size)
    rw [List.sum_cons, finish]
    omega

/-- The largest end is the cursor after the last item. -/
theorem foldr_max_place (sizes : List ℕ) (hsizes : sizes ≠ []) : ∀ cursor,
    ((place start cursor sizes).map fun item => item.1 + item.2).foldr max 0 =
      finish start cursor sizes := by
  induction sizes with
  | nil => exact absurd rfl hsizes
  | cons size sizes ih =>
    intro cursor
    rw [place, List.map_cons, List.foldr_cons, finish]
    cases sizes with
    | nil => simp [place, finish]
    | cons size' sizes =>
      rw [ih (by simp)]
      exact max_eq_right (le_finish hstart _ _)

end

/-- The last item ends at the cursor after it. -/
theorem getLast?_place (start : ℕ → ℕ) (sizes : List ℕ) (hsizes : sizes ≠ []) : ∀ cursor, ∃ item,
    (place start cursor sizes).getLast? = some item ∧ item.1 + item.2 =
      finish start cursor sizes := by
  induction sizes with
  | nil => exact absurd rfl hsizes
  | cons size sizes ih =>
    intro cursor
    cases sizes with
    | nil => exact ⟨(start cursor, size), rfl, rfl⟩
    | cons size' sizes =>
      obtain ⟨item, hlast, hend⟩ := ih (by simp) (start cursor + size)
      refine ⟨item, ?_, hend⟩
      rw [place, List.getLast?_cons, hlast]
      rfl

theorem map_snd_place (start : ℕ → ℕ) (sizes : List ℕ) :
    ∀ cursor, (place start cursor sizes).map Prod.snd = sizes := by
  induction sizes with
  | nil => exact fun cursor => rfl
  | cons size sizes ih => exact fun cursor => congrArg (size :: ·) (ih _)

/-- Items that are placed without gaps. -/
theorem finish_id (sizes : List ℕ) : ∀ cursor, finish id cursor sizes = cursor + sizes.sum := by
  induction sizes with
  | nil => exact fun cursor => rfl
  | cons size sizes ih =>
    intro cursor
    rw [finish, ih, List.sum_cons, id, Nat.add_assoc]

theorem place_id_getElem? (sizes : List ℕ) : ∀ cursor index, (place id cursor sizes)[index]?
    = sizes[index]?.map fun size => (cursor + (sizes.take index).sum, size) := by
  induction sizes with
  | nil => exact fun cursor index => rfl
  | cons size sizes ih =>
    intro cursor index
    cases index with
    | zero => simp [place]
    | succ index =>
      rw [place, List.getElem?_cons_succ, ih, List.getElem?_cons_succ, List.take_succ_cons,
        List.sum_cons, id, Nat.add_assoc]

theorem place_alignUp_dvd (unit : ℕ) (sizes : List ℕ) : ∀ cursor,
    ∀ item ∈ place (alignUp unit) cursor sizes,
    unit ∣ item.1 := by
  induction sizes with
  | nil => exact fun cursor item hitem => by simp [place] at hitem
  | cons size sizes ih =>
    intro cursor item hitem
    rcases List.mem_cons.mp hitem with rfl | hitem
    · exact dvd_alignUp unit cursor
    · exact ih _ item hitem

end Sporos.Lib.Layout
