import Mathlib.Tactic

/-! # The truth values of SQL

A condition of a query is true, false, or NULL, and a row is selected where it is true. A comparison
with NULL is NULL, and NULL is neither true nor false for `AND` and `OR`. -/

namespace Sporos.Lib.Ternary

/-- A truth value of SQL, where `NULL` is neither true nor false. -/
abbrev Truth := Option Bool

/-- `AND`. -/
def both : Truth → Truth → Truth
  | some false, _ => some false
  | _, some false => some false
  | some true, some true => some true
  | _, _ => none

/-- `OR`. -/
def either : Truth → Truth → Truth
  | some true, _ => some true
  | _, some true => some true
  | some false, some false => some false
  | _, _ => none

/-- `value IS NULL`. -/
def isNull {α : Type} (value : Option α) : Truth := some value.isNone

@[simp] theorem isNull_eq_true {α : Type} {value : Option α} :
    isNull value = some true ↔ value = none := by
  simp [isNull]

section

variable {α : Type} [DecidableEq α]

/-- `left = right`. -/
def equal (left right : Option α) : Truth := left.bind fun a => right.map fun b => decide (a = b)

/-- `value IN (…)`, for a list without NULL. -/
def oneOf (value : Option α) (values : List α) : Truth := value.map values.contains

@[simp] theorem both_eq_true {p q : Truth} :
    both p q = some true ↔ p = some true ∧ q = some true := by
  rcases p with - | (- | -) <;> rcases q with - | (- | -) <;> decide

@[simp] theorem either_eq_true {p q : Truth} :
    either p q = some true ↔ p = some true ∨ q = some true := by
  rcases p with - | (- | -) <;> rcases q with - | (- | -) <;> decide

@[simp] theorem equal_eq_true {left right : Option α} :
    equal left right = some true ↔ left = right ∧ left.isSome = true := by
  cases left <;> cases right <;> simp [equal]

@[simp] theorem oneOf_eq_true {value : α} {values : List α} :
    oneOf (some value) values = some true ↔ value ∈ values := by
  simp [oneOf]

/-- **A comparison that NULL passes**, on either side. -/
theorem null_or_equal_iff {left right : Option α} :
    either (either (isNull left) (isNull right)) (equal left right) = some true
      ↔ ∀ a b, left = some a → right = some b → a = b := by
  cases left <;> cases right <;> simp

end

end Sporos.Lib.Ternary
