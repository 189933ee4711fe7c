import Mathlib

/-! # Changes over a base

A map is kept as a base and the changes since: a key has a new value, has been cleared, or is as in
the base. Reading through the changes is reading the map. -/

namespace Sporos.Lib.Overlay

variable {κ ν : Type*} [DecidableEq κ]

/-- The map that the changes make of the base. -/
def overlay (changes : κ → Option (Option ν)) (base : κ → Option ν) (key : κ) : Option ν :=
  (changes key).getD (base key)

/-- What can be done to a map. -/
inductive Change (κ ν : Type*) where
  | set (key : κ) (value : ν)
  | clear (key : κ)
  | clearAll

/-- The meaning of a change. -/
def Change.apply (values : κ → Option ν) : Change κ ν → κ → Option ν
  | .set key value => Function.update values key (some value)
  | .clear key => Function.update values key none
  | .clearAll => fun _ => none

/-- The changes after another one. Where everything is cleared, a key that is in the base or in the
changes is marked as cleared. -/
inductive Records (base : κ → Option ν) (changes changes' : κ → Option (Option ν)) :
    Change κ ν → Prop
  | set (key : κ) (value : ν) (h : changes' = Function.update changes key (some (some value))) :
    Records base changes changes' (.set key value)
  | clear (key : κ) (h : changes' = Function.update changes key (some none)) :
    Records base changes changes' (.clear key)
  | clearAll
    (h : ∀ key, changes' key = if changes key = none ∧ base key = none then none else some none) :
    Records base changes changes' .clearAll

omit [DecidableEq κ] in
@[simp] theorem overlay_of_none (base : κ → Option ν) : overlay (fun _ => none) base = base := rfl

/-- **A recorded change changes the map.** -/
theorem overlay_of_records {base : κ → Option ν} {changes changes' : κ → Option (Option ν)}
    {change : Change κ ν} (h : Records base changes changes' change) :
      overlay changes' base = change.apply (overlay changes base) := by
  funext k
  cases h with
  | set key value h =>
    rw [h, Change.apply, overlay]
    by_cases hkey : k = key
    · rw [hkey, Function.update_self, Function.update_self, Option.getD_some]
    · rw [Function.update_of_ne hkey, Function.update_of_ne hkey, overlay]
  | clear key h =>
    rw [h, Change.apply, overlay]
    by_cases hkey : k = key
    · rw [hkey, Function.update_self, Function.update_self, Option.getD_some]
    · rw [Function.update_of_ne hkey, Function.update_of_ne hkey, overlay]
  | clearAll h =>
    rw [overlay, h]
    split_ifs with hnone
    · exact hnone.2
    · rfl

end Sporos.Lib.Overlay
