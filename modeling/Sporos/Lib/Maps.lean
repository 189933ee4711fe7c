import Sporos.Lib.Table

/-! # Maps

Finite maps as lists of pairs: a key that is put again keeps its place and gets the new value. -/

namespace Sporos.Lib.Maps

open Sporos.Lib.Table

variable {κ β : Type*} [DecidableEq κ] {m : List (κ × β)} {k k' : κ} {v : β}

/-- The value of a key. -/
def get (m : List (κ × β)) (k : κ) : Option β := (lookup Prod.fst m k).map Prod.snd

/-- The map with a new value of a key. -/
def put (m : List (κ × β)) (k : κ) (v : β) : List (κ × β) :=
  upsert Prod.fst m (k, v) fun row => (row.1, v)

theorem get_put (m : List (κ × β)) (k : κ) (v : β) (k' : κ) :
    get (put m k v) k' = if k' = k then some v else get m k' := by
  have hkey : ∀ row : κ × β, Prod.fst ((fun row : κ × β => (row.1, v)) row) =
    Prod.fst row := fun row => rfl
  unfold get put
  rw [lookup_upsert hkey]
  by_cases h : k' = k
  · rw [if_pos h, if_pos h]
    cases lookup Prod.fst m k' <;> rfl
  · rw [if_neg h, if_neg h]

theorem get_eq_some_mem (h : get m k = some v) : (k, v) ∈ m := by
  obtain ⟨row, hrow, rfl⟩ := Option.map_eq_some_iff.mp h
  obtain ⟨hmem, rfl⟩ := lookup_eq_some_mem hrow
  exact hmem

theorem get_eq_none : get m k = none ↔ ∀ v, (k, v) ∉ m := by
  rw [get, Option.map_eq_none_iff, lookup_eq_none]
  exact ⟨fun h v hv => h (k, v) hv rfl, fun h row hrow hk => h row.2 (hk ▸ hrow)⟩

theorem get_append (m m' : List (κ × β)) (k : κ) : get (m ++ m') k = (get m k).or (get m' k) := by
  unfold get
  rw [lookup_append]
  cases lookup Prod.fst m k <;> rfl

theorem get_singleton (k : κ) (v : β) (k' : κ) :
    get [(k, v)] k' = if k = k' then some v else none := by
  unfold get lookup
  rw [List.find?_cons]
  by_cases h : k = k' <;> simp [h]

end Sporos.Lib.Maps
