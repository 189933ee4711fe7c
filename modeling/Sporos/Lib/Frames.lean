import Sporos.Lib.Table

/-! # Parts of a table

The rows that a condition selects are the same after a change of the other rows, and the row of a
key after a deletion, or after a loop of insertions, is found among the old rows and the new ones.
-/

namespace Sporos.Lib.Frames

open Sporos.Lib.Table

section

variable {α β : Type*} {p q : α → Bool} {l : List α}

/-- The selected elements look the same after a change that keeps the selection. -/
theorem map_filter_map {f : α → α} {g : α → β}
    (h : ∀ a ∈ l, p (f a) = p a ∧ (p a = true → g (f a) = g a)) :
    ((l.map f).filter p).map g = (l.filter p).map g := by
  induction l with
  | nil => rfl
  | cons a l ih =>
    have ih := ih fun b hb => h b (List.mem_cons_of_mem _ hb)
    obtain ⟨hp, hg⟩ := h a List.mem_cons_self
    rw [List.map_cons]
    by_cases ha : p a = true
    · rw [List.filter_cons_of_pos (hp.trans ha), List.filter_cons_of_pos ha, List.map_cons,
        List.map_cons, hg ha, ih]
    · rw [List.filter_cons_of_neg (by rwa [hp]), List.filter_cons_of_neg ha, ih]

theorem filter_map_of_frame {f : α → α} (h : ∀ a ∈ l, p (f a) = p a ∧ (p a = true → f a = a)) :
    (l.map f).filter p = l.filter p := by
  have hmap : ((l.map f).filter p).map id = (l.filter p).map id := map_filter_map h
  rwa [List.map_id, List.map_id] at hmap

/-- What has been deleted was not selected. -/
theorem filter_filter_of_imp (h : ∀ a ∈ l, p a = true → q a = true) :
    (l.filter q).filter p = l.filter p := by
  rw [List.filter_filter]
  refine List.filter_congr fun a ha => ?_
  cases hp : p a with
  | false => rfl
  | true => rw [h a ha hp]; rfl

theorem filter_append_of_neg {l' : List α} (h : ∀ a ∈ l', p a = false) :
    (l ++ l').filter p = l.filter p := by
  have hnone : l'.filter p = [] := List.filter_eq_nil_iff.mpr fun a ha => by simp [h a ha]
  rw [List.filter_append, hnone, List.append_nil]

/-- What each step leaves alone, a loop leaves alone. -/
theorem foldl_frame {γ : Type*} {step : α → β → α} (view : α → γ) : ∀ {bs : List β} {a : α},
    (∀ b ∈ bs, ∀ a, view (step a b) = view a) → view (bs.foldl step a) = view a
  | [], _, _ => rfl
  | b :: bs, a, h => by
    rw [List.foldl_cons, foldl_frame view fun b' hb' => h b' (List.mem_cons_of_mem _ hb')]
    exact h b List.mem_cons_self a

end

section

variable {ρ κ : Type*} [DecidableEq κ] {key : ρ → κ} {p : ρ → Bool} {table : List ρ} {new : ρ}
  {f : ρ → ρ} {k : κ}

theorem filter_updateKey (h : ∀ row ∈ table, key row = k → p row = false ∧ p (f row) = false) :
    (updateKey key table k f).filter p = table.filter p := by
  refine filter_map_of_frame fun row hrow => ?_
  by_cases hkey : key row = k
  · obtain ⟨hold, hnew⟩ := h row hrow hkey
    rw [if_pos hkey, hold, hnew]
    exact ⟨rfl, fun h => absurd h (by decide)⟩
  · rw [if_neg hkey]
    exact ⟨rfl, fun _ => rfl⟩

theorem filter_insertOrIgnore (h : p new = false) :
    (insertOrIgnore key table new).filter p = table.filter p := by
  unfold insertOrIgnore
  split_ifs
  · rfl
  · exact filter_append_of_neg fun row hrow => by rwa [List.mem_singleton.mp hrow]

theorem filter_upsert (hnew : p new = false)
    (h : ∀ row ∈ table, key row = key new → p row = false ∧ p (f row) = false) :
    (upsert key table new f).filter p = table.filter p := by
  unfold upsert
  split_ifs
  · exact filter_updateKey h
  · exact filter_append_of_neg fun row hrow => by rwa [List.mem_singleton.mp hrow]

theorem lookup_filter_of_pos (h : ∀ row ∈ table, key row = k → p row = true) :
    lookup key (table.filter p) k = lookup key table k := by
  rw [lookup, lookup, List.find?_filter]
  refine List.find?_congr fun row hrow => ?_
  by_cases hkey : key row = k
  · simp [hkey, h row hrow hkey]
  · simp [hkey]

theorem lookup_filter_of_neg (h : ∀ row ∈ table, key row = k → p row = false) :
    lookup key (table.filter p) k = none := by
  refine lookup_eq_none.mpr fun row hrow hkey => ?_
  obtain ⟨hmem, hp⟩ := List.mem_filter.mp hrow
  rw [h row hmem hkey] at hp
  exact absurd hp (by decide)

/-- Rows inserted one after the other, unless their key is there. -/
theorem lookup_foldl_insertOrIgnore (k : κ) : ∀ (news : List ρ) (table : List ρ),
    lookup key (news.foldl (insertOrIgnore key) table) k =
      (lookup key table k).or (lookup key news k)
  | [], table => by simp [lookup]
  | new :: news, table => by
    rw [List.foldl_cons, lookup_foldl_insertOrIgnore k news, lookup_insertOrIgnore, Option.or_assoc]
    congr 1
    by_cases hkey : key new = k
    · simp [lookup, hkey]
    · simp [lookup, hkey]

/-- Rows put one after the other in the place of those with their key: a column is that of the new
row, if there is one. -/
theorem map_lookup_foldl_upsert {γ : Type*} (column : ρ → γ) (change : ρ → ρ → ρ)
    (hkey : ∀ new row, key (change new row) = key row)
    (hcolumn : ∀ new row, column (change new row) = column new) (k : κ) : ∀ (news : List ρ),
      UniqueKey key news → ∀ table : List ρ,
    (lookup key (news.foldl (fun table new =>
      upsert key table new (change new)) table) k).map column =
      ((lookup key news k).map column).or ((lookup key table k).map column)
  | [], _, table => by simp [lookup]
  | new :: news, hu, table => by
    obtain ⟨hfirst, hu⟩ := List.nodup_cons.mp hu
    rw [List.foldl_cons, map_lookup_foldl_upsert column change hkey hcolumn k news hu,
      lookup_upsert (hkey new)]
    by_cases hnew : k = key new
    · have hnone : lookup key news k = none := lookup_eq_none.mpr fun row hrow hrowKey =>
        hfirst (List.mem_map.mpr ⟨row, hrow, hrowKey.trans hnew⟩)
      have hsome : lookup key (new :: news) k = some new := by simp [lookup, hnew]
      rw [if_pos hnew, hnone, hsome]
      cases lookup key table k with
      | none => rfl
      | some row => simp [hcolumn]
    · have hskip : lookup key (new :: news) k = lookup key news k := by simp [lookup, Ne.symm hnew]
      rw [if_neg hnew, hskip]

end

end Sporos.Lib.Frames
