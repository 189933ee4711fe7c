import Mathlib.Tactic

/-! # Tables

A table is the list of its rows, in the order of insertion. The operations are those of SQL on a
column `key`: the row with a key, insertion that ignores a conflict on the key, and the update of
the rows with a key. -/

namespace Sporos.Lib.Table

section

variable {ρ κ : Type*} [DecidableEq κ] (key : ρ → κ)

/-- The row with a key. -/
def lookup (table : List ρ) (k : κ) : Option ρ := table.find? (fun row => key row = k)

/-- `INSERT … ON CONFLICT(key) DO NOTHING`. -/
def insertOrIgnore (table : List ρ) (row : ρ) : List ρ :=
  if (lookup key table (key row)).isSome then table else table ++ [row]

/-- `UPDATE … WHERE key = k`. -/
def updateKey (table : List ρ) (k : κ) (f : ρ → ρ) : List ρ :=
  table.map (fun row => if key row = k then f row else row)

/-- `INSERT … ON CONFLICT(key) DO UPDATE`. -/
def upsert (table : List ρ) (row : ρ) (f : ρ → ρ) : List ρ :=
  if (lookup key table (key row)).isSome then updateKey key table (key row) f else table ++ [row]

/-- `UNIQUE (key)`. -/
def UniqueKey (table : List ρ) : Prop := (table.map key).Nodup

end

section

variable {ρ κ : Type*} [DecidableEq κ] {key : ρ → κ} {table : List ρ} {row : ρ} {k : κ}

theorem lookup_eq_some_mem (h : lookup key table k = some row) : row ∈ table ∧ key row = k :=
  ⟨List.mem_of_find?_eq_some h, by simpa using List.find?_some h⟩

theorem lookup_eq_none : lookup key table k = none ↔ ∀ row ∈ table, key row ≠ k := by
  simp [lookup, List.find?_eq_none]

theorem lookup_isSome_of_mem (key : ρ → κ) (h : row ∈ table) :
    (lookup key table (key row)).isSome = true := by
  rw [Option.isSome_iff_ne_none]
  exact fun hnone => lookup_eq_none.mp hnone row h rfl

theorem UniqueKey.lookup_of_mem (hu : UniqueKey key table) (h : row ∈ table) (hk : key row = k) :
    lookup key table k = some row := by
  obtain ⟨row', hrow'⟩ := Option.isSome_iff_exists.mp (lookup_isSome_of_mem key h)
  obtain ⟨hmem, hkey⟩ := lookup_eq_some_mem hrow'
  rw [← hk, hrow', List.inj_on_of_nodup_map hu hmem h hkey]

omit [DecidableEq κ] in
/-- In a table with a unique key, a condition that one row alone meets selects that row. -/
theorem UniqueKey.filter_eq (hu : UniqueKey key table) (hmem : row ∈ table) {p : ρ → Bool}
    (hp : ∀ row' ∈ table, p row' = true ↔ row' = row) : table.filter p = [row] := by
  have hnodup : (table.filter p).Nodup := (List.Nodup.of_map key hu).filter p
  refine List.perm_singleton.mp ((List.perm_ext_iff_of_nodup hnodup (by simp)).mpr fun row' => ?_)
  rw [List.mem_filter, List.mem_singleton]
  refine ⟨fun h => (hp row' h.1).mp h.2, ?_⟩
  rintro rfl
  exact ⟨hmem, (hp row' hmem).mpr rfl⟩

theorem lookup_append {rows : List ρ} :
    lookup key (table ++ rows) k = (lookup key table k).or (lookup key rows k) := by
  simp [lookup, List.find?_append]

theorem lookup_append_of_some {rows : List ρ} (h : lookup key table k = some row) :
    lookup key (table ++ rows) k = some row := by
  rw [lookup_append, h, Option.some_or]

theorem lookup_kept {table' : List ρ} (hp : table <+: table') (h : lookup key table k = some row) :
    lookup key table' k = some row := by
  obtain ⟨rows, rfl⟩ := hp
  exact lookup_append_of_some h

theorem prefix_insertOrIgnore (key : ρ → κ) (table : List ρ) (new : ρ) :
    table <+: insertOrIgnore key table new := by
  unfold insertOrIgnore
  split_ifs
  · exact List.prefix_rfl
  · exact List.prefix_append _ _

theorem insertOrIgnore_of_some {new : ρ} (h : lookup key table (key new) = some row) :
    insertOrIgnore key table new = table := by
  rw [insertOrIgnore, h]; rfl

theorem insertOrIgnore_of_none {new : ρ} (h : lookup key table (key new) = none) :
    insertOrIgnore key table new = table ++ [new] := by
  rw [insertOrIgnore, h]; rfl

theorem lookup_insertOrIgnore_of_some {new : ρ} (h : lookup key table k = some row) :
    lookup key (insertOrIgnore key table new) k = some row := by
  unfold insertOrIgnore
  split_ifs
  · exact h
  · exact lookup_append_of_some h

theorem lookup_singleton {new : ρ} :
    lookup key [new] k = if key new = k then some new else none := by
  by_cases h : key new = k <;> simp [lookup, h]

/-- Insertion leaves the old row of the key, or the new row. -/
theorem lookup_insertOrIgnore_self (table : List ρ) (new : ρ) :
    lookup key (insertOrIgnore key table new) (key new) =
      some ((lookup key table (key new)).getD new) := by
  cases h : lookup key table (key new) with
  | none =>
    rw [insertOrIgnore_of_none h, lookup_append, h]
    simp [lookup]
  | some old => rw [insertOrIgnore_of_some h, h]; rfl

theorem lookup_insertOrIgnore (table : List ρ) (new : ρ) (k : κ) :
    lookup key (insertOrIgnore key table new) k = (lookup key table k).or (if key new = k
      then some new else none) := by
  cases h : lookup key table (key new) with
  | none => rw [insertOrIgnore_of_none h, lookup_append, lookup_singleton]
  | some old =>
    rw [insertOrIgnore_of_some h]
    split_ifs with hk
    · rw [← hk, h, Option.some_or]
    · rw [Option.or_none]

theorem mem_insertOrIgnore {new : ρ} (h : row ∈ insertOrIgnore key table new) :
    row ∈ table ∨ (row = new ∧ lookup key table (key new) = none) := by
  cases hl : lookup key table (key new) with
  | none =>
    rw [insertOrIgnore_of_none hl] at h
    simpa using h
  | some old =>
    rw [insertOrIgnore_of_some hl] at h
    exact .inl h

theorem mem_insertOrIgnore_of_mem {new : ρ} (h : row ∈ table) :
    row ∈ insertOrIgnore key table new := by
  unfold insertOrIgnore
  split_ifs <;> simp [h]

theorem unique_append (hu : UniqueKey key table) {new : ρ} (h : lookup key table (key new) = none) :
    UniqueKey key (table ++ [new]) := by
  rw [UniqueKey, List.map_append, List.map_singleton]
  refine List.Nodup.append hu (by simp) fun k hk hk' => ?_
  obtain ⟨row, hrow, rfl⟩ := List.mem_map.mp hk
  exact lookup_eq_none.mp h row hrow (by simpa using hk')

theorem UniqueKey.insertOrIgnore (hu : UniqueKey key table) (new : ρ) :
    UniqueKey key (insertOrIgnore key table new) := by
  cases h : lookup key table (key new) with
  | none => rw [insertOrIgnore_of_none h]; exact unique_append hu h
  | some old => rw [insertOrIgnore_of_some h]; exact hu

theorem lookup_isSome_iff : (lookup key table k).isSome = true ↔ k ∈ table.map key := by
  simp [lookup, List.find?_isSome]

/-- Insertion acts on the keys as it does on other rows in step with them. -/
theorem map_insertOrIgnore {ρ' : Type*} [DecidableEq ρ'] {rows : List ρ'} (f : ρ' → κ)
    (new : ρ) (new' : ρ') (hmap : table.map key = rows.map f) (hnew : key new = f new')
    (hinj : ∀ row ∈ rows, f row = f new' → row = new') :
    (insertOrIgnore key table new).map key = (insertOrIgnore id rows new').map f := by
  have hiff : (lookup key table (key new)).isSome = true
      ↔ (lookup id rows (id new')).isSome = true := by
    rw [lookup_isSome_iff, lookup_isSome_iff, hmap, List.map_id, hnew, List.mem_map]
    constructor
    · rintro ⟨row, hrow, heq⟩
      exact hinj row hrow heq ▸ hrow
    · exact fun h => ⟨new', h, rfl⟩
  unfold insertOrIgnore
  by_cases h : (lookup key table (key new)).isSome = true
  · rw [if_pos h, if_pos (hiff.mp h), hmap]
  · rw [if_neg h, if_neg fun h' => h (hiff.mpr h'), List.map_append, List.map_append, hmap]
    simp [hnew]

omit [DecidableEq κ] in
/-- The number of rows with a key, where the keys are those of distinct rows in step with them. -/
theorem countP_of_map_eq {ρ' : Type*} [DecidableEq ρ'] {rows : List ρ'} (f : ρ' → κ) (row' : ρ')
    (hmap : table.map key = rows.map f) (hrows : rows.Nodup)
    (hinj : ∀ row ∈ rows, f row = f row' → row = row') {p : ρ → Bool}
    (hp : ∀ row, p row = true ↔ key row = f row') :
    table.countP p = if row' ∈ rows then 1 else 0 := by
  classical
  calc table.countP p
      = (table.map key).countP (fun k => decide (k = f row')) := by
        rw [List.countP_map]
        exact List.countP_congr fun row _ => by simp [hp]
    _ = rows.countP (fun row => decide (row = row')) := by
        rw [hmap, List.countP_map]
        refine List.countP_congr fun row hrow => ?_
        simp only [Function.comp, decide_eq_true_eq]
        exact ⟨hinj row hrow, fun h => by rw [h]⟩
    _ = rows.count row' := by
        rw [List.count_eq_countP]
        exact List.countP_congr fun row _ => by simp
    _ = if row' ∈ rows then 1 else 0 := hrows.count

theorem lookup_map {g : ρ → ρ} (hg : ∀ row, key (g row) = key row) (table : List ρ) (k : κ) :
    lookup key (table.map g) k = (lookup key table k).map g := by
  rw [lookup, List.find?_map, lookup]
  simp only [Function.comp_def, hg]

section Update

variable {f : ρ → ρ}

theorem mem_updateKey {k : κ} : row ∈ updateKey key table k f ↔
    ∃ old ∈ table, row = if key old = k then f old else old := by
  simp [updateKey, eq_comm]

theorem updateKey_updateKey (hf : ∀ row, key (f row) = key row) (table : List ρ)
    (k : κ) (g : ρ → ρ) :
    updateKey key (updateKey key table k f) k g = updateKey key table k (g ∘ f) := by
  rw [updateKey, updateKey, List.map_map]
  refine List.map_congr_left fun row _ => ?_
  simp only [Function.comp]
  by_cases hk : key row = k
  · rw [if_pos hk, if_pos ((hf row).trans hk), if_pos hk]
  · rw [if_neg hk, if_neg hk, if_neg hk]

/-- An update that keeps a column keeps the list of its values. -/
theorem map_updateKey {β : Type*} {column : ρ → β}
    (hf : ∀ row, column (f row) = column row) (k : κ) :
    (updateKey key table k f).map column = table.map column := by
  rw [updateKey, List.map_map]
  refine List.map_congr_left fun row _ => ?_
  simp only [Function.comp]
  split_ifs
  · exact hf row
  · rfl

theorem UniqueKey.updateKey (hu : UniqueKey key table) (hf : ∀ row, key (f row) = key row) (k : κ) :
    UniqueKey key (updateKey key table k f) := by
  rw [UniqueKey, map_updateKey hf]; exact hu

/-- An update that keeps the key of the rows that it changes keeps the list of the keys. -/
theorem map_key_updateKey (hf : ∀ row, key row = k → key (f row) = k) :
    (Table.updateKey key table k f).map key = table.map key := by
  rw [Table.updateKey, List.map_map]
  refine List.map_congr_left fun row _ => ?_
  simp only [Function.comp]
  split_ifs with hk
  · rw [hf row hk, hk]
  · rfl

/-- An update changes the row of the key and no other. -/
theorem lookup_updateKey_at (hf : ∀ row, key row = k → key (f row) = k) (table : List ρ) (k' : κ) :
    lookup key (Table.updateKey key table k f) k' =
      if k' = k then (lookup key table k').map f else lookup key table k' := by
  induction table with
  | nil => simp [Table.updateKey, lookup]
  | cons row table ih =>
    simp only [Table.updateKey, lookup, List.map_cons, List.find?_cons] at ih ⊢
    by_cases hrow : key row = k'
    · by_cases hk : k' = k
      · simp [hrow, hk, hf row (hrow.trans hk)]
      · simp [hrow, hk]
    · have hne : key (if key row = k then f row else row) ≠ k' := by
        split_ifs with hk
        · rw [hf row hk, ← hk]
          exact hrow
        · exact hrow
      simp only [hrow, hne, decide_false]
      exact ih

theorem lookup_updateKey (hf : ∀ row, key (f row) = key row) (table : List ρ) (k k' : κ) :
    lookup key (Table.updateKey key table k f) k' =
      if k' = k then (lookup key table k').map f else lookup key table k' :=
  lookup_updateKey_at (fun row hk => (hf row).trans hk) table k'

theorem UniqueKey.upsert (hu : UniqueKey key table) (hf : ∀ row, key (f row) = key row) (new : ρ) :
    UniqueKey key (upsert key table new f) := by
  unfold Table.upsert
  split_ifs with h
  · exact hu.updateKey hf _
  · exact unique_append hu (by simpa using h)

/-- An upsert leaves the updated row of the key, or the new row. -/
theorem lookup_upsert (hf : ∀ row, key (f row) = key row) (table : List ρ) (new : ρ) (k' : κ) :
    lookup key (upsert key table new f) k' =
      if k' = key new then some (((lookup key table k').map f).getD new)
        else lookup key table k' := by
  unfold upsert
  by_cases hk : k' = key new
  · subst hk
    cases h : lookup key table (key new) with
    | none => rw [if_neg (by simp), lookup_append, h, Option.none_or, lookup_singleton]; simp
    | some row => rw [if_pos (by simp), lookup_updateKey hf, if_pos rfl, h]; simp
  · rw [if_neg hk]
    split_ifs
    · rw [lookup_updateKey hf, if_neg hk]
    · rw [lookup_append, lookup_singleton, if_neg (Ne.symm hk), Option.or_none]

end Update

end

/-! ### Elements as rows -/

section

variable {α : Type*} [DecidableEq α] {l made : List α} {a : α}

theorem lookup_id_isSome : (lookup id l a).isSome = true ↔ a ∈ l := by
  rw [lookup_isSome_iff, List.map_id]

theorem mem_insertOrIgnore_id {b : α} : b ∈ insertOrIgnore id l a ↔ b ∈ l ∨ b = a := by
  unfold insertOrIgnore
  split_ifs with h
  · have ha : a ∈ l := lookup_id_isSome.mp h
    exact ⟨.inl, fun hb => hb.elim id (fun hb => hb ▸ ha)⟩
  · simp

theorem insertOrIgnore_id_of_mem (h : a ∈ l) : insertOrIgnore id l a = l :=
  if_pos (lookup_id_isSome.mpr h)

theorem insertOrIgnore_id_of_notMem (h : a ∉ l) : insertOrIgnore id l a = l ++ [a] :=
  if_neg (mt lookup_id_isSome.mp h)

theorem nodup_insertOrIgnore_id (h : l.Nodup) (a : α) : (insertOrIgnore id l a).Nodup := by
  have hu : UniqueKey id l := by simpa [UniqueKey] using h
  simpa [UniqueKey] using hu.insertOrIgnore a

/-- The elements of a list, each of them once. -/
def insertAll (made l : List α) : List α := l.foldl (insertOrIgnore id) made

theorem insertAll_append (made l l' : List α) :
    insertAll made (l ++ l') = insertAll (insertAll made l) l' :=
  List.foldl_append

theorem mem_insertAll {b : α} : ∀ {l made : List α}, b ∈ insertAll made l ↔ b ∈ made ∨ b ∈ l
  | [], made => by simp [insertAll]
  | a :: l, made => by
    rw [insertAll, List.foldl_cons, ← insertAll, mem_insertAll, mem_insertOrIgnore_id,
      List.mem_cons, or_assoc]

theorem nodup_insertAll : ∀ {l made : List α}, made.Nodup → (insertAll made l).Nodup
  | [], _, h => h
  | a :: l, made, h => by
    rw [insertAll, List.foldl_cons, ← insertAll]
    exact nodup_insertAll (nodup_insertOrIgnore_id h a)

end

/-! ### Views -/

section

variable {ρ τ κ : Type*} [DecidableEq κ]

/-- Some columns of the rows that a condition selects. -/
def view (mine : ρ → Bool) (columns : ρ → τ) (table : List ρ) : List τ :=
  (table.filter mine).map columns

variable {mine : ρ → Bool} {columns : ρ → τ} {key : ρ → κ} {key' : τ → κ} {table : List ρ} {k : κ}

/-- A view tells of the rows with a key that it selects. -/
theorem lookup_view (hkey : ∀ row, key' (columns row) = key row)
    (hmine : ∀ row, key row = k → mine row = true) (table : List ρ) :
      lookup key' (view mine columns table) k = (lookup key table k).map columns := by
  induction table with
  | nil => rfl
  | cons row table ih =>
    unfold view lookup at ih ⊢
    by_cases hrow : mine row = true
    · rw [List.filter_cons_of_pos hrow, List.map_cons, List.find?_cons, List.find?_cons, hkey]
      by_cases hk : key row = k
      · simp [hk]
      · simpa [hk] using ih
    · have hk : key row ≠ k := fun hk => hrow (hmine row hk)
      rw [List.filter_cons_of_neg hrow, List.find?_cons]
      simpa [hk] using ih

theorem countP_view {p : ρ → Bool} {p' : τ → Bool} (hp : ∀ row, p' (columns row) = p row)
    (hmine : ∀ row, p row = true → mine row = true) (table : List ρ) :
    (view mine columns table).countP p' = table.countP p := by
  rw [view, List.countP_map, List.countP_filter]
  refine List.countP_congr fun row _ => ?_
  simp only [Function.comp, hp, Bool.and_eq_true]
  exact ⟨fun h => h.1, fun h => ⟨h, hmine row h⟩⟩

@[simp] theorem view_append (rows : List ρ) :
    view mine columns (table ++ rows) = view mine columns table ++ view mine columns rows := by
  simp [view]

theorem view_singleton_of_pos {row : ρ} (h : mine row = true) :
    view mine columns [row] = [columns row] := by
  simp [view, h]

theorem view_singleton_of_neg {row : ρ} (h : mine row ≠ true) : view mine columns [row] = [] := by
  simp [view, h]

/-- An update of other columns leaves a view as it is. -/
theorem view_updateKey {f : ρ → ρ} (hmine : ∀ row, mine (f row) = mine row)
    (hcolumns : ∀ row, columns (f row) = columns row) (table : List ρ) (k : κ) :
    view mine columns (updateKey key table k f) = view mine columns table := by
  induction table with
  | nil => rfl
  | cons row table ih =>
    unfold view updateKey at ih ⊢
    by_cases hk : key row = k <;> by_cases hrow : mine row = true <;>
      simp [hk, hrow, hmine, hcolumns, ih]

theorem mem_view {row : ρ} (hrow : row ∈ table) (h : mine row = true) :
    columns row ∈ view mine columns table :=
  List.mem_map_of_mem (List.mem_filter.mpr ⟨hrow, h⟩)

/-- The row with the key of an element, where a view has the rows of elements that the key tells
apart. -/
theorem lookup_of_view {α : Type*} [DecidableEq α] {made : List α} {f : α → τ} {a : α}
    (key : ρ → κ) (key' : τ → κ) (hview : view mine columns table = made.map f)
    (hkey : ∀ row, key' (columns row) = key row)
    (hmine : ∀ row, key row = key' (f a) → mine row = true)
    (hinj : ∀ b ∈ made, key' (f b) = key' (f a) → b = a) :
    (lookup key table (key' (f a))).map columns = if a ∈ made then some (f a) else none := by
  rw [← lookup_view hkey hmine, hview]
  split_ifs with ha
  · obtain ⟨row, hrow⟩ := Option.isSome_iff_exists.mp
      (lookup_isSome_of_mem key' (List.mem_map_of_mem (f := f) ha))
    obtain ⟨hmem, hsame⟩ := lookup_eq_some_mem hrow
    obtain ⟨b, hb, rfl⟩ := List.mem_map.mp hmem
    rw [hrow, hinj b hb hsame]
  · refine lookup_eq_none.mpr fun row hrow hsame => ?_
    obtain ⟨b, hb, rfl⟩ := List.mem_map.mp hrow
    exact ha (hinj b hb hsame ▸ hb)

/-- The number of rows that a condition selects, where it selects those of one element. -/
theorem countP_of_view {α : Type*} [DecidableEq α] {made : List α} {f : α → τ} {a : α}
    {p : ρ → Bool} (p' : τ → Bool) (hview : view mine columns table = made.map f)
    (hnodup : made.Nodup) (hp : ∀ row, p' (columns row) = p row)
    (hmine : ∀ row, p row = true → mine row = true) (hiff : ∀ b ∈ made, p' (f b) = true ↔ b = a) :
    table.countP p = if a ∈ made then 1 else 0 := by
  rw [← countP_view hp hmine, hview, List.countP_map, ← hnodup.count, List.count_eq_countP]
  refine List.countP_congr fun b hb => ?_
  rw [Function.comp, hiff b hb, beq_iff_eq]

end

/-! ### Evolution -/

section

variable {ρ κ : Type*} {R : ρ → ρ → Prop} {N : ρ → Prop} {table table' : List ρ} {row row' : ρ}

/-- The rows of a table are rewritten in place, each in a way that `R` allows, and at most one new
row follows, which `N` allows. -/
def Evolves (R : ρ → ρ → Prop) (N : ρ → Prop) (table table' : List ρ) : Prop :=
  ∃ old, List.Forall₂ R table old ∧ (table' = old ∨ ∃ new, N new ∧ table' = old ++ [new])

theorem evolves_map {g : ρ → ρ} (h : ∀ row ∈ table, R row (g row)) :
    Evolves R N table (table.map g) :=
  ⟨table.map g, List.forall₂_map_right_iff.mpr (List.forall₂_same.mpr h), .inl rfl⟩

theorem evolves_refl (h : ∀ row ∈ table, R row row) : Evolves R N table table :=
  ⟨table, List.forall₂_same.mpr h, .inl rfl⟩

theorem evolves_append (h : ∀ row ∈ table, R row row) {new : ρ} (hnew : N new) :
    Evolves R N table (table ++ [new]) :=
  ⟨table, List.forall₂_same.mpr h, .inr ⟨new, hnew, rfl⟩⟩

/-- Every row has a successor. -/
theorem Evolves.exists_next (h : Evolves R N table table') (hrow : row ∈ table) :
    ∃ row' ∈ table', R row row' := by
  obtain ⟨old, hold, htable'⟩ := h
  obtain ⟨i, hi, rfl⟩ := List.mem_iff_getElem.mp hrow
  rw [List.forall₂_iff_get] at hold
  have hi' : i < old.length := hold.1 ▸ hi
  refine ⟨old[i], ?_, hold.2 i hi hi'⟩
  rcases htable' with rfl | ⟨new, -, rfl⟩
  · exact List.getElem_mem hi'
  · exact List.mem_append_left _ (List.getElem_mem hi')

/-- Every row has a predecessor or is new. -/
theorem Evolves.exists_prev (h : Evolves R N table table') (hrow' : row' ∈ table') :
    (∃ row ∈ table, R row row') ∨ N row' := by
  obtain ⟨old, hold, htable'⟩ := h
  have hprev : ∀ row' ∈ old, ∃ row ∈ table, R row row' := by
    intro row' hmem
    obtain ⟨i, hi, rfl⟩ := List.mem_iff_getElem.mp hmem
    rw [List.forall₂_iff_get] at hold
    have hi' : i < table.length := hold.1 ▸ hi
    exact ⟨table[i], List.getElem_mem hi', hold.2 i hi' hi⟩
  rcases htable' with rfl | ⟨new, hnew, rfl⟩
  · exact .inl (hprev row' hrow')
  · rcases List.mem_append.mp hrow' with hmem | hmem
    · exact .inl (hprev row' hmem)
    · rw [List.mem_singleton] at hmem
      exact .inr (hmem ▸ hnew)

theorem map_key_of_forall₂ {key : ρ → κ} (hkey : ∀ row row', R row row' → key row' = key row)
    {old : List ρ} (h : List.Forall₂ R table old) : old.map key = table.map key := by
  induction h with
  | nil => rfl
  | cons hR _ ih => rw [List.map_cons, List.map_cons, ih, hkey _ _ hR]

theorem UniqueKey.of_map_eq {key : ρ → κ} (h : table'.map key = table.map key)
    (hunique : UniqueKey key table) : UniqueKey key table' := by
  rw [UniqueKey, h]
  exact hunique

/-- A key that the rewriting keeps and that the new row does not repeat stays unique. -/
theorem Evolves.unique {key : ρ → κ} (h : Evolves R N table table') (hunique : UniqueKey key table)
    (hkey : ∀ row row', R row row' → key row' = key row)
    (hnew : ∀ new, N new → ∀ row ∈ table, key row ≠ key new) : UniqueKey key table' := by
  obtain ⟨old, hold, rfl | ⟨new, hN, rfl⟩⟩ := h
  · rw [UniqueKey, map_key_of_forall₂ hkey hold]
    exact hunique
  · rw [UniqueKey, List.map_append, map_key_of_forall₂ hkey hold, List.map_singleton]
    refine List.Nodup.append hunique (by simp) fun k hk hk' => ?_
    obtain ⟨row, hrow, rfl⟩ := List.mem_map.mp hk
    exact hnew new hN row hrow (List.mem_singleton.mp hk')

/-- With a unique key that the rewriting keeps, the rows of one key before and after belong
together. -/
theorem Evolves.of_key {key : ρ → κ} (h : Evolves R N table table') (hunique : UniqueKey key table')
    (hkey : ∀ row row', R row row' → key row' = key row) (hrow : row ∈ table)
    (hrow' : row' ∈ table') (heq : key row' = key row) : R row row' := by
  obtain ⟨row₁, hmem, hR⟩ := h.exists_next hrow
  have hsame : row₁ = row' :=
    List.inj_on_of_nodup_map hunique hmem hrow' ((hkey row row₁ hR).trans heq.symm)
  exact hsame ▸ hR

end

end Sporos.Lib.Table
