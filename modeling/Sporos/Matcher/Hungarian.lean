import Sporos.Lib.Assignment

/-! # The Hungarian algorithm

`hungarian` of `matcher.rs`: successive shortest augmenting paths with potentials. The vectors of
the source are functions on their indices; row and column numbers start at 1, and entry 0 of the
column vectors is the fictitious column that holds the row being inserted. `i128::MAX`, the initial
value of `minimum` and `delta`, is `none`, and the other numbers are unbounded. -/

namespace Sporos.Matcher.Hungarian

open Function (update)

/-- The entry of a matrix given by its rows. -/
def entry (costs : List (List ℤ)) (row column : ℕ) : ℤ := (costs.getD row []).getD column 0

/-- `a < b`, where `none` is larger than every number. -/
def below : Option ℤ → Option ℤ → Bool
  | some a, some b => a < b
  | some _, none => true
  | none, _ => false

/-- The vectors that live through the whole algorithm. -/
structure Tables where
  rowPotential : ℕ → ℤ
  columnPotential : ℕ → ℤ
  columnRow : ℕ → ℕ
  previous : ℕ → ℕ

/-- The vectors of one row insertion. -/
structure Search extends Tables where
  minimum : ℕ → Option ℤ
  used : ℕ → Bool

/-- What the scan over the columns computes. -/
structure Scan where
  minimum : ℕ → Option ℤ
  previous : ℕ → ℕ
  delta : Option ℤ
  next : ℕ

section

variable (costs : List (List ℤ))

/-- The reduced cost of a row and a column. -/
def reduced (t : Tables) (row column : ℕ) : ℤ :=
  entry costs (row - 1) (column - 1) - t.rowPotential row - t.columnPotential column

/-- Relax a column from the column just used. -/
def relaxAt (s : Search) (column : ℕ) (acc : Scan) (candidate : ℕ) : Scan :=
  if below (reduced costs s.toTables (s.columnRow column) candidate) (acc.minimum candidate) then
    { acc with
      minimum := update acc.minimum candidate
        (some (reduced costs s.toTables (s.columnRow column) candidate))
      previous := update acc.previous candidate column }
  else acc

/-- Keep the smallest entry of `minimum` seen, and its column. -/
def keepLeast (acc : Scan) (candidate : ℕ) : Scan :=
  if below (acc.minimum candidate) acc.delta then
    { acc with delta := acc.minimum candidate, next := candidate }
  else acc

/-- The scan at one column. -/
def scanColumn (s : Search) (column : ℕ) (acc : Scan) (candidate : ℕ) : Scan :=
  if s.used candidate then acc else keepLeast (relaxAt costs s column acc candidate) candidate

/-- The loop over the columns that finds the smallest reduced cost. -/
def scan (columns : ℕ) (s : Search) (column : ℕ) : Scan :=
  (List.range' 1 columns).foldl (scanColumn costs s column) ⟨s.minimum, s.previous, none, 0⟩

/-- The potentials at one column move by `delta`. -/
def relaxColumn (delta : ℤ) (s : Search) (column : ℕ) : Search :=
  if s.used column then
    { s with
      rowPotential := update s.rowPotential (s.columnRow column)
        (s.rowPotential (s.columnRow column) + delta)
      columnPotential := update s.columnPotential column (s.columnPotential column - delta) }
  else { s with minimum := update s.minimum column ((s.minimum column).map (· - delta)) }

/-- The loop that moves the potentials. -/
def relax (columns : ℕ) (delta : ℤ) (s : Search) : Search :=
  (List.range (columns + 1)).foldl (relaxColumn delta) s

/-- One round of the search: use `column`, scan, and move the potentials. The next column is the
second component. -/
def searchRound (columns : ℕ) (s : Search) (column : ℕ) : Search × ℕ :=
  let s := { s with used := update s.used column true }
  let found := scan costs columns s column
  let s := { s with minimum := found.minimum, previous := found.previous }
  (relax columns (found.delta.getD 0) s, found.next)

/-- The search for a free column. -/
def searchLoop (columns : ℕ) : ℕ → Search → ℕ → Search × ℕ
  | 0, s, column => (s, column)
  | fuel + 1, s, column =>
    let r := searchRound costs columns s column
    if r.1.columnRow r.2 = 0 then r else searchLoop columns fuel r.1 r.2

/-- Shift the rows along the path that ends in the free column. -/
def augment (previous : ℕ → ℕ) : ℕ → (ℕ → ℕ) → ℕ → (ℕ → ℕ)
  | 0, columnRow, _ => columnRow
  | fuel + 1, columnRow, column =>
    let prior := previous column
    let columnRow := update columnRow column (columnRow prior)
    if prior = 0 then columnRow else augment previous fuel columnRow prior

/-- Insert a row. Both loops run at most once per column, the fictitious one included. -/
def insertRow (columns : ℕ) (t : Tables) (row : ℕ) : Tables :=
  let start : Search :=
    { t with
      columnRow := update t.columnRow 0 row
      minimum := fun _ => none
      used := fun _ => false }
  let r := searchLoop costs columns (columns + 1) start 0
  { r.1.toTables with columnRow := augment r.1.previous (columns + 1) r.1.columnRow r.2 }

/-- Enter the row of a column, if it holds one, in the assignment. -/
def readColumn (columnRow : ℕ → ℕ) (assignment : List ℕ) (column : ℕ) : List ℕ :=
  if columnRow column ≠ 0 then assignment.set (columnRow column - 1) (column - 1) else assignment

/-- Read the assignment off the columns. -/
def readAssignment (rows columns : ℕ) (columnRow : ℕ → ℕ) : List ℕ :=
  (List.range' 1 columns).foldl (readColumn columnRow) (List.replicate rows columns)

/-- The tables before the first row. -/
def initialTables : Tables := ⟨fun _ => 0, fun _ => 0, fun _ => 0, fun _ => 0⟩

/-- `hungarian`: the column of each row. -/
def hungarian : List ℕ :=
  let rows := costs.length
  let columns := (costs.headD []).length
  let t := (List.range' 1 rows).foldl (insertRow costs columns) initialTables
  readAssignment rows columns t.columnRow

end

example : hungarian [[-10, 0, 0], [-5, 0, 0]] = [0, 1] := by decide +kernel

/-! ### The scan and the relaxation -/

theorem not_below_some {a b : ℤ} : below (some a) (some b) = false ↔ b ≤ a := by
  simp [below]

section

variable {costs : List (List ℤ)} {m : ℕ}

/-- What the scan leaves at a column that was not used: the smaller of the old minimum and the
reduced cost, with the column it comes from. -/
structure Relaxed (costs : List (List ℤ)) (s : Search) (column : ℕ) (acc r : Scan) (c : ℕ) (x : ℤ) :
    Prop where
  minimum : r.minimum c = some x
  le_value : x ≤ reduced costs s.toTables (s.columnRow column) c
  le_old : ∀ y, acc.minimum c = some y → x ≤ y
  origin : (x = reduced costs s.toTables (s.columnRow column) c ∧ r.previous c = column) ∨
    (acc.minimum c = some x ∧ r.previous c = acc.previous c)

@[simp] theorem keepLeast_minimum (acc : Scan) (c : ℕ) :
    (keepLeast acc c).minimum = acc.minimum := by unfold keepLeast; split_ifs <;> rfl

@[simp] theorem keepLeast_previous (acc : Scan) (c : ℕ) :
    (keepLeast acc c).previous = acc.previous := by unfold keepLeast; split_ifs <;> rfl

@[simp] theorem relaxAt_delta (s : Search) (column : ℕ) (acc : Scan) (c : ℕ) :
    (relaxAt costs s column acc c).delta = acc.delta := by unfold relaxAt; split_ifs <;> rfl

@[simp] theorem relaxAt_next (s : Search) (column : ℕ) (acc : Scan) (c : ℕ) :
    (relaxAt costs s column acc c).next = acc.next := by unfold relaxAt; split_ifs <;> rfl

theorem scanColumn_used {s : Search} {column c : ℕ} {acc : Scan} (h : s.used c = true) :
    scanColumn costs s column acc c = acc := by simp [scanColumn, h]

theorem scanColumn_unused {s : Search} {column c : ℕ} {acc : Scan} (h : s.used c = false) :
    scanColumn costs s column acc c = keepLeast (relaxAt costs s column acc c) c := by
  simp [scanColumn, h]

theorem scanColumn_of_ne (costs : List (List ℤ)) {s : Search} (column : ℕ) {c c' : ℕ} (acc : Scan)
    (h : c' ≠ c) :
    (scanColumn costs s column acc c).minimum c' = acc.minimum c' ∧
      (scanColumn costs s column acc c).previous c' = acc.previous c' := by
  cases hu : s.used c with
  | true => simp [scanColumn_used hu]
  | false =>
    rw [scanColumn_unused hu, keepLeast_minimum, keepLeast_previous]
    unfold relaxAt
    split_ifs <;> simp [h]

theorem scanColumn_relaxed (costs : List (List ℤ)) {s : Search} (column : ℕ) {c : ℕ} (acc : Scan)
    (h : s.used c = false) :
    ∃ x, Relaxed costs s column acc (scanColumn costs s column acc c) c x := by
  rw [scanColumn_unused h]
  by_cases hb : below (reduced costs s.toTables (s.columnRow column) c) (acc.minimum c) = true
  · refine ⟨reduced costs s.toTables (s.columnRow column) c, ?_, le_rfl, ?_, Or.inl ⟨rfl, ?_⟩⟩
    · simp [relaxAt, hb]
    · intro y hy
      rw [hy] at hb
      simp only [below, decide_eq_true_eq] at hb; omega
    · simp [relaxAt, hb]
  · obtain ⟨x, hx⟩ : ∃ x, acc.minimum c = some x := by
      cases hm : acc.minimum c with
      | none => rw [hm] at hb; simp [below] at hb
      | some x => exact ⟨x, rfl⟩
    have hle : x ≤ reduced costs s.toTables (s.columnRow column) c := by
      rw [hx] at hb; simpa [below] using hb
    refine ⟨x, ?_, hle, fun y hy => by rw [hx] at hy; cases hy; exact le_rfl, Or.inr ⟨hx, ?_⟩⟩
    · simpa [relaxAt, hb] using hx
    · simp [relaxAt, hb]

/-- The smallest entry seen is kept: it is below no entry of a scanned column, and it is either the
old one or the entry of the column returned. -/
structure Kept (s : Search) (l : List ℕ) (acc r : Scan) : Prop where
  least : ∀ c ∈ l, s.used c = false → below (r.minimum c) r.delta = false
  old : ∀ d, acc.delta = some d → ∃ d', r.delta = some d' ∧ d' ≤ d
  origin : (r.delta = acc.delta ∧ r.next = acc.next) ∨
    (r.next ∈ l ∧ s.used r.next = false ∧ r.delta = r.minimum r.next ∧ r.delta ≠ none)

theorem scanColumn_delta (costs : List (List ℤ)) {s : Search} (column : ℕ) {c : ℕ} (acc : Scan)
    (h : s.used c = false) :
    Kept s [c] acc (scanColumn costs s column acc c) := by
  obtain ⟨x, hx⟩ := scanColumn_relaxed costs column acc h
  have hsplit : (below (some x) acc.delta = true ∧
      (scanColumn costs s column acc c).delta = some x ∧
      (scanColumn costs s column acc c).next = c) ∨
      (below (some x) acc.delta = false ∧
      (scanColumn costs s column acc c).delta = acc.delta ∧
      (scanColumn costs s column acc c).next = acc.next) := by
    have hm := hx.minimum
    rw [scanColumn_unused h, keepLeast_minimum] at hm
    rw [scanColumn_unused h]
    unfold keepLeast
    rw [hm, relaxAt_delta]
    cases hb : below (some x) acc.delta <;> simp
  rcases hsplit with ⟨hb, hd, hn⟩ | ⟨hb, hd, hn⟩
  · refine ⟨fun c' hc' hu => ?_, fun d hd' => ⟨x, hd, ?_⟩,
      Or.inr ⟨by simp [hn], by rw [hn, h], ?_, ?_⟩⟩
    · rw [List.mem_singleton] at hc'
      subst hc'
      rw [hx.minimum, hd]; simp [below]
    · rw [hd'] at hb
      simp only [below, decide_eq_true_eq] at hb; omega
    · rw [hn, hx.minimum, hd]
    · rw [hd]; simp
  · refine ⟨fun c' hc' hu => ?_, fun d hd' => ⟨d, by rw [hd, hd'], le_rfl⟩, Or.inl ⟨hd, hn⟩⟩
    rw [List.mem_singleton] at hc'
    subst hc'
    rw [hx.minimum, hd, hb]

theorem scan_of_not_mem (costs : List (List ℤ)) (s : Search) (column : ℕ) :
    ∀ (l : List ℕ) (acc : Scan) (c : ℕ),
    c ∉ l ∨ s.used c = true →
      (l.foldl (scanColumn costs s column) acc).minimum c = acc.minimum c ∧
      (l.foldl (scanColumn costs s column) acc).previous c = acc.previous c
  | [], acc, c, _ => by simp
  | a :: l, acc, c, h => by
    rw [List.foldl_cons]
    have hstep : (scanColumn costs s column acc a).minimum c = acc.minimum c ∧
        (scanColumn costs s column acc a).previous c = acc.previous c := by
      by_cases hca : c = a
      · subst hca
        rw [scanColumn_used (h.resolve_left (by simp))]
        exact ⟨rfl, rfl⟩
      · exact scanColumn_of_ne costs column acc hca
    obtain ⟨h1, h2⟩ := scan_of_not_mem costs s column l (scanColumn costs s column acc a) c
      (h.imp (fun h hm => h (List.mem_cons_of_mem _ hm)) id)
    rw [h1, h2]
    exact hstep

theorem scan_relaxed (costs : List (List ℤ)) (s : Search) (column : ℕ) :
    ∀ (l : List ℕ) (acc : Scan), l.Nodup →
    ∀ c ∈ l, s.used c = false →
      ∃ x, Relaxed costs s column acc (l.foldl (scanColumn costs s column) acc) c x
  | [], acc, _, c, hc, _ => by simp at hc
  | a :: l, acc, hl, c, hc, hu => by
    rw [List.foldl_cons]
    obtain ⟨hal, hl⟩ := List.nodup_cons.mp hl
    by_cases hca : c = a
    · subst hca
      obtain ⟨x, hx⟩ := scanColumn_relaxed costs column acc hu
      obtain ⟨h1, h2⟩ := scan_of_not_mem costs s column l
        (scanColumn costs s column acc c) c (Or.inl hal)
      exact ⟨x, by rw [h1]; exact hx.minimum, hx.le_value, hx.le_old, by rw [h2]; exact hx.origin⟩
    · obtain ⟨x, hx⟩ := scan_relaxed costs s column l (scanColumn costs s column acc a) hl c
        ((List.mem_cons.mp hc).resolve_left hca) hu
      obtain ⟨h1, h2⟩ := scanColumn_of_ne costs column acc hca
      exact ⟨x, hx.minimum, hx.le_value, fun y hy => hx.le_old y (by rw [h1]; exact hy),
        by rw [← h1, ← h2]; exact hx.origin⟩

theorem scan_kept (costs : List (List ℤ)) (s : Search) (column : ℕ) :
    ∀ (l : List ℕ) (acc : Scan), l.Nodup →
    Kept s l acc (l.foldl (scanColumn costs s column) acc)
  | [], acc, _ => ⟨by simp, fun d hd => ⟨d, hd, le_rfl⟩, Or.inl ⟨rfl, rfl⟩⟩
  | a :: l, acc, hl => by
    rw [List.foldl_cons]
    obtain ⟨hal, hl⟩ := List.nodup_cons.mp hl
    have ih := scan_kept costs s column l (scanColumn costs s column acc a) hl
    by_cases hua : s.used a = true
    · rw [scanColumn_used hua] at ih ⊢
      refine ⟨fun c hc hu => ?_, ih.old, ih.origin.imp id fun ⟨h1, h2⟩ =>
        ⟨List.mem_cons_of_mem _ h1, h2⟩⟩
      rcases List.mem_cons.mp hc with rfl | hc
      · rw [hua] at hu; cases hu
      · exact ih.least c hc hu
    · rw [Bool.not_eq_true] at hua
      have ha := scanColumn_delta costs column acc hua
      obtain ⟨hma, -⟩ := scan_of_not_mem costs s column l
        (scanColumn costs s column acc a) a (Or.inl hal)
      refine ⟨fun c hc hu => ?_, fun d hd => ?_, ?_⟩
      · rcases List.mem_cons.mp hc with rfl | hc
        · rw [hma]
          have hle := ha.least c (by simp) hu
          obtain ⟨x, hx⟩ := scanColumn_relaxed costs column acc hu
          rw [hx.minimum] at hle ⊢
          by_contra hne
          rw [Bool.not_eq_false] at hne
          cases hd : (scanColumn costs s column acc c).delta with
          | none => rw [hd] at hle; simp [below] at hle
          | some d =>
            obtain ⟨d', hd', hdd⟩ := ih.old d hd
            rw [hd] at hle
            rw [hd'] at hne
            simp only [below, decide_eq_true_eq, decide_eq_false_iff_not] at hle hne
            omega
        · exact ih.least c hc hu
      · obtain ⟨d1, hd1, hle1⟩ := ha.old d hd
        obtain ⟨d2, hd2, hle2⟩ := ih.old d1 hd1
        exact ⟨d2, hd2, le_trans hle2 hle1⟩
      · rcases ih.origin with ⟨h1, h2⟩ | ⟨h1, h2⟩
        · rcases ha.origin with ⟨h3, h4⟩ | ⟨h3, h4, h5, h6⟩
          · exact Or.inl ⟨h1.trans h3, h2.trans h4⟩
          · rw [List.mem_singleton] at h3
            refine Or.inr ⟨by rw [h2, h3]; simp, by rw [h2]; exact h4, ?_, by rw [h1]; exact h6⟩
            rw [h1, h2, h5, h3, hma]
        · exact Or.inr ⟨List.mem_cons_of_mem _ h1, h2⟩

theorem mem_columns {c : ℕ} : c ∈ List.range' 1 m ↔ 1 ≤ c ∧ c ≤ m := by
  rw [List.mem_range'_1]; omega

/-- **The scan**: the columns not used are relaxed, and the smallest of them is found. -/
theorem scan_spec (costs : List (List ℤ)) {s : Search} (column : ℕ)
    (hfree : ∃ c, 1 ≤ c ∧ c ≤ m ∧ s.used c = false) :
    ∃ d, (scan costs m s column).delta = some d ∧
      (1 ≤ (scan costs m s column).next ∧ (scan costs m s column).next ≤ m ∧
        s.used (scan costs m s column).next = false) ∧
      (scan costs m s column).minimum (scan costs m s column).next = some d ∧
      ∀ c, 1 ≤ c → c ≤ m → s.used c = false →
        ∃ x, Relaxed costs s column ⟨s.minimum, s.previous, none, 0⟩ (scan costs m s column) c x ∧
          d ≤ x := by
  have hnd : (List.range' 1 m).Nodup := List.nodup_range'
  have hk := scan_kept costs s column (List.range' 1 m)
    ⟨s.minimum, s.previous, none, 0⟩ hnd
  have hr := scan_relaxed costs s column (List.range' 1 m)
    ⟨s.minimum, s.previous, none, 0⟩ hnd
  change Kept s _ _ (scan costs m s column) at hk
  change ∀ c ∈ _, _ → ∃ x, Relaxed costs s column _ (scan costs m s column) c x at hr
  obtain ⟨c, hc1, hcm, hcu⟩ := hfree
  have horigin : (scan costs m s column).delta ≠ none := by
    intro hnone
    obtain ⟨x, hx⟩ := hr c (mem_columns.mpr ⟨hc1, hcm⟩) hcu
    have := hk.least c (mem_columns.mpr ⟨hc1, hcm⟩) hcu
    rw [hx.minimum, hnone] at this
    simp [below] at this
  obtain ⟨d, hd⟩ := Option.ne_none_iff_exists'.mp horigin
  obtain ⟨hmem, hun, hmin, -⟩ : _ ∧ _ ∧ _ ∧ _ := hk.origin.resolve_left fun h => horigin h.1
  refine ⟨d, hd, ⟨(mem_columns.mp hmem).1, (mem_columns.mp hmem).2, hun⟩, by rw [← hmin, hd], ?_⟩
  intro c' h1 h2 hu
  obtain ⟨x, hx⟩ := hr c' (mem_columns.mpr ⟨h1, h2⟩) hu
  have hle := hk.least c' (mem_columns.mpr ⟨h1, h2⟩) hu
  rw [hx.minimum, hd, not_below_some] at hle
  exact ⟨x, hx, hle⟩

theorem scan_used {s : Search} {column c : ℕ} (h : s.used c = true) :
    (scan costs m s column).previous c = s.previous c :=
  (scan_of_not_mem _ _ _ _ _ c (Or.inr h)).2

/-- The row potentials after the columns of `l` moved: a row moves once if its column is used. -/
theorem relax_fold {d : ℤ} : ∀ (l : List ℕ) (s : Search), l.Nodup →
    (∀ i ∈ l, ∀ j ∈ l, s.used i = true → s.used j = true → s.columnRow i = s.columnRow j → i = j) →
    (l.foldl (relaxColumn d) s).columnRow = s.columnRow ∧
    (l.foldl (relaxColumn d) s).previous = s.previous ∧
    (l.foldl (relaxColumn d) s).used = s.used ∧
    (∀ j, (l.foldl (relaxColumn d) s).columnPotential j =
      if j ∈ l ∧ s.used j = true then s.columnPotential j - d else s.columnPotential j) ∧
    (∀ j, (l.foldl (relaxColumn d) s).minimum j =
      if j ∈ l ∧ s.used j = false then (s.minimum j).map (· - d) else s.minimum j) ∧
    (∀ i, (l.foldl (relaxColumn d) s).rowPotential i = s.rowPotential i +
      if ∃ j ∈ l, s.used j = true ∧ s.columnRow j = i then d else 0)
  | [], s, _, _ => by simp
  | a :: l, s, hl, hinj => by
    obtain ⟨hal, hl⟩ := List.nodup_cons.mp hl
    rw [List.foldl_cons]
    have hcr : (relaxColumn d s a).columnRow = s.columnRow := by
      unfold relaxColumn; split_ifs <;> rfl
    have hus : (relaxColumn d s a).used = s.used := by unfold relaxColumn; split_ifs <;> rfl
    have hpr : (relaxColumn d s a).previous = s.previous := by unfold relaxColumn; split_ifs <;> rfl
    obtain ⟨h1, h2, h3, h4, h5, h6⟩ := relax_fold l (relaxColumn d s a) hl (by
      rw [hcr, hus]
      exact fun i hi j hj => hinj i (List.mem_cons_of_mem _ hi) j (List.mem_cons_of_mem _ hj))
    refine ⟨h1.trans hcr, h2.trans hpr, h3.trans hus, fun j => ?_, fun j => ?_, fun i => ?_⟩
    · rw [h4, hus]
      by_cases hja : j = a
      · subst hja
        cases hu : s.used j <;> simp [hal, relaxColumn, hu]
      · have : (relaxColumn d s a).columnPotential j = s.columnPotential j := by
          unfold relaxColumn; split_ifs <;> simp [hja]
        simp [this, hja]
    · rw [h5, hus]
      by_cases hja : j = a
      · subst hja
        cases hu : s.used j <;> simp [hal, relaxColumn, hu]
      · have : (relaxColumn d s a).minimum j = s.minimum j := by
          unfold relaxColumn; split_ifs <;> simp [hja]
        simp [this, hja]
    · rw [h6, hus, hcr]
      cases hu : s.used a with
      | false =>
        have : (relaxColumn d s a).rowPotential = s.rowPotential := by simp [relaxColumn, hu]
        simp [this, hu]
      | true =>
        have hrow : (relaxColumn d s a).rowPotential =
            update s.rowPotential (s.columnRow a) (s.rowPotential (s.columnRow a) + d) := by
          simp [relaxColumn, hu]
        rw [hrow]
        by_cases hia : s.columnRow a = i
        · subst hia
          have hnot : ¬ ∃ j ∈ l, s.used j = true ∧ s.columnRow j = s.columnRow a := by
            rintro ⟨j, hj, huj, hr⟩
            have := hinj j (List.mem_cons_of_mem _ hj) a (by simp) huj hu hr
            exact hal (this ▸ hj)
          rw [if_neg hnot, if_pos ⟨a, by simp, hu, rfl⟩]
          simp
        · have : (∃ j ∈ a :: l, s.used j = true ∧ s.columnRow j = i) ↔
              ∃ j ∈ l, s.used j = true ∧ s.columnRow j = i := by
            simp only [List.mem_cons, exists_eq_or_imp, hia, and_false, false_or]
          rw [Function.update_of_ne (Ne.symm hia)]
          simp only [this]

end

/-! ### Paths -/

/-- The columns visited when following `previous` from `j` down to the fictitious column. -/
inductive PathTo (previous : ℕ → ℕ) : ℕ → List ℕ → Prop
  | root : PathTo previous 0 [0]
  | step {j : ℕ} {l : List ℕ} (hj : j ≠ 0) (h : PathTo previous (previous j) l) (hl : j ∉ l) :
      PathTo previous j (j :: l)

namespace PathTo

variable {previous : ℕ → ℕ} {j : ℕ} {l : List ℕ}

theorem head_mem (h : PathTo previous j l) : j ∈ l := by cases h <;> simp

theorem zero_mem (h : PathTo previous j l) : 0 ∈ l := by
  induction h with
  | root => simp
  | step _ _ _ ih => exact List.mem_cons_of_mem _ ih

theorem length_pos (h : PathTo previous j l) : 0 < l.length := List.length_pos_of_mem h.head_mem

theorem nodup (h : PathTo previous j l) : l.Nodup := by
  induction h with
  | root => simp
  | step _ _ hl ih => exact List.nodup_cons.mpr ⟨hl, ih⟩

theorem previous_mem (h : PathTo previous j l) {x : ℕ} (hx : x ∈ l) (h0 : x ≠ 0) :
    previous x ∈ l := by
  induction h with
  | root => simp at hx; exact absurd hx h0
  | step hj h hl ih =>
    rcases List.mem_cons.mp hx with rfl | hx
    · exact List.mem_cons_of_mem _ h.head_mem
    · exact List.mem_cons_of_mem _ (ih hx)

theorem previous_ne_head (h : PathTo previous j l) {x : ℕ} (hx : x ∈ l) (h0 : x ≠ 0) :
    previous x ≠ j := by
  cases h with
  | root => simp at hx; exact absurd hx h0
  | step hj h hl =>
    intro he
    rcases List.mem_cons.mp hx with rfl | hx
    · exact hl (he ▸ h.head_mem)
    · exact hl (he ▸ h.previous_mem hx h0)

theorem previous_inj (h : PathTo previous j l) {x y : ℕ} (hx : x ∈ l) (hy : y ∈ l) (hx0 : x ≠ 0)
    (hy0 : y ≠ 0) (he : previous x = previous y) : x = y := by
  induction h with
  | root => simp at hx; exact absurd hx hx0
  | step hj h hl ih =>
    rcases List.mem_cons.mp hx with hxj | hxl <;> rcases List.mem_cons.mp hy with hyj | hyl
    · rw [hxj, hyj]
    · rw [hxj] at he
      exact absurd he.symm (h.previous_ne_head hyl hy0)
    · rw [hyj] at he
      exact absurd he (h.previous_ne_head hxl hx0)
    · exact ih hxl hyl

theorem exists_previous_eq (h : PathTo previous j l) {y : ℕ} (hy : y ∈ l) (hne : y ≠ j) :
    ∃ x ∈ l, x ≠ 0 ∧ previous x = y := by
  induction h with
  | root => simp at hy; exact absurd hy hne
  | @step j l hj h hl ih =>
    have hy := (List.mem_cons.mp hy).resolve_left hne
    by_cases hp : y = previous j
    · exact ⟨j, by simp, hj, hp.symm⟩
    · obtain ⟨x, hx, hx0, he⟩ := ih hy hp
      exact ⟨x, List.mem_cons_of_mem _ hx, hx0, he⟩

theorem congr {previous' : ℕ → ℕ} (h : PathTo previous j l)
    (he : ∀ x ∈ l, previous' x = previous x) : PathTo previous' j l := by
  induction h with
  | root => exact .root
  | @step j l hj h hl ih =>
    refine .step hj ?_ hl
    rw [he j (by simp)]
    exact ih fun x hx => he x (List.mem_cons_of_mem _ hx)

end PathTo

/-- **The augmentation** shifts the rows along the path and leaves the other columns alone. -/
theorem augment_spec {previous : ℕ → ℕ} {j : ℕ} {l : List ℕ}
    (h : PathTo previous j l) (hj : j ≠ 0) :
    ∀ (fuel : ℕ) (columnRow : ℕ → ℕ), l.length ≤ fuel + 1 → ∀ x,
      augment previous fuel columnRow j x =
        if x ∈ l ∧ x ≠ 0 then columnRow (previous x) else columnRow x := by
  induction h with
  | root => exact absurd rfl hj
  | @step j l hj h hl ih =>
    intro fuel columnRow hfuel x
    have hpos := h.length_pos
    obtain ⟨fuel, rfl⟩ : ∃ f, fuel = f + 1 := ⟨fuel - 1, by simp at hfuel; omega⟩
    simp only [augment]
    by_cases hp : previous j = 0
    · rw [if_pos hp]
      have hl0 : l = [0] := by
        rw [hp] at h
        cases h with
        | root => rfl
        | step h0 _ _ => exact absurd rfl h0
      subst hl0
      by_cases hx : x = j
      · subst hx; simp [hj]
      · simp [hx]
    · rw [if_neg hp, ih hp fuel _ (by simp at hfuel; omega)]
      by_cases hx : x = j
      · subst hx
        simp [hl, hj]
      · by_cases hxl : x ∈ l ∧ x ≠ 0
        · have hne : previous x ≠ j := fun he => hl (he ▸ h.previous_mem hxl.1 hxl.2)
          simp [hx, hxl, hne]
        · rw [if_neg hxl, if_neg (by simpa [hx] using hxl)]
          simp [hx]

/-! ### The invariants -/

section

variable (costs : List (List ℤ)) (m : ℕ)

/-- The state between two insertions: the rows up to `k` are assigned to distinct columns on tight
pairs, and the potentials are feasible for them. -/
structure Assigned (k : ℕ) (t : Tables) : Prop where
  le : ∀ j, 1 ≤ j → j ≤ m → t.columnRow j ≤ k
  inj : ∀ i j, 1 ≤ i → i ≤ m → 1 ≤ j → j ≤ m → t.columnRow i = t.columnRow j → t.columnRow i ≠ 0 →
    i = j
  surj : ∀ i, 1 ≤ i → i ≤ k → ∃ j, 1 ≤ j ∧ j ≤ m ∧ t.columnRow j = i
  feasible : ∀ i j, 1 ≤ i → i ≤ k → 1 ≤ j → j ≤ m → 0 ≤ reduced costs t i j
  tight : ∀ j, 1 ≤ j → j ≤ m → t.columnRow j ≠ 0 → reduced costs t (t.columnRow j) j = 0
  nonpos : ∀ j, 1 ≤ j → j ≤ m → t.columnPotential j ≤ 0
  free : ∀ j, 1 ≤ j → j ≤ m → t.columnRow j = 0 → t.columnPotential j = 0

/-- The state of the search that inserts row `k + 1`, about to use `column`. Before the first round
(`used 0` is false) nothing is known about the costs of the new row. -/
structure Searching (k : ℕ) (s : Search) (column : ℕ) : Prop where
  zero : s.columnRow 0 = k + 1
  le : ∀ j, 1 ≤ j → j ≤ m → s.columnRow j ≤ k
  inj : ∀ i j, 1 ≤ i → i ≤ m → 1 ≤ j → j ≤ m → s.columnRow i = s.columnRow j → s.columnRow i ≠ 0 →
    i = j
  exists_free : ∃ j, 1 ≤ j ∧ j ≤ m ∧ s.columnRow j = 0
  feasible : ∀ i j, 1 ≤ i → i ≤ k → 1 ≤ j → j ≤ m → 0 ≤ reduced costs s.toTables i j
  feasible_new : s.used 0 = true → ∀ j, 1 ≤ j → j ≤ m → 0 ≤ reduced costs s.toTables (k + 1) j
  tight : ∀ j, 1 ≤ j → j ≤ m → s.columnRow j ≠ 0 → reduced costs s.toTables (s.columnRow j) j = 0
  nonpos : ∀ j, 1 ≤ j → j ≤ m → s.columnPotential j ≤ 0
  free : ∀ j, 1 ≤ j → j ≤ m → s.columnRow j = 0 → s.columnPotential j = 0
  used_assigned : ∀ j, s.used j = true → j ≤ m ∧ s.columnRow j ≠ 0
  fresh : s.used column = false
  column_le : column ≤ m
  start : s.used 0 = false → column = 0 ∧ (∀ j, s.used j = false) ∧ ∀ j, s.minimum j = none
  least : s.used 0 = true → ∀ j, 1 ≤ j → j ≤ m → s.used j = false → ∃ x, s.minimum j = some x ∧
    s.used (s.previous j) = true ∧ reduced costs s.toTables (s.columnRow (s.previous j)) j = x ∧
    ∀ i, s.used i = true → x ≤ reduced costs s.toTables (s.columnRow i) j
  tree : ∀ j, s.used j = true ∨ j = column → j ≠ 0 → s.used (s.previous j) = true ∧
    reduced costs s.toTables (s.columnRow (s.previous j)) j = 0
  path : ∀ j, s.used j = true → ∃ l, PathTo s.previous j l ∧ ∀ x ∈ l, s.used x = true

end

section

variable {costs : List (List ℤ)} {m k : ℕ} {s : Search} {column : ℕ}

/-- Two assigned columns, the fictitious one included, hold different rows. -/
theorem Searching.inj_zero (h : Searching costs m k s column) {i j : ℕ} (hi : i ≤ m) (hj : j ≤ m)
    (he : s.columnRow i = s.columnRow j) (h0 : s.columnRow i ≠ 0) : i = j := by
  rcases Nat.eq_zero_or_pos i with rfl | hi1 <;> rcases Nat.eq_zero_or_pos j with rfl | hj1
  · rfl
  · have := h.le j hj1 hj; have := h.zero; omega
  · have := h.le i hi1 hi; have := h.zero; omega
  · exact h.inj i j hi1 hi hj1 hj he h0

/-- The rows of assigned columns are rows the potentials are feasible for. -/
theorem Searching.feasible_row (h : Searching costs m k s column) (hu : s.used 0 = true) {i j : ℕ}
    (hi : i ≤ m) (hr : s.columnRow i ≠ 0) (hj1 : 1 ≤ j) (hj : j ≤ m) :
    0 ≤ reduced costs s.toTables (s.columnRow i) j := by
  rcases Nat.eq_zero_or_pos i with rfl | hi1
  · rw [h.zero]; exact h.feasible_new hu j hj1 hj
  · exact h.feasible _ j (by omega) (h.le i hi1 hi) hj1 hj

/-- How one round moves the state, from `s` to `s'` and to the column `next`, when the columns in
`used` form the tree: the potentials of the tree move by `d`. -/
structure Moved (costs : List (List ℤ)) (m : ℕ) (s : Search) (column : ℕ) (s' : Search) (next : ℕ)
    (d : ℤ) : Prop where
  columnRow : s'.columnRow = s.columnRow
  used : s'.used = update s.used column true
  previous : ∀ j, s'.used j = true → s'.previous j = s.previous j
  reduced : ∀ i j, 1 ≤ j → j ≤ m → reduced costs s'.toTables i j =
    reduced costs s.toTables i j - (if ∃ c ≤ m, s'.used c = true ∧ s.columnRow c = i
      then d else 0) +
      (if s'.used j = true then d else 0)
  columnPotential : ∀ j, 1 ≤ j → j ≤ m → s'.columnPotential j =
    if s'.used j = true then s.columnPotential j - d else s.columnPotential j
  next_mem : 1 ≤ next ∧ next ≤ m ∧ s'.used next = false
  next_least : s'.minimum next = some 0
  least : ∀ j, 1 ≤ j → j ≤ m → s'.used j = false → ∃ x, s'.minimum j = some (x - d) ∧ d ≤ x ∧
    x ≤ Hungarian.reduced costs s.toTables (s.columnRow column) j ∧
    (∀ y, s.minimum j = some y → x ≤ y) ∧
    ((x = Hungarian.reduced costs s.toTables (s.columnRow column) j ∧ s'.previous j = column) ∨
      (s.minimum j = some x ∧ s'.previous j = s.previous j))

theorem Searching.moved (h : Searching costs m k s column) (hc : s.columnRow column ≠ 0) :
    ∃ d,
      Moved costs m s column (searchRound costs m s column).1
      (searchRound costs m s column).2 d := by
  obtain ⟨f, hf1, hfm, hf0⟩ := h.exists_free
  have hassigned : ∀ j, update s.used column true j = true → j ≤ m ∧ s.columnRow j ≠ 0 := by
    intro j hj
    by_cases hjc : j = column
    · subst hjc; exact ⟨h.column_le, hc⟩
    · rw [Function.update_of_ne hjc] at hj; exact h.used_assigned j hj
  have hfree : ∃ c, 1 ≤ c ∧ c ≤ m ∧ update s.used column true c = false := by
    refine ⟨f, hf1, hfm, ?_⟩
    by_contra hne
    exact (hassigned f (by simpa using hne)).2 hf0
  obtain ⟨d, hd, hnext, hmin, hrel⟩ :=
    scan_spec costs (s := { s with used := update s.used column true }) column hfree
  set found := scan costs m { s with used := update s.used column true } column with hfound
  obtain ⟨hcr, hpr, hus, hcp, hmn, hrp⟩ := relax_fold (d := d) (List.range (m + 1))
    { s with used := update s.used column true, minimum := found.minimum,
             previous := found.previous } List.nodup_range (by
      intro i hi j hj hui huj he
      exact h.inj_zero (hassigned i hui).1 (hassigned j huj).1 he (hassigned i hui).2)
  have hround : searchRound costs m s column = ((List.range (m + 1)).foldl (relaxColumn d)
      { s with used := update s.used column true, minimum := found.minimum,
               previous := found.previous }, found.next) := by
    simp only [searchRound, ← hfound, hd, relax, Option.getD_some]
  rw [hround]
  set s' := (List.range (m + 1)).foldl (relaxColumn d)
    { s with used := update s.used column true, minimum := found.minimum,
             previous := found.previous } with hs'
  refine ⟨d, hcr, hus, fun j hj => ?_, fun i j hj1 hjm => ?_, fun j hj1 hjm => ?_, ?_, ?_, ?_⟩
  · rw [hus] at hj
    rw [hpr]
    exact scan_used (s := { s with used := update s.used column true }) hj
  · rw [hus]
    simp only [Hungarian.reduced, hrp, hcp, List.mem_range]
    simp only [Nat.lt_succ_iff, hjm, true_and]
    split_ifs <;> ring
  · rw [hus, hcp]
    simp [hjm]
  · rw [hus]; exact hnext
  · rw [hmn, if_pos ⟨by rw [List.mem_range]; omega, hnext.2.2⟩]
    show (found.minimum found.next).map (· - d) = some 0
    rw [hmin]; simp
  · intro j hj1 hjm hu
    rw [hus] at hu
    obtain ⟨x, hx, hdx⟩ := hrel j hj1 hjm hu
    refine ⟨x, ?_, hdx, hx.le_value, hx.le_old, ?_⟩
    · rw [hmn, if_pos ⟨by rw [List.mem_range]; omega, hu⟩]
      show (found.minimum j).map (· - d) = some (x - d)
      rw [hx.minimum]; rfl
    · rw [hpr]; exact hx.origin

/-- **One round** of the search keeps its invariant. -/
theorem Searching.round (h : Searching costs m k s column) (hc : s.columnRow column ≠ 0) :
    Searching costs m k (searchRound costs m s column).1 (searchRound costs m s column).2 ∧
      (searchRound costs m s column).1.columnRow = s.columnRow ∧
      (searchRound costs m s column).1.used = update s.used column true ∧
      (searchRound costs m s column).1.used 0 = true ∧ (searchRound costs m s column).2 ≠ 0 := by
  obtain ⟨d, hm⟩ := h.moved hc
  generalize (searchRound costs m s column).1 = s' at *
  generalize (searchRound costs m s column).2 = next at *
  have hassigned : ∀ j, s'.used j = true → j ≤ m ∧ s.columnRow j ≠ 0 := by
    intro j hj
    rw [hm.used] at hj
    by_cases hjc : j = column
    · subst hjc; exact ⟨h.column_le, hc⟩
    · rw [Function.update_of_ne hjc] at hj; exact h.used_assigned j hj
  have hzero : s'.used 0 = true := by
    rw [hm.used]
    cases hu : s.used 0 with
    | true => by_cases h0 : 0 = column <;> simp [h0, hu]
    | false => simp [(h.start hu).1]
  -- a real column is in the tree only after the first round, when the costs are feasible
  have hreal : ∀ j, 1 ≤ j → s'.used j = true → s.used 0 = true := by
    intro j hj1 hj
    by_contra hne
    obtain ⟨h0, hall, -⟩ := h.start (by simpa using hne)
    rw [hm.used, h0, Function.update_of_ne (by omega), hall j] at hj
    cases hj
  -- the smallest value is at most the cost of every pair it was taken over
  have hle : ∀ i j, s'.used i = true → 1 ≤ j → j ≤ m → s'.used j = false →
      ∃ x, s'.minimum j = some (x - d) ∧ d ≤ x
        ∧ x ≤ reduced costs s.toTables (s.columnRow i) j := by
    intro i j hi hj1 hjm hju
    obtain ⟨x, hx, hdx, hval, hold, -⟩ := hm.least j hj1 hjm hju
    refine ⟨x, hx, hdx, ?_⟩
    by_cases hic : i = column
    · subst hic; exact hval
    · rw [hm.used, Function.update_of_ne hic] at hi
      have hu0 : s.used 0 = true := by
        by_contra hne
        have := (h.start (by simpa using hne)).2.1 i
        rw [hi] at this; cases this
      have hju' : s.used j = false := by
        by_cases hjc : j = column
        · subst hjc; exact h.fresh
        · rwa [hm.used, Function.update_of_ne hjc] at hju
      obtain ⟨y, hy, -, -, hyle⟩ := h.least hu0 j hj1 hjm hju'
      exact le_trans (hold y hy) (hyle i hi)
  have hnonneg : s.used 0 = true → 0 ≤ d := by
    intro hu0
    obtain ⟨hn1, hnm, hnu⟩ := hm.next_mem
    obtain ⟨x, hx, -, -, -, horigin⟩ := hm.least next hn1 hnm hnu
    have hxd : x = d := by
      rw [hm.next_least] at hx
      have := Option.some.inj hx
      omega
    rcases horigin with ⟨he, -⟩ | ⟨he, -⟩
    · rw [← hxd, he]
      exact h.feasible_row hu0 h.column_le hc hn1 hnm
    · have hnu' : s.used next = false := by
        by_cases hnc : next = column
        · subst hnc; exact h.fresh
        · rwa [hm.used, Function.update_of_ne hnc] at hnu
      obtain ⟨y, hy, hpu, hpy, -⟩ := h.least hu0 next hn1 hnm hnu'
      rw [he] at hy
      cases hy
      rw [← hxd, ← hpy]
      exact h.feasible_row hu0 (h.used_assigned _ hpu).1 (h.used_assigned _ hpu).2 hn1 hnm
  have htree : ∀ i j, s'.used i = true → 1 ≤ j → j ≤ m → s'.used j = true →
      reduced costs s'.toTables (s.columnRow i) j = reduced costs s.toTables (s.columnRow i) j := by
    intro i j hi hj1 hjm hj
    rw [hm.reduced _ j hj1 hjm, if_pos ⟨i, (hassigned i hi).1, hi, rfl⟩, if_pos hj]; ring
  have hout : ∀ i j, s'.used i = true → 1 ≤ j → j ≤ m → s'.used j = false →
      reduced costs s'.toTables (s.columnRow i) j =
        reduced costs s.toTables (s.columnRow i) j - d := by
    intro i j hi hj1 hjm hj
    rw [hm.reduced _ j hj1 hjm, if_pos ⟨i, (hassigned i hi).1, hi, rfl⟩,
      if_neg (by simp [hj])]; ring
  have hused_mono : ∀ j, s.used j = true → s'.used j = true := by
    intro j hj
    rw [hm.used]
    by_cases hjc : j = column <;> simp [hjc, hj]
  refine ⟨⟨?_, ?_, ?_, ?_, ?_, ?_, ?_, ?_, ?_, ?_, ?_, ?_, ?_, ?_, ?_, ?_⟩,
    hm.columnRow, hm.used, hzero, by have := hm.next_mem; omega⟩
  · rw [hm.columnRow]; exact h.zero
  · rw [hm.columnRow]; exact h.le
  · rw [hm.columnRow]; exact h.inj
  · rw [hm.columnRow]; exact h.exists_free
  · intro i j hi1 hik hj1 hjm
    rw [hm.reduced i j hj1 hjm]
    have hf := h.feasible i j hi1 hik hj1 hjm
    by_cases hrow : ∃ c ≤ m, s'.used c = true ∧ s.columnRow c = i <;>
      by_cases hcol : s'.used j = true
    · rw [if_pos hrow, if_pos hcol]; omega
    · rw [if_pos hrow, if_neg hcol]
      obtain ⟨c, -, hcu, rfl⟩ := hrow
      obtain ⟨x, -, hdx, hxr⟩ := hle c j hcu hj1 hjm (by simpa using hcol)
      omega
    · rw [if_neg hrow, if_pos hcol]
      have := hnonneg (hreal j hj1 hcol)
      omega
    · rw [if_neg hrow, if_neg hcol]; omega
  · intro _ j hj1 hjm
    have h0 : s.columnRow 0 = k + 1 := h.zero
    cases hju : s'.used j with
    | true =>
      rw [← h0, htree 0 j hzero hj1 hjm hju, h0]
      exact h.feasible_new (hreal j hj1 hju) j hj1 hjm
    | false =>
      obtain ⟨x, -, hdx, hxr⟩ := hle 0 j hzero hj1 hjm hju
      rw [← h0, hout 0 j hzero hj1 hjm hju]
      omega
  · rw [hm.columnRow]
    intro j hj1 hjm hj0
    have ht := h.tight j hj1 hjm hj0
    cases hju : s'.used j with
    | true => rw [htree j j hju hj1 hjm hju]; exact ht
    | false =>
      rw [hm.reduced _ j hj1 hjm, if_neg, if_neg (by simp [hju])]
      · omega
      · rintro ⟨c, hcm, hcu, he⟩
        have := h.inj_zero hcm hjm he (hassigned c hcu).2
        subst this
        rw [hju] at hcu; cases hcu
  · intro j hj1 hjm
    rw [hm.columnPotential j hj1 hjm]
    have := h.nonpos j hj1 hjm
    split_ifs with hju
    · have := hnonneg (hreal j hj1 hju); omega
    · exact this
  · rw [hm.columnRow]
    intro j hj1 hjm hj0
    rw [hm.columnPotential j hj1 hjm, if_neg fun hju => (hassigned j hju).2 hj0]
    exact h.free j hj1 hjm hj0
  · rw [hm.columnRow]; exact hassigned
  · exact hm.next_mem.2.2
  · exact hm.next_mem.2.1
  · intro hne; rw [hzero] at hne; cases hne
  · rw [hm.columnRow]
    intro _ j hj1 hjm hju
    obtain ⟨x, hx, hdx, hval, hold, horigin⟩ := hm.least j hj1 hjm hju
    have hprev : s'.used (s'.previous j) = true ∧
        reduced costs s.toTables (s.columnRow (s'.previous j)) j = x := by
      rcases horigin with ⟨he, hp⟩ | ⟨he, hp⟩
      · rw [hp, hm.used]; exact ⟨by simp, he.symm⟩
      · have hju' : s.used j = false := by
          by_cases hjc : j = column
          · subst hjc; exact h.fresh
          · rwa [hm.used, Function.update_of_ne hjc] at hju
        have hu0 : s.used 0 = true := by
          by_contra hne
          have := (h.start (by simpa using hne)).2.2 j
          rw [he] at this; cases this
        obtain ⟨y, hy, hpu, hpy, -⟩ := h.least hu0 j hj1 hjm hju'
        rw [he] at hy
        cases hy
        rw [hp]; exact ⟨hused_mono _ hpu, hpy⟩
    refine ⟨x - d, hx, hprev.1, ?_, fun i hi => ?_⟩
    · rw [hout _ j hprev.1 hj1 hjm hju, hprev.2]
    · obtain ⟨x', hx', -, hxr⟩ := hle i j hi hj1 hjm hju
      rw [hx] at hx'
      have := Option.some.inj hx'
      rw [hout i j hi hj1 hjm hju]
      omega
  · rw [hm.columnRow]
    intro j hj hj0
    rcases hj with hju | rfl
    · rw [hm.previous j hju]
      have hold : s.used j = true ∨ j = column := by
        by_cases hjc : j = column
        · exact Or.inr hjc
        · rw [hm.used, Function.update_of_ne hjc] at hju; exact Or.inl hju
      obtain ⟨h1, h2⟩ := h.tree j hold hj0
      refine ⟨hused_mono _ h1, ?_⟩
      rw [htree _ j (hused_mono _ h1) (by omega) (hassigned j hju).1 hju, h2]
    · obtain ⟨hn1, hnm, hnu⟩ := hm.next_mem
      obtain ⟨x, hx, hdx, hval, hold, horigin⟩ := hm.least j hn1 hnm hnu
      have hxd : x = d := by
        rw [hm.next_least] at hx
        have := Option.some.inj hx
        omega
      rcases horigin with ⟨he, hp⟩ | ⟨he, hp⟩
      · have hcu : s'.used column = true := by rw [hm.used]; simp
        rw [hp]
        exact ⟨hcu, by rw [hout column j hcu hn1 hnm hnu, ← he, hxd]; ring⟩
      · have hju' : s.used j = false := by
          by_cases hjc : j = column
          · subst hjc; exact h.fresh
          · rwa [hm.used, Function.update_of_ne hjc] at hnu
        have hu0 : s.used 0 = true := by
          by_contra hne
          have := (h.start (by simpa using hne)).2.2 j
          rw [he] at this; cases this
        obtain ⟨y, hy, hpu, hpy, -⟩ := h.least hu0 j hn1 hnm hju'
        rw [he] at hy
        cases hy
        rw [hp]
        exact ⟨hused_mono _ hpu, by rw [hout _ j (hused_mono _ hpu) hn1 hnm hnu, hpy, hxd]; ring⟩
  · intro j hju
    have hcongr : ∀ {i l}, PathTo s.previous i l → (∀ x ∈ l, s.used x = true) →
        PathTo s'.previous i l ∧ ∀ x ∈ l, s'.used x = true := by
      intro i l hp hl
      exact ⟨hp.congr fun x hx => hm.previous x (hused_mono x (hl x hx)),
        fun x hx => hused_mono x (hl x hx)⟩
    by_cases hjc : j = column
    · subst hjc
      rcases Nat.eq_zero_or_pos j with rfl | hpos
      · exact ⟨[0], .root, by simpa using hju⟩
      · obtain ⟨hpu, -⟩ := h.tree j (Or.inr rfl) (by omega)
        obtain ⟨l, hl, hlu⟩ := h.path _ hpu
        obtain ⟨hl', hlu'⟩ := hcongr hl hlu
        refine ⟨j :: l, .step (by omega) ?_ ?_, ?_⟩
        · rw [hm.previous j hju]; exact hl'
        · intro hmem
          have := hlu j hmem
          rw [h.fresh] at this; cases this
        · intro x hx
          rcases List.mem_cons.mp hx with rfl | hx
          · exact hju
          · exact hlu' x hx
    · rw [hm.used, Function.update_of_ne hjc] at hju
      obtain ⟨l, hl, hlu⟩ := h.path j hju
      exact ⟨l, hcongr hl hlu⟩

end

section

variable {costs : List (List ℤ)} {m k : ℕ}

/-- The number of columns used so far. -/
def usedCount (m : ℕ) (used : ℕ → Bool) : ℕ := (List.range (m + 1)).countP used

theorem usedCount_update {used : ℕ → Bool} {column : ℕ} (hm : column ≤ m)
    (h : used column = false) : usedCount m (update used column true) = usedCount m used + 1 := by
  unfold usedCount
  obtain ⟨l, l', hl⟩ := List.append_of_mem (List.mem_range.mpr (Nat.lt_succ_of_le hm))
  have hnd : (l ++ column :: l').Nodup := hl ▸ List.nodup_range
  have hnot : column ∉ l ∧ column ∉ l' := by
    rw [List.nodup_append, List.nodup_cons] at hnd
    exact ⟨fun hc => hnd.2.2 column hc column (by simp) rfl, hnd.2.1.1⟩
  have hcongr : ∀ l : List ℕ, column ∉ l → l.countP (update used column true) = l.countP used :=
    fun l hl => List.countP_congr fun x hx => by
      have hne : x ≠ column := fun he => hl (he ▸ hx)
      rw [Function.update_of_ne hne]
  rw [show m.succ = m + 1 from rfl] at hl
  rw [hl, List.countP_append, List.countP_append, List.countP_cons, List.countP_cons,
    hcongr l hnot.1, hcongr l' hnot.2]
  simp [h]; omega

theorem usedCount_lt {used : ℕ → Bool} {column : ℕ} (hm : column ≤ m) (h : used column = false) :
    usedCount m used < m + 1 := by
  have h1 := usedCount_update hm h
  have h2 : usedCount m (update used column true) ≤ (List.range (m + 1)).length :=
    List.countP_le_length
  rw [List.length_range] at h2
  omega

/-- **The search** ends in a free column, as soon as its fuel covers the columns not used. -/
theorem Searching.loop : ∀ (fuel : ℕ) (s : Search) (column : ℕ), Searching costs m k s column →
    s.columnRow column ≠ 0 → m + 1 ≤ fuel + usedCount m s.used →
    Searching costs m k (searchLoop costs m fuel s column).1 (searchLoop costs m fuel s column).2 ∧
      (searchLoop costs m fuel s column).1.columnRow (searchLoop costs m fuel s column).2 = 0 ∧
      (searchLoop costs m fuel s column).1.columnRow = s.columnRow ∧
      (searchLoop costs m fuel s column).1.used 0 = true ∧
      (searchLoop costs m fuel s column).2 ≠ 0
  | 0, s, column, h, _, hfuel => by
    have := usedCount_lt h.column_le h.fresh
    omega
  | fuel + 1, s, column, h, hc, hfuel => by
    obtain ⟨hs, hcr, hus, hu0, hn0⟩ := h.round hc
    simp only [searchLoop]
    split_ifs with hnext
    · exact ⟨hs, hnext, hcr, hu0, hn0⟩
    · have hcount := usedCount_update h.column_le h.fresh
      obtain ⟨h1, h2, h3, h4, h5⟩ := Searching.loop fuel _ _ hs hnext (by rw [hus]; omega)
      exact ⟨h1, h2, h3.trans hcr, h4, h5⟩

/-- The path that ends in the current column. -/
theorem Searching.exists_path {s : Search} {column : ℕ} (h : Searching costs m k s column)
    (hc : column ≠ 0) :
    ∃ l, PathTo s.previous column (column :: l) ∧ (∀ x ∈ l, s.used x = true) ∧
      (∀ x ∈ column :: l, x ≤ m) ∧ (column :: l).length ≤ (m + 1) + 1 := by
  obtain ⟨hpu, -⟩ := h.tree column (Or.inr rfl) hc
  obtain ⟨l, hl, hlu⟩ := h.path _ hpu
  have hcl : column ∉ l := fun hmem => by
    have := hlu column hmem
    rw [h.fresh] at this; cases this
  have hpath : PathTo s.previous column (column :: l) := .step hc hl hcl
  have hmem_le : ∀ x ∈ column :: l, x ≤ m := by
    intro x hx
    rcases List.mem_cons.mp hx with rfl | hx
    · exact h.column_le
    · exact (h.used_assigned x (hlu x hx)).1
  have hsub : column :: l ⊆ List.range (m + 1) := fun x hx =>
    List.mem_range.mpr (Nat.lt_succ_of_le (hmem_le x hx))
  have hlen := (List.subperm_of_subset hpath.nodup hsub).length_le
  rw [List.length_range] at hlen
  exact ⟨l, hpath, hlu, hmem_le, Nat.le_succ_of_le hlen⟩

theorem Assigned.exists_free {t : Tables} (h : Assigned costs m k t) (hk : k < m) :
    ∃ j, 1 ≤ j ∧ j ≤ m ∧ t.columnRow j = 0 := by
  by_contra hne
  push Not at hne
  have hcard := Finset.card_le_card_of_injOn (s := Finset.Icc 1 m) (t := Finset.Icc 1 k) t.columnRow
    (fun j hj => by
      have hj := Finset.mem_Icc.mp (Finset.mem_coe.mp hj)
      have := hne j hj.1 hj.2
      exact Finset.mem_coe.mpr (Finset.mem_Icc.mpr ⟨by omega, h.le j hj.1 hj.2⟩))
    (fun i hi j hj he => by
      have hi := Finset.mem_Icc.mp (Finset.mem_coe.mp hi)
      have hj := Finset.mem_Icc.mp (Finset.mem_coe.mp hj)
      exact h.inj i j hi.1 hi.2 hj.1 hj.2 he (hne i hi.1 hi.2))
  simp at hcard
  omega

theorem Assigned.search {t : Tables} (h : Assigned costs m k t) (hk : k < m) :
    Searching costs m k
      { t with columnRow := update t.columnRow 0 (k + 1), minimum := fun _ => none,
               used := fun _ => false } 0 := by
  have hne : ∀ j, 1 ≤ j → update t.columnRow 0 (k + 1) j = t.columnRow j :=
    fun j hj => Function.update_of_ne (by omega) _ _
  obtain ⟨f, hf1, hfm, hf0⟩ := h.exists_free hk
  refine ⟨by simp, fun j hj1 hjm => ?_, fun i j hi1 him hj1 hjm => ?_,
    ⟨f, hf1, hfm, ?_⟩, h.feasible, fun hu => by simp at hu, fun j hj1 hjm => ?_, h.nonpos,
    fun j hj1 hjm => ?_, fun j hj => by simp at hj, rfl, by omega, fun _ =>
      ⟨rfl, fun _ => rfl, fun _ => rfl⟩,
    fun hu => by simp at hu, fun j hj h0 => ?_, fun j hj => by simp at hj⟩
  · simp only [hne j hj1]; exact h.le j hj1 hjm
  · simp only [hne i hi1, hne j hj1]; exact h.inj i j hi1 him hj1 hjm
  · simp only [hne f hf1]; exact hf0
  · simp only [hne j hj1]; exact h.tight j hj1 hjm
  · simp only [hne j hj1]; exact h.free j hj1 hjm
  · rcases hj with hj | hj
    · simp at hj
    · exact absurd hj h0

/-- **Inserting a row** keeps the invariant. -/
theorem Assigned.insertRow {t : Tables} (h : Assigned costs m k t) (hk : k < m) :
    Assigned costs m (k + 1) (insertRow costs m t (k + 1)) := by
  have hstart := h.search hk
  obtain ⟨hs, hfree, hcr, hu0, hn0⟩ := Searching.loop (m + 1) _ _ hstart (by simp) (by omega)
  simp only [Hungarian.insertRow]
  set s := (searchLoop costs m (m + 1)
    { t with columnRow := update t.columnRow 0 (k + 1), minimum := fun _ => none,
             used := fun _ => false } 0).1 with hs'
  set c := (searchLoop costs m (m + 1)
    { t with columnRow := update t.columnRow 0 (k + 1), minimum := fun _ => none,
             used := fun _ => false } 0).2 with hc'
  obtain ⟨l, hpath, hlu, hmem_le, hlen⟩ := hs.exists_path hn0
  have hpu : s.used (s.previous c) = true := (hs.tree c (Or.inr rfl) hn0).1
  have haug := augment_spec hpath hn0 (m + 1) s.columnRow hlen
  have hin : ∀ x ∈ c :: l, x ≠ 0 → s.used (s.previous x) = true ∧
      s.columnRow (s.previous x) ≠ 0 ∧ s.previous x ≤ m := by
    intro x hx hx0
    have hprev : s.used (s.previous x) = true := by
      rcases List.mem_cons.mp hx with rfl | hx
      · exact hpu
      · exact (hs.tree x (Or.inl (hlu x hx)) hx0).1
    exact ⟨hprev, (hs.used_assigned _ hprev).2, (hs.used_assigned _ hprev).1⟩
  have hpos : ∀ x, 1 ≤ x → x ∈ c :: l → augment s.previous (m + 1) s.columnRow c x =
      s.columnRow (s.previous x) := fun x hx1 hx => by rw [haug, if_pos ⟨hx, by omega⟩]
  have hneg : ∀ x, x ∉ c :: l → augment s.previous (m + 1) s.columnRow c x = s.columnRow x :=
    fun x hx => by rw [haug, if_neg fun h => hx h.1]
  refine ⟨fun j hj1 hjm => ?_, fun i j hi1 him hj1 hjm he h0 => ?_, fun i hi1 hik => ?_,
    fun i j hi1 hik hj1 hjm => ?_, fun j hj1 hjm h0 => ?_, hs.nonpos, fun j hj1 hjm h0 => ?_⟩
  · show augment s.previous (m + 1) s.columnRow c j ≤ k + 1
    by_cases hj : j ∈ c :: l
    · rw [hpos j hj1 hj]
      obtain ⟨-, -, hle⟩ := hin j hj (by omega)
      rcases Nat.eq_zero_or_pos (s.previous j) with hp | hp
      · rw [hp, hs.zero]
      · exact Nat.le_succ_of_le (hs.le _ hp hle)
    · rw [hneg j hj]; exact Nat.le_succ_of_le (hs.le j hj1 hjm)
  · change augment s.previous (m + 1) s.columnRow c i =
      augment s.previous (m + 1) s.columnRow c j at he
    change augment s.previous (m + 1) s.columnRow c i ≠ 0 at h0
    by_cases hi : i ∈ c :: l <;> by_cases hj : j ∈ c :: l
    · rw [hpos i hi1 hi] at h0
      rw [hpos i hi1 hi, hpos j hj1 hj] at he
      have hp := hs.inj_zero (hin i hi (by omega)).2.2 (hin j hj (by omega)).2.2 he h0
      exact hpath.previous_inj hi hj (by omega) (by omega) hp
    · rw [hpos i hi1 hi] at h0
      rw [hpos i hi1 hi, hneg j hj] at he
      have hp := hs.inj_zero (hin i hi (by omega)).2.2 hjm he h0
      exact absurd (hp ▸ hpath.previous_mem hi (by omega)) hj
    · rw [hneg i hi] at h0
      rw [hneg i hi, hpos j hj1 hj] at he
      have hp := hs.inj_zero him (hin j hj (by omega)).2.2 he h0
      exact absurd (hp ▸ hpath.previous_mem hj (by omega)) hi
    · rw [hneg i hi] at h0
      rw [hneg i hi, hneg j hj] at he
      exact hs.inj i j hi1 him hj1 hjm he h0
  · -- the column of row `i` before the shift, possibly the fictitious one
    obtain ⟨j, hjm, hj⟩ : ∃ j, j ≤ m ∧ s.columnRow j = i := by
      rcases Nat.lt_or_ge k i with hlt | hge
      · exact ⟨0, by omega, by rw [hs.zero]; omega⟩
      · obtain ⟨j, hj1, hjm, hj⟩ := h.surj i hi1 hge
        refine ⟨j, hjm, ?_⟩
        rw [hcr, ← hj]
        exact Function.update_of_ne (by omega) _ _
    by_cases hjl : j ∈ c :: l
    · have hjc : j ≠ c := fun he => by rw [he, hfree] at hj; omega
      obtain ⟨x, hx, hx0, hxp⟩ := hpath.exists_previous_eq hjl hjc
      refine ⟨x, by omega, hmem_le x hx, ?_⟩
      show augment s.previous (m + 1) s.columnRow c x = i
      rw [hpos x (by omega) hx, hxp, hj]
    · have hj0 : j ≠ 0 := fun he => hjl (he ▸ hpath.zero_mem)
      refine ⟨j, by omega, hjm, ?_⟩
      show augment s.previous (m + 1) s.columnRow c j = i
      rw [hneg j hjl, hj]
  · rcases Nat.lt_or_ge k i with hlt | hge
    · have : i = k + 1 := by omega
      rw [this]; exact hs.feasible_new hu0 j hj1 hjm
    · exact hs.feasible i j hi1 hge hj1 hjm
  · change augment s.previous (m + 1) s.columnRow c j ≠ 0 at h0
    show reduced costs s.toTables (augment s.previous (m + 1) s.columnRow c j) j = 0
    by_cases hj : j ∈ c :: l
    · rw [hpos j hj1 hj]
      rcases List.mem_cons.mp hj with hjc | hj
      · exact (hs.tree j (Or.inr hjc) (by omega)).2
      · exact (hs.tree j (Or.inl (hlu j hj)) (by omega)).2
    · rw [hneg j hj] at h0 ⊢
      exact hs.tight j hj1 hjm h0
  · change augment s.previous (m + 1) s.columnRow c j = 0 at h0
    by_cases hj : j ∈ c :: l
    · rw [hpos j hj1 hj] at h0
      exact absurd h0 (hin j hj (by omega)).2.1
    · rw [hneg j hj] at h0
      exact hs.free j hj1 hjm h0

end

/-! ### The result -/

section

variable {costs : List (List ℤ)} {m : ℕ}

theorem assigned_initial : Assigned costs m 0 initialTables :=
  ⟨fun _ _ _ => le_rfl, fun _ _ _ _ _ _ _ h => absurd rfl h, fun _ h1 h2 => by omega,
    fun _ _ h1 h2 => by omega, fun _ _ _ h => absurd rfl h, fun _ _ _ => le_rfl, fun _ _ _ _ => rfl⟩

theorem assigned_fold : ∀ k ≤ m,
    Assigned costs m k ((List.range' 1 k).foldl (insertRow costs m) initialTables)
  | 0, _ => assigned_initial
  | k + 1, hk => by
    rw [List.range'_concat, List.foldl_append, List.foldl_cons, List.foldl_nil, Nat.one_mul,
      Nat.add_comm 1 k]
    exact (assigned_fold k (by omega)).insertRow (by omega)

theorem length_readColumn (columnRow : ℕ → ℕ) : ∀ (l : List ℕ) (assignment : List ℕ),
    (l.foldl (readColumn columnRow) assignment).length = assignment.length
  | [], _ => rfl
  | j :: l, assignment => by
    rw [List.foldl_cons, length_readColumn columnRow l]
    unfold readColumn; split_ifs <;> simp

/-- The column that holds row `i + 1` is read at position `i`. -/
theorem getElem?_readColumn {columnRow : ℕ → ℕ} {i j : ℕ} (hj : columnRow j = i + 1) :
    ∀ (l : List ℕ) (assignment : List ℕ), (∀ c ∈ l, columnRow c = i + 1 → c = j) →
      i < assignment.length → j ∈ l ∨ assignment[i]? = some (j - 1) →
      (l.foldl (readColumn columnRow) assignment)[i]? = some (j - 1)
  | [], assignment, _, _, h => by simpa using h
  | c :: l, assignment, huniq, hi, h => by
    rw [List.foldl_cons]
    refine getElem?_readColumn hj l _ (fun c hc => huniq c (List.mem_cons_of_mem _ hc)) ?_ ?_
    · unfold readColumn; split_ifs <;> simpa using hi
    · by_cases hcj : columnRow c = i + 1
      · right
        have := huniq c (by simp) hcj
        subst this
        simp [readColumn, hcj, hi]
      · rcases h with h | h
        · left
          rcases List.mem_cons.mp h with rfl | h
          · exact absurd hj hcj
          · exact h
        · right
          unfold readColumn
          split_ifs with h0
          · rw [List.getElem?_set_ne (by omega)]; exact h
          · exact h

/-- The tables with every row inserted. -/
theorem hungarian_eq (hcols : (costs.headD []).length = m) :
    hungarian costs = (List.range' 1 m).foldl
      (readColumn ((List.range' 1 costs.length).foldl (insertRow costs m) initialTables).columnRow)
      (List.replicate costs.length m) := by
  subst hcols
  rfl

/-- **The Hungarian algorithm** returns an injective assignment of the rows to columns that is
cheapest among the injective assignments. -/
theorem hungarian_spec (hm : ∀ row ∈ costs, row.length = m) (hpos : costs ≠ [])
    (hle : costs.length ≤ m) :
    ∃ a : Fin costs.length → Fin m, Function.Injective a ∧
      hungarian costs = List.ofFn (fun i => (a i).val) ∧
      ∀ b : Fin costs.length → Fin m, Function.Injective b →
        ∑ i : Fin costs.length, entry costs i.val (a i).val ≤
          ∑ i : Fin costs.length, entry costs i.val (b i).val := by
  have hcols : (costs.headD []).length = m := by
    cases costs with
    | nil => exact absurd rfl hpos
    | cons row rest => exact hm row (by simp)
  have h : Assigned costs m costs.length _ := assigned_fold costs.length hle
  rw [hungarian_eq hcols]
  generalize (List.range' 1 costs.length).foldl (insertRow costs m) initialTables = t at h ⊢
  have hcol : ∀ i : Fin costs.length, ∃ j, 1 ≤ j ∧ j ≤ m ∧ t.columnRow j = i.val + 1 :=
    fun i => h.surj _ (by omega) (by omega)
  choose c hc1 hcm hcr using hcol
  let a : Fin costs.length → Fin m := fun i => ⟨c i - 1, by have := hc1 i; have := hcm i; omega⟩
  have hac : ∀ i, (a i).val = c i - 1 := fun _ => rfl
  have hinj : Function.Injective a := by
    intro i i' he
    have hc : c i = c i' := by
      have h1 : c i - 1 = c i' - 1 := congrArg Fin.val he
      have := hc1 i; have := hc1 i'; omega
    have h1 := hcr i
    rw [hc, hcr i'] at h1
    exact Fin.ext (by omega)
  refine ⟨a, hinj, ?_, fun b hb => ?_⟩
  · refine List.ext_getElem? fun i => ?_
    by_cases hi : i < costs.length
    · rw [getElem?_readColumn (hcr ⟨i, hi⟩) _ _ (fun j hj he => ?_) (by simpa using hi)
        (Or.inl (mem_columns.mpr ⟨hc1 _, hcm _⟩))]
      · rw [List.getElem?_ofFn, dif_pos hi, hac]
      · have hj := mem_columns.mp hj
        exact h.inj j _ hj.1 hj.2 (hc1 _) (hcm _) (he.trans (hcr ⟨i, hi⟩).symm) (by omega)
    · rw [List.getElem?_eq_none (by rw [length_readColumn]; simpa using hi),
        List.getElem?_eq_none (by simpa using hi)]
  · refine Lib.Assignment.sum_le_of_potentials (c := fun i j => entry costs i.val j.val)
      (u := fun i => t.rowPotential (i.val + 1)) (v := fun j => t.columnPotential (j.val + 1))
      (fun i j => ?_) (fun j => ?_) (fun i => ?_) (fun j hj => ?_) hinj hb
    · have := h.feasible (i.val + 1) (j.val + 1) (by omega) (by omega) (by omega) (by omega)
      simp only [reduced, Nat.add_sub_cancel] at this
      omega
    · exact h.nonpos _ (by omega) (by omega)
    · have := h.tight (c i) (hc1 i) (hcm i) (by rw [hcr i]; omega)
      have he : c i = (a i).val + 1 := by have := hc1 i; rw [hac]; omega
      rw [hcr i, he] at this
      simp only [reduced, Nat.add_sub_cancel] at this
      omega
    · refine h.free _ (by omega) (by omega) ?_
      by_contra hne
      have hle' := h.le (j.val + 1) (by omega) (by omega)
      obtain ⟨r, hr⟩ : ∃ r : Fin costs.length, t.columnRow (j.val + 1) = r.val + 1 :=
        ⟨⟨t.columnRow (j.val + 1) - 1, by omega⟩, by simp only; omega⟩
      refine hj r (Fin.ext ?_)
      have := h.inj (c r) (j.val + 1) (hc1 r) (hcm r) (by omega) (by omega)
        ((hcr r).trans hr.symm) (by rw [hcr r]; omega)
      rw [hac]; omega

end

end Sporos.Matcher.Hungarian
