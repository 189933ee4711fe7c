import Sporos.Lib.Checked
import Sporos.Matcher.Hungarian

/-! # The Hungarian algorithm on machine numbers

`hungarian` of `matcher.rs` with vectors and `i128` numbers: every sum, difference and index is
checked, and `i128::MAX` stands in `minimum` and `delta` as in the source. The costs are between
`-W` and zero, and each row has a free column of cost zero while it is inserted, so that the
potentials stay between `-W` and zero; the potential of the fictitious column, which is never reset,
grows by at most `W` with each row. So no number leaves the range of its type, and the checked
algorithm does what `hungarian` does. -/

namespace Sporos.Matcher.CheckedHungarian

open Function (update)
open Sporos.Lib.Checked

/-- The vectors that live through the whole algorithm. -/
structure Tables where
  rowPotential : List ℤ
  columnPotential : List ℤ
  columnRow : List ℕ
  previous : List ℕ

/-- The vectors of one row insertion. -/
structure Search extends Tables where
  minimum : List ℤ
  used : List Bool

/-- What the scan over the columns computes. -/
structure Scan where
  minimum : List ℤ
  previous : List ℕ
  delta : ℤ
  next : ℕ

section

variable (costs : List (List ℤ))

/-- The reduced cost of the row of the column just used. -/
def reduced (t : Tables) (row column : ℕ) : Except Fault ℤ := do
  let costRow ← getAt costs (← pred row)
  let cost ← getAt costRow (← pred column)
  let rest ← i128 (cost - (← getAt t.rowPotential row))
  i128 (rest - (← getAt t.columnPotential column))

/-- Relax a column from the column just used. -/
def relaxAt (s : Search) (column row : ℕ) (acc : Scan) (candidate : ℕ) : Except Fault Scan := do
  let value ← reduced costs s.toTables row candidate
  if value < (← getAt acc.minimum candidate) then
    let minimum ← setAt acc.minimum candidate value
    let previous ← setAt acc.previous candidate column
    return { acc with minimum, previous }
  else return acc

/-- Keep the smallest entry of `minimum` seen, and its column. -/
def keepLeast (acc : Scan) (candidate : ℕ) : Except Fault Scan := do
  let value ← getAt acc.minimum candidate
  if value < acc.delta then return { acc with delta := value, next := candidate }
  else return acc

/-- The scan at one column. -/
def scanColumn (s : Search) (column row : ℕ) (acc : Scan) (candidate : ℕ) : Except Fault Scan := do
  if ← getAt s.used candidate then return acc
  else keepLeast (← relaxAt costs s column row acc candidate) candidate

/-- The loop over the columns that finds the smallest reduced cost. -/
def scan (columns : ℕ) (s : Search) (column : ℕ) : Except Fault Scan := do
  let row ← getAt s.columnRow column
  (List.range' 1 columns).foldlM (scanColumn costs s column row) ⟨s.minimum, s.previous, i128Max, 0⟩

/-- The potentials at one column move by `delta`. -/
def relaxColumn (delta : ℤ) (s : Search) (column : ℕ) : Except Fault Search := do
  if ← getAt s.used column then
    let row ← getAt s.columnRow column
    let up ← i128 ((← getAt s.rowPotential row) + delta)
    let rowPotential ← setAt s.rowPotential row up
    let down ← i128 ((← getAt s.columnPotential column) - delta)
    let columnPotential ← setAt s.columnPotential column down
    return { s with rowPotential, columnPotential }
  else
    let value ← i128 ((← getAt s.minimum column) - delta)
    let minimum ← setAt s.minimum column value
    return { s with minimum }

/-- The loop that moves the potentials. -/
def relax (columns : ℕ) (delta : ℤ) (s : Search) : Except Fault Search :=
  (List.range (columns + 1)).foldlM (relaxColumn delta) s

/-- One round of the search. -/
def searchRound (columns : ℕ) (s : Search) (column : ℕ) : Except Fault (Search × ℕ) := do
  let used ← setAt s.used column true
  let s := { s with used }
  let found ← scan costs columns s column
  let s := { s with minimum := found.minimum, previous := found.previous }
  return (← relax columns found.delta s, found.next)

/-- The search for a free column. -/
def searchLoop (columns : ℕ) : ℕ → Search → ℕ → Except Fault (Search × ℕ)
  | 0, _, _ => .error .diverged
  | fuel + 1, s, column => do
    let r ← searchRound costs columns s column
    if (← getAt r.1.columnRow r.2) = 0 then return r else searchLoop columns fuel r.1 r.2

/-- Shift the rows along the path that ends in the free column. -/
def augment (previous : List ℕ) : ℕ → List ℕ → ℕ → Except Fault (List ℕ)
  | 0, _, _ => .error .diverged
  | fuel + 1, columnRow, column => do
    let prior ← getAt previous column
    let columnRow ← setAt columnRow column (← getAt columnRow prior)
    if prior = 0 then return columnRow else augment previous fuel columnRow prior

/-- Insert a row. -/
def insertRow (columns : ℕ) (t : Tables) (row : ℕ) : Except Fault Tables := do
  let columnRow ← setAt t.columnRow 0 row
  let start : Search :=
    { t with
      columnRow
      minimum := List.replicate (columns + 1) i128Max
      used := List.replicate (columns + 1) false }
  let r ← searchLoop costs columns (columns + 1) start 0
  let columnRow ← augment r.1.previous (columns + 1) r.1.columnRow r.2
  return { r.1.toTables with columnRow }

/-- Enter the row of a column, if it holds one, in the assignment. -/
def readColumn (columnRow : List ℕ) (assignment : List ℕ) (column : ℕ) : Except Fault (List ℕ) := do
  let row ← getAt columnRow column
  if row ≠ 0 then setAt assignment (← pred row) (← pred column) else return assignment

/-- The tables before the first row. -/
def initialTables (rows columns : ℕ) : Tables where
  rowPotential := List.replicate (rows + 1) 0
  columnPotential := List.replicate (columns + 1) 0
  columnRow := List.replicate (columns + 1) 0
  previous := List.replicate (columns + 1) 0

/-- `hungarian`. -/
def hungarian : Except Fault (List ℕ) := do
  let rows := costs.length
  let columns := (← getAt costs 0).length
  let t ← (List.range' 1 rows).foldlM (insertRow costs columns) (initialTables rows columns)
  (List.range' 1 columns).foldlM (readColumn t.columnRow) (List.replicate rows columns)

end

/-! ### Representations -/

section

variable (R m : ℕ)

/-- The vectors of the tables. -/
def ofTables (t : Hungarian.Tables) : Tables where
  rowPotential := vec (R + 1) t.rowPotential
  columnPotential := vec (m + 1) t.columnPotential
  columnRow := vec (m + 1) t.columnRow
  previous := vec (m + 1) t.previous

/-- A minimum, where `i128::MAX` stands for none. -/
def ofMinimum (o : Option ℤ) : ℤ := o.getD i128Max

/-- The tables of a search as vectors. -/
def ofSearch (s : Hungarian.Search) : Search where
  toTables := ofTables R m s.toTables
  minimum := vec (m + 1) fun c => ofMinimum (s.minimum c)
  used := vec (m + 1) s.used

/-- The result of a scan as vectors. -/
def ofScan (r : Hungarian.Scan) : Scan where
  minimum := vec (m + 1) fun c => ofMinimum (r.minimum c)
  previous := vec (m + 1) r.previous
  delta := ofMinimum r.delta
  next := r.next

end

/-! ### One iteration -/

section

variable {costs : List (List ℤ)} {R m : ℕ}

/-- The numbers of a reduced cost are in range. -/
structure InRange (costs : List (List ℤ)) (t : Hungarian.Tables) (row column : ℕ) : Prop where
  rest_low : -2 ^ 127 ≤ Hungarian.entry costs (row - 1) (column - 1) - t.rowPotential row
  rest_high : Hungarian.entry costs (row - 1) (column - 1) - t.rowPotential row ≤ i128Max
  low : -2 ^ 127 ≤ Hungarian.reduced costs t row column
  high : Hungarian.reduced costs t row column < i128Max

theorem reduced_eq (hlen : costs.length = R) (hm : ∀ row ∈ costs, row.length = m)
    {t : Hungarian.Tables} {row column : ℕ} (hrow : 1 ≤ row ∧ row ≤ R)
    (hcolumn : 1 ≤ column ∧ column ≤ m) (h : InRange costs t row column) :
    reduced costs (ofTables R m t) row column = .ok (Hungarian.reduced costs t row column) := by
  have hr : row - 1 < costs.length := by omega
  have hc : column - 1 < costs[row - 1].length := by
    rw [hm _ (List.getElem_mem hr)]
    omega
  have hentry : Hungarian.entry costs (row - 1) (column - 1) = costs[row - 1][column - 1] := by
    rw [Hungarian.entry, List.getD_eq_getElem _ _ hr, List.getD_eq_getElem _ _ hc]
  unfold reduced ofTables
  rw [pred_eq (by omega), ok_bind, getAt_eq (List.getElem?_eq_getElem hr), ok_bind,
    pred_eq (by omega), ok_bind, getAt_eq (List.getElem?_eq_getElem hc), ok_bind]
  simp only
  rw [getAt_vec _ (by omega), ok_bind, ← hentry, i128_eq h.rest_low h.rest_high, ok_bind,
    getAt_vec _ (by omega), ok_bind]
  exact i128_eq h.low h.high.le

/-- `i128::MAX` is compared like no minimum. -/
theorem lt_ofMinimum {a : ℤ} (h : a < i128Max) (o : Option ℤ) :
    a < ofMinimum o ↔ Hungarian.below (some a) o = true := by
  cases o with
  | none => simpa [ofMinimum, Hungarian.below] using h
  | some b => simp [ofMinimum, Hungarian.below]

theorem ofMinimum_update (f : ℕ → Option ℤ) (c : ℕ) (x : ℤ) :
    update (fun c => ofMinimum (f c)) c x = fun j => ofMinimum (update f c (some x) j) := by
  funext j
  by_cases h : j = c
  · subst h; simp [ofMinimum]
  · simp [h]

section

variable {s : Hungarian.Search} {column candidate : ℕ}

theorem relaxAt_eq (hlen : costs.length = R) (hm : ∀ row ∈ costs, row.length = m)
    (acc : Hungarian.Scan) (hrow : 1 ≤ s.columnRow column ∧ s.columnRow column ≤ R)
    (hcandidate : 1 ≤ candidate ∧ candidate ≤ m)
    (h : InRange costs s.toTables (s.columnRow column) candidate) :
    relaxAt costs (ofSearch R m s) column (s.columnRow column) (ofScan m acc) candidate =
      .ok (ofScan m (Hungarian.relaxAt costs s column acc candidate)) := by
  have hvalue : reduced costs (ofSearch R m s).toTables (s.columnRow column) candidate =
      .ok (Hungarian.reduced costs s.toTables (s.columnRow column) candidate) :=
    reduced_eq hlen hm hrow hcandidate h
  unfold relaxAt Hungarian.relaxAt
  rw [hvalue, ok_bind, ofScan, getAt_vec _ (by omega), ok_bind]
  simp only [lt_ofMinimum h.high]
  split_ifs with hbelow
  · rw [setAt_vec _ _ (by omega), ok_bind, setAt_vec _ _ (by omega), ok_bind, ofMinimum_update]
    rfl
  · rfl

/-- An unused column has a minimum below `i128::MAX` once it is relaxed. -/
theorem minimum_relaxAt (acc : Hungarian.Scan)
    (h : InRange costs s.toTables (s.columnRow column) candidate) :
    ∃ x, (Hungarian.relaxAt costs s column acc candidate).minimum candidate =
      some x ∧ x < i128Max := by
  unfold Hungarian.relaxAt
  split_ifs with hbelow
  · exact ⟨_, by simp, h.high⟩
  · cases hx : acc.minimum candidate with
    | none => simp [hx, Hungarian.below] at hbelow
    | some x =>
      rw [hx] at hbelow
      simp only [Hungarian.below, decide_eq_true_eq, not_lt] at hbelow
      exact ⟨x, rfl, lt_of_le_of_lt hbelow h.high⟩

theorem keepLeast_eq {acc : Hungarian.Scan} (hcandidate : candidate ≤ m) {x : ℤ}
    (hx : acc.minimum candidate = some x) (hlt : x < i128Max) :
    keepLeast (ofScan m acc) candidate = .ok (ofScan m (Hungarian.keepLeast acc candidate)) := by
  unfold keepLeast Hungarian.keepLeast
  rw [ofScan, getAt_vec _ (by omega), ok_bind]
  simp only [hx, ofMinimum, Option.getD_some]
  change (if x < ofMinimum acc.delta then _ else _) = _
  simp only [lt_ofMinimum hlt]
  split_ifs with hbelow
  · rfl
  · rfl

theorem scanColumn_eq (hlen : costs.length = R) (hm : ∀ row ∈ costs, row.length = m)
    (acc : Hungarian.Scan) (hrow : 1 ≤ s.columnRow column ∧ s.columnRow column ≤ R)
    (hcandidate : 1 ≤ candidate ∧ candidate ≤ m)
    (h : InRange costs s.toTables (s.columnRow column) candidate) :
    scanColumn costs (ofSearch R m s) column (s.columnRow column) (ofScan m acc) candidate =
      .ok (ofScan m (Hungarian.scanColumn costs s column acc candidate)) := by
  unfold scanColumn Hungarian.scanColumn
  rw [show (ofSearch R m s).used = vec (m + 1) s.used from rfl, getAt_vec _ (by omega), ok_bind]
  split_ifs with hused
  · rfl
  · obtain ⟨x, hx, hlt⟩ := minimum_relaxAt acc h
    rw [relaxAt_eq hlen hm acc hrow hcandidate h, ok_bind]
    exact keepLeast_eq hcandidate.2 hx hlt

/-- The scan computes what the scan without checks does. -/
theorem scan_eq (hlen : costs.length = R) (hm : ∀ row ∈ costs, row.length = m)
    (hcolumn : column ≤ m) (hrow : 1 ≤ s.columnRow column ∧ s.columnRow column ≤ R)
    (h : ∀ candidate, 1 ≤ candidate → candidate ≤ m →
      InRange costs s.toTables (s.columnRow column) candidate) :
    scan costs m (ofSearch R m s) column = .ok (ofScan m (Hungarian.scan costs m s column)) := by
  unfold scan
  rw [show (ofSearch R m s).columnRow = vec (m + 1) s.columnRow from rfl,
    getAt_vec _ (by omega), ok_bind]
  refine foldlM_eq_ok (ofScan m) (List.range' 1 m) ⟨s.minimum, s.previous, none, 0⟩
    fun before candidate after hl => ?_
  have hmem : candidate ∈ List.range' 1 m := by rw [hl]; simp
  obtain ⟨h1, h2⟩ := Hungarian.mem_columns.mp hmem
  exact scanColumn_eq hlen hm _ hrow ⟨h1, h2⟩ (h candidate h1 h2)

/-- The move of the potentials at one column, if the results are in range. -/
theorem relaxColumn_eq {delta : ℤ} (hcolumn : column ≤ m) (hrow : s.columnRow column ≤ R)
    (hused : s.used column = true →
      (-2 ^ 127 ≤ s.rowPotential (s.columnRow column) + delta ∧
        s.rowPotential (s.columnRow column) + delta ≤ i128Max) ∧
      -2 ^ 127 ≤ s.columnPotential column - delta ∧ s.columnPotential column - delta ≤ i128Max)
    (hunused : s.used column = false → ∃ x, s.minimum column = some x ∧ -2 ^ 127 ≤ x - delta ∧
      x - delta ≤ i128Max) :
    relaxColumn delta (ofSearch R m s) column =
      .ok (ofSearch R m (Hungarian.relaxColumn delta s column)) := by
  unfold relaxColumn Hungarian.relaxColumn
  rw [show (ofSearch R m s).used = vec (m + 1) s.used from rfl, getAt_vec _ (by omega), ok_bind]
  split_ifs with h
  · obtain ⟨⟨hrl, hrh⟩, hcl, hch⟩ := hused h
    rw [show (ofSearch R m s).columnRow = vec (m + 1) s.columnRow from rfl,
      show (ofSearch R m s).rowPotential = vec (R + 1) s.rowPotential from rfl,
      show (ofSearch R m s).columnPotential = vec (m + 1) s.columnPotential from rfl,
      getAt_vec _ (by omega), ok_bind, getAt_vec _ (by omega), ok_bind, i128_eq hrl hrh, ok_bind,
      setAt_vec _ _ (by omega), ok_bind, getAt_vec _ (by omega), ok_bind, i128_eq hcl hch, ok_bind,
      setAt_vec _ _ (by omega), ok_bind]
    rfl
  · obtain ⟨x, hx, hl, hh⟩ := hunused (by simpa using h)
    rw [show (ofSearch R m s).minimum = vec (m + 1) (fun c => ofMinimum (s.minimum c)) from rfl,
      getAt_vec _ (by omega), ok_bind, hx]
    rw [show ofMinimum (some x) = x from rfl, i128_eq hl hh, ok_bind,
      setAt_vec _ _ (by omega), ok_bind, ofMinimum_update]
    rfl

end

/-- The move of all potentials, if the results are in range. No row is moved twice. -/
theorem relax_eq {delta : ℤ} {s : Hungarian.Search}
    (hinj : ∀ i ≤ m, ∀ j ≤ m, s.used i = true → s.used j = true →
      s.columnRow i = s.columnRow j → i = j)
    (hrow : ∀ c ≤ m, s.columnRow c ≤ R)
    (hused : ∀ c ≤ m, s.used c = true →
      (-2 ^ 127 ≤ s.rowPotential (s.columnRow c) + delta ∧
        s.rowPotential (s.columnRow c) + delta ≤ i128Max) ∧
      -2 ^ 127 ≤ s.columnPotential c - delta ∧ s.columnPotential c - delta ≤ i128Max)
    (hunused : ∀ c ≤ m, s.used c = false → ∃ x, s.minimum c = some x ∧ -2 ^ 127 ≤ x - delta ∧
      x - delta ≤ i128Max) :
    relax m delta (ofSearch R m s) = .ok (ofSearch R m (Hungarian.relax m delta s)) := by
  refine foldlM_eq_ok (ofSearch R m) (List.range (m + 1)) s fun before c after hl => ?_
  have hmem : ∀ j ∈ before ++ c :: after, j ≤ m := fun j hj =>
    Nat.lt_succ_iff.mp (List.mem_range.mp (hl ▸ hj))
  have hnodup : (before ++ c :: after).Nodup := hl ▸ List.nodup_range
  have hbefore : ∀ j ∈ before, j ≤ m := fun j hj => hmem j (List.mem_append_left _ hj)
  have hc : c ≤ m := hmem c (by simp)
  have hnot : c ∉ before := fun hc' => (List.nodup_append.mp hnodup).2.2 c hc' c (by simp) rfl
  obtain ⟨hcr, -, hus, hcp, hmn, hrp⟩ := Hungarian.relax_fold (d := delta) before s
    (List.nodup_append.mp hnodup).1 fun i hi j hj => hinj i (hbefore i hi) j (hbefore j hj)
  have hrow' : s.used c = true →
      (before.foldl (Hungarian.relaxColumn delta) s).rowPotential (s.columnRow c) =
        s.rowPotential (s.columnRow c) := by
    intro hu
    have hmoved : ¬ ∃ j ∈ before, s.used j = true ∧ s.columnRow j = s.columnRow c := by
      rintro ⟨j, hj, huj, he⟩
      exact hnot (hinj j (hbefore j hj) c hc huj hu he ▸ hj)
    rw [hrp, if_neg hmoved, add_zero]
  refine relaxColumn_eq hc (by rw [hcr]; exact hrow c hc) (fun hu => ?_) fun hu => ?_
  · rw [hus] at hu
    rw [hcr, hrow' hu, hcp, if_neg fun h => hnot h.1]
    exact hused c hc hu
  · rw [hus] at hu
    rw [hmn, if_neg fun h => hnot h.1]
    exact hunused c hc hu

end

/-! ### Bounds on the potentials -/

/-- The costs of `optimal_assignment`: between `-W` and zero, and zero in the dummy columns, of
which there are as many as rows. -/
structure Costs (costs : List (List ℤ)) (n R m : ℕ) (W : ℤ) : Prop where
  length : costs.length = R
  width : ∀ row ∈ costs, row.length = m
  columns : m = n + R
  low : ∀ i j, -W ≤ Hungarian.entry costs i j
  high : ∀ i j, Hungarian.entry costs i j ≤ 0
  dummy : ∀ i j, n ≤ j → Hungarian.entry costs i j = 0
  nonneg : 0 ≤ W
  size : (R + 3) * W < i128Max

section

variable {costs : List (List ℤ)} {n R m k : ℕ} {W : ℤ} {s : Hungarian.Search} {column : ℕ}

/-- Some dummy column is free while a row is inserted. -/
theorem exists_dummy (hC : Costs costs n R m W) (hk : k < R)
    (h : Hungarian.Searching costs m k s column) : ∃ j, n < j ∧ j ≤ m ∧ s.columnRow j = 0 := by
  by_contra hne
  push Not at hne
  have hm := hC.columns
  have hcard :=
    Finset.card_le_card_of_injOn (s := Finset.Icc (n + 1) m) (t := Finset.Icc 1 k) s.columnRow
    (fun j hj => by
      have hj := Finset.mem_Icc.mp (Finset.mem_coe.mp hj)
      have := hne j (by omega) hj.2
      exact Finset.mem_coe.mpr (Finset.mem_Icc.mpr ⟨by omega, h.le j (by omega) hj.2⟩))
    (fun i hi j hj he => by
      have hi := Finset.mem_Icc.mp (Finset.mem_coe.mp hi)
      have hj := Finset.mem_Icc.mp (Finset.mem_coe.mp hj)
      exact h.inj i j (by omega) hi.2 (by omega) hj.2 he (hne i (by omega) hi.2))
  simp at hcard
  omega

theorem rowPotential_nonpos (hC : Costs costs n R m W) (hk : k < R)
    (h : Hungarian.Searching costs m k s column) {i : ℕ} (hi : 1 ≤ i)
    (hik : i ≤ k ∨ i = k + 1 ∧ s.used 0 = true) : s.rowPotential i ≤ 0 := by
  obtain ⟨j, hnj, hjm, hfree⟩ := exists_dummy hC hk h
  have hreduced : 0 ≤ Hungarian.reduced costs s.toTables i j := by
    rcases hik with hik | ⟨rfl, hu⟩
    · exact h.feasible i j hi hik (by omega) hjm
    · exact h.feasible_new hu j (by omega) hjm
  rw [Hungarian.reduced, hC.dummy _ _ (by omega), h.free j (by omega) hjm hfree] at hreduced
  omega

theorem columnPotential_low (hC : Costs costs n R m W) (hk : k < R)
    (h : Hungarian.Searching costs m k s column) {j : ℕ} (hj : 1 ≤ j) (hjm : j ≤ m) :
    -W ≤ s.columnPotential j := by
  by_cases hfree : s.columnRow j = 0
  · rw [h.free j hj hjm hfree]
    have := hC.nonneg
    omega
  · have htight := h.tight j hj hjm hfree
    have hrow := rowPotential_nonpos hC hk h (Nat.pos_of_ne_zero hfree) (.inl (h.le j hj hjm))
    have := hC.low (s.columnRow j - 1) (j - 1)
    rw [Hungarian.reduced] at htight
    omega

/-- The row of a real column is tight there. -/
theorem rowPotential_low (hC : Costs costs n R m W)
    (h : Hungarian.Searching costs m k s column) {j : ℕ} (hj : 1 ≤ j) (hjm : j ≤ m)
    (hrow : s.columnRow j ≠ 0) : -W ≤ s.rowPotential (s.columnRow j) := by
  have htight := h.tight j hj hjm hrow
  have := h.nonpos j hj hjm
  have := hC.low (s.columnRow j - 1) (j - 1)
  rw [Hungarian.reduced] at htight
  omega

/-- The new row is tight at a column that was reached from the fictitious one. -/
theorem newRow_low (hC : Costs costs n R m W) (h : Hungarian.Searching costs m k s column)
    (hu : s.used 0 = true) : -W ≤ s.rowPotential (k + 1) := by
  have hne : column ≠ 0 := by
    rintro rfl
    rw [h.fresh] at hu
    cases hu
  obtain ⟨j, hj, hjm, hprevious, hused⟩ : ∃ j, j ≠ 0 ∧ j ≤ m ∧ s.previous j = 0 ∧
      (s.used j = true ∨ j = column) := by
    obtain ⟨hprev, -⟩ := h.tree column (.inr rfl) hne
    by_cases hp : s.previous column = 0
    · exact ⟨column, hne, h.column_le, hp, .inr rfl⟩
    · obtain ⟨l, hl, hlu⟩ := h.path _ hprev
      obtain ⟨x, hx, hx0, hxp⟩ := hl.exists_previous_eq hl.zero_mem (Ne.symm hp)
      exact ⟨x, hx0, (h.used_assigned x (hlu x hx)).1, hxp, .inl (hlu x hx)⟩
  have htight := (h.tree j hused hj).2
  have := h.nonpos j (by omega) hjm
  have := hC.low (k + 1 - 1) (j - 1)
  rw [hprevious, h.zero, Hungarian.reduced] at htight
  omega

/-- With potentials between `-W` and zero, the numbers of a reduced cost are in range. -/
theorem inRange (hC : Costs costs n R m W) {t : Hungarian.Tables} {i j : ℕ}
    (hrow : -W ≤ t.rowPotential i ∧ t.rowPotential i ≤ 0)
    (hcolumn : -W ≤ t.columnPotential j ∧ t.columnPotential j ≤ 0) : InRange costs t i j := by
  have hlow := hC.low (i - 1) (j - 1)
  have hhigh := hC.high (i - 1) (j - 1)
  have hW : 3 * W < i128Max := by
    have : 0 ≤ R * W := mul_nonneg (Int.natCast_nonneg R) hC.nonneg
    have := hC.size
    rw [add_mul] at this
    omega
  rw [i128Max] at hW
  refine ⟨by omega, by rw [i128Max]; omega, ?_, ?_⟩
  · rw [Hungarian.reduced]
    omega
  · rw [Hungarian.reduced, i128Max]
    omega

end

/-! ### The search -/

/-- The state of a round before the potentials move. -/
def scanned (costs : List (List ℤ)) (m : ℕ) (s : Hungarian.Search) (column : ℕ) :
    Hungarian.Search :=
  let used := update s.used column true
  { s with
    used
    minimum := (Hungarian.scan costs m { s with used } column).minimum
    previous := (Hungarian.scan costs m { s with used } column).previous }

/-- The potentials that are not feasible yet, while row `k + 1` is inserted: those of the row and of
the fictitious column that holds it add up to what they were. -/
structure Level (k : ℕ) (V : ℤ) (s : Hungarian.Search) : Prop where
  sum : s.rowPotential (k + 1) + s.columnPotential 0 = V
  new : s.used 0 = false → s.rowPotential (k + 1) = 0
  later : ∀ i, k + 1 < i → s.rowPotential i = 0

section

variable {costs : List (List ℤ)} {n R m k : ℕ} {W V : ℤ} {s : Hungarian.Search} {column : ℕ}

theorem used_scanned (costs : List (List ℤ)) (m : ℕ) (s : Hungarian.Search) (column : ℕ) :
    (scanned costs m s column).used = update s.used column true := rfl

theorem assigned_scanned (h : Hungarian.Searching costs m k s column)
    (hc : s.columnRow column ≠ 0) {j : ℕ} (hj : (scanned costs m s column).used j = true) :
      j ≤ m ∧ s.columnRow j ≠ 0 := by
  by_cases hjc : j = column
  · subst hjc
    exact ⟨h.column_le, hc⟩
  · rw [used_scanned, Function.update_of_ne hjc] at hj
    exact h.used_assigned j hj

/-- The fictitious column is used first. -/
theorem used_zero_scanned (h : Hungarian.Searching costs m k s column) :
    (scanned costs m s column).used 0 = true := by
  cases hu : s.used 0 with
  | true => by_cases h0 : 0 = column <;> simp [scanned, h0, hu]
  | false => simp [scanned, (h.start hu).1]

/-- A round finds a number by which the potentials move. -/
theorem exists_delta (h : Hungarian.Searching costs m k s column)
    (hc : s.columnRow column ≠ 0) : ∃ d,
      (Hungarian.scan costs m { s with used := update s.used column true } column).delta = some d ∧
      (Hungarian.searchRound costs m s column).1 = Hungarian.relax m d (scanned costs m s column) ∧
      ∀ j, 1 ≤ j → j ≤ m → (scanned costs m s column).used j = false →
        ∃ x, (scanned costs m s column).minimum j = some x := by
  obtain ⟨f, hf1, hfm, hf0⟩ := h.exists_free
  have hfree : update s.used column true f = false := by
    by_contra hne
    rw [Bool.not_eq_false] at hne
    exact (@assigned_scanned costs m k s column h hc f hne).2 hf0
  obtain ⟨d, hd, -, -, hrel⟩ := Hungarian.scan_spec costs
    (s := { s with used := update s.used column true }) column ⟨f, hf1, hfm, hfree⟩
  refine ⟨d, hd, ?_, fun j hj hjm hu => ?_⟩
  · unfold Hungarian.searchRound
    simp only [hd, Option.getD_some]
    rfl
  · obtain ⟨x, hx, -⟩ := hrel j hj hjm hu
    exact ⟨x, hx.minimum⟩

/-- The potentials and minima after a round. -/
theorem relax_scanned (h : Hungarian.Searching costs m k s column)
    (hc : s.columnRow column ≠ 0) (d : ℤ) :
    (Hungarian.relax m d (scanned costs m s column)).used = (scanned costs m s column).used ∧
    (∀ j ≤ m, (scanned costs m s column).used j = true →
      (Hungarian.relax m d (scanned costs m s column)).columnPotential j = s.columnPotential j - d ∧
      (Hungarian.relax m d (scanned costs m s column)).rowPotential (s.columnRow j) =
        s.rowPotential (s.columnRow j) + d) ∧
    (∀ j ≤ m, (scanned costs m s column).used j = false →
      (Hungarian.relax m d (scanned costs m s column)).minimum j =
        ((scanned costs m s column).minimum j).map (· - d)) ∧
    ∀ i, (∀ j ≤ m, s.columnRow j ≠ i) →
      (Hungarian.relax m d (scanned costs m s column)).rowPotential i = s.rowPotential i := by
  obtain ⟨-, -, hus, hcp, hmn, hrp⟩ := Hungarian.relax_fold (d := d) (List.range (m + 1))
    (scanned costs m s column) List.nodup_range fun i _ j _ hui huj he =>
      h.inj_zero (assigned_scanned h hc hui).1 (assigned_scanned h hc huj).1 he
        (assigned_scanned h hc hui).2
  have hmem : ∀ j ≤ m, j ∈ List.range (m + 1) :=
    fun j hj => List.mem_range.mpr (Nat.lt_succ_of_le hj)
  refine ⟨hus, fun j hj hu => ⟨?_, ?_⟩, fun j hj hu => ?_, fun i hi => ?_⟩
  · exact (hcp j).trans (if_pos ⟨hmem j hj, hu⟩)
  · exact (hrp _).trans (congrArg _ (if_pos ⟨j, hmem j hj, hu, rfl⟩))
  · exact (hmn j).trans (if_pos ⟨hmem j hj, hu⟩)
  · refine (hrp i).trans ?_
    rw [if_neg, add_zero]
    · rfl
    · rintro ⟨j, hj, -, he⟩
      exact hi j (Nat.lt_succ_iff.mp (List.mem_range.mp hj)) he

theorem Level.round (hL : Level k V s) (h : Hungarian.Searching costs m k s column)
    (hc : s.columnRow column ≠ 0) : Level k V (Hungarian.searchRound costs m s column).1 := by
  obtain ⟨d, -, hround, -⟩ := exists_delta h hc
  obtain ⟨hus, hmoved, -, hkept⟩ := relax_scanned h hc d
  have hzero := used_zero_scanned h
  obtain ⟨hcolumn, hrow⟩ := hmoved 0 (Nat.zero_le m) hzero
  rw [h.zero] at hrow
  rw [hround]
  refine ⟨?_, fun hu => ?_, fun i hi => ?_⟩
  · rw [hrow, hcolumn, ← hL.sum]
    ring
  · rw [hus, hzero] at hu
    cases hu
  · rw [hkept i fun j hj => ?_]
    · exact hL.later i hi
    · rcases Nat.eq_zero_or_pos j with rfl | hpos
      · rw [h.zero]
        omega
      · have := h.le j hpos hj
        omega

/-- The rows of the columns in use have potentials between `-W` and zero. -/
theorem rowPotential_bounds (hC : Costs costs n R m W) (hk : k < R)
    (h : Hungarian.Searching costs m k s column) (hu : s.used 0 = true) {j : ℕ} (hj : j ≤ m)
    (hrow : s.columnRow j ≠ 0) : -W ≤ s.rowPotential (s.columnRow j)
      ∧ s.rowPotential (s.columnRow j) ≤ 0 := by
  rcases Nat.eq_zero_or_pos j with rfl | hpos
  · rw [h.zero]
    exact ⟨newRow_low hC h hu, rowPotential_nonpos hC hk h (by omega) (.inr ⟨rfl, hu⟩)⟩
  · exact ⟨rowPotential_low hC h hpos hj hrow,
      rowPotential_nonpos hC hk h (Nat.pos_of_ne_zero hrow) (.inl (h.le j hpos hj))⟩

/-- The potential of the fictitious column stays within `W` of what it was. -/
theorem Level.columnPotential_bounds (hL : Level k V s) (hC : Costs costs n R m W) (hk : k < R)
    (h : Hungarian.Searching costs m k s column) (hu : s.used 0 = true) :
    V ≤ s.columnPotential 0 ∧ s.columnPotential 0 ≤ V + W := by
  have hlow := newRow_low hC h hu
  have hhigh := rowPotential_nonpos hC hk h (by omega) (.inr ⟨rfl, hu⟩)
  have := hL.sum
  omega

/-- One round of the search, while the potential of the fictitious column has room for `W`. -/
theorem searchRound_eq (hC : Costs costs n R m W) (hk : k < R) (hV : 0 ≤ V ∧ V ≤ k * W)
    (h : Hungarian.Searching costs m k s column) (hL : Level k V s) (hc : s.columnRow column ≠ 0) :
    searchRound costs m (ofSearch R m s) column =
      .ok (ofSearch R m (Hungarian.searchRound costs m s column).1,
        (Hungarian.searchRound costs m s column).2) := by
  obtain ⟨d, hdelta, hround, hminimum⟩ := exists_delta h hc
  obtain ⟨hus, hmoved, hless, -⟩ := relax_scanned h hc d
  obtain ⟨h', hcr, -, hu0, -⟩ := h.round hc
  have hL' := hL.round h hc
  rw [hround] at h' hcr hu0 hL'
  set s' := Hungarian.relax m d (scanned costs m s column) with hs'
  have hsize : (R + 3) * W < i128Max := hC.size
  have hkW : (k : ℤ) * W + W ≤ R * W := by
    have : (k : ℤ) + 1 ≤ R := by exact_mod_cast hk
    nlinarith [hC.nonneg]
  have hW := hC.nonneg
  have hm := hC.columns
  rw [i128Max] at hsize
  have hcr_le : ∀ c ≤ m, s.columnRow c ≤ R := by
    intro c hcm
    rcases Nat.eq_zero_or_pos c with rfl | hpos
    · rw [h.zero]
      omega
    · have := h.le c hpos hcm
      omega
  -- the scan reads the potentials before the move, and in the first round the new row has none yet
  have hscan : scan costs m (ofSearch R m { s with used := update s.used column true }) column =
      .ok (ofScan m (Hungarian.scan costs m { s with
        used := update s.used column true } column)) := by
    refine scan_eq hC.length hC.width h.column_le ⟨Nat.pos_of_ne_zero hc, hcr_le _ h.column_le⟩ ?_
    intro candidate h1 h2
    refine inRange hC ?_ ⟨columnPotential_low hC hk h h1 h2, h.nonpos candidate h1 h2⟩
    cases hu : s.used 0 with
    | true => exact rowPotential_bounds hC hk h hu h.column_le hc
    | false =>
      have hrow : s.rowPotential (s.columnRow column) = 0 := by
        rw [(h.start hu).1, h.zero]
        exact hL.new hu
      show -W ≤ s.rowPotential (s.columnRow column) ∧ s.rowPotential (s.columnRow column) ≤ 0
      rw [hrow]
      omega
  -- the sums of the move are the potentials and minima after it, which the invariant bounds
  have hrelax : relax m d (ofSearch R m (scanned costs m s column)) = .ok (ofSearch R m s') := by
    refine relax_eq (fun i _ j _ hui huj he => ?_) hcr_le (fun c hcm hu => ?_) fun c hcm hu => ?_
    · exact h.inj_zero (assigned_scanned h hc hui).1 (assigned_scanned h hc huj).1 he
        (assigned_scanned h hc hui).2
    · obtain ⟨hcolumn, hrow⟩ := hmoved c hcm hu
      have hbounds := rowPotential_bounds hC hk h' hu0 hcm
        (by rw [hcr]; exact (assigned_scanned h hc hu).2)
      rw [hcr, hrow] at hbounds
      have hcp : -W ≤ s.columnPotential c - d ∧ s.columnPotential c - d ≤ R * W := by
        rw [← hcolumn]
        rcases Nat.eq_zero_or_pos c with rfl | hpos
        · have := hL'.columnPotential_bounds hC hk h' hu0
          omega
        · have := columnPotential_low hC hk h' hpos hcm
          have := h'.nonpos c hpos hcm
          have : 0 ≤ (R : ℤ) * W := mul_nonneg (Int.natCast_nonneg R) hW
          omega
      rw [add_mul] at hsize
      show (-2 ^ 127 ≤ s.rowPotential (s.columnRow c) + d
        ∧ s.rowPotential (s.columnRow c) + d ≤ i128Max) ∧
        -2 ^ 127 ≤ s.columnPotential c - d ∧ s.columnPotential c - d ≤ i128Max
      rw [i128Max]
      omega
    · have hpos : 1 ≤ c := by
        rcases Nat.eq_zero_or_pos c with rfl | hpos
        · rw [used_zero_scanned h] at hu
          cases hu
        · exact hpos
      obtain ⟨x, hx⟩ := hminimum c hpos hcm hu
      refine ⟨x, hx, ?_⟩
      obtain ⟨y, hy, hprevious, hreduced, -⟩ := h'.least hu0 c hpos hcm (by rw [hus]; exact hu)
      have hyx : x - d = y := by
        rw [hless c hcm hu, hx] at hy
        exact Option.some.inj hy
      have hbounds := inRange hC
        (rowPotential_bounds hC hk h' hu0 (h'.used_assigned _ hprevious).1
          (h'.used_assigned _ hprevious).2)
        ⟨columnPotential_low hC hk h' hpos hcm, h'.nonpos c hpos hcm⟩
      rw [hyx, ← hreduced]
      exact ⟨hbounds.low, hbounds.high.le⟩
  unfold searchRound
  rw [show (ofSearch R m s).used = vec (m + 1) s.used from rfl,
    setAt_vec _ _ (Nat.lt_succ_of_le h.column_le), ok_bind]
  change (do let found ← scan costs m (ofSearch R m { s with
    used := update s.used column true }) column; _) = _
  rw [hscan, ok_bind]
  simp only [ofScan, hdelta]
  change (do let r ← relax m d (ofSearch R m (scanned costs m s column)); _) = _
  rw [hrelax, hround]
  rfl

/-- The search ends, and computes what the search without checks does. -/
theorem searchLoop_eq (hC : Costs costs n R m W) (hk : k < R) (hV : 0 ≤ V ∧ V ≤ k * W) :
    ∀ (fuel : ℕ) (s : Hungarian.Search) (column : ℕ),
      Hungarian.Searching costs m k s column → Level k V s →
      s.columnRow column ≠ 0 → m + 1 ≤ fuel + Hungarian.usedCount m s.used →
      searchLoop costs m fuel (ofSearch R m s) column =
          .ok (ofSearch R m (Hungarian.searchLoop costs m fuel s column).1,
            (Hungarian.searchLoop costs m fuel s column).2) ∧
        Level k V (Hungarian.searchLoop costs m fuel s column).1
  | 0, s, column, h, _, _, hfuel => by
    have := Hungarian.usedCount_lt h.column_le h.fresh
    omega
  | fuel + 1, s, column, h, hL, hc, hfuel => by
    obtain ⟨h', hcr, hus, -, -⟩ := h.round hc
    have hL' := hL.round h hc
    have hcount := Hungarian.usedCount_update h.column_le h.fresh
    unfold searchLoop Hungarian.searchLoop
    rw [searchRound_eq hC hk hV h hL hc, ok_bind]
    simp only
    rw [show ∀ t, (ofSearch R m t).columnRow = vec (m + 1) t.columnRow from fun _ => rfl,
      getAt_vec _ (Nat.lt_succ_of_le h'.column_le), ok_bind]
    split_ifs with hnext
    · exact ⟨rfl, hL'⟩
    · exact searchLoop_eq hC hk hV fuel _ _ h' hL' hnext (by rw [hus]; omega)

end

/-! ### The augmentation -/

theorem augment_eq {m : ℕ} {previous : ℕ → ℕ} {j : ℕ} {l : List ℕ}
    (h : Hungarian.PathTo previous j l) (hj : j ≠ 0) (hm : ∀ x ∈ l, x ≤ m) :
      ∀ (fuel : ℕ) (columnRow : ℕ → ℕ), l.length ≤ fuel + 1 →
      augment (vec (m + 1) previous) fuel (vec (m + 1) columnRow) j =
        .ok (vec (m + 1) (Hungarian.augment previous fuel columnRow j)) := by
  induction h with
  | root => exact absurd rfl hj
  | @step j l hj h hl ih =>
    intro fuel columnRow hfuel
    have hpos := h.length_pos
    obtain ⟨fuel, rfl⟩ : ∃ f, fuel = f + 1 := ⟨fuel - 1, by simp at hfuel; omega⟩
    have hjm : j < m + 1 := Nat.lt_succ_of_le (hm j (by simp))
    have hpm : previous j < m + 1 := Nat.lt_succ_of_le (hm _ (List.mem_cons_of_mem _ h.head_mem))
    unfold augment Hungarian.augment
    rw [getAt_vec _ hjm, ok_bind, getAt_vec _ hpm, ok_bind, setAt_vec _ _ hjm, ok_bind]
    simp only
    split_ifs with hp
    · rfl
    · exact ih hp (fun x hx => hm x (List.mem_cons_of_mem _ hx)) fuel _ (by simp at hfuel; omega)

/-! ### The result -/

/-- The potentials between two insertions: zero at the rows to come, and grown by at most `W` with
each row in the fictitious column. -/
structure Grown (k : ℕ) (W : ℤ) (t : Hungarian.Tables) : Prop where
  later : ∀ i, k < i → t.rowPotential i = 0
  low : 0 ≤ t.columnPotential 0
  high : t.columnPotential 0 ≤ k * W

section

variable {costs : List (List ℤ)} {n R m k : ℕ} {W : ℤ} {t : Hungarian.Tables}

theorem insertRow_eq (hC : Costs costs n R m W) (hk : k < R) (h : Hungarian.Assigned costs m k t)
    (hg : Grown k W t) :
    insertRow costs m (ofTables R m t) (k + 1) =
        .ok (ofTables R m (Hungarian.insertRow costs m t (k + 1))) ∧
      Grown (k + 1) W (Hungarian.insertRow costs m t (k + 1)) := by
  have hm := hC.columns
  have hstart := h.search (by omega)
  have hrow : t.rowPotential (k + 1) = 0 := hg.later _ (Nat.lt_succ_self k)
  set start : Hungarian.Search :=
    { t with
      columnRow := update t.columnRow 0 (k + 1), minimum := fun _ => none, used := fun _ => false }
    with hdef
  have hlevel : Level k (t.columnPotential 0) start :=
    ⟨by simp only [hdef, hrow, zero_add], fun _ => hrow, fun i hi => hg.later i (by omega)⟩
  have hnew : start.columnRow 0 ≠ 0 := by simp [hdef]
  obtain ⟨hs, -, -, hu0, hn0⟩ := Hungarian.Searching.loop (m + 1) _ _ hstart hnew (by omega)
  obtain ⟨hloop, hL⟩ :=
    searchLoop_eq hC hk ⟨hg.low, hg.high⟩ (m + 1) _ _ hstart hlevel hnew (by omega)
  obtain ⟨l, hpath, -, hle, hlen⟩ := hs.exists_path hn0
  have haugment := augment_eq hpath hn0 hle (m + 1)
    (Hungarian.searchLoop costs m (m + 1) start 0).1.columnRow hlen
  constructor
  · unfold insertRow
    rw [show (ofTables R m t).columnRow = vec (m + 1) t.columnRow from rfl,
      setAt_vec _ _ (Nat.succ_pos m), ok_bind, replicate_eq_vec, replicate_eq_vec]
    change (searchLoop costs m (m + 1) (ofSearch R m start) 0 >>= _) = _
    rw [hloop, ok_bind]
    change (augment (vec (m + 1) (Hungarian.searchLoop costs m (m + 1) start 0).1.previous) (m + 1)
      (vec (m + 1) (Hungarian.searchLoop costs m (m + 1) start 0).1.columnRow)
      (Hungarian.searchLoop costs m (m + 1) start 0).2 >>= _) = _
    rw [haugment, ok_bind]
    rfl
  · have hbounds := hL.columnPotential_bounds hC hk hs hu0
    refine ⟨fun i hi => hL.later i hi, le_trans hg.low hbounds.1, le_trans hbounds.2 ?_⟩
    have := hg.high
    push_cast
    rw [add_mul, one_mul]
    omega

theorem insertRows_eq (hC : Costs costs n R m W) : ∀ k ≤ R,
    (List.range' 1 k).foldlM (insertRow costs m) (ofTables R m Hungarian.initialTables) =
        .ok (ofTables R m ((List.range' 1 k).foldl (Hungarian.insertRow costs m)
          Hungarian.initialTables)) ∧
      Grown k W ((List.range' 1 k).foldl (Hungarian.insertRow costs m) Hungarian.initialTables)
  | 0, _ => ⟨rfl, fun _ _ => rfl, le_rfl, by simp [Hungarian.initialTables]⟩
  | k + 1, hk => by
    obtain ⟨hfold, hg⟩ := insertRows_eq hC k (by omega)
    obtain ⟨hinsert, hg'⟩ := insertRow_eq hC hk
      (Hungarian.assigned_fold k (by have := hC.columns; omega)) hg
    rw [List.range'_concat, Nat.one_mul, Nat.add_comm 1 k, List.foldlM_append, hfold, ok_bind,
      List.foldl_append, List.foldlM_cons, hinsert, ok_bind]
    exact ⟨rfl, hg'⟩

theorem readColumn_eq {columnRow : ℕ → ℕ} {assignment : List ℕ} {column : ℕ}
    (hcolumn : 1 ≤ column ∧ column ≤ m) (hrow : columnRow column ≤ assignment.length) :
    readColumn (vec (m + 1) columnRow) assignment column =
      .ok (Hungarian.readColumn columnRow assignment column) := by
  unfold readColumn Hungarian.readColumn
  rw [getAt_vec _ (by omega), ok_bind]
  split_ifs with h
  · rw [pred_eq h, ok_bind, pred_eq (by omega), ok_bind, setAt, if_pos (by omega)]
  · rfl

/-- **The Hungarian algorithm** leaves no range and no vector, and ends: on checked numbers it
returns what it does on unbounded ones. -/
theorem hungarian_eq (hC : Costs costs n R m W) (hR : 0 < R) :
    hungarian costs = .ok (Hungarian.hungarian costs) := by
  obtain ⟨row, rest, rfl⟩ : ∃ row rest, costs = row :: rest :=
    List.exists_cons_of_length_pos (by rw [hC.length]; exact hR)
  have hwidth : row.length = m := hC.width row (by simp)
  obtain ⟨hrows, -⟩ := insertRows_eq hC R le_rfl
  have hassigned : Hungarian.Assigned (row :: rest) m R _ :=
    Hungarian.assigned_fold R (by have := hC.columns; omega)
  have hinitial : initialTables R m = ofTables R m Hungarian.initialTables := by
    unfold initialTables ofTables Hungarian.initialTables
    simp only [replicate_eq_vec]
  unfold hungarian Hungarian.hungarian Hungarian.readAssignment
  rw [getAt_eq (x := row) rfl, ok_bind, List.headD_cons, hwidth, hC.length]
  simp only [hinitial, hrows, ok_bind]
  refine foldlM_eq_ok id (List.range' 1 m) (List.replicate R m) fun before column after hl => ?_
  have hmem : column ∈ List.range' 1 m := by rw [hl]; simp
  obtain ⟨h1, h2⟩ := Hungarian.mem_columns.mp hmem
  refine readColumn_eq ⟨h1, h2⟩ ?_
  rw [id, Hungarian.length_readColumn, List.length_replicate]
  exact hassigned.le column h1 h2

end

end Sporos.Matcher.CheckedHungarian
