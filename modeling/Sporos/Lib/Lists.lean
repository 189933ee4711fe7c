import Mathlib.Tactic
import Mathlib.Data.List.Sort
import Mathlib.Logic.Equiv.Basic

/-! # Lists up to order

A rearrangement of a list renames its indices (`exists_perm_getElem?`), and sorting by a key that
tells the elements apart forgets the order they came in (`insertionSort_perm`), as does the largest
of them (`maxByKey_perm`). The place of an element of a sorted list is the number of smaller
elements (`getElem?_sorted_iff`), and a list is cut in chunks (`chunks`). -/

namespace Sporos.Lib.Lists

variable {α β : Type*}

/-- A permutation of the indices that leaves 0 alone. -/
def shift (σ : Equiv.Perm ℕ) : Equiv.Perm ℕ where
  toFun
    | 0 => 0
    | i + 1 => σ i + 1
  invFun
    | 0 => 0
    | i + 1 => σ.symm i + 1
  left_inv i := by cases i <;> simp
  right_inv i := by cases i <;> simp

/-- A rearrangement renames the indices. -/
theorem exists_perm_getElem? {l l' : List α} (h : l.Perm l') :
    ∃ σ : Equiv.Perm ℕ, ∀ i, l'[σ i]? = l[i]? := by
  induction h with
  | nil => exact ⟨1, fun i => rfl⟩
  | cons x _ ih =>
    obtain ⟨σ, hσ⟩ := ih
    refine ⟨shift σ, fun i => ?_⟩
    cases i with
    | zero => rfl
    | succ i => simpa [shift] using hσ i
  | swap x y l =>
    refine ⟨Equiv.swap 0 1, fun i => ?_⟩
    match i with
    | 0 => rfl
    | 1 => rfl
    | i + 2 => rw [Equiv.swap_apply_of_ne_of_ne (by omega) (by omega)]; rfl
  | trans _ _ ih₁ ih₂ =>
    obtain ⟨σ, hσ⟩ := ih₁
    obtain ⟨τ, hτ⟩ := ih₂
    exact ⟨σ.trans τ, fun i => (hτ (σ i)).trans (hσ i)⟩

/-- A rearrangement keeps what at most one element gives. -/
theorem filterMap_perm {l l' : List α} (h : l.Perm l') {f : α → Option β}
    (hlen : (l.filterMap f).length ≤ 1) : l.filterMap f = l'.filterMap f := by
  have hperm := h.filterMap f
  match hl : l.filterMap f with
  | [] => rw [hl] at hperm; exact (List.nil_perm.mp hperm).symm
  | [b] => rw [hl] at hperm; exact List.singleton_perm.mp hperm
  | b :: b' :: rest => simp [hl] at hlen

/-- An element after others is a first occurrence if it is not among them. -/
theorem eraseDups_concat [BEq α] [LawfulBEq α] (l : List α) (a : α) [Decidable (a ∈ l)] :
    (l ++ [a]).eraseDups = if a ∈ l then l.eraseDups else l.eraseDups ++ [a] := by
  rw [List.eraseDups_append]
  split_ifs with h
  · simp [List.removeAll, h]
  · simp [List.removeAll, h, List.eraseDups_cons]

theorem nodup_eraseDups [BEq α] [LawfulBEq α] (l : List α) : l.eraseDups.Nodup := by
  classical
  induction l using List.reverseRecOn with
  | nil => exact List.nodup_nil
  | append_singleton l a ih =>
    rw [eraseDups_concat]
    split_ifs with h
    · exact ih
    · exact List.nodup_append.mpr ⟨ih, List.nodup_singleton a, fun b hb c hc heq =>
        h (by rw [← List.mem_singleton.mp hc, ← heq]; exact List.mem_eraseDups.mp hb)⟩

/-- The order by a key. -/
def ByKey [LE β] (key : α → β) (a b : α) : Prop := key a ≤ key b

instance [LE β] [DecidableLE β] (key : α → β) : DecidableRel (ByKey key) :=
  fun a b => inferInstanceAs (Decidable (key a ≤ key b))

section

variable [LinearOrder β] {key : α → β}

instance : IsTrans α (ByKey key) := ⟨fun _ _ _ => le_trans⟩

instance : Std.Total (ByKey key) := ⟨fun a b => le_total (key a) (key b)⟩

/-- Sorting by a key that tells the elements apart does not depend on their order. -/
theorem insertionSort_perm {l l' : List α} (h : l.Perm l')
    (hkey : ∀ a ∈ l, ∀ b ∈ l, key a = key b → a = b) :
    l.insertionSort (ByKey key) = l'.insertionSort (ByKey key) := by
  have hperm : (l.insertionSort (ByKey key)).Perm (l'.insertionSort (ByKey key)) :=
    (List.perm_insertionSort _ l).trans (h.trans (List.perm_insertionSort _ l').symm)
  refine hperm.eq_of_pairwise (fun a b ha hb hab hba => ?_) (List.pairwise_insertionSort _ l)
    (List.pairwise_insertionSort _ l')
  exact hkey a ((List.mem_insertionSort _).mp ha) b
    (h.mem_iff.mpr ((List.mem_insertionSort _).mp hb)) (le_antisymm hab hba)

end

/-- A list whose keys are the indices of another, sorted by the key, is in step with it. -/
theorem map_insertionSort_of_indices {γ : Type*} {l : List α} {key : α → ℕ}
    {f : α → γ} {files : List β} {g : β → γ} (hnodup : (l.map key).Nodup)
    (hmem : ∀ a ∈ l, ∃ b, files[key a]? = some b ∧ f a = g b)
    (hall : ∀ i < files.length, ∃ a ∈ l, key a = i) :
    (l.insertionSort (ByKey key)).map f = files.map g := by
  have hkeys : (l.insertionSort (ByKey key)).map key = List.range files.length := by
    have hperm : ((l.insertionSort (ByKey key)).map key).Perm (l.map key) :=
      (List.perm_insertionSort _ l).map key
    have hrange : (l.map key).Perm (List.range files.length) := by
      refine (List.perm_ext_iff_of_nodup hnodup List.nodup_range).mpr fun i => ?_
      rw [List.mem_map, List.mem_range]
      constructor
      · rintro ⟨a, ha, rfl⟩
        obtain ⟨b, hb, -⟩ := hmem a ha
        exact (List.getElem?_eq_some_iff.mp hb).1
      · exact hall i
    have hsorted : ((l.insertionSort (ByKey key)).map key).Pairwise (· ≤ ·) :=
      List.pairwise_map.mpr (List.pairwise_insertionSort (ByKey key) l)
    exact (hperm.trans hrange).eq_of_pairwise (fun a b _ _ hab hba => le_antisymm hab hba) hsorted
      List.pairwise_le_range
  have hlength : (l.insertionSort (ByKey key)).length = files.length := by
    simpa using congrArg List.length hkeys
  refine List.ext_getElem (by simpa using hlength) fun i hi hi' => ?_
  rw [List.getElem_map, List.getElem_map]
  have hi : i < (l.insertionSort (ByKey key)).length := by simpa using hi
  have hkey : key (l.insertionSort (ByKey key))[i] = i := by
    have hat := congrArg (·[i]?) hkeys
    simp only [List.getElem?_map, List.getElem?_range (show i < files.length by simpa using hi'),
      Option.map_eq_some_iff] at hat
    obtain ⟨a, ha, hak⟩ := hat
    rw [List.getElem?_eq_getElem hi] at ha
    rw [Option.some_inj.mp ha, hak]
  obtain ⟨b, hb, hf⟩ := hmem _ ((List.mem_insertionSort (ByKey key)).mp (List.getElem_mem hi))
  rw [hkey] at hb
  rw [hf, (List.getElem?_eq_some_iff.mp hb).2]

/-! ### Related lists -/

section

variable {R : α → β → Prop}

theorem forall₂_orderedInsert {r : α → α → Prop} {r' : β → β → Prop} [DecidableRel r]
    [DecidableRel r'] (hr : ∀ a a' b b', R a b → R a' b' → (r a a' ↔ r' b b')) {a : α}
    {b : β} (hab : R a b) :
    ∀ {l : List α} {l' : List β}, List.Forall₂ R l l' →
      List.Forall₂ R (l.orderedInsert r a) (l'.orderedInsert r' b)
  | _, _, .nil => .cons hab .nil
  | _, _, .cons (a := x) (b := y) hxy h => by
    rw [List.orderedInsert_cons, List.orderedInsert_cons]
    by_cases hle : r a x
    · rw [if_pos hle, if_pos ((hr _ _ _ _ hab hxy).mp hle)]
      exact .cons hab (.cons hxy h)
    · rw [if_neg hle, if_neg fun h => hle ((hr _ _ _ _ hab hxy).mpr h)]
      exact .cons hxy (forall₂_orderedInsert hr hab h)

/-- Sorting keeps lists related, if the orders agree. -/
theorem forall₂_insertionSort {r : α → α → Prop} {r' : β → β → Prop} [DecidableRel r]
    [DecidableRel r'] (hr : ∀ a a' b b', R a b → R a' b' → (r a a' ↔ r' b b')) :
    ∀ {l : List α} {l' : List β}, List.Forall₂ R l l' →
      List.Forall₂ R (l.insertionSort r) (l'.insertionSort r')
  | _, _, .nil => .nil
  | _, _, .cons hab h => forall₂_orderedInsert hr hab (forall₂_insertionSort hr h)

theorem forall₂_filter {p : α → Bool} {q : β → Bool} (hpq : ∀ a b, R a b → p a = q b) :
    ∀ {l : List α} {l' : List β}, List.Forall₂ R l l' → List.Forall₂ R (l.filter p) (l'.filter q)
  | _, _, .nil => .nil
  | _, _, .cons (a := x) (b := y) hxy h => by
    rw [List.filter_cons, List.filter_cons, hpq x y hxy]
    split
    · exact .cons hxy (forall₂_filter hpq h)
    · exact forall₂_filter hpq h

/-- Loops over related lists are equal if their iterations are. -/
theorem foldlM_forall₂ {γ : Type*} {f : γ → α → Option γ} {g : γ → β → Option γ}
    (hfg : ∀ a b, R a b → ∀ c, f c a = g c b) :
    ∀ {l : List α} {l' : List β}, List.Forall₂ R l l' → ∀ c, l.foldlM f c = l'.foldlM g c
  | _, _, .nil, c => rfl
  | _, _, .cons (a := x) (b := y) hxy h, c => by
    rw [List.foldlM_cons, List.foldlM_cons, hfg x y hxy c]
    refine congrArg _ (funext fun c => ?_)
    exact foldlM_forall₂ hfg h c

theorem any_forall₂ {p : α → Bool} {q : β → Bool} (hpq : ∀ a b, R a b → p a = q b) :
    ∀ {l : List α} {l' : List β}, List.Forall₂ R l l' → l.any p = l'.any q
  | _, _, .nil => rfl
  | _, _, .cons (a := x) (b := y) hxy h => by
    rw [List.any_cons, List.any_cons, hpq x y hxy, any_forall₂ hpq h]

end

/-- The first element that satisfies a predicate does not depend on the order, if only one does. -/
theorem find?_perm {p : α → Bool} {l l' : List α} (h : l.Perm l')
    (hp : ∀ a ∈ l, ∀ b ∈ l, p a = true → p b = true → a = b) : l.find? p = l'.find? p := by
  cases hl : l.find? p with
  | none =>
    symm
    rw [List.find?_eq_none] at hl ⊢
    exact fun a ha => hl a (h.mem_iff.mpr ha)
  | some a =>
    have ha := List.mem_of_find?_eq_some hl
    have hpa := List.find?_some hl
    cases hl' : l'.find? p with
    | none => exact absurd hpa (List.find?_eq_none.mp hl' a (h.mem_iff.mp ha))
    | some b =>
      rw [hp a ha b (h.mem_iff.mpr (List.mem_of_find?_eq_some hl')) hpa (List.find?_some hl')]

/-- The last element that satisfies a predicate. -/
theorem exists_last_split {p : α → Prop} {l : List α} (h : ∃ a ∈ l, p a) :
    ∃ before a after, l = before ++ a :: after ∧ p a ∧ ∀ b ∈ after, ¬ p b := by
  induction l with
  | nil =>
    obtain ⟨a, ha, -⟩ := h
    cases ha
  | cons x l ih =>
    by_cases hrest : ∃ a ∈ l, p a
    · obtain ⟨before, a, after, rfl, ha, hafter⟩ := ih hrest
      exact ⟨x :: before, a, after, rfl, ha, hafter⟩
    · obtain ⟨a, ha, hpa⟩ := h
      rcases List.mem_cons.mp ha with rfl | ha
      · exact ⟨[], a, l, rfl, hpa, fun b hb hpb => hrest ⟨b, hb, hpb⟩⟩
      · exact absurd ⟨a, ha, hpa⟩ hrest

theorem countP_lt {p q : α → Bool} {l : List α} (h : ∀ a ∈ l, p a = true → q a = true)
    {a : α} (ha : a ∈ l) (hp : p a = false) (hq : q a = true) : l.countP p < l.countP q := by
  obtain ⟨before, after, rfl⟩ := List.append_of_mem ha
  have hbefore : before.countP p ≤ before.countP q := List.countP_mono_left fun b hb =>
    h b (by simp [hb])
  have hafter : after.countP p ≤ after.countP q := List.countP_mono_left fun b hb =>
    h b (by simp [hb])
  rw [List.countP_append, List.countP_append, List.countP_cons_of_pos hq,
    List.countP_cons_of_neg (by simp [hp])]
  omega

/-! ### Windows of a sorted list -/

section

variable [LT β] [DecidableLT β] [Std.Asymm fun b c : β => b < c] {key : α → β} {l : List α} {a : α}

/-- The place of an element of a sorted list is the number of smaller elements. -/
theorem getElem?_sorted_iff (hsorted : l.Pairwise fun a b => key a < key b) (ha : a ∈ l) (i : ℕ) :
    l[i]? = some a ↔ i = l.countP (key · < key a) := by
  obtain ⟨before, after, rfl⟩ := List.append_of_mem ha
  obtain ⟨-, hafter, hbefore⟩ := List.pairwise_append.mp hsorted
  have hasymm : ∀ {b c : β}, b < c → ¬ c < b := fun {b c} => Std.Asymm.asymm b c
  have hirrefl : ∀ b : β, ¬ b < b := fun b h => hasymm h h
  have hcount : (before ++ a :: after).countP (key · < key a) = before.length := by
    rw [List.countP_append, List.countP_cons,
      List.countP_eq_length.mpr fun b hb => by simpa using hbefore b hb a (by simp),
      List.countP_eq_zero.mpr
        fun b hb => by simpa using hasymm (List.rel_of_pairwise_cons hafter hb)]
    simp [hirrefl]
  have hnodup : (before ++ a :: after).Nodup := hsorted.imp fun hlt heq =>
    absurd (heq ▸ hlt) (hirrefl _)
  have hplace : (before ++ a :: after)[before.length]? = some a := by simp
  rw [hcount]
  constructor
  · intro h
    obtain ⟨hlength, -⟩ := List.getElem?_eq_some_iff.mp h
    exact (List.getElem?_inj hlength hnodup).mp (h.trans hplace.symm)
  · rintro rfl
    exact hplace

/-- An element of a sorted list is in a window of it if the number of smaller elements is. -/
theorem mem_window_iff (key : α → β) (hsorted : l.Pairwise fun a b => key a < key b) (ha : a ∈ l)
    (offset limit : ℕ) :
    a ∈ (l.drop offset).take limit
      ↔ offset ≤ l.countP (key · < key a) ∧ l.countP (key · < key a) < offset + limit := by
  have hplace := getElem?_sorted_iff hsorted ha
  rw [List.mem_iff_getElem?]
  constructor
  · rintro ⟨i, hi⟩
    rw [List.getElem?_take] at hi
    split_ifs at hi with hlimit
    rw [List.getElem?_drop] at hi
    have := (hplace _).mp hi
    omega
  · rintro ⟨hoffset, hlimit⟩
    refine ⟨l.countP (key · < key a) - offset, ?_⟩
    rw [List.getElem?_take, if_pos (by omega), List.getElem?_drop, hplace]
    omega

end

/-! ### The largest element -/

section

variable [LinearOrder β]

/-- `Iterator::max_by_key`: the last of the largest elements. -/
def maxByKey (key : α → β) : List α → Option α
  | [] => none
  | a :: l => some (l.foldl (fun best b => if key b < key best then best else b) a)

variable {key : α → β}

theorem foldl_max_spec : ∀ (l : List α) (a : α),
    (l.foldl (fun best b => if key b < key best then best else b) a) ∈ a :: l
      ∧ ∀ b ∈ a :: l, key b ≤ key (l.foldl (fun best b => if key b < key best then best else b) a)
  | [], a => by simp
  | b :: l, a => by
    rw [List.foldl_cons]
    split_ifs with hlt
    · obtain ⟨hmem, hmax⟩ := foldl_max_spec l a
      refine ⟨?_, fun c hc => ?_⟩
      · rcases List.mem_cons.mp hmem with heq | hmem
        · rw [heq]
          exact List.mem_cons_self
        · exact List.mem_cons_of_mem a (List.mem_cons_of_mem b hmem)
      · rcases List.mem_cons.mp hc with rfl | hc
        · exact hmax c List.mem_cons_self
        · rcases List.mem_cons.mp hc with rfl | hc
          · exact hlt.le.trans (hmax a List.mem_cons_self)
          · exact hmax c (List.mem_cons_of_mem a hc)
    · obtain ⟨hmem, hmax⟩ := foldl_max_spec l b
      refine ⟨List.mem_cons_of_mem a hmem, fun c hc => ?_⟩
      rcases List.mem_cons.mp hc with rfl | hc
      · exact (not_lt.mp hlt).trans (hmax b List.mem_cons_self)
      · exact hmax c hc

theorem maxByKey_eq_none {l : List α} : maxByKey key l = none ↔ l = [] := by
  cases l <;> simp [maxByKey]

theorem maxByKey_eq_some {l : List α} {a : α} (h : maxByKey key l = some a) :
    a ∈ l ∧ ∀ b ∈ l, key b ≤ key a := by
  cases l with
  | nil => cases h
  | cons b l =>
    obtain rfl := Option.some.inj h
    exact foldl_max_spec l b

/-- **Where the keys differ, the order of the elements does not matter.** -/
theorem maxByKey_perm {l l' : List α} (hkey : (l.map key).Nodup) (h : l'.Perm l) :
    maxByKey key l' = maxByKey key l := by
  rcases hmax : maxByKey key l with _ | a
  · rw [maxByKey_eq_none.mp hmax] at h
    rw [List.perm_nil.mp h]
    rfl
  · rcases hmax' : maxByKey key l' with _ | a'
    · rw [maxByKey_eq_none.mp hmax'] at h
      rw [List.nil_perm.mp h] at hmax
      cases hmax
    · obtain ⟨hmem, hle⟩ := maxByKey_eq_some hmax
      obtain ⟨hmem', hle'⟩ := maxByKey_eq_some hmax'
      have heq : key a' = key a :=
        le_antisymm (hle a' (h.mem_iff.mp hmem')) (hle' a (h.mem_iff.mpr hmem))
      rw [List.inj_on_of_nodup_map hkey (h.mem_iff.mp hmem') hmem heq]

end

/-! ### The first of the sorted elements -/

section

variable [LinearOrder β] {key : α → β} {l : List α} {a : α} {limit : ℕ}

theorem pairwise_lt_insertionSort (hkey : (l.map key).Nodup) :
    (l.insertionSort (ByKey key)).Pairwise fun a b => key a < key b := by
  have hnodup : ((l.insertionSort (ByKey key)).map key).Nodup :=
    ((List.perm_insertionSort (ByKey key) l).map key).nodup_iff.mpr hkey
  exact (List.pairwise_insertionSort (ByKey key) l).imp₂ (fun _ _ hle hne => lt_of_le_of_ne hle hne)
    (List.pairwise_map.mp hnodup)

/-- Of the elements sorted by a key that tells them apart, the first ones are those with the fewest
smaller ones. -/
theorem mem_take_insertionSort_iff (hkey : (l.map key).Nodup) (ha : a ∈ l) (limit : ℕ) :
    a ∈ (l.insertionSort (ByKey key)).take limit ↔ l.countP (key · < key a) < limit := by
  have hperm := List.perm_insertionSort (ByKey key) l
  have hwindow := mem_window_iff key (pairwise_lt_insertionSort hkey) (hperm.mem_iff.mpr ha) 0 limit
  rw [hperm.countP_eq] at hwindow
  simpa using hwindow

theorem mem_of_mem_take_insertionSort (ha : a ∈ (l.insertionSort (ByKey key)).take limit) : a ∈ l :=
  (List.mem_insertionSort _).mp (List.mem_of_mem_take ha)

theorem nodup_take_insertionSort {γ : Type*} {f : α → γ} (hf : (l.map f).Nodup)
    (key : α → β) (limit : ℕ) : (((l.insertionSort (ByKey key)).take limit).map f).Nodup := by
  have hsorted : ((l.insertionSort (ByKey key)).map f).Nodup :=
    ((List.perm_insertionSort _ _).map f).nodup_iff.mpr hf
  exact hsorted.sublist ((List.take_sublist _ _).map _)

/-- The first ones are smaller than the others. -/
theorem lt_of_notMem_take (hkey : (l.map key).Nodup) {first : α}
    (hfirst : first ∈ (l.insertionSort (ByKey key)).take limit) (ha : a ∈ l)
    (hnot : a ∉ (l.insertionSort (ByKey key)).take limit) : key first < key a := by
  by_contra hle
  have hfewer :=
    (mem_take_insertionSort_iff hkey (mem_of_mem_take_insertionSort hfirst) limit).mp hfirst
  have hmore := mt (mem_take_insertionSort_iff hkey ha limit).mpr hnot
  have hcount : l.countP (key · < key a) ≤ l.countP (key · < key first) :=
    List.countP_mono_left fun other _ hlt => by
      simp only [decide_eq_true_eq] at hlt ⊢
      exact hlt.trans_le (not_lt.mp hle)
  omega

theorem take_insertionSort_ne_nil (hlimit : 1 ≤ limit) (ha : a ∈ l) :
    (l.insertionSort (ByKey key)).take limit ≠ [] := by
  have hsorted : l.insertionSort (ByKey key) ≠ [] :=
    List.ne_nil_of_mem ((List.mem_insertionSort _).mpr ha)
  rw [Ne, List.take_eq_nil_iff, not_or]
  exact ⟨by omega, hsorted⟩

/-- The elements before one of the first ones are the smaller ones. -/
theorem mem_before_iff (hkey : (l.map key).Nodup) {before after : List α}
    (hsplit : (l.insertionSort (ByKey key)).take limit = before ++ a :: after) {b : α} :
    b ∈ before ↔ b ∈ l ∧ key b < key a := by
  have hsorted : (before ++ a :: after).Pairwise fun a b => key a < key b :=
    hsplit ▸ (pairwise_lt_insertionSort hkey).sublist (List.take_sublist _ _)
  obtain ⟨-, hafter, hbefore⟩ := List.pairwise_append.mp hsorted
  have ha : a ∈ (l.insertionSort (ByKey key)).take limit := by rw [hsplit]; simp
  constructor
  · intro hb
    refine ⟨(mem_of_mem_take_insertionSort (?_ : b ∈ (l.insertionSort (ByKey key)).take limit)),
      hbefore b hb a (by simp)⟩
    rw [hsplit]
    exact List.mem_append_left _ hb
  · rintro ⟨hb, hlt⟩
    have hmem : b ∈ (l.insertionSort (ByKey key)).take limit := by
      refine (mem_take_insertionSort_iff hkey hb limit).mpr (lt_of_le_of_lt ?_
        ((mem_take_insertionSort_iff hkey (mem_of_mem_take_insertionSort ha) limit).mp ha))
      exact List.countP_mono_left fun other _ hother => by
        simp only [decide_eq_true_eq] at hother ⊢
        exact hother.trans hlt
    rw [hsplit] at hmem
    rcases List.mem_append.mp hmem with hin | hin
    · exact hin
    · rcases List.mem_cons.mp hin with rfl | hin
      · exact absurd hlt (lt_irrefl _)
      · exact absurd hlt (List.rel_of_pairwise_cons hafter hin).asymm

end

/-! ### Chunks -/

/-- The chunks of a list, with a bound on their number. -/
def chunksUpTo (size : ℕ) : ℕ → List α → List (List α)
  | _, [] => []
  | 0, _ => []
  | n + 1, l => l.take size :: chunksUpTo size n (l.drop size)

/-- `slice::chunks`. -/
def chunks (size : ℕ) (l : List α) : List (List α) := chunksUpTo size l.length l

theorem chunks_map (size : ℕ) (f : α → β) (l : List α) :
    chunks size (l.map f) = (chunks size l).map (·.map f) := by
  have hupTo : ∀ (n : ℕ) (l : List α),
      chunksUpTo size n (l.map f) = (chunksUpTo size n l).map (·.map f) := by
    intro n
    induction n with
    | zero => intro l; cases l <;> rfl
    | succ n ih =>
      intro l
      cases l with
      | nil => rfl
      | cons a l =>
        rw [List.map_cons, chunksUpTo, chunksUpTo, List.map_cons, ← List.map_cons, ← List.map_take,
          ← List.map_drop, ih]
        all_goals exact List.cons_ne_nil _ _
  rw [chunks, chunks, List.length_map, hupTo]

theorem flatten_chunks {size : ℕ} (hsize : 0 < size) (l : List α) :
    (chunks size l).flatten = l := by
  have hupTo : ∀ (n : ℕ) (l : List α), l.length ≤ n → (chunksUpTo size n l).flatten = l := by
    intro n
    induction n with
    | zero =>
      intro l hn
      obtain rfl : l = [] := List.length_eq_zero_iff.mp (Nat.le_zero.mp hn)
      rfl
    | succ n ih =>
      intro l hn
      cases l with
      | nil => rfl
      | cons a l =>
        rw [chunksUpTo, List.flatten_cons, ih _ (by simp only [List.length_drop]; omega),
          List.take_append_drop]
        exact List.cons_ne_nil a l
  exact hupTo l.length l le_rfl

end Sporos.Lib.Lists
