import Mathlib.Tactic

/-! # Words

The words of a list are its maximal runs of elements of a class, and the list has one separator
between any two of them when they are joined (`join`). Words without the separator can be read back
(`join_inj`), and joined words have no separator at either end and no two in a row. -/

namespace Sporos.Lib.Words

variable {α : Type*}

/-- The maximal runs of elements that satisfy `p`. -/
def words (p : α → Bool) (l : List α) : List (List α) :=
  (l.splitOnP fun a => !p a).filter fun word => !word.isEmpty

/-- The words, with a separator before each but the first. -/
def join (sep : α) : List (List α) → List α
  | [] => []
  | word :: rest => word ++ rest.flatMap (sep :: ·)

theorem join_eq_intercalate (sep : α) : ∀ ws : List (List α), join sep ws = [sep].intercalate ws
  | [] => rfl
  | [word] => by simp [join]
  | word :: next :: rest => by
    rw [List.intercalate_cons_cons, ← join_eq_intercalate sep (next :: rest)]
    simp [join]

theorem flatMap_cons {sep : α} {ws : List (List α)} (h : ws ≠ []) :
    ws.flatMap (sep :: ·) = sep :: join sep ws := by
  obtain ⟨word, rest, rfl⟩ := List.exists_cons_of_ne_nil h
  simp [join]

section

variable {p : α → Bool}

@[simp]
theorem words_nil : words p [] = [] := rfl

theorem words_cons_neg {a : α} {l : List α} (ha : p a = false) : words p (a :: l) = words p l := by
  simp [words, List.splitOnP_cons_eq_if_modifyHead, ha]

/-- The run at the front of a list, and the words after it. -/
theorem exists_splitOnP (p : α → Bool) (l : List α) :
    ∃ run rest, l.splitOnP (fun a => !p a) = run :: rest :=
  List.exists_cons_of_ne_nil (List.splitOnP_ne_nil _ l)

theorem words_of_splitOnP {run : List α} {rest : List (List α)} {a : α} {l : List α}
    (ha : p a = true) (h : l.splitOnP (fun a => !p a) = run :: rest) :
    words p (a :: l) = (a :: run) :: rest.filter fun word => !word.isEmpty := by
  simp [words, List.splitOnP_cons_eq_if_modifyHead, ha, h]

theorem mem_words {l : List α} {word : List α} (h : word ∈ words p l) :
    word ≠ [] ∧ ∀ a ∈ word, p a = true := by
  obtain ⟨hmem, hne⟩ := List.mem_filter.mp h
  refine ⟨by simpa using hne, ?_⟩
  clear h hne
  induction l generalizing word with
  | nil => simp_all
  | cons a l ih =>
    obtain ⟨run, rest, hsplit⟩ := exists_splitOnP p l
    rw [hsplit] at ih
    rw [List.splitOnP_cons_eq_if_modifyHead, hsplit] at hmem
    by_cases ha : p a = true
    · simp only [ha, Bool.not_true, Bool.false_eq_true, if_false, List.modifyHead_cons] at hmem
      rcases List.mem_cons.mp hmem with rfl | hmem
      · exact List.forall_mem_cons.mpr ⟨ha, ih (List.mem_cons_self ..)⟩
      · exact ih (List.mem_cons_of_mem _ hmem)
    · simp only [Bool.not_eq_true] at ha
      simp only [ha, Bool.not_false, if_true] at hmem
      rcases List.mem_cons.mp hmem with rfl | hmem
      · simp
      · exact ih hmem

theorem words_eq_nil_iff {l : List α} : words p l = [] ↔ ∀ a ∈ l, p a = false := by
  induction l with
  | nil => simp
  | cons a l ih =>
    by_cases ha : p a = true
    · obtain ⟨run, rest, hsplit⟩ := exists_splitOnP p l
      simp [words_of_splitOnP ha hsplit, ha]
    · rw [Bool.not_eq_true] at ha
      rw [words_cons_neg ha, ih, List.forall_mem_cons]
      simp [ha]

end

/-! ### Reading joined words back -/

section

variable {sep : α} {ws : List (List α)}

theorem join_eq_nil_iff (hws : ∀ word ∈ ws, word ≠ []) : join sep ws = [] ↔ ws = [] := by
  cases ws with
  | nil => simp [join]
  | cons word rest => simp [join, hws word (by simp)]

variable [DecidableEq α]

theorem splitOn_join (hws : ∀ word ∈ ws, sep ∉ word) (hne : ws ≠ []) :
    (join sep ws).splitOn sep = ws := by
  rw [join_eq_intercalate]
  exact List.splitOn_intercalate sep hws hne

/-- Joined words tell the words. -/
theorem join_inj {ws' : List (List α)} (hws : ∀ word ∈ ws, word ≠ [] ∧ sep ∉ word)
    (hws' : ∀ word ∈ ws', word ≠ [] ∧ sep ∉ word) : join sep ws = join sep ws' ↔ ws = ws' := by
  refine ⟨fun h => ?_, fun h => h ▸ rfl⟩
  have hnil : join sep ws = [] ↔ ws = [] := join_eq_nil_iff fun word hword => (hws word hword).1
  have hnil' : join sep ws' = [] ↔ ws' = [] := join_eq_nil_iff fun word hword => (hws' word hword).1
  by_cases hempty : ws = []
  · rw [hempty, hnil'.mp (h ▸ hnil.mpr hempty)]
  · have hempty' : ws' ≠ [] := fun he => hempty (hnil.mp (h.trans (hnil'.mpr he)))
    rw [← splitOn_join (fun word hword => (hws word hword).2) hempty, h,
      splitOn_join (fun word hword => (hws' word hword).2) hempty']

/-- A separator in joined words stands between two words. -/
theorem ne_nil_of_join_eq (hws : ∀ word ∈ ws, word ≠ [] ∧ sep ∉ word) {before after : List α}
    (h : join sep ws = before ++ sep :: after) :
    before.getLast? ≠ some sep ∧ after.head? ≠ some sep ∧ before ≠ [] ∧ after ≠ [] := by
  have hempty : ws ≠ [] := by
    rintro rfl
    simp [join] at h
  have hsplit : before.splitOn sep ++ after.splitOn sep = ws := by
    rw [← List.splitOn_append_cons_self, ← h]
    exact splitOn_join (fun word hword => (hws word hword).2) hempty
  have hno : [] ∉ before.splitOn sep ∧ [] ∉ after.splitOn sep := by
    refine ⟨fun hmem => ?_, fun hmem => ?_⟩
    · exact (hws [] (by rw [← hsplit]; exact List.mem_append_left _ hmem)).1 rfl
    · exact (hws [] (by rw [← hsplit]; exact List.mem_append_right _ hmem)).1 rfl
  refine ⟨fun hlast => ?_, fun hhead => ?_, ?_, ?_⟩
  · obtain ⟨front, rfl⟩ := List.getLast?_eq_some_iff.mp hlast
    refine hno.1 ?_
    rw [List.splitOn_append_cons_self]
    simp
  · obtain ⟨rest, rfl⟩ := List.head?_eq_some_iff.mp hhead
    exact hno.2 (by rw [← List.nil_append (sep :: rest), List.splitOn_append_cons_self]; simp)
  · rintro rfl
    exact hno.1 (by simp)
  · rintro rfl
    exact hno.2 (by simp)

end

end Sporos.Lib.Words
