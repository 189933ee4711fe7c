import Mathlib.Data.List.TakeWhile
import Mathlib.Tactic

/-! # Trimming

A list without the elements of a class at its two ends. The trimmed list is the only part between
such elements that neither starts nor ends with one (`trim_unique`); what is put behind a list can
be seen in the trimmed list unless it is all of that class (`trim_append_eq_iff`). -/

namespace Sporos.Lib.Trim

variable {α : Type*} {p : α → Bool}

/-- A list without the elements of a class at its two ends. -/
def trim (p : α → Bool) (l : List α) : List α := ((l.dropWhile p).reverse.dropWhile p).reverse

/-- All elements are of the class. -/
def Blank (p : α → Bool) (l : List α) : Prop := ∀ a ∈ l, p a = true

instance (p : α → Bool) (l : List α) : Decidable (Blank p l) :=
  inferInstanceAs (Decidable (∀ a ∈ l, p a = true))

/-- Neither end is of the class. -/
def Trimmed (p : α → Bool) (l : List α) : Prop :=
  (∀ a ∈ l.head?, p a = false) ∧ ∀ a ∈ l.getLast?, p a = false

theorem blank_append {l l' : List α} : Blank p (l ++ l') ↔ Blank p l ∧ Blank p l' :=
  List.forall_mem_append

theorem dropWhile_blank_append {b l : List α} (hb : Blank p b) (hl : ∀ a ∈ l.head?, p a = false) :
    (b ++ l).dropWhile p = l := by
  rw [List.dropWhile_append_of_pos hb]
  cases l with
  | nil => rfl
  | cons a l => rw [List.dropWhile_cons_of_neg (by simp [hl a rfl])]

/-- The trimmed list is the part between blanks whose ends are not blank. -/
theorem trim_unique {b m e : List α} (hb : Blank p b) (he : Blank p e) (hm : Trimmed p m)
    (hne : m ≠ []) : trim p (b ++ m ++ e) = m := by
  have hhead : ∀ a ∈ (m ++ e).head?, p a = false := by
    obtain ⟨a, m, rfl⟩ := List.exists_cons_of_ne_nil hne
    exact hm.1
  rw [trim, List.append_assoc, dropWhile_blank_append hb hhead, List.reverse_append,
    dropWhile_blank_append (fun a ha => he a (List.mem_reverse.mp ha)) (by simpa using hm.2),
    List.reverse_reverse]

theorem trim_of_blank {l : List α} (h : Blank p l) : trim p l = [] := by
  rw [trim, List.dropWhile_eq_nil_iff.mpr h]
  rfl

/-- A list is its trimmed part between blanks. -/
theorem exists_trim (p : α → Bool) (l : List α) :
    ∃ b e, l = b ++ trim p l ++ e ∧ Blank p b ∧ Blank p e ∧ Trimmed p (trim p l) := by
  have hfront := List.takeWhile_append_dropWhile (p := p) (l := l)
  have hback := List.takeWhile_append_dropWhile (p := p) (l := (l.dropWhile p).reverse)
  refine ⟨l.takeWhile p, ((l.dropWhile p).reverse.takeWhile p).reverse, ?_, fun a =>
    List.mem_takeWhile_imp,
    fun a ha => List.mem_takeWhile_imp (List.mem_reverse.mp ha), fun a ha => ?_, fun a ha => ?_⟩
  · rw [trim, List.append_assoc, ← List.reverse_append, hback, List.reverse_reverse, hfront]
  · -- the front of the trimmed list is the front of what is left without the blanks before it
    have hprefix : (trim p l) <+: l.dropWhile p := by
      have hsuffix := List.dropWhile_suffix (l := (l.dropWhile p).reverse) p
      rw [trim, ← List.reverse_reverse (l.dropWhile p)]
      simpa using List.reverse_prefix.mpr hsuffix
    obtain ⟨rest, hrest⟩ := hprefix
    have hne : l.dropWhile p ≠ [] := by
      intro hnil
      rw [hnil, List.append_eq_nil_iff] at hrest
      simp [hrest.1] at ha
    have hhead := List.head_dropWhile_not p hne
    obtain ⟨m, hm⟩ := List.head?_eq_some_iff.mp ha
    simp only [← hrest, hm, List.cons_append, List.head_cons] at hhead
    exact hhead
  · rw [trim, List.getLast?_reverse] at ha
    have hne : (l.dropWhile p).reverse.dropWhile p ≠ [] := by
      rintro hnil
      simp [hnil] at ha
    have hhead := List.head_dropWhile_not p hne
    rw [List.head?_eq_some_head hne, Option.mem_some_iff] at ha
    rw [← ha]
    exact hhead

theorem trim_eq_nil_iff {l : List α} : trim p l = [] ↔ Blank p l := by
  refine ⟨fun h => ?_, trim_of_blank⟩
  obtain ⟨b, e, hl, hb, he, -⟩ := exists_trim p l
  rw [h, List.append_nil] at hl
  rw [hl]
  exact blank_append.mpr ⟨hb, he⟩

theorem trim_trimmed {l : List α} (h : Trimmed p l) : trim p l = l := by
  by_cases hne : l = []
  · rw [hne]
    rfl
  · simpa using trim_unique (b := []) (e := []) (by simp [Blank]) (by simp [Blank]) h hne

/-- What is put behind a list leaves its trimmed part alone only if it is blank. -/
theorem trim_append_eq_iff {l l' : List α} : trim p (l ++ l') = trim p l ↔ Blank p l' := by
  obtain ⟨b, e, hl, hb, he, hm⟩ := exists_trim p l
  obtain ⟨b', e', hl', hb', he', hm'⟩ := exists_trim p l'
  constructor
  · intro h
    by_contra hne
    have hm'ne : trim p l' ≠ [] := fun hnil => hne (trim_eq_nil_iff.mp hnil)
    by_cases hempty : trim p l = []
    · rw [hempty, trim_eq_nil_iff] at h
      exact hne (blank_append.mp h).2
    · have hjoined : l ++ l' = b ++ (trim p l ++ (e ++ b') ++ trim p l') ++ e' := by
        conv_lhs => rw [hl, hl']
        simp only [List.append_assoc]
      have hends : Trimmed p (trim p l ++ (e ++ b') ++ trim p l') := by
        refine ⟨?_, ?_⟩
        · obtain ⟨a, m, hcons⟩ := List.exists_cons_of_ne_nil hempty
          rw [hcons] at hm ⊢
          exact hm.1
        · rw [List.getLast?_append_of_ne_nil _ hm'ne]
          exact hm'.2
      rw [hjoined, trim_unique hb he' hends (by simp [hempty])] at h
      have hlen := congrArg List.length h
      have := List.length_pos_of_ne_nil hm'ne
      simp only [List.length_append] at hlen
      omega
  · intro h
    by_cases hempty : trim p l = []
    · rw [hempty, trim_eq_nil_iff]
      exact blank_append.mpr ⟨trim_eq_nil_iff.mp hempty, h⟩
    · conv_lhs => rw [hl, List.append_assoc]
      exact trim_unique hb (blank_append.mpr ⟨he, h⟩) hm hempty

end Sporos.Lib.Trim
