import Sporos.Lib.Words
import Sporos.Matcher.Release

/-! # Normalised titles

The title of a name is made of the runs of alphanumeric characters of its lower-cased normal form,
with one space between two of them. The titles of two names are equal if, and only if, their runs
are. -/

namespace Sporos.Matcher.Titles

open Sporos.Model.Matching
open Sporos.Lib.Words
open Sporos.Matcher.Release

variable (U : Unicode)

/-- The lower-cased normal form. -/
def folded (value : Str) : Str := (U.nfc value).flatMap U.toLowercase

/-- The runs of alphanumeric characters. -/
def runs (value : Str) : List Str := words U.isAlphanumeric (folded U value)

variable {U}

/-- What is left of the title when the loop is done. -/
def finish (state : Str × Bool) : Str := if state.2 then state.1.dropLast else state.1

/-- The rest of the loop, between two words and within one. A title that ends in a separator loses
it unless another word comes. -/
theorem finish_foldl (text : Str) :
    (∀ normalized : Str, finish (text.foldl (normalizeStep U) (normalized, true)) =
      if words U.isAlphanumeric text = [] then normalized.dropLast
      else normalized ++ join ' ' (words U.isAlphanumeric text)) ∧
    ∀ normalized : Str, normalized ≠ [] → ∀ run rest,
      text.splitOnP (fun c => !U.isAlphanumeric c) = run :: rest →
      finish (text.foldl (normalizeStep U) (normalized, false)) =
        normalized ++ run ++ (rest.filter fun word => !word.isEmpty).flatMap (' ' :: ·) := by
  induction text with
  | nil =>
    refine ⟨fun normalized => by simp [finish], fun normalized _ run rest h => ?_⟩
    obtain ⟨rfl, rfl⟩ := List.cons.inj h
    simp [finish]
  | cons c text ih =>
    obtain ⟨hbetween, hwithin⟩ := ih
    obtain ⟨run, rest, hsplit⟩ := exists_splitOnP U.isAlphanumeric text
    by_cases hc : U.isAlphanumeric c = true
    · have hstep : ∀ normalized separator,
          normalizeStep U (normalized, separator) c = (normalized ++ [c], false) :=
        fun normalized separator => by simp [normalizeStep, hc]
      have hnext : ∀ normalized : Str,
        finish (text.foldl (normalizeStep U) (normalized ++ [c], false)) =
          normalized ++ (c :: run) ++ (rest.filter fun word => !word.isEmpty).flatMap (' ' :: ·) :=
        fun normalized => by simpa using hwithin (normalized ++ [c]) (by simp) run rest hsplit
      refine ⟨fun normalized => ?_, fun normalized _ run' rest' h => ?_⟩
      · rw [List.foldl_cons, hstep, hnext, words_of_splitOnP hc hsplit, if_neg (by simp), join]
        simp
      · rw [List.splitOnP_cons_eq_if_modifyHead, hsplit] at h
        simp only [hc, Bool.not_true, Bool.false_eq_true, if_false, List.modifyHead_cons] at h
        obtain ⟨rfl, rfl⟩ := List.cons.inj h
        rw [List.foldl_cons, hstep, hnext]
    · rw [Bool.not_eq_true] at hc
      refine ⟨fun normalized => ?_, fun normalized hne run' rest' h => ?_⟩
      · rw [List.foldl_cons, words_cons_neg hc, ← hbetween]
        simp [normalizeStep, hc]
      · have hstep : normalizeStep U (normalized, false) c = (normalized ++ [' '], true) := by
          simp [normalizeStep, hc, hne]
        rw [List.splitOnP_cons_eq_if_modifyHead] at h
        simp only [hc, Bool.not_false, if_true] at h
        obtain ⟨rfl, rfl⟩ := List.cons.inj h
        rw [List.foldl_cons, hstep, hbetween]
        change (if words U.isAlphanumeric text = [] then _ else _) =
          normalized ++ [] ++ (words U.isAlphanumeric text).flatMap (' ' :: ·)
        split_ifs with hempty
        · simp [hempty]
        · rw [flatMap_cons hempty]
          simp

/-- **The title** is the runs, joined by single spaces. -/
theorem normalizeTitle_eq (value : Str) : normalizeTitle U value = join ' ' (runs U value) := by
  have h := (finish_foldl (U := U) (folded U value)).1 []
  rw [show normalizeTitle U value = finish ((folded U value).foldl (normalizeStep U) ([],
    true)) from rfl, h]
  split_ifs with hempty
  · rw [runs, hempty]
    rfl
  · rfl

/-- A space is not alphanumeric, so that no run has one. -/
theorem runs_spec (hspace : U.isAlphanumeric ' ' = false) {value : Str} :
    ∀ run ∈ runs U value, run ≠ [] ∧ ' ' ∉ run := by
  intro run hrun
  obtain ⟨hne, hall⟩ := mem_words hrun
  exact ⟨hne, fun hmem => by simp [hall _ hmem] at hspace⟩

/-- **Normalised titles** are the runs of alphanumeric characters joined by single spaces: no space
at either end and no two in a row, nothing where there is no alphanumeric character, and the same
text for the same runs only. -/
theorem normalizeTitle_words (U : Unicode) (hspace : U.isAlphanumeric ' ' = false) (value : Str) :
    normalizeTitle U value = [' '].intercalate (runs U value) ∧
    (normalizeTitle U value).head? ≠ some ' ' ∧ (normalizeTitle U value).getLast? ≠ some ' ' ∧
    (∀ before after, normalizeTitle U value ≠ before ++ ' ' :: ' ' :: after) ∧
    (normalizeTitle U value = [] ↔ ∀ c ∈ (U.nfc value).flatMap U.toLowercase,
      U.isAlphanumeric c = false) ∧
    ∀ value', normalizeTitle U value = normalizeTitle U value' ↔ runs U value = runs U value' := by
  have hruns : ∀ value, ∀ run ∈ runs U value, run ≠ [] ∧ ' ' ∉ run := fun _ => runs_spec hspace
  refine ⟨?_, fun hhead => ?_, fun hlast => ?_, fun before after h => ?_, ?_, fun value' => ?_⟩
  · rw [normalizeTitle_eq, join_eq_intercalate]
  · obtain ⟨rest, hrest⟩ := List.head?_eq_some_iff.mp hhead
    rw [normalizeTitle_eq] at hrest
    have hsplit : join ' ' (runs U value) = [] ++ ' ' :: rest := hrest
    exact (ne_nil_of_join_eq (hruns value) hsplit).2.2.1 rfl
  · obtain ⟨front, hfront⟩ := List.getLast?_eq_some_iff.mp hlast
    rw [normalizeTitle_eq] at hfront
    exact (ne_nil_of_join_eq (hruns value) hfront).2.2.2 rfl
  · rw [normalizeTitle_eq] at h
    exact (ne_nil_of_join_eq (hruns value) h).2.1 rfl
  · rw [normalizeTitle_eq, join_eq_nil_iff fun run hrun => (hruns value run hrun).1]
    exact words_eq_nil_iff
  · rw [normalizeTitle_eq, normalizeTitle_eq, join_inj (hruns value) (hruns value')]

/-- A title with separators at both ends and several in a row. -/
theorem normalizeTitle_words_cut :
    normalizeTitle Unicode.ascii "  Amelie...DIRECTOR'S CUT ".toList =
      [' '].intercalate (runs Unicode.ascii "  Amelie...DIRECTOR'S CUT ".toList) :=
  (normalizeTitle_words Unicode.ascii (by decide) "  Amelie...DIRECTOR'S CUT ".toList).1

example : normalizeTitle Unicode.ascii "  Amelie...DIRECTOR'S CUT ".toList =
    "amelie director s cut".toList := by
  decide +kernel

end Sporos.Matcher.Titles
