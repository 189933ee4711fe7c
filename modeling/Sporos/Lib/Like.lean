import Mathlib.Tactic

/-! # SQL `LIKE`

The patterns of SQLite without an escape: `%` stands for any text, `_` for one character, and any
other character for itself, up to the case of ASCII letters. -/

namespace Sporos.Lib.Like

/-- `text LIKE pattern`. -/
def like : List Char → List Char → Bool
  | [], text => text.isEmpty
  | c :: pattern, text =>
    if c = '%' then text.tails.any (like pattern)
    else match text with
      | [] => false
      | d :: text => (c = '_' || c.toLower = d.toLower) && like pattern text

/-- The text is the literal, up to the case of ASCII letters. -/
def SameLetters (literal text : List Char) : Prop :=
  text.map Char.toLower = literal.map Char.toLower

instance (literal text : List Char) : Decidable (SameLetters literal text) :=
  inferInstanceAs (Decidable (_ = _))

theorem like_any (text : List Char) : like ['%'] text = true := by
  have hnil : [] ∈ text.tails := by simp
  exact List.any_eq_true.mpr ⟨[], hnil, rfl⟩

/-- The characters of a pattern up to a wildcard. -/
theorem like_literal {literal : List Char} (hliteral : ∀ c ∈ literal, c ≠ '%' ∧ c ≠ '_')
    (pattern : List Char) :
    ∀ text, like (literal ++ pattern) text = true
      ↔ ∃ start rest, text = start ++ rest ∧ SameLetters literal start
        ∧ like pattern rest = true := by
  induction literal with
  | nil =>
    intro text
    constructor
    · exact fun h => ⟨[], text, rfl, rfl, h⟩
    · rintro ⟨start, rest, rfl, hsame, h⟩
      obtain rfl : start = [] := by simpa [SameLetters] using hsame
      exact h
  | cons c literal ih =>
    intro text
    obtain ⟨hpercent, hunderscore⟩ := hliteral c (by simp)
    have ih := ih fun d hd => hliteral d (by simp [hd])
    cases text with
    | nil => simp [like, hpercent, SameLetters]
    | cons d text =>
      have hstep : like (c :: literal ++ pattern) (d :: text) = true
          ↔ c.toLower = d.toLower ∧ like (literal ++ pattern) text = true := by
        simp [like, hpercent, hunderscore]
      rw [hstep, ih text]
      constructor
      · rintro ⟨hletter, start, rest, rfl, hsame, h⟩
        exact ⟨d :: start, rest, rfl, by simp [SameLetters, hletter, show _ = _ from hsame], h⟩
      · rintro ⟨start, rest, htext, hsame, h⟩
        cases start with
        | nil => simp [SameLetters] at hsame
        | cons e start =>
          obtain ⟨rfl, rfl⟩ := List.cons.inj htext
          obtain ⟨hletter, hsame⟩ := List.cons.inj hsame
          exact ⟨hletter.symm, start, rest, rfl, hsame, h⟩

/-- **A literal and a `%`**: the texts that begin with the literal, up to the case of ASCII letters.
-/
theorem like_start {literal : List Char} (hliteral : ∀ c ∈ literal, c ≠ '%' ∧ c ≠ '_')
    (text : List Char) :
    like (literal ++ ['%']) text = true ↔ ∃ start, start <+: text ∧ SameLetters literal start := by
  rw [like_literal hliteral]
  constructor
  · rintro ⟨start, rest, rfl, hsame, -⟩
    exact ⟨start, List.prefix_append start rest, hsame⟩
  · rintro ⟨start, ⟨rest, rfl⟩, hsame⟩
    exact ⟨start, rest, rfl, hsame, like_any rest⟩

end Sporos.Lib.Like
