import Sporos.Lib.UnixPath

/-! # Character boundaries

Offsets into the UTF-8 encoding of a text. The test of `str::is_char_boundary` looks at one byte; it
holds exactly where the text can be cut into two texts (`isCharBoundary_iff`). A byte of ASCII is at
a boundary, and a change of characters that keeps their sizes keeps the boundaries. -/

namespace Sporos.Lib.Utf8

open Sporos.Lib.UnixPath (bytes_split)

/-- The encoding of a text. -/
abbrev utf8 (text : List Char) : List UInt8 := text.flatMap String.utf8EncodeChar

/-- `str::is_char_boundary`. -/
def isCharBoundary (text : List Char) (n : ℕ) : Bool :=
  n = 0 || ((utf8 text)[n]?).elim (decide (n = (utf8 text).length)) fun b => b < 128 || 192 ≤ b

/-- The text can be cut at the offset. -/
def Boundary (text : List Char) (n : ℕ) : Prop :=
  ∃ before after, text = before ++ after ∧ (utf8 before).length = n

variable {text : List Char} {n : ℕ}

theorem utf8_append (before after : List Char) :
    utf8 (before ++ after) = utf8 before ++ utf8 after :=
  List.flatMap_append

theorem Boundary.le_length (h : Boundary text n) : n ≤ (utf8 text).length := by
  obtain ⟨before, after, rfl, rfl⟩ := h
  rw [utf8_append, List.length_append]
  exact Nat.le_add_right _ _

/-- The first byte of a character is not one that continues a character, and the others are. -/
theorem starts_utf8EncodeChar (c : Char) (i : ℕ) (h : i < (String.utf8EncodeChar c).length) :
    ((String.utf8EncodeChar c)[i] < 128 ∨ 192 ≤ (String.utf8EncodeChar c)[i]) ↔ i = 0 := by
  have h128 : (128 : UInt8).toNat = 128 := rfl
  have h192 : (192 : UInt8).toNat = 192 := rfl
  rw [UInt8.lt_iff_toNat_lt, UInt8.le_iff_toNat_le, h128, h192]
  unfold String.utf8EncodeChar at h ⊢
  dsimp only at h ⊢
  split_ifs at h ⊢
  all_goals
    simp only [List.length_cons, List.length_nil] at h
    rcases i with _ | _ | _ | _ | i
    all_goals
      simp only [List.getElem_cons_zero, List.getElem_cons_succ, UInt8.toNat_ofNat', iff_true,
        Nat.add_one_ne_zero, iff_false] at h ⊢
      omega

theorem starts_iff : ∀ (text : List Char) (n : ℕ),
    ((utf8 text)[n]?.elim (decide (n = (utf8 text).length)) fun b => b < 128 || 192 ≤ b) = true ↔
      Boundary text n
  | [], n => by
    simp only [utf8, List.flatMap_nil, List.getElem?_nil, Option.elim_none, List.length_nil,
      decide_eq_true_eq]
    constructor
    · rintro rfl
      exact ⟨[], [], rfl, rfl⟩
    · intro h
      have := h.le_length
      simpa using this
  | c :: text, n => by
    have hsize : (String.utf8EncodeChar c).length = c.utf8Size := String.length_utf8EncodeChar c
    rw [utf8, List.flatMap_cons]
    by_cases hn : n < c.utf8Size
    · rw [List.getElem?_append_left (by omega), List.getElem?_eq_getElem (by omega),
        Option.elim_some, Bool.or_eq_true, decide_eq_true_eq, decide_eq_true_eq,
        starts_utf8EncodeChar]
      constructor
      · rintro rfl
        exact ⟨[], c :: text, rfl, rfl⟩
      · rintro ⟨before, after, happend, hlength⟩
        cases before with
        | nil => exact hlength.symm
        | cons d before =>
          obtain ⟨rfl, -⟩ := List.cons.inj happend
          rw [utf8, List.flatMap_cons, List.length_append, hsize] at hlength
          omega
    · obtain ⟨m, rfl⟩ : ∃ m, n = c.utf8Size + m := ⟨n - c.utf8Size, by omega⟩
      rw [List.getElem?_append_right (by omega), hsize, Nat.add_sub_cancel_left,
        List.length_append, hsize]
      simp only [Nat.add_left_cancel_iff]
      rw [starts_iff text m]
      constructor
      · rintro ⟨before, after, rfl, rfl⟩
        exact ⟨c :: before, after, rfl, by rw [utf8, List.flatMap_cons, List.length_append, hsize]⟩
      · rintro ⟨before, after, happend, hlength⟩
        have hpos := c.utf8Size_pos
        cases before with
        | nil =>
          simp only [utf8, List.flatMap_nil, List.length_nil] at hlength
          omega
        | cons d before =>
          obtain ⟨rfl, rfl⟩ := List.cons.inj happend
          rw [utf8, List.flatMap_cons, List.length_append, hsize] at hlength
          exact ⟨before, after, rfl, Nat.add_left_cancel hlength⟩

/-- **The test looks at one byte** and tells whether the text can be cut there. -/
theorem isCharBoundary_iff : isCharBoundary text n = true ↔ Boundary text n := by
  rw [isCharBoundary, Bool.or_eq_true, starts_iff, decide_eq_true_eq]
  refine or_iff_right_of_imp ?_
  rintro rfl
  exact ⟨[], text, rfl, rfl⟩

theorem boundary_length (text : List Char) : Boundary text (utf8 text).length :=
  ⟨text, [], by simp, rfl⟩

/-- **A byte of ASCII** is at a boundary. -/
theorem boundary_of_ascii {b : UInt8} (h : (utf8 text)[n]? = some b) (hb : b.toNat < 128) :
    Boundary text n := by
  obtain ⟨hlt, hget⟩ := List.getElem?_eq_some_iff.mp h
  have hsplit : utf8 text = (utf8 text).take n ++ b :: (utf8 text).drop (n + 1) := by
    rw [← hget, List.getElem_cons_drop, List.take_append_drop]
  obtain ⟨before, c, after, rfl, -, hbefore, -⟩ := bytes_split hb hsplit
  refine ⟨before, c :: after, rfl, ?_⟩
  rw [show utf8 before = (utf8 _).take n from hbefore, List.length_take]
  exact Nat.min_eq_left hlt.le

theorem length_utf8_map {f : Char → Char} (hf : ∀ c, (f c).utf8Size = c.utf8Size)
    (text : List Char) : (utf8 (text.map f)).length = (utf8 text).length := by
  simp only [utf8, List.length_flatMap, List.map_map, Function.comp_def,
    String.length_utf8EncodeChar, hf]

/-- Characters of the same sizes have the same boundaries. -/
theorem Boundary.of_map {f : Char → Char} (hf : ∀ c, (f c).utf8Size = c.utf8Size)
    (h : Boundary (text.map f) n) : Boundary text n := by
  obtain ⟨before, after, happend, hlength⟩ := h
  obtain ⟨before', after', rfl, rfl, rfl⟩ := List.map_eq_append_iff.mp happend
  exact ⟨before', after', rfl, by rw [← hlength, length_utf8_map hf]⟩

/-- The offset inside a character is not a boundary. -/
example : (isCharBoundary ['é', 'S'] 1, isCharBoundary ['é', 'S'] 2) = (false, true) := by decide

end Sporos.Lib.Utf8
