import Mathlib.Data.List.Sort

/-! # Prefixes in lexicographic order

The lists that begin with a given one follow one another in the lexicographic order
(`isPrefix_of_between`). So a sorted list of lists in which no entry begins the next one has no
entry that begins another (`pairwise_of_isChain`), and comparing neighbours after a sort decides the
question for a list in any order (`isChain_insertionSort_iff`). -/

namespace Sporos.Lib.PrefixOrder

/-- Neither list begins the other. -/
def Apart {α : Type*} (a b : List α) : Prop := ¬a <+: b ∧ ¬b <+: a

theorem Apart.symm {α : Type*} {a b : List α} (h : Apart a b) : Apart b a := ⟨h.2, h.1⟩

theorem isChain_of_pairwise {α : Type*} {l : List (List α)} (h : l.Pairwise Apart) :
    l.IsChain fun a b => ¬a <+: b :=
  (h.imp And.left).isChain

section

variable {α : Type*} [LT α] [LE α] [Std.IsLinearOrder α] [Std.LawfulOrderLT α]

/-- What stands between a list and one that it begins is begun by it. -/
theorem isPrefix_of_between : ∀ {a b c : List α}, a ≤ b → b ≤ c → a <+: c → a <+: b
  | [], b, _, _, _, _ => List.nil_prefix
  | x :: a, [], _, hab, _, _ => absurd hab (by simp)
  | x :: a, y :: b, [], _, _, hprefix => absurd (List.prefix_nil.mp hprefix) (by simp)
  | x :: a, y :: b, z :: c, hab, hbc, hprefix => by
    obtain ⟨rfl, hprefix'⟩ := List.cons_prefix_cons.mp hprefix
    rcases List.cons_le_cons_iff.mp hab with hlt | ⟨rfl, hab'⟩
    · rcases List.cons_le_cons_iff.mp hbc with hlt' | ⟨rfl, -⟩
      · exact absurd hlt (Std.Asymm.asymm _ _ hlt')
      · exact absurd hlt (Std.Irrefl.irrefl _)
    · rcases List.cons_le_cons_iff.mp hbc with hlt | ⟨-, hbc⟩
      · exact absurd hlt (Std.Irrefl.irrefl _)
      · exact List.cons_prefix_cons.mpr ⟨rfl, isPrefix_of_between hab' hbc hprefix'⟩

/-- Of two lists in order, the later one begins the earlier one only if they are one. -/
theorem isPrefix_of_le {a b : List α} (hle : a ≤ b) (h : b <+: a) : a <+: b := by
  have heq : a = b := List.le_antisymm hle h.le
  exact heq ▸ List.prefix_rfl

/-- **No entry begins the next one, so none begins another one.** -/
theorem pairwise_of_isChain : ∀ {l : List (List α)}, l.Pairwise (· ≤ ·) →
    l.IsChain (fun a b => ¬a <+: b) →
    l.Pairwise Apart
  | [], _, _ => .nil
  | [a], _, _ => List.pairwise_singleton _ _
  | a :: b :: l, hsorted, hchain => by
    obtain ⟨hle, hsorted⟩ := List.pairwise_cons.mp hsorted
    obtain ⟨hne, hchain⟩ := List.isChain_cons_cons.mp hchain
    refine List.pairwise_cons.mpr ⟨fun c hc => ?_, pairwise_of_isChain hsorted hchain⟩
    have hbc : b ≤ c := by
      rcases List.mem_cons.mp hc with rfl | hmem
      · exact List.le_refl _
      · exact (List.pairwise_cons.mp hsorted).1 c hmem
    have hac : ¬a <+: c := fun h => hne (isPrefix_of_between (hle b (by simp)) hbc h)
    exact ⟨hac, fun h => hac (isPrefix_of_le (hle c hc) h)⟩

/-- **Comparing the neighbours of the sorted list decides it for all pairs.** -/
theorem isChain_insertionSort_iff [DecidableRel fun a b : List α => a ≤ b] (l : List (List α)) :
    (l.insertionSort (· ≤ ·)).IsChain (fun a b => ¬a <+: b) ↔ l.Pairwise Apart := by
  have htotal : Std.Total fun a b : List α => a ≤ b := ⟨List.le_total⟩
  have htrans : IsTrans (List α) (· ≤ ·) := ⟨fun _ _ _ => List.le_trans⟩
  rw [← (l.perm_insertionSort (· ≤ ·)).pairwise_iff Apart.symm]
  exact ⟨pairwise_of_isChain (l.pairwise_insertionSort (· ≤ ·)), isChain_of_pairwise⟩

end

end Sporos.Lib.PrefixOrder
