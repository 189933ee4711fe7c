import Mathlib.Tactic
import Mathlib.Logic.Relation
import Mathlib.Data.List.Basic

/-! # Breadth-first search

The queue loop of a breadth-first search over an arbitrary type of nodes, with a `seen` table that
outlives the search. Searches that start from an unseen node, one after the other, each visit the
nodes reachable from their start (`search_spec`), if the graph is undirected and the table was
closed when they started. -/

namespace Sporos.Lib.Search

open Function (update)

section

variable {α β : Type*} (neighbours : α → List α)

/-- One edge of the graph. -/
def Adj (x y : α) : Prop := y ∈ neighbours x

/-- The nodes a path leads to. -/
def Reach : α → α → Prop := Relation.ReflTransGen (Adj neighbours)

/-- A table with the neighbours of all its nodes. -/
def Closed (seen : α → Bool) : Prop := ∀ x, seen x = true → ∀ y ∈ neighbours x, seen y = true

/-- A map of graphs carries paths to paths. -/
theorem Reach.map {neighbours : α → List α} {neighbours' : β → List β} {f : α → β}
    (hf : ∀ x, ∀ y ∈ neighbours x, f y ∈ neighbours' (f x)) {x y : α}
    (h : Reach neighbours x y) : Reach neighbours' (f x) (f y) := by
  induction h with
  | refl => exact .refl
  | tail _ hxy ih => exact ih.tail (hf _ _ hxy)

end

section

variable {α : Type*} [DecidableEq α] (neighbours : α → List α)

/-- Queue a node that has not been seen. -/
def push (s : (α → Bool) × List α) (y : α) : (α → Bool) × List α :=
  if s.1 y then s else (update s.1 y true, s.2 ++ [y])

/-- The loop over the queue: the nodes visited, in order, and the table. -/
def search : ℕ → List α → (α → Bool) → List α → List α × (α → Bool)
  | 0, _, seen, visited => (visited, seen)
  | _ + 1, [], seen, visited => (visited, seen)
  | fuel + 1, x :: queue, seen, visited =>
    let s := (neighbours x).foldl push (seen, queue)
    search fuel s.2 s.1 (visited ++ [x])

/-- The search from one node. -/
def searchFrom (fuel : ℕ) (start : α) (seen : α → Bool) : List α × (α → Bool) :=
  search neighbours fuel [start] (update seen start true) []

end

section

variable {α : Type*} [DecidableEq α]

/-- What the loop over the neighbours adds to the queue and to the table. -/
theorem foldl_push (l : List α) (s : (α → Bool) × List α) :
    ∃ new : List α, (l.foldl push s).2 = s.2 ++ new ∧ new.Nodup ∧
      (∀ y ∈ new, y ∈ l ∧ s.1 y = false) ∧ (∀ y ∈ l, (l.foldl push s).1 y = true) ∧
      ∀ y, (l.foldl push s).1 y = true ↔ s.1 y = true ∨ y ∈ new := by
  induction l generalizing s with
  | nil => exact ⟨[], by simp⟩
  | cons x l ih =>
    obtain ⟨new, hqueue, hnodup, hnew, hall, hseen⟩ := ih (push s x)
    by_cases hx : s.1 x = true
    · have hpush : push s x = s := by simp [push, hx]
      rw [hpush] at hqueue hnew hseen hall
      rw [List.foldl_cons, hpush]
      refine ⟨new, hqueue, hnodup, fun y hy => ?_, fun y hy => ?_, hseen⟩
      · exact ⟨List.mem_cons_of_mem _ (hnew y hy).1, (hnew y hy).2⟩
      · rcases List.mem_cons.mp hy with rfl | hy
        · exact (hseen y).mpr (.inl hx)
        · exact hall y hy
    · have hpush : push s x = (update s.1 x true, s.2 ++ [x]) := by simp [push, hx]
      rw [hpush] at hqueue hnew hseen hall
      rw [List.foldl_cons, hpush]
      refine ⟨x :: new, by simpa using hqueue, ?_, fun y hy => ?_, fun y hy => ?_, fun y => ?_⟩
      · refine List.nodup_cons.mpr ⟨fun h => ?_, hnodup⟩
        simpa using (hnew x h).2
      · rcases List.mem_cons.mp hy with rfl | hy
        · exact ⟨by simp, by simpa using hx⟩
        · obtain ⟨hl, hs⟩ := hnew y hy
          have hne : y ≠ x := by rintro rfl; simp at hs
          exact ⟨List.mem_cons_of_mem _ hl, by simpa [hne] using hs⟩
      · rcases List.mem_cons.mp hy with rfl | hy
        · exact (hseen y).mpr (.inl (by simp))
        · exact hall y hy
      · rw [hseen, List.mem_cons]
        by_cases hyx : y = x
        · simp [hyx]
        · simp [hyx]

variable {neighbours : α → List α} {start : α} {before : α → Bool}

/-- The state of the loop: what has been seen is visited, queued, or was seen before. -/
structure Searching (neighbours : α → List α) (start : α) (before : α → Bool)
    (queue : List α) (seen : α → Bool) (visited : List α) : Prop where
  seen_iff : ∀ y, seen y = true ↔ before y = true ∨ y ∈ visited ++ queue
  nodup : (visited ++ queue).Nodup
  fresh : ∀ y ∈ visited ++ queue, before y = false
  reach : ∀ y ∈ visited ++ queue, Reach neighbours start y
  done : ∀ x ∈ visited, ∀ y ∈ neighbours x, seen y = true
  start : start ∈ visited ++ queue

theorem searching_start (neighbours : α → List α) (h : before start = false) :
    Searching neighbours start before [start] (update before start true) [] := by
  refine ⟨fun y => ?_, by simp, by simpa using h, by simp [Reach, Relation.ReflTransGen.refl],
    by simp, by simp⟩
  by_cases hy : y = start <;> simp [hy]

theorem Searching.step {x : α} {queue visited : List α} {seen : α → Bool}
    (h : Searching neighbours start before (x :: queue) seen visited) :
    Searching neighbours start before ((neighbours x).foldl push (seen, queue)).2
      ((neighbours x).foldl push (seen, queue)).1 (visited ++ [x]) := by
  obtain ⟨new, hqueue, hnodup, hnew, hall, hseen⟩ := foldl_push (neighbours x) (seen, queue)
  have happend : visited ++ [x] ++ ((neighbours x).foldl push (seen, queue)).2 =
      (visited ++ x :: queue) ++ new := by rw [hqueue]; simp
  have hfresh : ∀ y ∈ new, before y = false ∧ y ∉ visited ++ x :: queue := by
    intro y hy
    have hs : ¬seen y = true := by simpa using (hnew y hy).2
    rw [h.seen_iff] at hs
    push Not at hs
    exact ⟨by simpa using hs.1, hs.2⟩
  have hmem : ∀ y, y ∈ visited ++ [x] ++ ((neighbours x).foldl push (seen, queue)).2 ↔
      y ∈ visited ++ x :: queue ∨ y ∈ new := fun y => by rw [happend, List.mem_append]
  refine ⟨fun y => ?_, ?_, fun y hy => ?_, fun y hy => ?_, fun z hz y hy => ?_, ?_⟩
  · rw [hseen, hmem, h.seen_iff, or_assoc]
  · rw [happend]
    exact h.nodup.append hnodup fun y hy hy' => (hfresh y hy').2 hy
  · rcases (hmem y).mp hy with hy | hy
    · exact h.fresh y hy
    · exact (hfresh y hy).1
  · rcases (hmem y).mp hy with hy | hy
    · exact h.reach y hy
    · exact (h.reach x (by simp)).tail (hnew y hy).1
  · rcases List.mem_append.mp hz with hz | hz
    · exact (hseen y).mpr (.inl (h.done z hz y hy))
    · rw [List.mem_singleton.mp hz] at hy
      exact hall y hy
  · exact (hmem _).mpr (.inl h.start)

omit [DecidableEq α] in
/-- What is visited and queued is among the nodes. -/
theorem Searching.length_le {queue visited nodes : List α} {seen : α → Bool}
    (h : Searching neighbours start before queue seen visited)
    (hnodes : ∀ y, Reach neighbours start y → y ∈ nodes) :
      visited.length + queue.length ≤ nodes.length := by
  have hsub : (visited ++ queue) ⊆ nodes := fun y hy => hnodes y (h.reach y hy)
  have := (h.nodup.subperm hsub).length_le
  rwa [List.length_append] at this

/-- The loop runs to an empty queue when the fuel exceeds the number of nodes left. -/
theorem Searching.run {nodes : List α} (hnodes : ∀ y, Reach neighbours start y → y ∈ nodes) :
    ∀ (fuel : ℕ) (queue : List α) (seen : α → Bool) (visited : List α),
      Searching neighbours start before queue seen visited →
      nodes.length < fuel + visited.length →
      Searching neighbours start before [] (search neighbours fuel queue seen visited).2
        (search neighbours fuel queue seen visited).1
  | 0, queue, seen, visited, h, hfuel => by
    have := h.length_le hnodes
    omega
  | fuel + 1, [], seen, visited, h, hfuel => h
  | fuel + 1, x :: queue, seen, visited, h, hfuel => by
    refine Searching.run hnodes fuel _ _ _ h.step ?_
    simp only [List.length_append, List.length_singleton]
    omega

/-- **A search** from an unseen node visits the nodes reachable from it, each once, and adds them to
the table, which stays closed. -/
theorem searchFrom_spec {nodes : List α} {fuel : ℕ}
    (symm : ∀ x y, y ∈ neighbours x → x ∈ neighbours y)
    (hnodes : ∀ y, Reach neighbours start y → y ∈ nodes) (hfuel : nodes.length < fuel)
    (hclosed : Closed neighbours before) (hstart : before start = false) :
    (searchFrom neighbours fuel start before).1.Nodup ∧
      (∀ y, y ∈ (searchFrom neighbours fuel start before).1 ↔ Reach neighbours start y) ∧
      (∀ y, (searchFrom neighbours fuel start before).2 y = true ↔
        before y = true ∨ Reach neighbours start y) ∧
      Closed neighbours (searchFrom neighbours fuel start before).2 := by
  have h := Searching.run hnodes fuel _ _ _ (searching_start neighbours hstart)
    (by simpa using hfuel)
  change Searching neighbours start before [] (searchFrom neighbours fuel start before).2
    (searchFrom neighbours fuel start before).1 at h
  generalize searchFrom neighbours fuel start before = r at h
  obtain ⟨visited, seen⟩ := r
  simp only at h ⊢
  have hseen : ∀ y, seen y = true ↔ before y = true ∨ y ∈ visited := by simpa using h.seen_iff
  have hclosed' : Closed neighbours seen := by
    intro x hx y hy
    rcases (hseen x).mp hx with hb | hv
    · exact (hseen y).mpr (.inl (hclosed x hb y hy))
    · exact h.done x hv y hy
  have hreach : ∀ y, y ∈ visited ↔ Reach neighbours start y := by
    refine fun y => ⟨fun hy => h.reach y (by simpa using hy), fun hy => ?_⟩
    induction hy with
    | refl => simpa using h.start
    | @tail x z _ hxz ih =>
      rcases (hseen z).mp (h.done x ih z hxz) with hb | hv
      · have := hclosed z hb x (symm x z hxz)
        rw [h.fresh x (by simpa using ih)] at this
        cases this
      · exact hv
  refine ⟨by simpa using h.nodup, hreach, fun y => ?_, hclosed'⟩
  rw [hseen, hreach]

end

end Sporos.Lib.Search
