import Sporos.Matcher.CheckedHungarian
import Sporos.Matcher.Heaviest

/-! # The assignment on machine numbers

`assign_with` of `matcher.rs`, with the vectors of the source and with `u64`, `u128` and `i128`
numbers: every sum and product, every index, every `expect` and the assertion on the weights are
checked. The limits of the configuration and a candidate whose size is a `u64` keep the weights
below `2^107` (`edgeWeight_eq`), so that nothing fails and the checked assignment is `assignWith`.
-/

namespace Sporos.Matcher.CheckedAssign

open Function (update)
open Sporos.Model.Matching
open Sporos.Matcher.Files
open Sporos.Matcher.Assign
open Sporos.Matcher.CheckedHungarian (hungarian)
open Sporos.Lib.Checked
open Sporos.Lib.Loop (mapM_eq_ok)

/-! ### Edges -/

/-- The edges of each candidate, the candidates of each source, and the number of edges. -/
structure Graph where
  edges : Edges
  reverse : List (List ℕ)
  count : ℕ

section

variable (policy : MatchingPolicy) (sources : List SourceFile)
variable (score : TorrentFile → LocalSourceFile → Option ℕ)

/-- Add the edge to one source, if there is one. -/
def pushEdge (candidateIndex : ℕ) (candidate : TorrentFile) (g : Graph) (index : ℕ) :
    Except Fault (Except AssignmentError Graph) := do
  let source ← getAt sources index
  match score candidate source.2 with
  | none => return .ok g
  | some value =>
    if g.count + 1 > policy.maxCandidateEdges then return .error .budgetExceeded
    else
      let row ← getAt g.edges candidateIndex
      let edges ← setAt g.edges candidateIndex (row ++ [(index, value)])
      let back ← getAt g.reverse index
      let reverse ← setAt g.reverse index (back ++ [candidateIndex])
      return .ok ⟨edges, reverse, g.count + 1⟩

/-- Add the edges of one candidate. -/
def pushCandidate (g : Graph) (candidate : TorrentFile × ℕ) :
    Except Fault (Except AssignmentError Graph) :=
  foldStop (pushEdge policy sources score candidate.2 candidate.1)
    (candidateBucket policy sources candidate.1) g

/-- The edges of all candidate files within the budget, with the reverse edges. -/
def collectEdges (candidates : List TorrentFile) : Except Fault (Except AssignmentError Graph) :=
  foldStop (pushCandidate policy sources score) candidates.zipIdx
    ⟨List.replicate candidates.length [], List.replicate sources.length [], 0⟩

end

/-! ### Components -/

/-- `candidate_seen` and `source_seen`. -/
structure Seen where
  candidates : List Bool
  sources : List Bool

/-- Whether a node has been seen. -/
def Seen.get (seen : Seen) : Node → Except Fault Bool
  | (true, index) => getAt seen.candidates index
  | (false, index) => getAt seen.sources index

/-- The node has been seen. -/
def Seen.mark (seen : Seen) : Node → Except Fault Seen
  | (true, index) => do return { seen with candidates := ← setAt seen.candidates index true }
  | (false, index) => do return { seen with sources := ← setAt seen.sources index true }

section

variable (edges : Edges) (reverse : List (List ℕ))

/-- The nodes next to a node, where the indices are checked. -/
def neighbours : Node → Except Fault (List Node)
  | (true, candidate) => do return (← getAt edges candidate).map fun edge => (false, edge.1)
  | (false, source) => do return (← getAt reverse source).map fun candidate => (true, candidate)

/-- Queue a node that has not been seen. -/
def push (s : Seen × List Node) (y : Node) : Except Fault (Seen × List Node) := do
  if ← s.1.get y then return s else return (← s.1.mark y, s.2 ++ [y])

/-- The loop over the queue. -/
def search : ℕ → List Node → Seen → List Node → Except Fault (List Node × Seen)
  | 0, _, _, _ => .error .diverged
  | _ + 1, [], seen, visited => .ok (visited, seen)
  | fuel + 1, x :: queue, seen, visited => do
    let s ← (← neighbours edges reverse x).foldlM push (seen, queue)
    search fuel s.2 s.1 (visited ++ [x])

/-- The candidates and the sources of the component of `start`, and what has been seen. -/
def component (start : ℕ) (seen : Seen) : Except Fault ((List ℕ × List ℕ) × Seen) := do
  let seen ← seen.mark (true, start)
  let found ← search edges reverse (edges.length + reverse.length + 1) [(true, start)] seen []
  return ((side true found.1, side false found.1), found.2)

end

/-! ### The optimal assignment of a component -/

section

variable (weights : Weights) (banned : Option (ℕ × ℕ))

/-- The largest weight. -/
def maximum : ℕ :=
  weights.zipIdx.foldl (fun acc values => values.1.zipIdx.foldl (fun acc weight =>
    if banned ≠ some (values.2, weight.2) then max acc (weight.1.getD 0) else acc) acc) 0

/-- The cost of a weight. -/
def costOf (weight : ℕ) : Except Fault ℤ := do
  let cost ← expect (if (weight : ℤ) ≤ i128Max then some (weight : ℤ) else none)
  i128 (-cost)

/-- The cost of one pair goes into the matrix, unless the pair is banned. -/
def setCost (row : ℕ) (costs : List (List ℤ)) (column : ℕ) : Except Fault (List (List ℤ)) := do
  if banned ≠ some (row, column) then
    let weight ← getAt (← getAt weights row) column
    setAt₂ costs row column (← costOf (weight.getD 0))
  else return costs

/-- The matrix for the algorithm. -/
def costs : Except Fault (List (List ℤ)) :=
  let sourceColumns := (weights.headD []).length
  let columns := sourceColumns + weights.length
  (List.range weights.length).foldlM
    (fun costs row => (List.range sourceColumns).foldlM (setCost weights banned row) costs)
    (List.replicate weights.length (List.replicate columns 0))

/-- The pair of a column that stands for a source file, if there is an edge. -/
def selectPair (assigned : ℕ × ℕ) : Except Fault (Option (ℕ × ℕ)) := do
  if assigned.2 < (weights.headD []).length ∧ banned ≠ some assigned then
    let weight ← getAt (← getAt weights assigned.1) assigned.2
    return if weight.isSome then some assigned else none
  else return none

/-- `optimal_assignment`. -/
def optimalAssignment : Except Fault (ℕ × List (ℕ × ℕ)) := do
  if weights.length = 0 then return (0, [])
  else
    assert ((maximum weights banned : ℤ) ≤ i128Max)
    let assignment ← hungarian (← costs weights banned)
    let selected ← (assignment.zipIdx.map Prod.swap).mapM (selectPair weights banned)
    let pairs := selected.filterMap id
    let values ← pairs.mapM fun pair => do expect (← getAt (← getAt weights pair.1) pair.2)
    return (← sum u128 values, pairs)

end

/-! ### The assignment -/

/-- `score_unit` and `required_unit`. -/
structure Units where
  score : ℕ
  required : ℕ

/-- The loop over the components. -/
structure Loop where
  seen : Seen
  pairs : List (ℕ × ℕ × ℕ)
  operations : ℕ

section

variable (policy : MatchingPolicy) (candidates : List TorrentFile)

/-- The units of the weights. -/
def unitsOf (edges : Edges) : Except Fault Units := do
  let scores ← sum u64 (edges.flatten.map Prod.snd)
  let score ← u128 (scores + 1)
  let primaryBytes ← sum u128 ((candidates.filter (primary policy)).map TorrentFile.size)
  let required ← u128 ((← u128 (primaryBytes + 1)) * score)
  return ⟨score, required⟩

section

variable (edges : Edges) (units : Units)

/-- The weight of an edge of a candidate. -/
def edgeWeight (candidate : TorrentFile) (value : ℕ) : Except Fault ℕ := do
  let bytes ← if primary policy candidate then u128 (candidate.size * units.score) else pure 0
  let weight ← u128 (value + bytes)
  u128 (weight + if required policy candidate then units.required else 0)

/-- Enter an edge in `raw` and `weights`. The sources of a component are distinct, so that
`source_positions` has the only position of each. -/
def fillEdge (componentSources : List ℕ) (candidate row : ℕ) (acc : Weights × Weights)
    (edge : ℕ × ℕ) : Except Fault (Weights × Weights) := do
  let column ← expect (componentSources.idxOf? edge.1)
  let raw ← setAt₂ acc.1 row column (some edge.2)
  let weight ← edgeWeight policy units (← getAt candidates candidate) edge.2
  let weights ← setAt₂ acc.2 row column (some weight)
  return (raw, weights)

/-- The scores and the weights of a component. -/
def tables (component : List ℕ × List ℕ) : Except Fault (Weights × Weights) :=
  let empty := List.replicate component.1.length (List.replicate component.2.length none)
  component.1.zipIdx.foldlM (fun acc candidate => do
    (← getAt edges candidate.1).foldlM
      (fillEdge policy candidates units component.2 candidate.1 candidate.2) acc) (empty, empty)

/-- A pair of a component, by the numbers of its files in the whole graph. -/
def pairOf (component : List ℕ × List ℕ) (raw : Weights) (pair : ℕ × ℕ) :
    Except Fault (ℕ × ℕ × ℕ) := do
  let candidate ← getAt component.1 pair.1
  let source ← getAt component.2 pair.2
  let value ← expect (← getAt (← getAt raw pair.1) pair.2)
  return (candidate, source, value)

/-- The pairs of a component, unless one of them can be replaced without loss. -/
def assignComponent (component : List ℕ × List ℕ) :
    Except Fault (Except Stop (List (ℕ × ℕ × ℕ))) := do
  let filled ← tables policy candidates edges units component
  let best ← optimalAssignment filled.2 none
  if ← best.2.anyM (fun pair => do return (← optimalAssignment filled.2 (some pair)).1 = best.1)
      then
    return .error .ambiguous
  else return .ok (← best.2.mapM (pairOf component filled.1))

/-- The operations counted for a component. -/
def componentOperations (component : List ℕ × List ℕ) : Except Fault ℕ := do
  let rows := component.1.length
  let columns := component.2.length + component.1.length
  let alternatives ← u128 (min component.1.length component.2.length + 1)
  u128 ((← u128 ((← u128 (alternatives * rows)) * rows)) * columns)

/-- The body of the loop over the candidate files. -/
def visit (reverse : List (List ℕ)) (s : Loop) (start : ℕ) : Except Fault (Except Stop Loop) := do
  if ← getAt s.seen.candidates start then return .ok s
  else if (← getAt edges start).isEmpty then return .ok s
  else
    let found ← component edges reverse start s.seen
    let files := found.1.1.length + found.1.2.length
    if files > policy.maxAssignmentComponentFiles || files > policy.maxAssignmentFiles then
      return .error .budgetExceeded
    else
      let operations := saturatingAdd s.operations (← componentOperations found.1)
      if operations > policy.maxAssignmentOperations then return .error .budgetExceeded
      else return (← assignComponent policy candidates edges units found.1).map fun pairs =>
        ⟨found.2, s.pairs ++ pairs, operations⟩

end

variable (sources : List SourceFile) (score : TorrentFile → LocalSourceFile → Option ℕ)

/-- **`assign_with`.** -/
def assignWith : Except Fault (Except AssignmentError Assignment) := do
  if candidates.length > policy.maxAssignmentFiles
      ∨ sources.length > policy.maxAssignmentFiles - candidates.length
        then return .error .budgetExceeded
  else match ← collectEdges policy sources score candidates with
    | .error e => return .error e
    | .ok g => do
      let units ← unitsOf policy candidates g.edges
      let seen := ⟨List.replicate candidates.length false, List.replicate sources.length false⟩
      match ← foldStop (visit policy candidates g.edges units g.reverse)
        (List.range candidates.length)
          ⟨seen, [], 0⟩ with
      | .ok s => return .ok ⟨s.pairs, false⟩
      | .error .ambiguous => return .ok ⟨[], true⟩
      | .error .budgetExceeded => return .error .budgetExceeded

end

/-! ### The edges collected -/

section

variable {policy : MatchingPolicy} {sources : List SourceFile}
variable {score : TorrentFile → LocalSourceFile → Option ℕ}

/-- The tables that hold the edges of the first candidates. -/
def graphOf (n sourceCount : ℕ) (edges : Edges) (count : ℕ) : Graph where
  edges := edges ++ List.replicate (n - edges.length) []
  reverse := vec sourceCount (reverse edges)
  count

theorem reverse_append (edges : Edges) (row : List (ℕ × ℕ)) (source : ℕ) :
    reverse (edges ++ [row]) source =
      reverse edges source ++ if row.any (·.1 = source) then [edges.length] else [] := by
  unfold reverse
  rw [List.length_append, List.length_singleton, List.range_succ, List.filter_append]
  congr 1
  · refine List.filter_congr fun c hc => ?_
    rw [List.getD_append _ _ _ _ (List.mem_range.mp hc)]
  · rw [List.filter_singleton, List.getD_append_right _ _ _ _ le_rfl]
    simp

/-- A new edge of the last candidate. -/
theorem reverse_push {edges : Edges} {row : List (ℕ × ℕ)} {index : ℕ} (value : ℕ)
    (h : ∀ edge ∈ row, edge.1 ≠ index) :
    update (reverse (edges ++ [row])) index (reverse (edges ++ [row]) index ++ [edges.length]) =
      reverse (edges ++ [row ++ [(index, value)]]) := by
  have hnot : row.any (·.1 = index) = false := by simpa using h
  funext source
  by_cases hs : source = index
  · subst hs
    rw [Function.update_self, reverse_append, reverse_append, hnot]
    simp
  · have hne : index ≠ source := Ne.symm hs
    rw [Function.update_of_ne hs, reverse_append, reverse_append, List.any_append, List.any_cons,
      List.any_nil, decide_eq_false hne, Bool.or_false, Bool.or_false]

theorem pushEdge_eq {n : ℕ} {edges : Edges} (candidate : TorrentFile) {row : List (ℕ × ℕ)}
    {count index : ℕ} (hindex : index < sources.length)
    (hrow : ∀ edge ∈ row, edge.1 ≠ index) :
    pushEdge policy sources score edges.length candidate
        (graphOf n sources.length (edges ++ [row]) count) index =
      .ok ((Assign.pushEdge policy sources score candidate (row, count) index).map fun t =>
        graphOf n sources.length (edges ++ [t.1]) t.2) := by
  unfold pushEdge Assign.pushEdge scoreAt
  rw [getAt_eq (List.getElem?_eq_getElem hindex), ok_bind, List.getElem?_eq_getElem hindex,
    Option.bind_some]
  cases score candidate sources[index].2 with
  | none => rfl
  | some value =>
    simp only
    have hpad : ∀ row : List (ℕ × ℕ), n - (edges ++ [row]).length = n - (edges.length + 1) := by
      simp
    have hget : getAt (graphOf n sources.length (edges ++ [row]) count).edges edges.length =
        .ok row :=
      getAt_eq (by simp [graphOf])
    have hset : setAt (graphOf n sources.length (edges ++ [row]) count).edges edges.length
        (row ++ [(index, value)]) =
          .ok (edges ++ [row ++ [(index, value)]]
            ++ List.replicate (n - (edges.length + 1)) []) := by
      unfold setAt graphOf
      rw [hpad, if_pos (by simp)]
      simp
    have hback := getAt_vec (reverse (edges ++ [row])) hindex
    have hreverse := setAt_vec (reverse (edges ++ [row]))
      (reverse (edges ++ [row]) index ++ [edges.length]) hindex
    rw [reverse_push value hrow] at hreverse
    change (if count + 1 > _ then _ else _) = _
    split_ifs with hcount
    · rfl
    · rw [hget, ok_bind, hset, ok_bind,
        show (graphOf n sources.length (edges ++ [row]) count).reverse =
        vec sources.length (reverse (edges ++ [row])) from rfl, hback, ok_bind, hreverse, ok_bind]
      simp only [Except.map, graphOf, hpad]
      rfl

theorem pushCandidate_eq {n : ℕ} {edges : Edges} {count : ℕ} (hn : edges.length < n)
    (candidate : TorrentFile) :
    pushCandidate policy sources score (graphOf n sources.length edges count) (candidate,
      edges.length) =
      .ok ((Assign.pushCandidate policy sources score (edges, count) candidate).map fun t =>
        graphOf n sources.length t.1 t.2) := by
  have hstart : graphOf n sources.length edges count =
      graphOf n sources.length (edges ++ [[]]) count := by
    have hpad : n - edges.length = n - (edges.length + 1) + 1 := by omega
    unfold graphOf
    congr 1
    · rw [hpad, List.replicate_succ]
      simp
    · refine vec_congr fun i _ => ?_
      rw [reverse_append]
      simp
  have hloop := foldStop_eq (f := pushEdge policy sources score edges.length candidate)
    (g := Assign.pushEdge policy sources score candidate)
    (fun t => graphOf n sources.length (edges ++ [t.1]) t.2)
    (fun done t => ∀ edge ∈ t.1, edge.1 ∈ done) (l := candidateBucket policy sources candidate)
    (fun before index after t hl hP => by
      have hmem : index ∈ candidateBucket policy sources candidate := by rw [hl]; simp
      have hnodup : (before ++ index :: after).Nodup := hl ▸ Heaviest.nodup_sourceBucket
      have hnot : index ∉ before :=
        fun h => (List.nodup_append.mp hnodup).2.2 index h index (by simp) rfl
      obtain ⟨source, hsource, -⟩ := Heaviest.mem_sourceBucket.mp hmem
      refine ⟨pushEdge_eq candidate (List.getElem?_eq_some_iff.mp hsource).1
        fun edge he heq => hnot (heq ▸ hP edge he), fun t' ht' => ?_⟩
      unfold Assign.pushEdge at ht'
      split at ht'
      · obtain rfl := Except.ok.inj ht'
        exact fun edge he => List.mem_append_left _ (hP edge he)
      · split_ifs at ht'
        obtain rfl := Except.ok.inj ht'
        intro edge he
        rcases List.mem_append.mp he with he | he
        · exact List.mem_append_left _ (hP edge he)
        · rw [List.mem_singleton.mp he]
          simp)
    (candidateBucket policy sources candidate) [] ([], count) (by simp) (by simp)
  unfold pushCandidate Assign.pushCandidate
  rw [hstart]
  refine hloop.trans (congrArg _ ?_)
  cases (candidateBucket policy sources candidate).foldlM
    (Assign.pushEdge policy sources score candidate)
    ([], count) <;> rfl

/-- **The edges** are those of `collectEdges`, with the candidates of each source. -/
theorem collectEdges_eq (candidates : List TorrentFile) :
    collectEdges policy sources score candidates =
      .ok (if ((Heaviest.allEdges policy candidates sources score).map List.length).sum >
          policy.maxCandidateEdges then .error .budgetExceeded
        else .ok ⟨Heaviest.allEdges policy candidates sources score,
          vec sources.length (reverse (Heaviest.allEdges policy candidates sources score)),
          ((Heaviest.allEdges policy candidates sources score).map List.length).sum⟩) := by
  have hloop := foldStop_eq (f := pushCandidate policy sources score)
    (g := fun t x => Assign.pushCandidate policy sources score t x.1)
    (fun t => graphOf candidates.length sources.length t.1 t.2)
    (fun done t => t.1.length = done.length) (l := candidates.zipIdx)
    (fun before x after t hl hP => by
      have hlen := congrArg List.length hl
      simp only [List.length_zipIdx, List.length_append, List.length_cons] at hlen
      have hx : x.2 = t.1.length := by
        have hget := congrArg (·[before.length]?) hl
        simp only [List.getElem?_append_right le_rfl, Nat.sub_self, List.getElem?_cons_zero,
          List.getElem?_zipIdx, Nat.zero_add] at hget
        obtain ⟨candidate, -, rfl⟩ := Option.map_eq_some_iff.mp hget
        exact hP.symm
      refine ⟨?_, fun t' ht' => ?_⟩
      · have := @pushCandidate_eq policy sources score candidates.length t.1 t.2 (by omega) x.1
        rwa [← hx] at this
      · unfold Assign.pushCandidate at ht'
        obtain ⟨row, -, rfl⟩ := Lib.Loop.map_eq_ok ht'
        simp [hP])
    candidates.zipIdx [] ([], 0) (by simp) rfl
  have hmodel : candidates.zipIdx.foldlM (fun t x =>
    Assign.pushCandidate policy sources score t x.1) ([], 0) =
      candidates.foldlM (Assign.pushCandidate policy sources score) ([], 0) := by
    conv_rhs => rw [← List.zipIdx_map_fst 0 candidates, List.foldlM_map]
  have hstart : graphOf candidates.length sources.length [] 0 =
      ⟨List.replicate candidates.length [], List.replicate sources.length [], 0⟩ := by
    unfold graphOf
    rw [replicate_eq_vec sources.length]
    rfl
  rw [hmodel, Heaviest.foldlM_pushCandidate _ _ (Nat.zero_le _)] at hloop
  unfold collectEdges
  rw [← hstart]
  refine hloop.trans (congrArg _ ?_)
  simp only [Nat.zero_add, List.nil_append]
  change Except.map _ (if ((Heaviest.allEdges policy candidates sources score).map
      List.length).sum > _ then
    _ else .ok (Heaviest.allEdges policy candidates sources score, _)) = _
  split_ifs with hbudget
  · rfl
  · simp only [Except.map, graphOf, Heaviest.length_allEdges, Nat.sub_self, List.replicate_zero,
      List.append_nil]
    rfl

end

/-! ### The components found -/

section

variable {edges : Edges} {sourceCount : ℕ} {seen : Node → Bool}

/-- The tables of what has been seen. -/
def ofSeen (n sourceCount : ℕ) (seen : Node → Bool) : Seen where
  candidates := vec n fun index => seen (true, index)
  sources := vec sourceCount fun index => seen (false, index)

theorem mem_allNodes {side : Bool} {index : ℕ} :
    (side, index) ∈ Heaviest.allNodes edges sourceCount ↔
    index < if side then edges.length else sourceCount := by
  cases side <;> simp [Heaviest.allNodes]

theorem get_ofSeen {y : Node} (hy : y ∈ Heaviest.allNodes edges sourceCount) :
    (ofSeen edges.length sourceCount seen).get y = .ok (seen y) := by
  obtain ⟨side, index⟩ := y
  have hindex := mem_allNodes.mp hy
  cases side with
  | true => exact getAt_vec (fun index => seen (true, index)) hindex
  | false => exact getAt_vec (fun index => seen (false, index)) hindex

theorem mark_ofSeen {y : Node} (hy : y ∈ Heaviest.allNodes edges sourceCount) :
    (ofSeen edges.length sourceCount seen).mark y =
      .ok (ofSeen edges.length sourceCount (update seen y true)) := by
  obtain ⟨side, index⟩ := y
  have hindex := mem_allNodes.mp hy
  have hsame : update (fun index => seen (side, index)) index true =
      fun i => update seen (side, index) true (side, i) := by
    funext i
    by_cases hi : i = index <;> simp [hi]
  have hother : ∀ other, other ≠ side →
      (fun i => seen (other, i)) = fun i => update seen (side, index) true (other, i) := by
    intro other hne
    funext i
    rw [Function.update_of_ne fun he => hne (congrArg Prod.fst he)]
  have hset := fun n => setAt_vec (n := n) (fun index => seen (side, index)) true (i := index)
  rw [hsame] at hset
  cases side with
  | true =>
    simp only [Seen.mark, ofSeen, hset edges.length hindex, ok_bind, hother false (by simp)]
    rfl
  | false =>
    simp only [Seen.mark, ofSeen, hset sourceCount hindex, ok_bind, hother true (by simp)]
    rfl

theorem neighbours_eq {x : Node} (hx : x ∈ Heaviest.allNodes edges sourceCount) :
    neighbours edges (vec sourceCount (reverse edges)) x = .ok (Assign.neighbours edges x) := by
  obtain ⟨side, index⟩ := x
  have hindex := mem_allNodes.mp hx
  cases side with
  | true =>
    have hlt : index < edges.length := hindex
    simp only [neighbours, Assign.neighbours, getAt_eq (List.getElem?_eq_getElem hlt), ok_bind,
      List.getD_eq_getElem _ _ hlt]
    rfl
  | false =>
    have hlt : index < sourceCount := hindex
    simp only [neighbours, Assign.neighbours, getAt_vec _ hlt, ok_bind]
    rfl

theorem push_eq {y : Node} {queue : List Node} (hy : y ∈ Heaviest.allNodes edges sourceCount) :
    push (ofSeen edges.length sourceCount seen, queue) y =
      .ok (ofSeen edges.length sourceCount (Lib.Search.push (seen, queue) y).1,
        (Lib.Search.push (seen, queue) y).2) := by
  unfold push Lib.Search.push
  rw [get_ofSeen hy, ok_bind]
  split_ifs with h
  · rfl
  · rw [mark_ofSeen hy]
    rfl

variable (hG : Heaviest.IsGraph edges sourceCount) {start : ℕ} (hstart : start < edges.length)
include hG hstart

/-- The loop over the queue does not come upon an index that is out of bounds, and ends. -/
theorem search_eq {before : Node → Bool} : ∀ (fuel : ℕ) (queue : List Node) (seen : Node → Bool)
    (visited : List Node),
    Lib.Search.Searching (Assign.neighbours edges) (true, start) before queue seen visited →
      (Heaviest.allNodes edges sourceCount).length < fuel + visited.length →
      search edges (vec sourceCount (reverse edges)) fuel queue
        (ofSeen edges.length sourceCount seen) visited =
        .ok ((Lib.Search.search (Assign.neighbours edges) fuel queue seen visited).1,
          ofSeen edges.length sourceCount
            (Lib.Search.search (Assign.neighbours edges) fuel queue seen visited).2)
  | 0, queue, seen, visited, h, hfuel => by
    have := h.length_le fun y hy => Heaviest.mem_allNodes_of_reach hG hstart hy
    omega
  | fuel + 1, [], seen, visited, h, hfuel => rfl
  | fuel + 1, x :: queue, seen, visited, h, hfuel => by
    have hx : Lib.Search.Reach (Assign.neighbours edges) (true, start) x := h.reach x (by simp)
    have hpush : (Assign.neighbours edges x).foldlM push (ofSeen edges.length sourceCount seen,
      queue) =
        .ok (ofSeen edges.length sourceCount
          ((Assign.neighbours edges x).foldl Lib.Search.push (seen, queue)).1,
          ((Assign.neighbours edges x).foldl Lib.Search.push (seen, queue)).2) :=
      foldlM_eq_ok (fun s => (ofSeen edges.length sourceCount s.1, s.2)) (Assign.neighbours edges x)
        (seen, queue) fun before y after hl =>
          push_eq (Heaviest.mem_allNodes_of_reach hG hstart
            (hx.tail (show y ∈ Assign.neighbours edges x by rw [hl]; simp)))
    unfold search Lib.Search.search
    rw [neighbours_eq (Heaviest.mem_allNodes_of_reach hG hstart hx), ok_bind, hpush, ok_bind]
    refine search_eq fuel _ _ _ h.step ?_
    simp only [List.length_append, List.length_singleton]
    omega

theorem component_eq (hseen : seen (true, start) = false) :
    component edges (vec sourceCount (reverse edges)) start (ofSeen edges.length sourceCount seen) =
      .ok ((Assign.component start edges sourceCount seen).1,
        ofSeen edges.length sourceCount (Assign.component start edges sourceCount seen).2) := by
  have hsearch := search_eq hG hstart (edges.length + sourceCount + 1) _ _ _
    (Lib.Search.searching_start (Assign.neighbours edges) hseen) (by simp [Heaviest.allNodes])
  unfold component
  rw [mark_ofSeen (mem_allNodes.mpr hstart), ok_bind, length_vec, hsearch]
  rfl

end

/-! ### The optimal assignment found -/

section

variable {weights : Weights} {banned : Option (ℕ × ℕ)} {n W : ℕ}

/-- A rectangle of weights up to `W`, small enough for the potentials. -/
structure Bounded (weights : Weights) (n W : ℕ) : Prop where
  rect : ∀ row ∈ weights, row.length = n
  le : ∀ row ∈ weights, ∀ weight ∈ row, weight.getD 0 ≤ W
  size : ((weights.length : ℤ) + 3) * W < i128Max

theorem Bounded.weight_lt (h : Bounded weights n W) : (W : ℤ) ≤ i128Max := by
  have hsize := h.size
  have : (W : ℤ) ≤ (weights.length + 3) * W := by nlinarith [Int.natCast_nonneg weights.length]
  omega

theorem Bounded.headD (h : Bounded weights n W) (hpos : weights ≠ []) :
    (weights.headD []).length = n := by
  obtain ⟨row, rest, rfl⟩ := List.exists_cons_of_ne_nil hpos
  exact h.rect row (by simp)

/-- An entry in the rectangle. -/
theorem Bounded.getAt (h : Bounded weights n W) {r c : ℕ} (hr : r < weights.length) (hc : c < n) :
    (do getAt (← getAt weights r) c) = .ok (weightAt weights r c) := by
  have hlen : weights[r].length = n := h.rect _ (List.getElem_mem hr)
  rw [getAt_eq (List.getElem?_eq_getElem hr), ok_bind, weightAt, List.getD_eq_getElem _ _ hr,
    List.getD_eq_getElem _ _ (by rw [hlen]; exact hc)]
  exact getAt_eq (List.getElem?_eq_getElem _)

theorem Bounded.weightAt_le (h : Bounded weights n W) (r c : ℕ) :
    (weightAt weights r c).getD 0 ≤ W := by
  unfold weightAt
  by_cases hr : r < weights.length
  · rw [List.getD_eq_getElem _ _ hr]
    by_cases hc : c < weights[r].length
    · rw [List.getD_eq_getElem _ _ hc]
      exact h.le _ (List.getElem_mem hr) _ (List.getElem_mem hc)
    · rw [List.getD_eq_default _ _ (by omega)]
      exact Nat.zero_le W
  · rw [List.getD_eq_default weights _ (by omega)]
    exact Nat.zero_le W

theorem Bounded.maximum_le (h : Bounded weights n W) : maximum weights banned ≤ W := by
  unfold maximum
  refine List.foldlRecOn (motive := fun acc => acc ≤ W) weights.zipIdx _ (Nat.zero_le W)
    fun acc hacc values hvalues => ?_
  refine List.foldlRecOn (motive := fun acc => acc ≤ W) values.1.zipIdx _ hacc
    fun acc hacc weight hweight => ?_
  have hrow := h.le values.1 (List.fst_mem_of_mem_zipIdx hvalues) weight.1
    (List.fst_mem_of_mem_zipIdx hweight)
  split_ifs
  · exact max_le hacc hrow
  · exact hacc

theorem costOf_eq {weight : ℕ} (h : (weight : ℤ) ≤ i128Max) :
    costOf weight = .ok (-(weight : ℤ)) := by
  unfold costOf
  rw [if_pos h]
  change i128 (-(weight : ℤ)) = _
  rw [i128Max] at h
  exact i128_eq (by omega) (by rw [i128Max]; omega)

/-- Enter the cost of a column in a row, unless it is banned. -/
def enterCost (weights : Weights) (banned : Option (ℕ × ℕ)) (row : ℕ) (costs : ℕ → ℤ) (column : ℕ) :
    ℕ → ℤ :=
  update costs column (if banned ≠ some (row, column) then Assign.cost weights banned row column
    else costs column)

theorem setCost_eq (h : Bounded weights n W) (hpos : weights ≠ []) {m row column : ℕ}
    (hrow : row < weights.length) (hcolumn : column < n) (hm : n ≤ m) (f : ℕ → ℕ → ℤ) :
    setCost weights banned row (vec weights.length fun r => vec m (f r)) column =
      .ok (vec weights.length fun r =>
        vec m (update f row (enterCost weights banned row (f row) column) r)) := by
  unfold setCost enterCost
  split_ifs with hbanned
  · have hcost : Assign.cost weights banned row column =
        -((weightAt weights row column).getD 0 : ℕ) :=
      if_pos ⟨by rw [h.headD hpos]; exact hcolumn, hbanned⟩
    have hget := h.getAt hrow hcolumn
    rw [← bind_assoc, hget, ok_bind, costOf_eq (by
      have := h.weightAt_le row column
      have := h.weight_lt
      omega), ok_bind, ← hcost]
    exact setAt₂_vec f _ hrow (by omega)
  · rw [Function.update_eq_self, Function.update_eq_self]
    rfl

theorem costs_eq (h : Bounded weights n W) (hpos : weights ≠ []) :
    costs weights banned = .ok (Assign.costs weights banned) := by
  have hn := h.headD hpos
  set m := n + weights.length with hm
  -- the two loops on functions: a row is filled column by column, and the rows one after the other
  set rowFold := fun (row : ℕ) (f : ℕ → ℤ) =>
    (List.range n).foldl (enterCost weights banned row) f with hrowFold
  have hinner : ∀ row < weights.length, ∀ f : ℕ → ℕ → ℤ,
      (List.range n).foldlM (setCost weights banned row) (vec weights.length fun r => vec m (f r)) =
        .ok (vec weights.length fun r => vec m (update f row (rowFold row (f row)) r)) := by
    intro row hrow f
    rw [hrowFold, ← foldl_update_self row (enterCost weights banned row)]
    refine foldlM_eq_ok (fun f : ℕ → ℕ → ℤ => vec weights.length fun r => vec m (f r)) _ f
      fun before column after hl => setCost_eq h hpos hrow ?_ (by omega) _
    exact List.mem_range.mp (by rw [hl]; simp)
  have houter := foldlM_eq_ok (f := fun costs row =>
    (List.range n).foldlM (setCost weights banned row) costs)
    (g := fun (f : ℕ → ℕ → ℤ) row => update f row (rowFold row (f row)))
    (fun f : ℕ → ℕ → ℤ => vec weights.length fun r =>
      vec m (f r)) (List.range weights.length) (fun _ _ => 0)
    fun before row after hl => hinner row (List.mem_range.mp (by rw [hl]; simp)) _
  unfold costs Assign.costs
  simp only [hn, ← hm]
  rw [replicate_eq_vec m, replicate_eq_vec weights.length, houter]
  refine congrArg _ (vec_congr fun r hr => vec_congr fun c hc => ?_)
  have hrow := foldl_update_of_mem id rowFold (List.range weights.length) (fun _ _ => (0 : ℤ))
    (by simpa using List.nodup_range) (List.mem_range.mpr hr)
  simp only [id] at hrow
  rw [hrow, hrowFold]
  change (List.range n).foldl (fun f column => update f column
    (if banned ≠ some (r, column) then Assign.cost weights banned r column else f column))
      (fun _ => 0) c = _
  by_cases hcn : c < n
  · have hcolumn := foldl_update_of_mem id
      (fun column old => if banned ≠ some (r, column)
        then Assign.cost weights banned r column else old)
      (List.range n) (fun _ => (0 : ℤ)) (by simpa using List.nodup_range) (List.mem_range.mpr hcn)
    simp only [id] at hcolumn
    rw [hcolumn]
    split_ifs with hbanned
    · rfl
    · exact (if_neg fun h => hbanned h.2).symm
  · have hcolumn := foldl_update_of_notMem id
      (fun column old => if banned ≠ some (r, column)
        then Assign.cost weights banned r column else old)
      (List.range n) (fun _ => (0 : ℤ)) (by simpa using hcn)
    simp only [id] at hcolumn
    rw [hcolumn]
    exact (if_neg fun h => hcn (hn ▸ h.1)).symm

/-- The costs satisfy what the algorithm needs. -/
theorem Bounded.costs (h : Bounded weights n W) (hpos : weights ≠ []) (banned : Option (ℕ × ℕ)) :
    CheckedHungarian.Costs (Assign.costs weights banned) n weights.length (n
      + weights.length) W := by
  have hn := h.headD hpos
  have hentry : ∀ r c, Hungarian.entry (Assign.costs weights banned) r c =
    Assign.cost weights banned r c ∨
      Hungarian.entry (Assign.costs weights banned) r c = 0 := by
    intro r c
    by_cases hr : r < weights.length
    · by_cases hc : c < n + weights.length
      · exact .inl (Heaviest.entry_costs hr (by rw [hn]; exact hc))
      · right
        have hlt : r < (Assign.costs weights banned).length := by rwa [Heaviest.length_costs]
        have hlen := Heaviest.length_of_mem_costs (List.getElem_mem hlt)
        rw [Hungarian.entry, show (Assign.costs weights banned).getD r [] =
          (Assign.costs weights banned)[r] from
          List.getD_eq_getElem _ _ hlt, List.getD_eq_default _ _ (by omega)]
    · right
      rw [Hungarian.entry, List.getD_eq_default (Assign.costs weights banned) _
        (by rw [Heaviest.length_costs]; omega)]
      rfl
  have hcost : ∀ r c, -(W : ℤ) ≤ Assign.cost weights banned r c
      ∧ Assign.cost weights banned r c ≤ 0 := by
    intro r c
    have := h.weightAt_le r c
    unfold Assign.cost
    split_ifs <;> omega
  refine ⟨Heaviest.length_costs banned, fun row hrow => ?_, rfl, fun r c => ?_, fun r c => ?_,
    fun r c hc => ?_, Int.natCast_nonneg W, h.size⟩
  · rw [Heaviest.length_of_mem_costs hrow, hn]
  · rcases hentry r c with he | he
    · exact he ▸ (hcost r c).1
    · omega
  · rcases hentry r c with he | he
    · exact he ▸ (hcost r c).2
    · omega
  · rcases hentry r c with he | he
    · rw [he]
      exact if_neg fun hlt => by omega
    · exact he

theorem length_hungarian (h : Bounded weights n W) (hpos : weights ≠ []) :
    (Hungarian.hungarian (Assign.costs weights banned)).length = weights.length := by
  obtain ⟨a, -, hlist, -⟩ := @Hungarian.hungarian_spec (Assign.costs weights banned)
    (n + weights.length) (fun row hrow => by rw [Heaviest.length_of_mem_costs hrow, h.headD hpos])
    (fun he =>
      hpos (List.eq_nil_of_length_eq_zero (by rw [← Heaviest.length_costs banned, he]; rfl)))
    (by rw [Heaviest.length_costs]; omega)
  rw [hlist, List.length_ofFn, Heaviest.length_costs]

theorem selectPair_eq (h : Bounded weights n W) (hpos : weights ≠ []) {assigned : ℕ × ℕ}
    (hr : assigned.1 < weights.length) :
    selectPair weights banned assigned = .ok (Assign.selectPair weights banned assigned) := by
  unfold selectPair Assign.selectPair
  by_cases hin : assigned.2 < (weights.headD []).length ∧ banned ≠ some assigned
  · have hget := h.getAt hr (by rw [← h.headD hpos]; exact hin.1)
    rw [if_pos hin, ← bind_assoc, hget, ok_bind]
    simp only [hin, ne_eq, not_false_eq_true, true_and]
    rfl
  · rw [if_neg hin, if_neg fun hall => hin ⟨hall.1, hall.2.1⟩]
    rfl

/-- The pairs are entries of the rectangle. -/
theorem weightAt_of_mem (h : Bounded weights n W) {e : ℕ × ℕ}
    (he : e ∈ (Assign.optimalAssignment weights banned).2) :
    ∃ weight, weightAt weights e.1 e.2 = some weight := by
  unfold Assign.optimalAssignment at he
  split_ifs at he with hzero
  · simp at he
  · obtain ⟨assigned, -, hselect⟩ := List.mem_filterMap.mp he
    have hne : weights ≠ [] := fun hw => hzero (by rw [hw]; rfl)
    obtain ⟨rfl, hw⟩ := (Heaviest.selectPair_eq_some (h.headD hne) h.rect).mp hselect
    exact Option.ne_none_iff_exists'.mp (Heaviest.ban_ne_none.mp hw).2

/-- **The optimal assignment** on checked numbers. -/
theorem optimalAssignment_eq (h : Bounded weights n W) :
    optimalAssignment weights banned = .ok (Assign.optimalAssignment weights banned) := by
  have hpairs : ∀ e ∈ (Assign.optimalAssignment weights banned).2,
      ∃ weight, weightAt weights e.1 e.2 = some weight := fun e he => weightAt_of_mem h he
  unfold optimalAssignment Assign.optimalAssignment
  unfold Assign.optimalAssignment at hpairs
  by_cases hzero : weights.length = 0
  · rw [if_pos hzero, if_pos hzero]
    rfl
  have hpos : weights ≠ [] := fun hw => hzero (by rw [hw]; rfl)
  have hmax : (maximum weights banned : ℤ) ≤ i128Max := by
    have hle : maximum weights banned ≤ W := h.maximum_le
    have := h.weight_lt
    omega
  rw [if_neg hzero] at hpairs ⊢
  rw [if_neg hzero, assert_eq hmax, ok_bind, costs_eq h hpos, ok_bind,
    CheckedHungarian.hungarian_eq (h.costs hpos banned) (Nat.pos_of_ne_zero hzero), ok_bind]
  set assignment := Hungarian.hungarian (Assign.costs weights banned) with hassignment
  have hlen : assignment.length = weights.length := length_hungarian h hpos
  have hselect : (assignment.zipIdx.map Prod.swap).mapM (selectPair weights banned) =
      .ok ((assignment.zipIdx.map Prod.swap).map (Assign.selectPair weights banned)) := by
    refine mapM_eq_ok _ fun e he => selectPair_eq h hpos ?_
    have hget := Heaviest.mem_assigned.mp he
    rw [← hlen]
    exact (List.getElem?_eq_some_iff.mp hget).1
  have hid : ((assignment.zipIdx.map Prod.swap).map (Assign.selectPair weights banned)).filterMap
    id =
      (assignment.zipIdx.map Prod.swap).filterMap (Assign.selectPair weights banned) := by
    rw [List.filterMap_map]
    rfl
  rw [hselect, ok_bind, hid]
  set pairs :=
    (assignment.zipIdx.map Prod.swap).filterMap (Assign.selectPair weights banned) with hdef
  have hvalues : (pairs.mapM fun pair => do expect (← getAt (← getAt weights pair.1) pair.2)) =
      .ok (pairs.map fun pair => (weightAt weights pair.1 pair.2).getD 0) := by
    refine mapM_eq_ok _ fun e he => ?_
    obtain ⟨weight, hw⟩ := hpairs e he
    obtain ⟨hr, hc⟩ := Heaviest.weightAt_ne_none h.rect (r := e.1) (k := e.2) (by rw [hw]; simp)
    rw [← bind_assoc, h.getAt hr hc, ok_bind, hw]
    rfl
  have hsum : (pairs.map fun pair => (weightAt weights pair.1 pair.2).getD 0).sum < 2 ^ 128 := by
    have hle := List.sum_le_card_nsmul (pairs.map fun pair =>
      (weightAt weights pair.1 pair.2).getD 0) W
      (by
        intro x hx
        obtain ⟨e, -, rfl⟩ := List.mem_map.mp hx
        exact h.weightAt_le _ _)
    have hcard : pairs.length ≤ weights.length := by
      rw [← hlen, hdef]
      exact (List.length_filterMap_le _ _).trans (by simp)
    have hsize := h.size
    rw [List.length_map, smul_eq_mul] at hle
    have hmul : pairs.length * W ≤ weights.length * W := Nat.mul_le_mul_right W hcard
    rw [i128Max, add_mul] at hsize
    have : weights.length * W < 2 ^ 127 := by
      zify
      linarith [Int.natCast_nonneg W]
    omega
  simp only [hvalues, ok_bind]
  rw [sum_eq fun k hk => u128_eq (by omega)]
  rfl

end

/-! ### The weights -/

/-- Numbers that fit: the scores, the sizes, and the limits of the policy. -/
structure Fits (policy : MatchingPolicy) (candidates : List TorrentFile)
    (edges : Edges) : Prop where
  scores : (edges.flatten.map Prod.snd).sum < 2 ^ 41 - 1
  sizes : (candidates.map TorrentFile.size).sum < 2 ^ 64
  componentFiles : policy.maxAssignmentComponentFiles ≤ 1024
  operations : policy.maxAssignmentOperations < 2 ^ 64

section

variable {policy : MatchingPolicy} {candidates : List TorrentFile} {edges : Edges}

/-- The units of the assignment. -/
def units (policy : MatchingPolicy) (candidates : List TorrentFile) (edges : Edges) : Units where
  score := scoreUnit edges
  required := requiredUnit policy candidates edges

theorem Fits.scoreUnit_lt (h : Fits policy candidates edges) : scoreUnit edges < 2 ^ 41 := by
  have := h.scores
  rw [scoreUnit, sumU64_eq (by omega)]
  omega

theorem Fits.primaryBytes_lt (h : Fits policy candidates edges) :
    primaryBytes policy candidates < 2 ^ 64 :=
  lt_of_le_of_lt ((List.filter_sublist.map _).sum_le_sum fun _ _ => Nat.zero_le _) h.sizes

theorem Fits.requiredUnit_le (h : Fits policy candidates edges) :
    requiredUnit policy candidates edges ≤ 2 ^ 105 := by
  have hle := Nat.mul_le_mul (Nat.succ_le_of_lt h.primaryBytes_lt) h.scoreUnit_lt.le
  calc requiredUnit policy candidates edges ≤ 2 ^ 64 * 2 ^ 41 := hle
    _ = 2 ^ 105 := by norm_num

theorem unitsOf_eq (h : Fits policy candidates edges) :
    unitsOf policy candidates edges = .ok (units policy candidates edges) := by
  have hscores := h.scores
  have hbytes := h.primaryBytes_lt
  have hrequired := h.requiredUnit_le
  have hunit := h.scoreUnit_lt
  unfold unitsOf units requiredUnit scoreUnit primaryBytes at *
  rw [sumU64_eq (by omega)] at *
  rw [sum_eq fun n hn => u64_eq (by omega), ok_bind, u128_eq (by omega), ok_bind,
    sum_eq fun n hn => u128_eq (by omega), ok_bind, u128_eq (by omega), ok_bind, u128_eq (by omega)]
  rfl

theorem Fits.size_le (h : Fits policy candidates edges) {file : TorrentFile}
    (hfile : file ∈ candidates) : file.size * scoreUnit edges ≤ 2 ^ 105 := by
  have hsize := List.le_sum_of_mem (List.mem_map_of_mem (f := TorrentFile.size) hfile)
  have hle := Nat.mul_le_mul (lt_of_le_of_lt hsize h.sizes).le h.scoreUnit_lt.le
  calc file.size * scoreUnit edges ≤ 2 ^ 64 * 2 ^ 41 := hle
    _ = 2 ^ 105 := by norm_num

/-- A score of an edge is among the scores. -/
theorem rawAt_le {c s value : ℕ} (h : rawAt edges c s = some value) :
    value ≤ (edges.flatten.map Prod.snd).sum := by
  have hc := Heaviest.rawAt_lt (by rw [h]; simp : rawAt edges c s ≠ none)
  rw [rawAt, List.getD_eq_getElem _ _ hc] at h
  obtain ⟨l, l', hl, -⟩ := List.lookup_eq_some_iff.mp h
  have hmem : (s, value) ∈ edges.flatten :=
    List.mem_flatten.mpr ⟨_, List.getElem_mem hc, by rw [hl]; simp⟩
  exact List.le_sum_of_mem (List.mem_map_of_mem (f := Prod.snd) hmem)

/-- **A weight** is below `2^107`, and so are the numbers it is computed from. -/
theorem edgeWeight_eq (h : Fits policy candidates edges) {file : TorrentFile}
    (hfile : file ∈ candidates) {value : ℕ} (hvalue : value ≤ (edges.flatten.map Prod.snd).sum) :
    edgeWeight policy (units policy candidates edges) file value =
        .ok (Assign.edgeWeight policy candidates edges file value) ∧
      Assign.edgeWeight policy candidates edges file value ≤ 2 ^ 107 := by
  have hscores := h.scores
  have hbytes := h.size_le hfile
  have hrequired := h.requiredUnit_le
  unfold edgeWeight Assign.edgeWeight units
  by_cases hp : primary policy file = true <;> by_cases hr : required policy file = true <;>
    simp only [hp, hr, if_true, if_false, Bool.false_eq_true] <;>
    refine ⟨?_, by omega⟩
  · rw [u128_eq (by omega), ok_bind, u128_eq (by omega), ok_bind, u128_eq (by omega)]
  · rw [u128_eq (by omega), ok_bind, u128_eq (by omega), ok_bind, u128_eq (by omega)]
  · change (do let weight ← u128 (value + 0); _) = _
    rw [u128_eq (by omega), ok_bind, u128_eq (by omega)]
  · change (do let weight ← u128 (value + 0); _) = _
    rw [u128_eq (by omega), ok_bind, u128_eq (by omega)]

/-! ### The tables of a component -/

variable {start sourceCount : ℕ} {comp : List ℕ × List ℕ}

/-- The weight of a score in a row. -/
def rowWeight (policy : MatchingPolicy) (candidates : List TorrentFile) (edges : Edges)
    (componentCandidates : List ℕ) (row value : ℕ) : ℕ :=
  (candidates[componentCandidates.getD row 0]?).elim 0 fun file =>
    Assign.edgeWeight policy candidates edges file value

/-- `raw` and `weights`, where the function gives the scores. -/
def filled (policy : MatchingPolicy) (candidates : List TorrentFile) (edges : Edges)
    (comp : List ℕ × List ℕ) (raw : ℕ → ℕ → Option ℕ) : Weights × Weights :=
  (vec comp.1.length fun row => vec comp.2.length (raw row),
    vec comp.1.length fun row => vec comp.2.length fun column =>
      (raw row column).map (rowWeight policy candidates edges comp.1 row))

/-- Enter the score of an edge in a row. -/
def enterScore (componentSources : List ℕ) (row : ℕ → Option ℕ) (edge : ℕ × ℕ) : ℕ → Option ℕ :=
  update row (componentSources.idxOf edge.1) (some edge.2)

theorem fillEdge_eq (h : Fits policy candidates edges) {row : ℕ} {candidate : ℕ}
    (hrow : comp.1[row]? = some candidate) (hcandidate : candidate < candidates.length)
    (raw : ℕ → ℕ → Option ℕ) {edge : ℕ × ℕ} (hsource : edge.1 ∈ comp.2)
    (hvalue : edge.2 ≤ (edges.flatten.map Prod.snd).sum) :
    fillEdge policy candidates (units policy candidates edges) comp.2 candidate row
        (filled policy candidates edges comp raw) edge =
      .ok (filled policy candidates edges comp
        (update raw row (enterScore comp.2 (raw row) edge))) := by
  have hlt : row < comp.1.length := (List.getElem?_eq_some_iff.mp hrow).1
  have hget : comp.1.getD row 0 = candidate := by rw [List.getD_eq_getElem?_getD, hrow]; rfl
  have hidx : comp.2.idxOf edge.1 < comp.2.length := List.idxOf_lt_length_of_mem hsource
  have hposition : comp.2.idxOf? edge.1 = some (comp.2.idxOf edge.1) := by
    obtain ⟨i, hi⟩ := Option.isSome_iff_exists.mp (List.isSome_idxOf?.mpr hsource)
    rw [List.idxOf_eq_getD_idxOf?, hi]
    rfl
  have hweight : rowWeight policy candidates edges comp.1 row edge.2 =
      Assign.edgeWeight policy candidates edges candidates[candidate] edge.2 := by
    rw [rowWeight, hget, List.getElem?_eq_getElem hcandidate]
    rfl
  unfold fillEdge
  rw [hposition, expect, ok_bind, filled, setAt₂_vec _ _ hlt hidx, ok_bind,
    getAt_eq (List.getElem?_eq_getElem hcandidate), ok_bind,
    (edgeWeight_eq h (List.getElem_mem hcandidate) hvalue).1, ok_bind, ← hweight,
    setAt₂_vec (fun row column =>
      (raw row column).map (rowWeight policy candidates edges comp.1 row)) _ hlt hidx,
    ok_bind]
  refine congrArg Except.ok (Prod.ext rfl (vec_congr fun r _ => vec_congr fun c _ => ?_))
  by_cases hr : r = row
  · subst hr
    by_cases hc : c = comp.2.idxOf edge.1
    · simp [enterScore, hc]
    · simp [enterScore, hc]
  · simp [hr]

/-- The scores of a row once its edges are entered. -/
theorem foldl_enterScore {row : List (ℕ × ℕ)} (hsources : comp.2.Nodup)
    (hnodup : (row.map Prod.fst).Nodup) (hmem : ∀ edge ∈ row, edge.1 ∈ comp.2) {column : ℕ}
    (hcolumn : column < comp.2.length) :
    row.foldl (enterScore comp.2) (fun _ => none) column = row.lookup comp.2[column] := by
  have hkeys : (row.map fun edge => comp.2.idxOf edge.1).Nodup := by
    rw [List.Nodup, List.pairwise_map] at hnodup ⊢
    refine hnodup.imp_of_mem fun {a b} ha _ hne he => hne ?_
    exact (List.idxOf_inj (hmem a ha)).mp he
  change row.foldl (fun f edge => update f (comp.2.idxOf edge.1) (some edge.2))
    (fun _ => none) column = _
  cases hlookup : row.lookup comp.2[column] with
  | some value =>
    obtain ⟨l, l', hl, -⟩ := List.lookup_eq_some_iff.mp hlookup
    have hedge : (comp.2[column], value) ∈ row := by rw [hl]; simp
    have hcol : comp.2.idxOf comp.2[column] = column := hsources.idxOf_getElem column hcolumn
    have := foldl_update_of_mem (fun edge : ℕ × ℕ => comp.2.idxOf edge.1) (fun edge _ =>
      some edge.2) row
      (fun _ => none) hkeys hedge
    simp only [hcol] at this
    exact this
  | none =>
    refine foldl_update_of_notMem (fun edge : ℕ × ℕ => comp.2.idxOf edge.1) (fun edge _ =>
      some edge.2) row
      (fun _ => none) fun hcol => ?_
    obtain ⟨edge, hedge, hidx⟩ := List.mem_map.mp hcol
    have hsource : comp.2[column] = edge.1 := by
      have := List.getElem_idxOf (List.idxOf_lt_length_of_mem (hmem edge hedge))
      simp only [hidx] at this
      exact this
    exact Heaviest.lookup_ne_none.mpr ⟨edge, hedge, hsource.symm⟩ hlookup

theorem tables_eq (h : Fits policy candidates edges) (hlen : edges.length = candidates.length)
    (hnodup : ∀ row ∈ edges, (row.map Prod.fst).Nodup)
    (hcomp : Heaviest.IsComponent edges start comp) (hlt : ∀ c ∈ comp.1, c < edges.length) :
    tables policy candidates edges (units policy candidates edges) comp =
      .ok (comp.1.map fun c => comp.2.map (rawAt edges c),
        componentWeights policy candidates edges comp) := by
  set fill := fun (x : ℕ × ℕ) (row : ℕ → Option ℕ) =>
    (edges.getD x.1 []).foldl (enterScore comp.2) row with hfill
  have hedges : ∀ c ∈ comp.1, ∀ edge ∈ edges.getD c [], edge.1 ∈ comp.2 := fun c hc edge hedge =>
    hcomp.mem_of_rawAt hc (Heaviest.lookup_ne_none.mpr ⟨edge, hedge, rfl⟩)
  have hzip : ∀ x ∈ comp.1.zipIdx, comp.1[x.2]? = some x.1 :=
    fun x hx => List.mem_zipIdx_iff_getElem?.mp hx
  have hmem : ∀ x ∈ comp.1.zipIdx, x.1 ∈ comp.1 := fun x hx => List.mem_of_getElem? (hzip x hx)
  have hinner : ∀ x ∈ comp.1.zipIdx, ∀ raw : ℕ → ℕ → Option ℕ,
      (getAt edges x.1 >>= fun row => row.foldlM
        (fillEdge policy candidates (units policy candidates edges) comp.2 x.1 x.2)
        (filled policy candidates edges comp raw)) =
      .ok (filled policy candidates edges comp (update raw x.2 (fill x (raw x.2)))) := by
    intro x hx raw
    have hx1 := hlt _ (hmem x hx)
    have hrow : edges.getD x.1 [] = edges[x.1] := List.getD_eq_getElem _ _ hx1
    have hfold : fill x (raw x.2) = edges[x.1].foldl (enterScore comp.2) (raw x.2) := by
      rw [hfill, ← hrow]
    rw [getAt_eq (List.getElem?_eq_getElem hx1), ok_bind, hfold,
      ← foldl_update_self x.2 (enterScore comp.2)]
    refine foldlM_eq_ok (filled policy candidates edges comp) _ raw fun before edge after hl => ?_
    have hedge : edge ∈ edges[x.1] := by rw [hl]; simp
    refine fillEdge_eq h (hzip x hx) (hlen ▸ hx1) _ (hedges _ (hmem x hx) edge (hrow ▸ hedge)) ?_
    exact List.le_sum_of_mem (List.mem_map_of_mem (List.mem_flatten.mpr ⟨_,
      List.getElem_mem hx1, hedge⟩))
  have houter := foldlM_eq_ok
    (f := fun acc x => getAt edges x.1 >>= fun row => row.foldlM
      (fillEdge policy candidates (units policy candidates edges) comp.2 x.1 x.2) acc)
    (g := fun (raw : ℕ → ℕ → Option ℕ) (x : ℕ × ℕ) => update raw x.2 (fill x (raw x.2)))
    (filled policy candidates edges comp) comp.1.zipIdx (fun _ _ => none)
    fun before x after hl => hinner x (by rw [hl]; simp) _
  have hstart : filled policy candidates edges comp (fun _ _ => none) =
      (List.replicate comp.1.length (List.replicate comp.2.length none),
        List.replicate comp.1.length (List.replicate comp.2.length none)) := by
    rw [replicate_eq_vec comp.2.length, replicate_eq_vec comp.1.length]
    rfl
  rw [hstart] at houter
  refine houter.trans (congrArg Except.ok ?_)
  have hvalue : ∀ r < comp.1.length, ∀ k < comp.2.length,
      comp.1.zipIdx.foldl (fun (raw : ℕ → ℕ → Option ℕ) x => update raw x.2 (fill x (raw x.2)))
        (fun _ _ => none) r k = rawAt edges (comp.1.getD r 0) (comp.2.getD k 0) := by
    intro r hr k hk
    have hx : (comp.1[r], r) ∈ comp.1.zipIdx :=
      List.mem_zipIdx_iff_getElem?.mpr (List.getElem?_eq_getElem hr)
    have hc := hmem _ hx
    have hcr := hlt _ hc
    have hrow : edges.getD comp.1[r] [] = edges[comp.1[r]] := List.getD_eq_getElem _ _ hcr
    have hnd : (comp.1.zipIdx.map Prod.snd).Nodup := by
      rw [List.zipIdx_map_snd]
      exact List.nodup_range'
    have hfold := foldl_update_of_mem Prod.snd fill comp.1.zipIdx (fun _ _ => none) hnd hx
    simp only at hfold
    rw [hfold, hfill, List.getD_eq_getElem _ _ hr, List.getD_eq_getElem _ _ hk]
    exact foldl_enterScore hcomp.nodup_sources (hnodup _ (hrow ▸ List.getElem_mem _))
      (hedges _ hc) hk
  rw [filled, componentWeights, map_eq_vec _ 0 comp.1, map_eq_vec _ 0 comp.1]
  refine Prod.ext (vec_congr fun r hr => ?_) (vec_congr fun r hr => ?_)
  · rw [map_eq_vec _ 0 comp.2]
    exact vec_congr fun k hk => hvalue r hr k hk
  · rw [map_eq_vec _ 0 comp.2]
    refine vec_congr fun k hk => ?_
    have hc : comp.1.getD r 0 < candidates.length := by
      rw [List.getD_eq_getElem _ _ hr, ← hlen]
      exact hlt _ (List.getElem_mem hr)
    have hweight : rowWeight policy candidates edges comp.1 r =
        Assign.edgeWeight policy candidates edges candidates[comp.1.getD r 0] := by
      funext value
      rw [rowWeight, List.getElem?_eq_getElem hc]
      rfl
    rw [hvalue r hr k hk, hweight, pairWeight, List.getElem?_eq_getElem hc, Option.bind_some]

end

/-! ### The assignment found -/

section

variable {policy : MatchingPolicy} {candidates : List TorrentFile} {edges : Edges}
variable {start sourceCount : ℕ} {comp : List ℕ × List ℕ}

/-- The weights of a component fit. -/
theorem bounded_componentWeights (h : Fits policy candidates edges)
    (hfiles : comp.1.length ≤ 1024) :
    Bounded (componentWeights policy candidates edges comp) comp.2.length (2 ^ 107) := by
  refine ⟨Heaviest.length_of_mem_componentWeights, fun row hrow weight hweight => ?_, ?_⟩
  · obtain ⟨c, -, rfl⟩ := List.mem_map.mp hrow
    obtain ⟨s, -, rfl⟩ := List.mem_map.mp hweight
    cases hw : pairWeight policy candidates edges c s with
    | none => exact Nat.zero_le _
    | some w =>
      obtain ⟨file, hfile, hw⟩ := Option.bind_eq_some_iff.mp hw
      obtain ⟨value, hraw, rfl⟩ := Option.map_eq_some_iff.mp hw
      exact (edgeWeight_eq h (List.mem_of_getElem? hfile) (rawAt_le hraw)).2
  · have hlen : (componentWeights policy candidates edges comp).length = comp.1.length := by
      simp [componentWeights]
    rw [hlen, i128Max]
    push_cast
    have : (comp.1.length : ℤ) ≤ 1024 := by exact_mod_cast hfiles
    linarith

theorem pairOf_eq (h : Fits policy candidates edges) (hfiles : comp.1.length ≤ 1024) {e : ℕ × ℕ}
    (he : e ∈ (Assign.optimalAssignment (componentWeights policy candidates edges comp) none).2) :
    pairOf comp (comp.1.map fun c => comp.2.map (rawAt edges c)) e =
      .ok (comp.1.getD e.1 0, comp.2.getD e.2 0,
        (rawAt edges (comp.1.getD e.1 0) (comp.2.getD e.2 0)).getD 0) := by
  obtain ⟨weight, hw⟩ := weightAt_of_mem (bounded_componentWeights h hfiles) he
  rw [Heaviest.weightAt_componentWeights] at hw
  split_ifs at hw with hlt
  obtain ⟨hr, hk⟩ := hlt
  obtain ⟨value, hvalue⟩ := Option.ne_none_iff_exists'.mp
    (Heaviest.rawAt_of_pairWeight (by rw [hw]; simp :
      pairWeight policy candidates edges (comp.1.getD e.1 0) (comp.2.getD e.2 0) ≠ none))
  rw [List.getD_eq_getElem _ _ hr, List.getD_eq_getElem _ _ hk] at hvalue ⊢
  unfold pairOf
  rw [getAt_eq (List.getElem?_eq_getElem hr), ok_bind,
    getAt_eq (List.getElem?_eq_getElem hk), ok_bind,
    getAt_eq (by rw [List.getElem?_map, List.getElem?_eq_getElem hr]; rfl), ok_bind,
    getAt_eq (by rw [List.getElem?_map, List.getElem?_eq_getElem hk]; rfl), ok_bind, hvalue]
  rfl

theorem assignComponent_eq (h : Fits policy candidates edges)
    (hlen : edges.length = candidates.length) (hnodup : ∀ row ∈ edges, (row.map Prod.fst).Nodup)
    (hcomp : Heaviest.IsComponent edges start comp) (hlt : ∀ c ∈ comp.1, c < edges.length)
    (hfiles : comp.1.length ≤ 1024) :
    assignComponent policy candidates edges (units policy candidates edges) comp =
      .ok (Assign.assignComponent policy candidates edges comp) := by
  have hbounded := bounded_componentWeights h hfiles
  unfold assignComponent Assign.assignComponent
  rw [tables_eq h hlen hnodup hcomp hlt, ok_bind]
  simp only
  rw [optimalAssignment_eq hbounded, ok_bind, anyM_eq_ok _ fun pair _ => by
    rw [optimalAssignment_eq hbounded, ok_bind]; rfl, ok_bind]
  split_ifs with hany
  · rfl
  · rw [mapM_eq_ok _ fun e he => pairOf_eq h hfiles he]
    rfl

theorem componentOperations_eq (hfiles : comp.1.length + comp.2.length ≤ 1024) :
    componentOperations comp = .ok (Assign.componentOperations comp) := by
  have halternatives : min comp.1.length comp.2.length + 1 ≤ 1025 := by omega
  have h₁ := Nat.mul_le_mul halternatives (show comp.1.length ≤ 1024 by omega)
  have h₂ := Nat.mul_le_mul h₁ (show comp.1.length ≤ 1024 by omega)
  have h₃ := Nat.mul_le_mul h₂ (show comp.2.length + comp.1.length ≤ 1024 by omega)
  unfold componentOperations Assign.componentOperations
  simp only
  rw [u128_eq (by omega), ok_bind, u128_eq (by omega), ok_bind, u128_eq (by omega), ok_bind,
    u128_eq (by omega)]

/-- The loop, with the tables of what has been seen. -/
def ofLoop (n sourceCount : ℕ) (s : Assign.Loop) : Loop :=
  ⟨ofSeen n sourceCount s.seen, s.pairs, s.operations⟩

/-- **One iteration** over the components. -/
theorem visit_eq (h : Fits policy candidates edges) (hG : Heaviest.IsGraph edges sourceCount)
    (hlen : edges.length = candidates.length) (hnodup : ∀ row ∈ edges, (row.map Prod.fst).Nodup)
    {done : List ℕ} {s : Assign.Loop} (hs : Heaviest.Assigned policy candidates edges done s)
    (hstart : start < edges.length) :
    visit policy candidates edges (units policy candidates edges) (vec sourceCount (reverse edges))
        (ofLoop edges.length sourceCount s) start =
      .ok ((Assign.visit policy candidates edges sourceCount s start).map
        (ofLoop edges.length sourceCount)) := by
  unfold visit Assign.visit
  rw [show (ofLoop edges.length sourceCount s).seen.candidates = vec edges.length fun i =>
    s.seen (true, i) from rfl,
    getAt_vec _ hstart, ok_bind]
  cases hseen : s.seen (true, start) with
  | true => rfl
  | false =>
    rw [if_neg (by simp), getAt_eq (List.getElem?_eq_getElem hstart), ok_bind,
      List.getD_eq_getElem _ _ hstart, Bool.false_or]
    cases hempty : edges[start].isEmpty with
    | true => rfl
    | false =>
      obtain ⟨hcomp, -, -⟩ := Heaviest.component_spec hG hstart hs.closed hseen
      rw [if_neg (by simp), if_neg (by simp), show (ofLoop edges.length sourceCount s).seen =
        ofSeen edges.length sourceCount s.seen from rfl, component_eq hG hstart hseen, ok_bind]
      simp only
      set found := Assign.component start edges sourceCount s.seen with hfound
      by_cases hfiles : found.1.1.length + found.1.2.length > policy.maxAssignmentComponentFiles ||
          found.1.1.length + found.1.2.length > policy.maxAssignmentFiles
      · rw [if_pos hfiles, if_pos hfiles]
        rfl
      · have hsmall : found.1.1.length + found.1.2.length ≤ 1024 := by
          simp only [Bool.or_eq_true, decide_eq_true_eq, not_or, not_lt] at hfiles
          exact hfiles.1.trans h.componentFiles
        have hmem : ∀ c ∈ found.1.1, c < edges.length := fun c hc =>
          mem_allNodes.mp (Heaviest.mem_allNodes_of_reach hG hstart
            ((hcomp.mem_candidates c).mp hc))
        -- a saturated sum is over the budget as well
        have hops : saturatingAdd s.operations (Assign.componentOperations found.1) >
            policy.maxAssignmentOperations ↔
              s.operations + Assign.componentOperations found.1 >
                policy.maxAssignmentOperations := by
          have := h.operations
          unfold saturatingAdd
          omega
        rw [if_neg hfiles, if_neg hfiles, componentOperations_eq hsmall, ok_bind,
          show (ofLoop edges.length sourceCount s).operations = s.operations from rfl]
        simp only [hops]
        split_ifs with hbudget
        · rfl
        · have hsum : saturatingAdd s.operations (Assign.componentOperations found.1) =
              s.operations + Assign.componentOperations found.1 := by
            have := h.operations
            unfold saturatingAdd
            omega
          rw [assignComponent_eq h hlen hnodup hcomp hmem (by omega), ok_bind, hsum]
          cases Assign.assignComponent policy candidates edges found.1 <;> rfl

theorem visits_eq (h : Fits policy candidates edges) (hG : Heaviest.IsGraph edges sourceCount)
    (hlen : edges.length = candidates.length) (hnodup : ∀ row ∈ edges, (row.map Prod.fst).Nodup) :
    foldStop (visit policy candidates edges (units policy candidates edges)
      (vec sourceCount (reverse edges)))
        (List.range candidates.length) (ofLoop edges.length sourceCount initialLoop) =
      .ok ((assignEdges policy candidates edges sourceCount).map
        (ofLoop edges.length sourceCount)) := by
  refine foldStop_eq (ofLoop edges.length sourceCount) (Heaviest.Assigned policy candidates edges)
    (l := List.range candidates.length) (fun before start after s hl hs =>
      ⟨?_, fun s' hs' => hs.visit hG hs'⟩)
    _ [] _ rfl Heaviest.assigned_initialLoop
  have hstart : start ∈ List.range candidates.length := by rw [hl]; simp
  exact visit_eq h hG hlen hnodup hs (by rw [hlen]; exact List.mem_range.mp hstart)

end

section

variable {policy : MatchingPolicy} {candidates : List TorrentFile} {sources : List SourceFile}
variable {score : TorrentFile → LocalSourceFile → Option ℕ}

theorem nodup_candidateEdges (candidate : TorrentFile) :
    ((Heaviest.candidateEdges policy sources score candidate).map Prod.fst).Nodup := by
  have hsub : ((Heaviest.candidateEdges policy sources score candidate).map Prod.fst).Sublist
      (candidateBucket policy sources candidate) := by
    unfold Heaviest.candidateEdges
    induction candidateBucket policy sources candidate with
    | nil => exact List.Sublist.slnil
    | cons index l ih =>
      cases hscore : scoreAt sources score candidate index with
      | none =>
        simp only [List.filterMap_cons, hscore, Option.map_none]
        exact ih.cons index
      | some value =>
        simp only [List.filterMap_cons, hscore, Option.map_some, List.map_cons]
        exact ih.cons_cons index
  exact hsub.nodup Heaviest.nodup_sourceBucket

/-- The limits under which the numbers of the assignment fit. -/
structure Limits (policy : MatchingPolicy) : Prop where
  edges : policy.maxCandidateEdges ≤ 1000000
  componentFiles : policy.maxAssignmentComponentFiles ≤ 1024
  operations : policy.maxAssignmentOperations < 2 ^ 64

/-- **The assignment** leaves no range and no vector, if the scores are those of `edge_score`. -/
theorem assignWith_eq (hlimits : Limits policy)
    (hsizes : (candidates.map TorrentFile.size).sum < 2 ^ 64)
    (hscore : ∀ file source v, score file source = some v → 0 < v ∧ v ≤ 1111111) :
    assignWith policy candidates sources score =
      .ok (Assign.assignWith policy candidates sources score) := by
  unfold assignWith Assign.assignWith
  split_ifs with hfiles
  · rfl
  rw [collectEdges_eq, ok_bind, Heaviest.collectEdges_eq]
  split_ifs with hbudget
  · rfl
  simp only
  set edges := Heaviest.allEdges policy candidates sources score with hedges
  have hlen : edges.length = candidates.length := Heaviest.length_allEdges
  have hfits : Fits policy candidates edges := by
    refine ⟨?_, hsizes, hlimits.componentFiles, hlimits.operations⟩
    have hsum := Heaviest.sum_scores_le policy candidates sources
      fun file source v h => (hscore file source v h).2
    have hcount := hlimits.edges
    rw [← hedges] at hsum
    omega
  have hG : Heaviest.IsGraph edges sources.length :=
    Heaviest.isGraph_allEdges policy candidates sources fun file source v h =>
      (hscore file source v h).1
  have hnodup : ∀ row ∈ edges, (row.map Prod.fst).Nodup := by
    intro row hrow
    obtain ⟨candidate, -, rfl⟩ := List.mem_map.mp hrow
    exact nodup_candidateEdges candidate
  have hstart : ofLoop edges.length sources.length initialLoop =
      ⟨⟨List.replicate candidates.length false, List.replicate sources.length false⟩, [], 0⟩ := by
    rw [replicate_eq_vec candidates.length, replicate_eq_vec sources.length, hlen]
    rfl
  rw [unitsOf_eq hfits, ok_bind, ← hstart, visits_eq hfits hG hlen hnodup, ok_bind]
  cases assignEdges policy candidates edges sources.length with
  | ok s => rfl
  | error e => cases e <;> rfl

end

end Sporos.Matcher.CheckedAssign
