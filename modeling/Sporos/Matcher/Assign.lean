import Sporos.Lib.Search
import Sporos.Matcher.Files
import Sporos.Matcher.Hungarian
import Mathlib.Data.List.Sort

/-! # The assignment of files

`assign_with` of `matcher.rs`: the edges between candidate and source files of one bucket, the
connected components of the graph they form, and for each component the assignment of largest
weight. A component with a second assignment of that weight makes the whole assignment ambiguous.

Candidates and sources are named by their indices. A node of the graph is an index with the side it
is on, `true` for a candidate, so that the two `seen` vectors of the source are one function. The
weights are unbounded numbers; the source computes them in `u128` and asserts that they fit. -/

namespace Sporos.Matcher.Assign

open Sporos.Model.Matching
open Sporos.Matcher.Release
open Sporos.Matcher.Files
open Sporos.Matcher.Hungarian (hungarian)
open Sporos.Lib.Search (searchFrom)

/-! ### Buckets and edges -/

/-- What the files of a bucket share. -/
structure BucketKey where
  size : ℕ
  primary : Bool
  extension : Option Str
  deriving DecidableEq, Repr

/-- The bucket of a file; the extension matters only if it is not primary. -/
def bucket (size : ℕ) (path : Str) (primary : Bool) : BucketKey where
  size
  primary
  extension := if primary then none else some (toAsciiLowercase ((extension path).getD []))

/-- The pairs of a candidate and a source file with their scores, and whether another choice is as
good. -/
structure Assignment where
  pairs : List (ℕ × ℕ × ℕ)
  ambiguous : Bool
  deriving DecidableEq, Repr

/-- Why there is no assignment. -/
inductive AssignmentError where
  | budgetExceeded
  deriving DecidableEq, Repr

/-- A source file with the source it belongs to. -/
abbrev SourceFile := SourceId × LocalSourceFile

/-- The edges of each candidate: the index of a source and the score of the pair. -/
abbrev Edges := List (List (ℕ × ℕ))

section

variable (policy : MatchingPolicy) (sources : List SourceFile)
variable (score : TorrentFile → LocalSourceFile → Option ℕ)

/-- `source_buckets.get`: the indices of the sources in one bucket. -/
def sourceBucket (key : BucketKey) : List ℕ :=
  (List.range sources.length).filter (fun index =>
    (sources[index]?).any (fun source =>
      bucket source.2.size source.2.path (primaryPath policy source.2.path) = key))

/-- The source files that a candidate file may be assigned to. -/
def candidateBucket (candidate : TorrentFile) : List ℕ :=
  sourceBucket policy sources (bucket candidate.size candidate.path (primary policy candidate))

/-- The score of a candidate and the source at an index. -/
def scoreAt (candidate : TorrentFile) (index : ℕ) : Option ℕ :=
  (sources[index]?).bind (fun source => score candidate source.2)

/-- Add the edge to one source, if there is one, to the edges of the candidate and to the count. -/
def pushEdge (candidate : TorrentFile) (acc : List (ℕ × ℕ) × ℕ) (index : ℕ) :
    Except AssignmentError (List (ℕ × ℕ) × ℕ) :=
  match scoreAt sources score candidate index with
  | none => .ok acc
  | some value =>
    if acc.2 + 1 > policy.maxCandidateEdges then .error .budgetExceeded
    else .ok (acc.1 ++ [(index, value)], acc.2 + 1)

/-- Add the edges of one candidate. -/
def pushCandidate (acc : Edges × ℕ) (candidate : TorrentFile) :
    Except AssignmentError (Edges × ℕ) :=
  ((candidateBucket policy sources candidate).foldlM (pushEdge policy sources score candidate)
    ([], acc.2)).map (fun row => (acc.1 ++ [row.1], row.2))

/-- The edges of all candidate files, within the budget. -/
def collectEdges (candidates : List TorrentFile) : Except AssignmentError Edges :=
  (candidates.foldlM (pushCandidate policy sources score) ([], 0)).map Prod.fst

end

/-! ### Components -/

/-- An index of a candidate (`true`) or of a source. -/
abbrev Node := Bool × ℕ

/-- `reverse[source]`: the candidates with an edge to a source. -/
def reverse (edges : Edges) (source : ℕ) : List ℕ :=
  (List.range edges.length).filter (fun candidate => (edges.getD candidate []).any (·.1 = source))

/-- The nodes next to a node; the flag tells the candidates from the sources. -/
def neighbours (edges : Edges) : Node → List Node
  | (true, candidate) => (edges.getD candidate []).map (fun edge => (false, edge.1))
  | (false, source) => (reverse edges source).map (fun candidate => (true, candidate))

/-- The indices on one side, in increasing order. -/
def side (candidateSide : Bool) (nodes : List Node) : List ℕ :=
  ((nodes.filter (·.1 = candidateSide)).map Prod.snd).insertionSort (· ≤ ·)

/-- The candidates and the sources of the component of `start`, and the nodes seen. -/
def component (start : ℕ) (edges : Edges) (sourceCount : ℕ) (seen : Node → Bool) :
    (List ℕ × List ℕ) × (Node → Bool) :=
  let found := searchFrom (neighbours edges) (edges.length + sourceCount + 1) (true, start) seen
  ((side true found.1, side false found.1), found.2)

/-! ### The optimal assignment of a component -/

/-- A row of weights for each candidate file of a component. -/
abbrev Weights := List (List (Option ℕ))

/-- The weight of a pair, if there is an edge. -/
def weightAt (weights : Weights) (row column : ℕ) : Option ℕ :=
  (weights.getD row []).getD column none

/-- The cost of a row and a column: the columns after the sources are the dummy columns. -/
def cost (weights : Weights) (banned : Option (ℕ × ℕ)) (row column : ℕ) : ℤ :=
  if column < (weights.headD []).length ∧ banned ≠ some (row, column) then
    -((weightAt weights row column).getD 0 : ℕ)
  else 0

/-- The matrix for the algorithm: a column for each source file, and one for each candidate file
that is left out. -/
def costs (weights : Weights) (banned : Option (ℕ × ℕ)) : List (List ℤ) :=
  (List.range weights.length).map (fun row =>
    (List.range ((weights.headD []).length + weights.length)).map (cost weights banned row))

/-- An assigned row and column are a pair of files unless the column is a dummy, the pair is banned
or there is no edge. -/
def selectPair (weights : Weights) (banned : Option (ℕ × ℕ)) (assigned : ℕ × ℕ) : Option (ℕ × ℕ) :=
  if assigned.2 < (weights.headD []).length ∧ banned ≠ some assigned
      ∧ (weightAt weights assigned.1 assigned.2).isSome then some assigned
  else none

/-- The weight and the pairs of the best assignment without the banned pair. -/
def optimalAssignment (weights : Weights) (banned : Option (ℕ × ℕ)) : ℕ × List (ℕ × ℕ) :=
  if weights.length = 0 then (0, [])
  else
    let pairs := ((hungarian (costs weights banned)).zipIdx.map Prod.swap).filterMap
      (selectPair weights banned)
    ((pairs.map (fun pair => (weightAt weights pair.1 pair.2).getD 0)).sum, pairs)

/-! ### The assignment -/

/-- Why the loop over the components stops early. -/
inductive Stop where
  | budgetExceeded
  | ambiguous
  deriving DecidableEq, Repr

/-- The loop over the components: the nodes seen, the pairs and the operations so far. -/
structure Loop where
  seen : Node → Bool
  pairs : List (ℕ × ℕ × ℕ)
  operations : ℕ

section

variable (policy : MatchingPolicy) (candidates : List TorrentFile)

/-- More than all scores together. -/
def scoreUnit (edges : Edges) : ℕ := sumU64 (edges.flatten.map Prod.snd) + 1

/-- The bytes of the primary files. -/
def primaryBytes : ℕ := ((candidates.filter (primary policy)).map TorrentFile.size).sum

/-- More than all primary bytes together, each with all scores. -/
def requiredUnit (edges : Edges) : ℕ := (primaryBytes policy candidates + 1) * scoreUnit edges

/-- The weight of an edge of a candidate. -/
def edgeWeight (edges : Edges) (candidate : TorrentFile) (value : ℕ) : ℕ :=
  value + (if primary policy candidate then candidate.size * scoreUnit edges else 0)
    + (if required policy candidate then requiredUnit policy candidates edges else 0)

/-- The raw score of an edge. -/
def rawAt (edges : Edges) (candidate source : ℕ) : Option ℕ :=
  (edges.getD candidate []).lookup source

/-- The weight of a pair of indices. -/
def pairWeight (edges : Edges) (candidate source : ℕ) : Option ℕ :=
  (candidates[candidate]?).bind (fun file =>
    (rawAt edges candidate source).map (edgeWeight policy candidates edges file))

/-- The weights of a component. -/
def componentWeights (edges : Edges) (component : List ℕ × List ℕ) : Weights :=
  component.1.map (fun candidate => component.2.map (pairWeight policy candidates edges candidate))

/-- The pairs of a component, unless one of them can be replaced without loss. -/
def assignComponent (edges : Edges) (component : List ℕ × List ℕ) :
    Except Stop (List (ℕ × ℕ × ℕ)) :=
  let weights := componentWeights policy candidates edges component
  let best := optimalAssignment weights none
  if best.2.any (fun pair => (optimalAssignment weights (some pair)).1 = best.1) then
    .error .ambiguous
  else .ok (best.2.map (fun pair =>
    let candidate := component.1.getD pair.1 0
    let source := component.2.getD pair.2 0
    (candidate, source, (rawAt edges candidate source).getD 0)))

/-- The operations counted for a component. -/
def componentOperations (component : List ℕ × List ℕ) : ℕ :=
  let rows := component.1.length
  let columns := component.2.length + component.1.length
  (min component.1.length component.2.length + 1) * rows * rows * columns

/-- The component of a candidate file that has not been seen, with its assignment. -/
def visit (edges : Edges) (sourceCount : ℕ) (s : Loop) (start : ℕ) : Except Stop Loop :=
  if s.seen (true, start) || (edges.getD start []).isEmpty then .ok s
  else
    let found := component start edges sourceCount s.seen
    let files := found.1.1.length + found.1.2.length
    let operations := s.operations + componentOperations found.1
    if files > policy.maxAssignmentComponentFiles || files > policy.maxAssignmentFiles then
      .error .budgetExceeded
    else if operations > policy.maxAssignmentOperations then .error .budgetExceeded
    else (assignComponent policy candidates edges found.1).map (fun pairs =>
      ⟨found.2, s.pairs ++ pairs, operations⟩)

/-- Nothing has been seen yet. -/
def initialLoop : Loop := ⟨fun _ => false, [], 0⟩

/-- The loop over the components. -/
def assignEdges (edges : Edges) (sourceCount : ℕ) : Except Stop Loop :=
  (List.range candidates.length).foldlM (visit policy candidates edges sourceCount) initialLoop

variable (sources : List SourceFile) (score : TorrentFile → LocalSourceFile → Option ℕ)

/-- The assignment of the files along edges with the given scores. -/
def assignWith : Except AssignmentError Assignment :=
  if candidates.length > policy.maxAssignmentFiles
      ∨ sources.length > policy.maxAssignmentFiles - candidates.length then .error .budgetExceeded
  else match collectEdges policy sources score candidates with
    | .error e => .error e
    | .ok edges =>
      match assignEdges policy candidates edges sources.length with
      | .ok s => .ok ⟨s.pairs, false⟩
      | .error .ambiguous => .ok ⟨[], true⟩
      | .error .budgetExceeded => .error .budgetExceeded

end

/-- `assign`. -/
def assign (U : Unicode) (policy : MatchingPolicy) (candidates : List TorrentFile)
    (sources : List SourceFile) : Except AssignmentError Assignment :=
  assignWith policy candidates sources (edgeScore U policy false)

/-- `assign_season`. -/
def assignSeason (U : Unicode) (policy : MatchingPolicy) (candidates : List TorrentFile)
    (sources : List SourceFile) : Except AssignmentError Assignment :=
  assignWith policy candidates sources (edgeScore U policy true)

end Sporos.Matcher.Assign
