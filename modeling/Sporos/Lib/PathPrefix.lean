import Sporos.Lib.Trim
import Sporos.Lib.UnixPath

/-! # Prefixes of paths

`Path::strip_prefix` and `PathBuf::push`. A path is under another one if its components start with
those of the other; what is left of it can be put behind an absolute path, and then has the
components that were left (`pathComponents_push`). Two paths are equal if their components are. -/

namespace Sporos.Lib.PathPrefix

open Sporos.Lib.UnixPath
open Sporos.Lib.Trim (trim exists_trim Trimmed)

deriving instance DecidableEq for Sporos.Lib.UnixPath.Component

variable {α : Type*} [DecidableEq α]

section

variable (sep dot : α)

/-- The component of a piece that counts. -/
def toComponent (piece : List α) : Component α := if piece = [dot, dot] then .parentDir
    else .normal piece

/-- What is left of the pieces after the first ones that count. -/
def dropPieces : ℕ → List (List α) → List (List α)
  | 0, pieces => pieces
  | _ + 1, [] => []
  | n + 1, piece :: pieces =>
    if isSkipped dot piece then dropPieces (n + 1) pieces else dropPieces n pieces

/-- `Components::as_path` after some components: what is left, without the pieces at its ends that
do not count. -/
def rest (n : ℕ) (path : List α) : List α :=
  let start := lenBeforeBody sep dot path
  [sep].intercalate
    (trim (isSkipped dot) (dropPieces dot (n - start) ((path.drop start).splitOn sep)))

/-- `Path::starts_with`. -/
def startsWith (path base : List α) : Bool :=
  pathComponents sep dot base <+: pathComponents sep dot path

/-- `Path::strip_prefix`. -/
def stripPrefix (path base : List α) : Option (List α) :=
  if startsWith sep dot path base then
    match (pathComponents sep dot base).length with
    | 0 => some (trimmed sep dot path)
    | n + 1 => some (rest sep dot (n + 1) path)
  else none

/-- `PathBuf::push`. -/
def push (path name : List α) : List α := if isAbsolute sep name then name else join sep path name

/-- `PathBuf::eq`. -/
def SamePath (path path' : List α) : Prop :=
  pathComponents sep dot path = pathComponents sep dot path'

instance (path path' : List α) : Decidable (SamePath sep dot path path') :=
  inferInstanceAs (Decidable (pathComponents sep dot path = pathComponents sep dot path'))

end

section

variable {sep dot : α}

/-- The pieces that count. -/
def counted (dot : α) (pieces : List (List α)) : List (List α) := pieces.filter fun piece =>
    !isSkipped dot piece

theorem counted_dropPieces : ∀ (n : ℕ) (pieces : List (List α)),
    counted dot (dropPieces dot n pieces) = (counted dot pieces).drop n
  | 0, pieces => by rw [dropPieces, List.drop_zero]
  | n + 1, [] => by simp [dropPieces, counted]
  | n + 1, piece :: pieces => by
    rw [dropPieces]
    split_ifs with hskip
    · rw [counted_dropPieces (n + 1) pieces]
      simp [counted, hskip]
    · rw [counted_dropPieces n pieces]
      simp [counted, hskip]

theorem dropPieces_suffix : ∀ (n : ℕ) (pieces : List (List α)), dropPieces dot n pieces <:+ pieces
  | 0, pieces => by rw [dropPieces]
  | _ + 1, [] => List.suffix_refl []
  | n + 1, piece :: pieces => by
    rw [dropPieces]
    split_ifs
    · exact (dropPieces_suffix (n + 1) pieces).trans (List.suffix_cons piece pieces)
    · exact (dropPieces_suffix n pieces).trans (List.suffix_cons piece pieces)

theorem counted_trim (pieces : List (List α)) :
    counted dot (trim (isSkipped dot) pieces) = counted dot pieces := by
  obtain ⟨before, after, heq, hbefore, hafter, -⟩ := exists_trim (isSkipped dot) pieces
  have hblank : ∀ blank : List (List α), Trim.Blank (isSkipped dot) blank →
      counted dot blank = [] :=
    fun blank h => List.filter_eq_nil_iff.mpr fun piece hmem => by simp [h piece hmem]
  nth_rewrite 2 [heq]
  rw [counted, counted, List.filter_append, List.filter_append]
  change _ = counted dot before ++ _ ++ counted dot after
  rw [hblank before hbefore, hblank after hafter, List.nil_append, List.append_nil]

/-- Pieces with separators between them have the components that count among them. -/
theorem components_intercalate {pieces : List (List α)} (h : ∀ piece ∈ pieces, sep ∉ piece) :
    components sep dot ([sep].intercalate pieces) = counted dot pieces := by
  by_cases hne : pieces = []
  · simp [hne, components, counted, isSkipped]
  · rw [components, List.splitOn_intercalate sep h hne]
    rfl

theorem pathComponents_absolute {path : List α} (h : isAbsolute sep path = true) :
    pathComponents sep dot path = .rootDir :: (components sep dot path).map (toComponent dot) := by
  rw [pathComponents, if_pos h]
  rfl

/-- Only an absolute path starts with the root. -/
theorem isAbsolute_of_prefix {path base : List α} (hbase : isAbsolute sep base = true)
    (h : startsWith sep dot path base = true) : isAbsolute sep path = true := by
  by_contra hrelative
  rw [startsWith, decide_eq_true_iff, pathComponents_absolute hbase] at h
  obtain ⟨rest, hrest⟩ := h
  have hmem : Component.rootDir ∈ pathComponents sep dot path := by rw [← hrest]; simp
  rw [pathComponents, if_neg hrelative, List.mem_append, List.mem_map] at hmem
  rcases hmem with hstart | ⟨name, -, hname⟩
  · split_ifs at hstart <;> simp at hstart
  · split_ifs at hname

/-- What is left of an absolute path: a relative path with the components that are left. -/
theorem rest_spec (dot : α) {path : List α} (h : isAbsolute sep path = true) (n : ℕ) :
    isAbsolute sep (rest sep dot (n + 1) path) = false
      ∧ components sep dot (rest sep dot (n + 1) path) = (components sep dot path).drop n := by
  obtain ⟨body, rfl⟩ : ∃ body, path = sep :: body := by
    obtain ⟨body, hbody⟩ := List.head?_eq_some_iff.mp (of_decide_eq_true h)
    exact ⟨body, hbody⟩
  have hstart : lenBeforeBody sep dot (sep :: body) = 1 := if_pos (.inl h)
  have hcomponents : components sep dot (sep :: body) = counted dot (body.splitOn sep) := by
    have happend := components_append sep dot [] body
    rw [List.nil_append] at happend
    rw [happend]
    simp [components, isSkipped, counted]
  set pieces := dropPieces dot n (body.splitOn sep) with hpieces
  have hrest : rest sep dot (n + 1) (sep :: body) =
      [sep].intercalate (trim (isSkipped dot) pieces) := by
    simp [rest, hstart, hpieces]
  have hseparator : ∀ piece ∈ trim (isSkipped dot) pieces, sep ∉ piece := by
    obtain ⟨before, after, heq, -⟩ := exists_trim (isSkipped dot) pieces
    intro piece hmem
    have hmem' : piece ∈ pieces := by
      rw [heq]
      simp [hmem]
    exact sep_notMem_of_mem_splitOn ((dropPieces_suffix n _).subset hmem')
  refine ⟨?_, ?_⟩
  · -- the first piece counts: it has an element, which is no separator
    obtain ⟨-, -, -, -, -, hends⟩ := exists_trim (isSkipped dot) pieces
    rw [hrest]
    rcases htrim : trim (isSkipped dot) pieces with _ | ⟨piece, pieces'⟩
    · simp [isAbsolute]
    · rw [htrim] at hends hseparator
      have hpiece : isSkipped dot piece = false := hends.1 piece rfl
      have hnot : sep ∉ piece := hseparator piece (by simp)
      rcases piece with _ | ⟨a, piece⟩
      · simp [isSkipped] at hpiece
      · have hne : a ≠ sep := fun heq => hnot (by simp [heq])
        cases pieces' <;> simp [isAbsolute, hne]
  · rw [hrest, components_intercalate hseparator, counted_trim, hpieces,
      counted_dropPieces, hcomponents]

/-- What a path without separator at its start adds to an absolute one. -/
theorem components_join (dot : α) {path : List α} (h : isAbsolute sep path = true) (name : List α) :
    isAbsolute sep (join sep path name) = true
      ∧ components sep dot (join sep path name) = components sep dot path
        ++ components sep dot name := by
  have hhead : ∀ last : List α, isAbsolute sep (path ++ last) = true := by
    intro last
    obtain ⟨body, rfl⟩ := List.head?_eq_some_iff.mp (of_decide_eq_true h)
    simp [isAbsolute]
  unfold join
  split_ifs with hend
  · refine ⟨hhead name, ?_⟩
    rcases hend with rfl | hlast
    · simp [isAbsolute] at h
    · obtain ⟨front, rfl⟩ := List.getLast?_eq_some_iff.mp hlast
      have hempty : components sep dot [] = [] := by simp [components, isSkipped]
      calc components sep dot (front ++ [sep] ++ name)
          = components sep dot (front ++ sep :: name) := by simp
        _ = components sep dot front ++ components sep dot name := components_append ..
        _ = components sep dot (front ++ [sep]) ++ components sep dot name := by
            rw [components_append sep dot front [], hempty, List.append_nil]
  · exact ⟨hhead _, components_append ..⟩

theorem stripPrefix_eq_none {path base : List α} :
    stripPrefix sep dot path base = none ↔ startsWith sep dot path base = false := by
  unfold stripPrefix
  cases startsWith sep dot path base with
  | false => simp
  | true =>
    rw [if_pos rfl]
    split <;> simp

/-- **A path under an absolute one, put under another absolute one**: its components after those of
the first. -/
theorem pathComponents_push {path base base' suffix : List α} (hbase : isAbsolute sep base = true)
    (hbase' : isAbsolute sep base' = true) (h : stripPrefix sep dot path base = some suffix) :
    ∃ tail, pathComponents sep dot path = pathComponents sep dot base ++ tail
      ∧ pathComponents sep dot (push sep base' suffix) = pathComponents sep dot base' ++ tail := by
  have hstarts : startsWith sep dot path base = true := by
    by_contra hnot
    rw [stripPrefix_eq_none.mpr (Bool.eq_false_iff.mpr hnot)] at h
    cases h
  have hpath := isAbsolute_of_prefix hbase hstarts
  rw [stripPrefix, if_pos hstarts] at h
  rw [startsWith, decide_eq_true_iff] at hstarts
  obtain ⟨tail, htail⟩ := hstarts
  refine ⟨tail, htail.symm, ?_⟩
  rw [pathComponents_absolute hbase] at h
  obtain rfl := Option.some.inj h
  rw [List.length_map]
  obtain ⟨hrelative, hrest⟩ := rest_spec dot hpath (components sep dot base).length
  obtain ⟨habsolute, hjoin⟩ := components_join dot hbase'
    (rest sep dot ((components sep dot base).length + 1) path)
  -- what is left has the components of the path after those of the base
  have hleft : tail = ((components sep dot path).drop (components sep dot base).length).map
      (toComponent dot) := by
    rw [pathComponents_absolute hbase, pathComponents_absolute hpath, List.cons_append] at htail
    have hmap := congrArg (List.drop (components sep dot base).length) (List.cons.inj htail).2
    rw [List.drop_append, List.drop_of_length_le (by simp), List.length_map,
      Nat.sub_self, List.drop_zero, List.nil_append] at hmap
    rw [hmap, List.map_drop]
  rw [push, hrelative, if_neg Bool.false_ne_true, pathComponents_absolute habsolute, hjoin, hrest,
    List.map_append, pathComponents_absolute hbase', ← hleft]
  rfl

end

end Sporos.Lib.PathPrefix
