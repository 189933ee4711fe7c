import Mathlib.Data.List.TakeWhile
import Mathlib.Tactic

/-! # Unix paths

A path is a sequence of bytes or of characters, with a separator and a dot. The functions are those
of `std::path`: a path is read component by component from its end, where empty components and
single dots do not count. `Normal` names are those that a directory lists. A text whose UTF-8
encoding has a byte of ASCII has that character there (`bytes_split`). -/

namespace Sporos.Lib.UnixPath

variable {α : Type*} [DecidableEq α]

section

variable (sep dot : α)

/-- `Path::is_absolute`. -/
def isAbsolute (path : List α) : Bool := path.head? = some sep

/-- The number of elements before the body of a path: those of its root, or of a dot at its start.
-/
def lenBeforeBody (path : List α) : ℕ :=
  if isAbsolute sep path ∨ path = [dot] ∨ [dot, sep] <+: path then 1 else 0

/-- The elements after the last separator. -/
def lastComponent (body : List α) : List α := (body.reverse.takeWhile (· ≠ sep)).reverse

/-- The elements before the last separator. -/
def beforeComponent (body : List α) : List α := (body.reverse.dropWhile (· ≠ sep)).tail.reverse

/-- A component that does not count. -/
def isSkipped (component : List α) : Bool := component = [] ∨ component = [dot]

/-- `Components::trim_right`, with a bound on the number of components. -/
def trimRight : ℕ → List α → List α
  | 0, path => path
  | n + 1, path =>
    let start := lenBeforeBody sep dot path
    let body := path.drop start
    if body ≠ [] ∧ isSkipped dot (lastComponent sep body) then
      trimRight n (path.take start ++ beforeComponent sep body)
    else path

/-- The path without the components at its end that do not count. -/
def trimmed (path : List α) : List α := trimRight sep dot path.length path

/-- `Path::file_name`. -/
def fileName (path : List α) : Option (List α) :=
  let path := trimmed sep dot path
  let body := path.drop (lenBeforeBody sep dot path)
  if body = [] ∨ lastComponent sep body = [dot, dot] then none else some (lastComponent sep body)

/-- `Path::parent`. -/
def parent (path : List α) : Option (List α) :=
  let path := trimmed sep dot path
  let start := lenBeforeBody sep dot path
  let body := path.drop start
  if body = [] then (if path = [dot] then some [] else none)
  else some (trimmed sep dot (path.take start ++ beforeComponent sep body))

/-- `Path::ancestors`, with a bound on their number. -/
def ancestorsUpTo : ℕ → List α → List (List α)
  | 0, path => [path]
  | n + 1, path => path :: ((parent sep dot path).map (ancestorsUpTo n)).getD []

/-- The path, its parent, the parent of that, and so on. -/
def ancestors (path : List α) : List (List α) := ancestorsUpTo sep dot path.length path

/-- `Path::join` with a path that is not absolute. -/
def join (path name : List α) : List α :=
  if path = [] ∨ path.getLast? = some sep then path ++ name else path ++ sep :: name

/-- The components of a path that are names. -/
def components (path : List α) : List (List α) :=
  (path.splitOn sep).filter fun component => !isSkipped dot component

/-- `std::path::Component` on Unix. -/
inductive Component (α : Type*) where
  | rootDir
  | curDir
  | parentDir
  | normal (name : List α)

/-- `Path::components`: a dot counts at the start of a path only. -/
def pathComponents (path : List α) : List (Component α) :=
  (if isAbsolute sep path then [.rootDir]
    else if path = [dot] ∨ [dot, sep] <+: path then [.curDir] else [])
  ++ (components sep dot path).map fun name => if name = [dot, dot] then .parentDir
    else .normal name

/-- `Path::extension` of a file name. -/
def extension (name : List α) : Option (List α) :=
  if name = [dot, dot] ∨ dot ∉ name then none
  else if beforeComponent dot name = [] then none
  else some (lastComponent dot name)

/-- A name that a directory may list. -/
structure Normal (name : List α) : Prop where
  nonempty : name ≠ []
  separator : sep ∉ name
  current : name ≠ [dot]
  parent : name ≠ [dot, dot]

instance (name : List α) : Decidable (Normal sep dot name) :=
  decidable_of_iff (name ≠ [] ∧ sep ∉ name ∧ name ≠ [dot] ∧ name ≠ [dot, dot])
    ⟨fun h => ⟨h.1, h.2.1, h.2.2.1, h.2.2.2⟩, fun h => ⟨h.1, h.2, h.3, h.4⟩⟩

end

section

variable {sep dot : α} {name : List α}

theorem lastComponent_append (hname : sep ∉ name) {body : List α}
    (hbody : body = [] ∨ body.getLast? = some sep) : lastComponent sep (body ++ name) = name := by
  have htake : ∀ a ∈ name.reverse, decide (a ≠ sep) = true := by
    intro a ha
    have hne : a ≠ sep := fun heq => hname (heq ▸ List.mem_reverse.mp ha)
    simpa using hne
  rw [lastComponent, List.reverse_append, List.takeWhile_append_of_pos htake]
  rcases hbody with rfl | hlast
  · simp
  · obtain ⟨body, rfl⟩ := List.getLast?_eq_some_iff.mp hlast
    simp

/-- A path that ends with a name: its body ends with it too. -/
theorem body_append (hname : Normal sep dot name) {path : List α}
    (hpath : path = [] ∨ path.getLast? = some sep) :
    ∃ body, (path ++ name).drop (lenBeforeBody sep dot (path ++ name)) = body ++ name
      ∧ (body = [] ∨ body.getLast? = some sep) := by
  unfold lenBeforeBody
  split_ifs with hstart
  · cases path with
    | nil =>
      exfalso
      obtain ⟨a, rest, rfl⟩ := List.exists_cons_of_ne_nil hname.nonempty
      rcases hstart with habsolute | hdot | ⟨rest', hrest⟩
      · obtain rfl : a = sep := by simpa [isAbsolute] using habsolute
        exact hname.separator (by simp)
      · exact hname.current hdot
      · exact hname.separator (by rw [List.nil_append] at hrest; simp [← hrest])
    | cons a path =>
      refine ⟨path, rfl, ?_⟩
      rcases path with _ | ⟨b, path⟩
      · exact .inl rfl
      · exact .inr (by simpa using hpath)
  · exact ⟨path, rfl, hpath⟩

/-- **The name of a path that ends with one**, which has a parent. -/
theorem fileName_append (hname : Normal sep dot name) {path : List α}
    (hpath : path = [] ∨ path.getLast? = some sep) :
    fileName sep dot (path ++ name) = some name
      ∧ (parent sep dot (path ++ name)).isSome = true := by
  obtain ⟨body, hbody, hend⟩ := body_append hname hpath
  have hlast : lastComponent sep (body ++ name) = name := lastComponent_append hname.separator hend
  have hnonempty : body ++ name ≠ [] := by simp [hname.nonempty]
  have htrimmed : trimmed sep dot (path ++ name) = path ++ name := by
    unfold trimmed
    cases (path ++ name).length with
    | zero => rfl
    | succ n => simp [trimRight, hbody, hlast, isSkipped, hname.nonempty, hname.current]
  refine ⟨?_, ?_⟩
  · simp [fileName, htrimmed, hbody, hlast, hname.nonempty, hname.parent]
  · simp [parent, htrimmed, hbody, hname.nonempty]

theorem join_eq (sep : α) (path name : List α) :
    ∃ directory, join sep path name = directory ++ name
      ∧ (directory = [] ∨ directory.getLast? = some sep) := by
  unfold join
  split_ifs with h
  · exact ⟨path, rfl, h⟩
  · exact ⟨path ++ [sep], by simp, by simp⟩

/-! ### Components -/

theorem sep_notMem_lastComponent (sep : α) (body : List α) : sep ∉ lastComponent sep body := by
  intro h
  simpa using List.mem_takeWhile_imp (List.mem_reverse.mp h)

/-- A path without separators is one component; any other is cut at its last separator. -/
theorem body_eq (sep : α) (body : List α) :
    (beforeComponent sep body = [] ∧ lastComponent sep body = body)
      ∨ body = beforeComponent sep body ++ sep :: lastComponent sep body := by
  unfold beforeComponent lastComponent
  have hsplit := List.takeWhile_append_dropWhile (p := (· ≠ sep)) (l := body.reverse)
  rcases hrest : body.reverse.dropWhile (· ≠ sep) with _ | ⟨a, rest⟩
  · left
    rw [hrest, List.append_nil] at hsplit
    exact ⟨rfl, by rw [hsplit, List.reverse_reverse]⟩
  · right
    have ha : a = sep := by
      have hne : body.reverse.dropWhile (· ≠ sep) ≠ [] := by
        rw [hrest]; exact List.cons_ne_nil a rest
      have hhead := List.head_dropWhile_not _ hne
      simp only [hrest, List.head_cons, decide_eq_false_iff_not, not_not] at hhead
      exact hhead
    rw [hrest, ha] at hsplit
    simpa using (congrArg List.reverse hsplit).symm

theorem components_append (sep dot : α) (front last : List α) :
    components sep dot (front ++ sep :: last) = components sep dot front
      ++ components sep dot last := by
  rw [components, List.splitOn_append_cons_self, List.filter_append]
  rfl

theorem components_eq_single {last : List α} (hlast : sep ∉ last) :
    components sep dot last = if isSkipped dot last then [] else [last] := by
  rw [components, List.splitOn_eq_singleton hlast]
  cases h : isSkipped dot last <;> simp [h]

theorem sep_notMem_of_mem_splitOn {component : List α} :
    ∀ {path : List α}, component ∈ path.splitOn sep → sep ∉ component
  | [], h => by
    rw [List.splitOn_nil, List.mem_singleton] at h
    simp [h]
  | a :: path, h => by
    rw [List.splitOn_cons_eq_if_modifyHead] at h
    split_ifs at h with ha
    · rcases List.mem_cons.mp h with rfl | h
      · simp
      · exact sep_notMem_of_mem_splitOn h
    · rcases hsplit : path.splitOn sep with _ | ⟨first, rest⟩
      · simp [hsplit] at h
      · have ih : ∀ component ∈ path.splitOn sep, sep ∉ component :=
          fun component hmem => sep_notMem_of_mem_splitOn hmem
        rw [hsplit, List.modifyHead_cons] at h
        rw [hsplit] at ih
        rcases List.mem_cons.mp h with rfl | h
        · have hne : sep ≠ a := fun heq => ha (by simp [heq])
          simpa [hne] using ih first (by simp)
        · exact ih component (by simp [h])

/-- The components that are not `..` are names. -/
theorem normal_of_mem_pathComponents {path : List α}
    (h : .normal name ∈ pathComponents sep dot path) : Normal sep dot name := by
  unfold pathComponents at h
  have hmem : .normal name ∈ (components sep dot path).map fun name =>
      if name = [dot, dot] then Component.parentDir else .normal name := by
    split_ifs at h <;> simpa using h
  obtain ⟨name', hname', heq⟩ := List.mem_map.mp hmem
  split_ifs at heq with hdots
  obtain rfl := Component.normal.inj heq
  obtain ⟨hsplit, hskip⟩ := List.mem_filter.mp hname'
  simp only [isSkipped, Bool.not_eq_true', decide_eq_false_iff_not, not_or] at hskip
  exact ⟨hskip.1, sep_notMem_of_mem_splitOn hsplit, hskip.2, hdots⟩

/-- A path of which all components are names. -/
theorem pathComponents_eq_map {path : List α}
    (h : ∀ component ∈ pathComponents sep dot path, ∃ name, component = .normal name) :
    pathComponents sep dot path = (components sep dot path).map .normal := by
  have heq : pathComponents sep dot path = (components sep dot path).map fun name =>
      if name = [dot, dot] then .parentDir else .normal name := by
    unfold pathComponents at h ⊢
    split_ifs at h ⊢ with habsolute hcurrent
    · simpa using h .rootDir
    · simpa using h .curDir
    · rw [List.nil_append]
  rw [heq] at h ⊢
  refine List.map_congr_left fun name hname => if_neg fun hdots => ?_
  obtain ⟨name', hname'⟩ := h _ (List.mem_map.mpr ⟨name, hname, rfl⟩)
  rw [if_pos hdots] at hname'
  cases hname'

/-- A path has the components of what is before its last component, and that one if it counts. -/
theorem components_cut {path : List α} (hbody : path.drop (lenBeforeBody sep dot path) ≠ []) :
    components sep dot path
      = components sep dot (path.take (lenBeforeBody sep dot path)
          ++ beforeComponent sep (path.drop (lenBeforeBody sep dot path)))
        ++ components sep dot (lastComponent sep (path.drop (lenBeforeBody sep dot path))) := by
  rcases body_eq sep (path.drop (lenBeforeBody sep dot path)) with ⟨hbefore, hlast⟩ | hcut
  · rw [hbefore, List.append_nil, hlast]
    have hnot : sep ∉ path.drop (lenBeforeBody sep dot path) :=
      hlast ▸ sep_notMem_lastComponent sep _
    unfold lenBeforeBody at hbody hnot ⊢
    split_ifs at hbody hnot ⊢ with hroot
    · rcases hroot with habsolute | rfl | ⟨rest, rfl⟩
      · rcases path with _ | ⟨a, path⟩
        · exact absurd rfl hbody
        · obtain rfl : a = sep := by simpa [isAbsolute] using habsolute
          have hroot : components a dot [a] = components a dot [] ++ components a dot [] :=
            components_append a dot [] []
          have hempty : components a dot [] = [] := by simp [components, isSkipped]
          rw [hempty] at hroot
          calc components a dot (a :: path)
              = components a dot [] ++ components a dot path := components_append a dot [] path
            _ = components a dot [a] ++ components a dot path := by rw [hempty, hroot]; rfl
      · exact absurd rfl hbody
      · exact absurd (by simp) hnot
    · simp [components, isSkipped]
  · rw [← components_append, List.append_assoc, ← hcut, List.take_append_drop]

theorem length_cut_lt {path : List α} (hbody : path.drop (lenBeforeBody sep dot path) ≠ []) :
    (path.take (lenBeforeBody sep dot path)
      ++ beforeComponent sep (path.drop (lenBeforeBody sep dot path))).length < path.length := by
  have hlength : ∀ body : List α, body ≠ [] → (beforeComponent sep body).length < body.length := by
    intro body hne
    have hdrop := (List.dropWhile_suffix (l := body.reverse) (· ≠ sep)).length_le
    have hpos := List.length_pos_iff.mpr hne
    rw [List.length_reverse] at hdrop
    rw [beforeComponent, List.length_reverse, List.length_tail]
    omega
  have hpath := congrArg List.length (List.take_append_drop (lenBeforeBody sep dot path) path)
  rw [List.length_append] at hpath ⊢
  have := hlength _ hbody
  omega

/-- Trimming keeps the components, and leaves a path that ends with one of them or has none. -/
theorem trimRight_spec : ∀ {n : ℕ} {path : List α}, path.length ≤ n →
    components sep dot (trimRight sep dot n path) = components sep dot path
      ∧ ((trimRight sep dot n path).drop (lenBeforeBody sep dot (trimRight sep dot n path)) = []
        ∨ isSkipped dot (lastComponent sep
            ((trimRight sep dot n path).drop (lenBeforeBody sep dot (trimRight sep dot n path)))) =
              false)
  | 0, path, h => by
    obtain rfl := List.eq_nil_of_length_eq_zero (Nat.le_zero.mp h)
    exact ⟨rfl, .inl (by simp [trimRight])⟩
  | n + 1, path, h => by
    rw [trimRight]
    split_ifs with hskip
    · obtain ⟨hcomponents, hend⟩ := trimRight_spec (n := n) (Nat.lt_succ_iff.mp
        (lt_of_lt_of_le (length_cut_lt hskip.1) h))
      refine ⟨?_, hend⟩
      rw [hcomponents, components_cut hskip.1,
        components_eq_single (sep_notMem_lastComponent sep _),
        if_pos hskip.2, List.append_nil]
    · refine ⟨rfl, ?_⟩
      by_cases hbody : path.drop (lenBeforeBody sep dot path) = []
      · exact .inl hbody
      · exact .inr (by simpa [hbody] using hskip)

theorem components_trimmed (path : List α) :
    components sep dot (trimmed sep dot path) = components sep dot path := (trimRight_spec le_rfl).1

theorem trimmed_end (sep dot : α) (path : List α) :
    (trimmed sep dot path).drop (lenBeforeBody sep dot (trimmed sep dot path)) = []
      ∨ isSkipped dot (lastComponent sep
          ((trimmed sep dot path).drop (lenBeforeBody sep dot (trimmed sep dot path)))) = false :=
  (trimRight_spec le_rfl).2

/-- **The name of a path is its last component**, and its parent has the others. -/
theorem components_eq_of_fileName {path : List α} (h : fileName sep dot path = some name) :
    Normal sep dot name ∧ ∃ directory, parent sep dot path = some directory
      ∧ components sep dot path = components sep dot directory ++ [name] := by
  have hend := trimmed_end sep dot path
  unfold fileName at h
  dsimp only at h
  split_ifs at h with hnone
  rw [not_or] at hnone
  obtain ⟨hbody, hdots⟩ := hnone
  obtain rfl := Option.some.inj h
  have hskip := hend.resolve_left hbody
  have hnormal : Normal sep dot (lastComponent sep ((trimmed sep dot path).drop
      (lenBeforeBody sep dot (trimmed sep dot path)))) := by
    simp only [isSkipped, decide_eq_false_iff_not, not_or] at hskip
    exact ⟨hskip.1, sep_notMem_lastComponent sep _, hskip.2, hdots⟩
  refine ⟨hnormal, _, by rw [parent, if_neg hbody], ?_⟩
  rw [components_trimmed, ← components_trimmed path, components_cut hbody,
    components_eq_single hnormal.separator, hskip, if_neg Bool.false_ne_true]

theorem components_prefix_of_parent {path directory : List α}
    (h : parent sep dot path = some directory) :
    components sep dot directory <+: components sep dot path := by
  unfold parent at h
  dsimp only at h
  split_ifs at h with hbody hdot
  · obtain rfl := Option.some.inj h
    simp [components, isSkipped]
  · obtain rfl := Option.some.inj h
    rw [components_trimmed, ← components_trimmed path, components_cut hbody]
    exact List.prefix_append ..

/-! ### Plain paths -/

/-- A path that is names with single separators between them. -/
def Plain (sep dot : α) (path : List α) : Prop := ∀ component ∈ path.splitOn sep,
    Normal sep dot component

theorem Plain.nonempty {path : List α} (h : Plain sep dot path) : path ≠ [] := by
  rintro rfl
  exact (h [] (by simp)).nonempty rfl

theorem Plain.relative {path : List α} (h : Plain sep dot path) : isAbsolute sep path = false := by
  rw [isAbsolute, decide_eq_false_iff_not]
  intro hhead
  obtain ⟨rest, rfl⟩ := List.head?_eq_some_iff.mp hhead
  have hsplit := List.splitOn_append_cons_self (a := sep) [] rest
  exact (h [] (by rw [List.nil_append] at hsplit; simp [hsplit])).nonempty rfl

theorem Plain.start {path : List α} (h : Plain sep dot path) :
    ¬ (path = [dot] ∨ [dot, sep] <+: path) := by
  have hdot : ∀ rest, path = dot :: rest → sep ∉ [dot] := by
    rintro rest rfl hmem
    have hrelative := h.relative
    simp [isAbsolute, List.mem_singleton.mp hmem] at hrelative
  rintro (rfl | ⟨rest, rfl⟩)
  · exact (h [dot] (by simp [List.splitOn_eq_singleton (hdot [] rfl)])).current rfl
  · have hsplit := List.splitOn_append_cons_self (a := sep) [dot] rest
    rw [List.splitOn_eq_singleton (hdot (sep :: rest) rfl)] at hsplit
    exact (h [dot] (by simpa using hsplit ▸ List.mem_cons_self)).current rfl

theorem Plain.lenBeforeBody {path : List α} (h : Plain sep dot path) :
    lenBeforeBody sep dot path = 0 := by
  refine if_neg fun hstart => ?_
  rcases hstart with habsolute | hstart
  · rw [h.relative] at habsolute
    cases habsolute
  · exact h.start hstart

/-- The components of a plain path are all that is between its separators. -/
theorem Plain.components {path : List α} (h : Plain sep dot path) :
    components sep dot path = path.splitOn sep := by
  refine List.filter_eq_self.mpr fun component hmem => ?_
  simp [isSkipped, (h component hmem).nonempty, (h component hmem).current]

theorem Plain.pathComponents {path : List α} (h : Plain sep dot path) :
    pathComponents sep dot path = (path.splitOn sep).map .normal := by
  rw [UnixPath.pathComponents, h.relative, if_neg Bool.false_ne_true, if_neg h.start,
    List.nil_append, h.components]
  exact List.map_congr_left fun name hname => if_neg (h name hname).parent

/-- A plain path is a name, or one after a plain path. -/
theorem Plain.cases {path : List α} (h : Plain sep dot path) :
    Normal sep dot path ∨ ∃ front name, path = front ++ sep :: name ∧ Plain sep dot front
      ∧ Normal sep dot name := by
  rcases body_eq sep path with ⟨-, hlast⟩ | hcut
  · have hsep : sep ∉ path := hlast ▸ sep_notMem_lastComponent sep path
    exact .inl (h path (by simp [List.splitOn_eq_singleton hsep]))
  · have hsplit : path.splitOn sep
        = (beforeComponent sep path).splitOn sep ++ [lastComponent sep path] := by
      nth_rewrite 1 [hcut]
      rw [List.splitOn_append_cons_self,
        List.splitOn_eq_singleton (sep_notMem_lastComponent sep path)]
    refine .inr ⟨_, _, hcut, fun component hmem => h component ?_, h _ ?_⟩
    · rw [hsplit]
      exact List.mem_append_left _ hmem
    · rw [hsplit]
      simp

theorem lastComponent_cons (front : List α) (hname : sep ∉ name) :
    lastComponent sep (front ++ sep :: name) = name := by
  have hlast : lastComponent sep (front ++ [sep] ++ name) = name :=
    lastComponent_append hname (.inr (by simp))
  rwa [List.append_assoc, List.singleton_append] at hlast

theorem Plain.trimmed {path : List α} (h : Plain sep dot path) : trimmed sep dot path = path := by
  have hlast : isSkipped dot (lastComponent sep path) = false := by
    have hnormal : Normal sep dot (lastComponent sep path) := by
      rcases h.cases with hname | ⟨front, name, rfl, -, hname⟩
      · have hlast : lastComponent sep ([] ++ path) = path :=
          lastComponent_append hname.separator (.inl rfl)
        rw [List.nil_append] at hlast
        rwa [hlast]
      · rwa [lastComponent_cons front hname.separator]
    simp [isSkipped, hnormal.nonempty, hnormal.current]
  unfold UnixPath.trimmed
  cases path.length with
  | zero => rfl
  | succ n => simp [trimRight, h.lenBeforeBody, hlast]

/-- **A plain path after a plain path**: its name and its parent. -/
theorem parent_plain {front : List α} (hplain : Plain sep dot (front ++ sep :: name))
    (hfront : Plain sep dot front) (hname : Normal sep dot name) :
    parent sep dot (front ++ sep :: name) = some front := by
  have hbefore : beforeComponent sep (front ++ sep :: name) = front := by
    rcases body_eq sep (front ++ sep :: name) with ⟨-, hlast⟩ | hcut
    · exact absurd (hlast ▸ sep_notMem_lastComponent sep _) (by simp)
    · rw [lastComponent_cons front hname.separator] at hcut
      exact (List.append_cancel_right hcut).symm
  simp [parent, hplain.trimmed, hplain.lenBeforeBody, hbefore, hfront.trimmed]

theorem parent_name (hname : Normal sep dot name) : parent sep dot name = some [] := by
  have hplain : Plain sep dot name := by
    intro component hmem
    rw [List.splitOn_eq_singleton hname.separator, List.mem_singleton] at hmem
    rwa [hmem]
  have hbefore : beforeComponent sep name = [] := by
    rcases body_eq sep name with ⟨hbefore, -⟩ | hcut
    · exact hbefore
    · exact absurd (hcut ▸ hname.separator) (by simp)
  have hempty : trimmed sep dot [] = [] := rfl
  simp [parent, hplain.trimmed, hplain.lenBeforeBody, hbefore, hname.nonempty, hempty]

end

/-! ### Text -/

/-- `str::from_utf8`. -/
def fromUtf8 (bytes : List UInt8) : Option (List Char) :=
  bytes.toByteArray.utf8Decode?.map Array.toList

theorem fromUtf8_eq_some {bytes : List UInt8} {text : List Char} :
    fromUtf8 bytes = some text ↔ bytes = text.flatMap String.utf8EncodeChar := by
  have hencode : ∀ text : List Char,
      text.utf8Encode = (text.flatMap String.utf8EncodeChar).toByteArray :=
    fun _ => rfl
  constructor
  · intro h
    obtain ⟨chars, hchars, rfl⟩ := Option.map_eq_some_iff.mp h
    have hget :=
      ByteArray.utf8Encode_get_utf8Decode? (b := bytes.toByteArray) (h := by simp [hchars])
    simp only [hchars, Option.get_some, hencode] at hget
    simpa using congrArg (fun b : ByteArray => b.data.toList) hget.symm
  · rintro rfl
    rw [fromUtf8, ← hencode, List.utf8Decode?_utf8Encode, Option.map_some]

/-- A byte of ASCII is in the encoding of its own character only. -/
theorem toNat_of_mem_utf8EncodeChar {b : UInt8} {c : Char} (hb : b.toNat < 128)
    (h : b ∈ String.utf8EncodeChar c) : String.utf8EncodeChar c = [b] ∧ c.toNat = b.toNat := by
  have hbyte : ∀ n, 128 ≤ n % 256 → b ≠ UInt8.ofNat n := by
    rintro n hn rfl
    rw [UInt8.toNat_ofNat'] at hb
    omega
  unfold String.utf8EncodeChar at h ⊢
  dsimp only at h ⊢
  split_ifs at h ⊢ with hascii
  · obtain rfl := List.mem_singleton.mp h
    refine ⟨rfl, ?_⟩
    rw [UInt8.toNat_ofNat', Nat.mod_eq_of_lt (by omega)]
    rfl
  · simp only [List.mem_cons, List.not_mem_nil, or_false] at h
    rcases h with h | h <;> exact absurd h (hbyte _ (by omega))
  · simp only [List.mem_cons, List.not_mem_nil, or_false] at h
    rcases h with h | h | h <;> exact absurd h (hbyte _ (by omega))
  · simp only [List.mem_cons, List.not_mem_nil, or_false] at h
    rcases h with h | h | h | h <;> exact absurd h (hbyte _ (by omega))

/-- **A text is cut where a byte of ASCII is.** -/
theorem bytes_split {b : UInt8} (hb : b.toNat < 128) :
    ∀ {text : List Char} {before after : List UInt8},
      text.flatMap String.utf8EncodeChar = before ++ b :: after →
      ∃ text₁ c text₂, text = text₁ ++ c :: text₂ ∧ c.toNat = b.toNat
        ∧ text₁.flatMap String.utf8EncodeChar = before ∧ text₂.flatMap String.utf8EncodeChar = after
  | [], before, after, h => by simp at h
  | c :: text, before, after, h => by
    rw [List.flatMap_cons] at h
    rcases List.append_eq_append_iff.mp h with ⟨rest, hbefore, hrest⟩ | ⟨rest, hchar, hrest⟩
    · obtain ⟨text₁, d, text₂, rfl, hd, rfl, rfl⟩ := bytes_split hb hrest
      exact ⟨c :: text₁, d, text₂, rfl, hd, by rw [List.flatMap_cons, hbefore], rfl⟩
    · cases rest with
      | nil =>
        have hrest' : text.flatMap String.utf8EncodeChar = [] ++ b :: after := hrest.symm
        obtain ⟨text₁, d, text₂, rfl, hd, htext₁, rfl⟩ := bytes_split hb hrest'
        refine ⟨c :: text₁, d, text₂, rfl, hd, ?_, rfl⟩
        rw [List.flatMap_cons, htext₁, hchar, List.append_nil, List.append_nil]
      | cons b' rest =>
        obtain ⟨rfl, rfl⟩ := List.cons.inj hrest
        obtain ⟨hsingle, hc⟩ := toNat_of_mem_utf8EncodeChar hb (c := c) (by rw [hchar]; simp)
        rw [hsingle] at hchar
        obtain ⟨rfl, rfl⟩ : before = [] ∧ rest = [] := by
          cases before with
          | nil => simpa using hchar.symm
          | cons x before => simp at hchar
        exact ⟨[], c, text, rfl, hc, rfl, rfl⟩

/-- A text whose bytes are a path that ends with a name ends with a name itself. -/
theorem exists_name_of_bytes {text : List Char} {path name : List UInt8} (hname : Normal 47 46 name)
    (hpath : path = [] ∨ path.getLast? = some 47)
    (h : text.flatMap String.utf8EncodeChar = path ++ name) :
    ∃ path' name', text = path' ++ name' ∧ Normal '/' '.' name'
      ∧ (path' = [] ∨ path'.getLast? = some '/') := by
  have hnormal : ∀ name' : List Char, name'.flatMap String.utf8EncodeChar = name →
      Normal '/' '.' name' := by
    rintro name' rfl
    refine ⟨?_, fun hmem => ?_, ?_, ?_⟩
    · rintro rfl
      exact hname.nonempty rfl
    · exact hname.separator (List.mem_flatMap.mpr ⟨'/', hmem, by decide⟩)
    · rintro rfl
      exact hname.current (by decide)
    · rintro rfl
      exact hname.parent (by decide)
  rcases hpath with rfl | hlast
  · exact ⟨[], text, rfl, hnormal text h, .inl rfl⟩
  · obtain ⟨directory, rfl⟩ := List.getLast?_eq_some_iff.mp hlast
    rw [List.append_assoc] at h
    obtain ⟨text₁, c, text₂, rfl, hc, -, htext₂⟩ := bytes_split (by decide) h
    obtain rfl : c = '/' := Char.toNat_inj.mp hc
    exact ⟨text₁ ++ ['/'], text₂, by simp, hnormal text₂ htext₂, by simp⟩

theorem utf8_injective : Function.Injective fun text : List Char =>
    text.flatMap String.utf8EncodeChar := by
  intro text text' h
  have htext : fromUtf8 (text.flatMap String.utf8EncodeChar) = some text := fromUtf8_eq_some.mpr rfl
  have htext' : fromUtf8 (text.flatMap String.utf8EncodeChar) = some text' := fromUtf8_eq_some.mpr h
  exact Option.some.inj (htext.symm.trans htext')

theorem splitOn_append_of_notMem {sep : α} : ∀ {front : List α} (path : List α), sep ∉ front →
    (front ++ path).splitOn sep = (path.splitOn sep).modifyHead (front ++ ·)
  | [], path, _ => by
    have hid : (fun component : List α => [] ++ component) = id := rfl
    rw [List.nil_append, hid, List.modifyHead_id]
    rfl
  | a :: front, path, h => by
    have ha : ¬ (a == sep) = true := fun heq => h (by simp [beq_iff_eq.mp heq])
    have hfront : sep ∉ front := fun hmem => h (List.mem_cons_of_mem a hmem)
    rw [List.cons_append, List.splitOn_cons_eq_if_modifyHead, if_neg ha,
      splitOn_append_of_notMem path hfront, List.modifyHead_modifyHead]
    rfl

/-- **A text is split where its bytes are**, at a character of ASCII. -/
theorem splitOn_utf8 : ∀ text : List Char, (text.flatMap String.utf8EncodeChar).splitOn 47
    = (text.splitOn '/').map fun component => component.flatMap String.utf8EncodeChar
  | [] => rfl
  | c :: text => by
    have ih := splitOn_utf8 text
    rw [List.flatMap_cons, List.splitOn_cons_eq_if_modifyHead]
    split_ifs with hc
    · obtain rfl := beq_iff_eq.mp hc
      have hslash : String.utf8EncodeChar '/' = [47] := by decide
      have hsplit :=
        List.splitOn_append_cons_self (a := (47 : UInt8)) [] (text.flatMap String.utf8EncodeChar)
      rw [hslash, List.singleton_append, ← List.nil_append (47 :: _), hsplit, ih]
      rfl
    · have hnot : (47 : UInt8) ∉ String.utf8EncodeChar c := by
        intro hmem
        obtain ⟨-, hchar⟩ := toNat_of_mem_utf8EncodeChar (by decide) hmem
        exact hc (beq_iff_eq.mpr (Char.toNat_inj.mp hchar))
      rw [splitOn_append_of_notMem _ hnot, ih]
      rcases text.splitOn '/' with _ | ⟨first, rest⟩
      · rfl
      · simp [List.flatMap_cons]

end Sporos.Lib.UnixPath
