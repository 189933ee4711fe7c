import Mathlib.Tactic
import Sporos.Lib.UnixPath

/-! # Trees of files

A file system is a tree of directories, symbolic links and regular files; a regular file is an inode
of a device, and a directory lies on a device. The calls are those of Linux: `openat2` with
`RESOLVE_NO_SYMLINKS` and `O_NOFOLLOW`, `mkdirat` and `linkat` with one name. An open directory is
its place in the tree, which it keeps because nothing is moved.

`Grows allowed` says what a program may have done to a tree: nothing is removed or replaced, what is
new is allowed, and no file is new. What opens keeps opening as the tree grows (`openat2_mono`). -/

namespace Sporos.Lib.FileTree

open Sporos.Lib.UnixPath

/-- The name of an entry of a directory. -/
abbrev Name := List UInt8

/-- A place in the tree: the names on the way from its root. -/
abbrev Place := List Name

/-- The errors of the calls. -/
inductive Errno where
  | noent | notdir | loop | exist | xdev | inval | nametoolong
  deriving DecidableEq

/-- What stands at a place: a directory, the link of a file, or a symbolic link. -/
inductive Entry where
  | directory (device : ℕ)
  | regular (device inode : ℕ)
  | symlink
  deriving DecidableEq

/-- `NAME_MAX`. -/
def nameMax : ℕ := 255
/-- `PATH_MAX`. -/
def pathMax : ℕ := 4096

/-- A name that an entry can have. -/
structure Valid (name : Name) : Prop where
  normal : Normal 47 46 name
  nul : 0 ∉ name
  short : name.length ≤ nameMax

instance (name : Name) : Decidable (Valid name) :=
  decidable_of_iff (Normal 47 46 name ∧ 0 ∉ name ∧ name.length ≤ nameMax)
    ⟨fun h => ⟨h.1, h.2.1, h.2.2⟩, fun h => ⟨h.1, h.2, h.3⟩⟩

/-- A tree of entries, with the content of the file of each device and inode. -/
structure Tree where
  entry : Place → Option Entry
  content : ℕ → ℕ → List UInt8
  root : ∃ device, entry [] = some (.directory device)
  parents : ∀ place name, (entry (place ++ [name])).isSome → ∃ device,
    entry place = some (.directory device)
  names : ∀ place, (entry place).isSome → ∀ name ∈ place, Valid name

namespace Tree

variable (tree : Tree)

/-- The size of a file. -/
def size (device inode : ℕ) : ℕ := (tree.content device inode).length

/-- The tree with a new entry. -/
def insert (directory : Place) (name : Name) (new : Entry)
    (hdirectory : ∃ device, tree.entry directory = some (.directory device)) (hname : Valid name)
    (hfree : tree.entry (directory ++ [name]) = none) : Tree where
  entry place := if place = directory ++ [name] then some new else tree.entry place
  content := tree.content
  root := by simpa using tree.root
  parents place name' h := by
    split_ifs at h with heq
    · obtain ⟨rfl, -⟩ := List.append_inj' heq rfl
      simpa using hdirectory
    · obtain ⟨device, hdevice⟩ := tree.parents place name' h
      refine ⟨device, ?_⟩
      rw [if_neg, hdevice]
      rintro rfl
      rw [hdevice] at hfree
      cases hfree
  names place h name' hname' := by
    split_ifs at h with heq
    · subst heq
      rcases List.mem_append.mp hname' with hmem | hmem
      · obtain ⟨device, hdevice⟩ := hdirectory
        exact tree.names directory (by simp [hdevice]) name' hmem
      · rwa [List.mem_singleton.mp hmem]
    · exact tree.names place h name' hname'

/-! ### The calls -/

/-- Where a component leads from a directory; `scope` is the directory that a `..` may not leave. -/
def target (scope : Option Place) (directory : Place) (component : Name) : Except Errno Place :=
  if component = [46] then .ok directory
  else if component = [46, 46] then
    if scope = some directory then .error .xdev else .ok directory.dropLast
  else if nameMax < component.length then .error .nametoolong
  else .ok (directory ++ [component])

/-- Look a component up. -/
def step (scope : Option Place) (directory : Place) (component : Name) :
    Except Errno (Place × Entry) :=
  match target scope directory component with
  | .error errno => .error errno
  | .ok place =>
    match tree.entry place with
    | none => .error .noent
    | some entry => .ok (place, entry)

/-- Look up a component that others follow: it is a directory, and no symbolic link is followed. -/
def enter (scope : Option Place) (directory : Place) (component : Name) : Except Errno Place :=
  match tree.step scope directory component with
  | .error errno => .error errno
  | .ok (place, .directory _) => .ok place
  | .ok (_, .regular _ _) => .error .notdir
  | .ok (_, .symlink) => .error .loop

/-- Look components up one after the other. -/
def walk (scope : Option Place) : Place → List Name → Except Errno (Place × Entry)
  | directory, [] => tree.step scope directory [46]
  | directory, [component] => tree.step scope directory component
  | directory, component :: next :: rest =>
    match tree.enter scope directory component with
    | .error errno => .error errno
    | .ok place => walk scope place (next :: rest)

/-- The components of a path as the kernel walks them. What is before a final separator is a
directory. -/
def walked (path : List UInt8) : List Name :=
  (path.splitOn 47).filter (· ≠ []) ++ if path.getLast? = some 47 then [[46]] else []

/-- The flags of `openat2`: `O_DIRECTORY`, and `O_PATH` without it; `RESOLVE_BENEATH`. Always
`RESOLVE_NO_SYMLINKS` and `O_NOFOLLOW`. -/
structure How where
  directory : Bool
  beneath : Bool

/-- `openat2`: the place and the entry to which a path leads from a directory. -/
def openat2 (how : How) (directory : Place) (path : List UInt8) : Except Errno (Place × Entry) :=
  if 0 ∈ path then .error .inval
  else if path = [] then .error .noent
  else if pathMax ≤ path.length then .error .nametoolong
  else if how.beneath ∧ isAbsolute 47 path then .error .xdev
  else
    let start := if isAbsolute 47 path then [] else directory
    match tree.walk (if how.beneath then some start else none) start (walked path) with
    | .error errno => .error errno
    | .ok (place, .directory device) => .ok (place, .directory device)
    | .ok (place, entry) => if how.directory then .error .notdir else .ok (place, entry)

/-- The error of a call that makes an entry of an invalid name. -/
def nameErrno (name : Name) : Errno :=
  if 0 ∈ name then .inval
  else if name = [46] ∨ name = [46, 46] then .exist
  else if nameMax < name.length then .nametoolong
  else .noent

/-- Make the entry of a name in a directory, on the device of the directory. -/
def create (directory : Place) (name : Name) (make : ℕ → Except Errno Entry) : Except Errno Tree :=
  match hdirectory : tree.entry directory with
  | some (.directory device) =>
    if hname : Valid name then
      if hfree : tree.entry (directory ++ [name]) = none then
        (make device).map fun new => tree.insert directory name new ⟨device, hdirectory⟩ hname hfree
      else .error .exist
    else .error (nameErrno name)
  | _ => .error .notdir

/-- `mkdirat`: a directory on the device of its parent. -/
def mkdirat (directory : Place) (name : Name) : Except Errno Tree :=
  tree.create directory name fun device => .ok (.directory device)

/-- `linkat` of an open file with `AT_EMPTY_PATH`. -/
def linkat (device inode : ℕ) (directory : Place) (name : Name) : Except Errno Tree :=
  tree.create directory name fun device' =>
    if device = device' then .ok (.regular device inode) else .error .xdev

end Tree

/-! ### Growing trees -/

/-- What a program may have done to a tree: what there was is there, what is new is allowed, and
every file was somewhere before. -/
structure Grows (allowed : Place → Entry → Prop) (tree tree' : Tree) : Prop where
  contents : tree'.content = tree.content
  keeps : ∀ {place entry}, tree.entry place = some entry → tree'.entry place = some entry
  adds : ∀ {place entry}, tree.entry place = none → tree'.entry place = some entry →
    allowed place entry
  files : ∀ {place device inode}, tree'.entry place = some (.regular device inode) →
    ∃ source, tree.entry source = some (.regular device inode)

variable {allowed allowed' : Place → Entry → Prop} {tree tree' tree'' : Tree}

theorem Grows.refl (allowed : Place → Entry → Prop) (tree : Tree) : Grows allowed tree tree where
  contents := rfl
  keeps := id
  adds hnone hsome := by simp [hnone] at hsome
  files h := ⟨_, h⟩

theorem Grows.trans (allowed : Place → Entry → Prop) (tree tree' tree'' : Tree)
    (h : Grows allowed tree tree') (h' : Grows allowed tree' tree'') :
      Grows allowed tree tree'' where
  contents := h'.contents.trans h.contents
  keeps hentry := h'.keeps (h.keeps hentry)
  adds := by
    intro place entry hnone hsome
    rcases hmiddle : tree'.entry place with _ | middle
    · exact h'.adds hmiddle hsome
    · obtain rfl : middle = entry := Option.some.inj ((h'.keeps hmiddle).symm.trans hsome)
      exact h.adds hnone hmiddle
  files hfile := by
    obtain ⟨source, hsource⟩ := h'.files hfile
    exact h.files hsource

theorem Grows.mono (h : Grows allowed tree tree')
    (himp : ∀ place entry, allowed place entry → allowed' place entry) :
      Grows allowed' tree tree' where
  contents := h.contents
  keeps := h.keeps
  adds hnone hsome := himp _ _ (h.adds hnone hsome)
  files := h.files

theorem Grows.sizes (h : Grows allowed tree tree') : tree'.size = tree.size := by
  funext device inode
  rw [Tree.size, h.contents, Tree.size]

namespace Tree

variable {scope : Option Place} {directory place : Place} {name : Name} {entry : Entry}

/-- Everything above an entry is a directory. -/
theorem directory_of_entry : ∀ {rest : List Name}, (tree.entry (place ++ rest)).isSome → rest ≠ [] →
    ∃ device, tree.entry place = some (.directory device) := by
  intro rest
  induction rest using List.reverseRecOn with
  | nil => exact fun _ h => absurd rfl h
  | append_singleton rest name ih =>
    intro h _
    rw [← List.append_assoc] at h
    obtain ⟨device, hdevice⟩ := tree.parents (place ++ rest) name h
    by_cases hrest : rest = []
    · subst hrest
      exact ⟨device, by simpa using hdevice⟩
    · exact ih (by simp [hdevice]) hrest

theorem step_eq_ok {component : Name} : tree.step scope directory component = .ok (place, entry) ↔
    target scope directory component = .ok place ∧ tree.entry place = some entry := by
  unfold step
  constructor
  · intro h
    split at h
    · cases h
    · rename_i place' htarget
      split at h
      · cases h
      · rename_i entry' hentry
        obtain ⟨rfl, rfl⟩ := Prod.mk.inj (Except.ok.inj h)
        exact ⟨htarget, hentry⟩
  · rintro ⟨htarget, hentry⟩
    simp [htarget, hentry]

theorem enter_eq_ok {component : Name} : tree.enter scope directory component = .ok place ↔
    ∃ device, tree.step scope directory component = .ok (place, .directory device) := by
  unfold enter
  constructor
  · intro h
    split at h
    · cases h
    · rename_i place' device hstep
      obtain rfl := Except.ok.inj h
      exact ⟨device, hstep⟩
    · cases h
    · cases h
  · rintro ⟨device, hstep⟩
    simp [hstep]

theorem walk_cons_cons {component next : Name} {rest : List Name} :
    tree.walk scope directory (component :: next :: rest) = .ok (place, entry) ↔
      ∃ middle, tree.enter scope directory component = .ok middle
        ∧ tree.walk scope middle (next :: rest) = .ok (place, entry) := by
  rw [walk]
  cases tree.enter scope directory component <;> simp

theorem entry_of_walk : ∀ {components : List Name} {directory : Place},
    tree.walk scope directory components = .ok (place, entry) → tree.entry place = some entry
  | [], _, h => (step_eq_ok.mp h).2
  | [_], _, h => (step_eq_ok.mp h).2
  | _ :: _ :: _, _, h => by
    obtain ⟨_, -, hrest⟩ := walk_cons_cons.mp h
    exact entry_of_walk hrest

theorem openat2_eq_ok {how : How} {path : List UInt8} :
    tree.openat2 how directory path = .ok (place, entry) ↔
      (0 ∉ path ∧ path ≠ [] ∧ path.length < pathMax
        ∧ ¬ (how.beneath = true ∧ isAbsolute 47 path = true))
      ∧ tree.walk (if how.beneath then some (if isAbsolute 47 path then []
        else directory) else none)
          (if isAbsolute 47 path then [] else directory) (walked path) = .ok (place, entry)
      ∧ (how.directory = true → ∃ device, entry = .directory device) := by
  unfold openat2
  by_cases hnul : 0 ∈ path
  · simp [hnul]
  by_cases hempty : path = []
  · simp [hempty]
  by_cases hlong : pathMax ≤ path.length
  · simp [hnul, hempty, hlong, Nat.not_lt.mpr hlong]
  by_cases habsolute : how.beneath = true ∧ isAbsolute 47 path = true
  · simp [hnul, hempty, hlong, habsolute]
  rw [if_neg hnul, if_neg hempty, if_neg hlong, if_neg habsolute]
  refine ⟨fun h => ⟨⟨hnul, hempty, Nat.not_le.mp hlong, habsolute⟩, ?_⟩, ?_⟩
  · dsimp only at h
    split at h
    · cases h
    · rename_i hwalk
      obtain ⟨rfl, rfl⟩ := Prod.mk.inj (Except.ok.inj h)
      exact ⟨hwalk, fun _ => ⟨_, rfl⟩⟩
    · rename_i hwalk
      split_ifs at h with hdirectory
      obtain ⟨rfl, rfl⟩ := Prod.mk.inj (Except.ok.inj h)
      exact ⟨hwalk, fun h => absurd h hdirectory⟩
  · rintro ⟨-, hwalk, hkind⟩
    simp only [hwalk]
    cases entry with
    | directory device => rfl
    | regular device inode =>
      refine if_neg fun h => ?_
      obtain ⟨device', hentry⟩ := hkind h
      cases hentry
    | symlink =>
      refine if_neg fun h => ?_
      obtain ⟨device', hentry⟩ := hkind h
      cases hentry

/-! ### What opens keeps opening -/

theorem step_mono (h : Grows allowed tree tree') {component : Name}
    (hstep : tree.step scope directory component = .ok (place, entry)) :
    tree'.step scope directory component = .ok (place, entry) := by
  obtain ⟨htarget, hentry⟩ := step_eq_ok.mp hstep
  exact step_eq_ok.mpr ⟨htarget, h.keeps hentry⟩

theorem walk_mono (h : Grows allowed tree tree') : ∀ {components : List Name} {directory : Place},
    tree.walk scope directory components = .ok (place, entry) →
      tree'.walk scope directory components = .ok (place, entry)
  | [], _, hwalk => step_mono h hwalk
  | [_], _, hwalk => step_mono h hwalk
  | component :: next :: rest, directory, hwalk => by
    obtain ⟨middle, henter, hrest⟩ := walk_cons_cons.mp hwalk
    obtain ⟨device, hstep⟩ := enter_eq_ok.mp henter
    exact walk_cons_cons.mpr ⟨middle, enter_eq_ok.mpr ⟨device, step_mono h hstep⟩,
      walk_mono h hrest⟩

/-- **What opens keeps opening**, at the same place. -/
theorem openat2_mono (h : Grows allowed tree tree') {how : How} {path : List UInt8}
    (hopen : tree.openat2 how directory path = .ok (place, entry)) :
    tree'.openat2 how directory path = .ok (place, entry) := by
  obtain ⟨hpath, hwalk, hkind⟩ := openat2_eq_ok.mp hopen
  exact openat2_eq_ok.mpr ⟨hpath, walk_mono h hwalk, hkind⟩

/-! ### Names -/

theorem target_name (hname : Valid name) :
    target scope directory name = .ok (directory ++ [name]) := by
  have hlong : ¬ nameMax < name.length := Nat.not_lt.mpr hname.short
  simp [target, hname.normal.current, hname.normal.parent, hlong]

theorem valid_of_entry (h : tree.entry (directory ++ [name]) = some entry) : Valid name :=
  tree.names (directory ++ [name]) (by simp [h]) name (by simp)

theorem step_name (h : tree.entry (directory ++ [name]) = some entry) :
    tree.step scope directory name = .ok (directory ++ [name], entry) :=
  step_eq_ok.mpr ⟨target_name (valid_of_entry h), h⟩

/-- **An entry is found by its names**: everything on the way is a directory. -/
theorem walk_names : ∀ {names : List Name} {directory : Place}, names ≠ [] →
    tree.entry (directory ++ names) = some entry →
      tree.walk scope directory names = .ok (directory ++ names, entry)
  | [], _, hne, _ => absurd rfl hne
  | [name], _, _, h => step_name h
  | name :: next :: rest, directory, _, h => by
    have hsplit : directory ++ name :: next :: rest = (directory ++ [name]) ++ next :: rest := by
      simp
    rw [hsplit] at h ⊢
    have hsome : (tree.entry (directory ++ [name] ++ next :: rest)).isSome = true := by
      rw [h, Option.isSome_some]
    obtain ⟨device, hdevice⟩ := directory_of_entry hsome (by simp)
    exact walk_cons_cons.mpr
      ⟨_, enter_eq_ok.mpr ⟨device, step_name hdevice⟩, walk_names (by simp) h⟩

theorem walked_name (hname : Normal 47 46 name) : walked name = [name] := by
  have hlast : name.getLast? ≠ some 47 := fun h => hname.separator (List.mem_of_getLast? h)
  simp [walked, List.splitOn_eq_singleton hname.separator, hname.nonempty, hlast]

theorem isAbsolute_name (hname : Normal 47 46 name) : isAbsolute 47 name = false := by
  have hhead : name.head? ≠ some 47 := fun h => hname.separator (List.mem_of_head? h)
  simp [isAbsolute, hhead]

/-- Opening a name finds its entry. -/
theorem openat2_name {how : How} (hname : Normal 47 46 name) :
    tree.openat2 how directory name = .ok (place, entry) ↔
      place = directory ++ [name] ∧ tree.entry place = some entry
        ∧ (how.directory = true → ∃ device, entry = .directory device) := by
  rw [openat2_eq_ok, walked_name hname, isAbsolute_name hname]
  simp only [Bool.false_eq_true, if_false]
  constructor
  · rintro ⟨⟨hnul, -⟩, hwalk, hkind⟩
    obtain ⟨htarget, hentry⟩ := step_eq_ok.mp hwalk
    simp only [target, hname.current, hname.parent, if_false] at htarget
    split_ifs at htarget
    obtain rfl := Except.ok.inj htarget
    exact ⟨rfl, hentry, hkind⟩
  · rintro ⟨rfl, hentry, hkind⟩
    have hvalid := valid_of_entry hentry
    have hshort : name.length < pathMax := lt_of_le_of_lt hvalid.short (by decide)
    exact ⟨⟨hvalid.nul, hname.nonempty, hshort, by simp⟩, step_name hentry, hkind⟩

/-- Opening `.` gives the directory again. -/
theorem openat2_current {how : How} :
    tree.openat2 how directory [46] = .ok (place, entry) ↔
      place = directory ∧ tree.entry place = some entry
        ∧ (how.directory = true → ∃ device, entry = .directory device) := by
  have hwalk : ∀ scope, tree.walk scope directory [[46]] = .ok (place, entry) ↔
      place = directory ∧ tree.entry place = some entry := by
    intro scope
    refine step_eq_ok.trans ?_
    simp [target, eq_comm]
  have hwalked : walked [46] = [[46]] := by decide
  have habsolute : isAbsolute (47 : UInt8) [46] = false := by decide
  rw [openat2_eq_ok, hwalked, habsolute]
  simp [hwalk, pathMax, and_assoc]

/-! ### New entries -/

theorem create_eq_ok {make : ℕ → Except Errno Entry}
    (h : tree.create directory name make = .ok tree') :
    ∃ device new, tree.entry directory = some (.directory device) ∧ Valid name
      ∧ tree.entry (directory ++ [name]) = none ∧ make device = .ok new
      ∧ tree'.content = tree.content
      ∧ ∀ place, tree'.entry place = if place = directory ++ [name] then some new
        else tree.entry place := by
  unfold create at h
  split at h
  · rename_i device hdirectory
    split_ifs at h with hname hfree
    rcases hmake : make device with errno | new
    · simp [hmake, Except.map] at h
    · rw [hmake] at h
      obtain rfl := Except.ok.inj h
      exact ⟨device, new, hdirectory, hname, hfree, hmake, rfl, fun _ => rfl⟩
  · cases h

/-- A name that is taken is not made again. -/
theorem create_of_entry {make : ℕ → Except Errno Entry}
    (h : tree.entry (directory ++ [name]) = some entry) :
      tree.create directory name make = .error .exist := by
  obtain ⟨device, hdevice⟩ := tree.parents directory name (by simp [h])
  unfold create
  split
  · rw [dif_pos (valid_of_entry h), dif_neg (by simp [h])]
  · rename_i hother
    exact absurd hdevice (hother device)

/-- Why nothing is made where nothing is. -/
theorem create_eq_error {make : ℕ → Except Errno Entry} {errno : Errno} {device : ℕ}
    (hdirectory : tree.entry directory = some (.directory device))
    (hfree : tree.entry (directory ++ [name]) = none)
    (h : tree.create directory name make = .error errno) :
    ¬ Valid name ∧ errno = nameErrno name ∨ make device = .error errno := by
  unfold create at h
  split at h
  · rename_i device' hdirectory'
    obtain rfl : device' = device := by
      rw [hdirectory] at hdirectory'
      exact (Entry.directory.inj (Option.some.inj hdirectory')).symm
    split_ifs at h with hname
    · rcases hmake : make device' with errno' | new
      · rw [hmake] at h
        exact .inr (congrArg Except.error (Except.error.inj h))
      · simp [hmake, Except.map] at h
    · exact .inl ⟨hname, (Except.error.inj h).symm⟩
  · rename_i hother
    exact absurd hdirectory (hother device)

/-- A new entry that is a directory or another link of a file. -/
theorem grows_create {make : ℕ → Except Errno Entry}
    (h : tree.create directory name make = .ok tree')
    (hallowed : ∀ device new, make device = .ok new → allowed (directory ++ [name]) new)
    (hfile : ∀ device device' inode, make device = .ok (.regular device' inode) →
      ∃ source, tree.entry source = some (.regular device' inode)) : Grows allowed tree tree' := by
  obtain ⟨device, new, -, -, hfree, hmake, hcontents, hentry⟩ := create_eq_ok h
  refine ⟨hcontents, ?_, ?_, ?_⟩
  · intro place entry hsome
    rw [hentry, if_neg, hsome]
    rintro rfl
    rw [hfree] at hsome
    cases hsome
  · intro place entry hnone hsome
    rw [hentry] at hsome
    split_ifs at hsome with hplace
    · obtain rfl := Option.some.inj hsome
      rw [hplace]
      exact hallowed device new hmake
    · rw [hnone] at hsome
      cases hsome
  · intro place device' inode hsome
    rw [hentry] at hsome
    split_ifs at hsome with hplace
    · obtain rfl := Option.some.inj hsome
      exact hfile device device' inode hmake
    · exact ⟨place, hsome⟩

end Tree

end Sporos.Lib.FileTree
